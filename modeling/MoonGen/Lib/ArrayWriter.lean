import MoonGen.Lib.Bytes

universe u

/-- An array that is filled from the front, beside a state. -/
structure ArrayWriter (σ : Type u) where
  array : List UInt8
  index : Nat
  env : σ

namespace ArrayWriter

variable {σ : Type u}

/-- A store at the index, without a value outside of the array. -/
def put (w : ArrayWriter σ) (x : UInt8) : Option (ArrayWriter σ) :=
  (Bytes.write w.array w.index [x]).map fun array => ⟨array, w.index + 1, w.env⟩

/-- From the state `s` on, `f` fills the next bytes of an array with `xs` and leaves the
state `t`. -/
def Writes (f : ArrayWriter σ → Option (ArrayWriter σ)) (s : σ) (xs : List UInt8) (t : σ) : Prop :=
  ∀ (front : List UInt8) (rest : Nat),
    f ⟨front ++ List.replicate (xs.length + rest) 0, front.length, s⟩ =
      some ⟨front ++ xs ++ List.replicate rest 0, front.length + xs.length, t⟩

variable {f g : ArrayWriter σ → Option (ArrayWriter σ)} {s t u : σ} {xs ys : List UInt8}

theorem writes_nil (s : σ) : Writes some s [] s := by
  intro front rest
  simp

/-- A store of what a step of the state returns. -/
theorem writes_call (call : σ → UInt8 × σ) (s : σ) :
    Writes (fun w => put ⟨w.array, w.index, (call w.env).2⟩ (call w.env).1) s [(call s).1] (call s).2 := by
  intro front rest
  have split : front ++ List.replicate ([(call s).1].length + rest) 0 = front ++ [0] ++ List.replicate rest 0 := by
    rw [List.length_singleton, List.replicate_add, List.append_assoc]
    rfl
  have stored := @Bytes.write_append [0] [(call s).1] rfl front (List.replicate rest 0)
  rw [split]
  exact congrArg (Option.map _) stored

theorem Writes.bind (first : Writes f s xs t) (second : Writes g t ys u) :
    Writes (fun w => (f w).bind g) s (xs ++ ys) u := by
  intro front rest
  have later := second (front ++ xs) rest
  rw [List.length_append] at later
  rw [List.length_append, Nat.add_assoc]
  beta_reduce
  rw [first, Option.bind_some, later, List.append_assoc front, Nat.add_assoc]

theorem Writes.fill (writes : Writes f s xs t) : f ⟨List.replicate xs.length 0, 0, s⟩ = some ⟨xs, xs.length, t⟩ := by
  have whole := writes [] 0
  simpa using whole

end ArrayWriter
