import MoonGen.Lib.Memory

namespace MoonGen

/-- The bytes of a uid, the most significant one first. -/
def separateUid (uid : UInt32) : UInt8 × UInt8 × UInt8 × UInt8 :=
  (((uid >>> 24) &&& 0xff).toUInt8, ((uid >>> 16) &&& 0xff).toUInt8, ((uid >>> 8) &&& 0xff).toUInt8,
    ((uid >>> 0) &&& 0xff).toUInt8)

/-- The `setPayload` that `Flow:prepare` makes for packets of `size` bytes. -/
def setPayload (uid : UInt32) (size : Nat) (bytes : Memory) : Memory :=
  let (p0, p1, p2, p3) := separateUid uid
  (((bytes.set (size - 1) p0).set (size - 2) p1).set (size - 3) p2).set (size - 4) p3

/-- `getUid` of the count thread. The result is the key of the packet's counter. -/
def getUid (bytes : Memory) (length : Nat) : Nat :=
  (bytes (length - 1)).toNat * 0xffffff + (bytes (length - 2)).toNat * 0xffff + (bytes (length - 3)).toNat * 0xff +
    (bytes (length - 4)).toNat

theorem toNat_uidByte (uid : UInt32) (shift : UInt32) (small : shift.toNat < 32) :
    ((uid >>> shift) &&& 0xff).toUInt8.toNat = uid.toNat / 2 ^ shift.toNat % 256 := by
  rw [UInt32.toNat_toUInt8, UInt32.toNat_and, UInt32.toNat_shiftRight, Nat.mod_eq_of_lt small,
    Nat.shiftRight_eq_div_pow]
  change (_ &&& (2 ^ 8 - 1)) % 2 ^ 8 = _
  rw [Nat.and_two_pow_sub_one_eq_mod, Nat.mod_mod]

/-- What the count thread reads of a packet that the load thread has filled. -/
theorem getUid_setPayload (uid : UInt32) {size : Nat} (room : 4 ≤ size) (bytes : Memory) :
    getUid (setPayload uid size bytes) size = uid.toNat / 2 ^ 24 % 256 * 0xffffff + uid.toNat / 2 ^ 16 % 256 * 0xffff +
      uid.toNat / 2 ^ 8 % 256 * 0xff + uid.toNat % 256 := by
  have p0 : setPayload uid size bytes (size - 1) = ((uid >>> 24) &&& 0xff).toUInt8 := by
    simp only [setPayload, separateUid]
    rw [Memory.set_of_ne _ (by omega), Memory.set_of_ne _ (by omega), Memory.set_of_ne _ (by omega), Memory.set_self]
  have p1 : setPayload uid size bytes (size - 2) = ((uid >>> 16) &&& 0xff).toUInt8 := by
    simp only [setPayload, separateUid]
    rw [Memory.set_of_ne _ (by omega), Memory.set_of_ne _ (by omega), Memory.set_self]
  have p2 : setPayload uid size bytes (size - 3) = ((uid >>> 8) &&& 0xff).toUInt8 := by
    simp only [setPayload, separateUid]
    rw [Memory.set_of_ne _ (by omega), Memory.set_self]
  have p3 : setPayload uid size bytes (size - 4) = ((uid >>> 0) &&& 0xff).toUInt8 := Memory.set_self ..
  rw [getUid, p0, p1, p2, p3, toNat_uidByte _ _ (by decide), toNat_uidByte _ _ (by decide),
    toNat_uidByte _ _ (by decide), toNat_uidByte _ _ (by decide)]
  change _ + uid.toNat / 1 % 256 = _
  rw [Nat.div_one]
  rfl

theorem uid_digits (uid : UInt32) : uid.toNat = uid.toNat / 2 ^ 24 % 256 * 2 ^ 24 + uid.toNat / 2 ^ 16 % 256 * 2 ^ 16 +
    uid.toNat / 2 ^ 8 % 256 * 2 ^ 8 + uid.toNat % 256 := by
  have word := uid.toNat_lt
  omega

/-- The key is too small by the sum of the three upper bytes. -/
theorem key_eq_uid_iff (uid : UInt32) {size : Nat} (room : 4 ≤ size) (bytes : Memory) :
    getUid (setPayload uid size bytes) size = uid.toNat ↔ uid.toNat < 256 := by
  have digits := uid_digits uid
  have last := Nat.mod_lt uid.toNat (show 0 < 256 by decide)
  rw [getUid_setPayload uid room bytes]
  generalize uid.toNat / 2 ^ 24 % 256 = p0 at digits ⊢
  generalize uid.toNat / 2 ^ 16 % 256 = p1 at digits ⊢
  generalize uid.toNat / 2 ^ 8 % 256 = p2 at digits ⊢
  omega

/-- A uid comes back exactly when it fits into one byte. The flows with such uids
are counted apart from each other. -/
theorem flow_uid_round_trip_iff (uid : UInt32) {size : Nat} (room : 4 ≤ size) (bytes : Memory) :
    (getUid (setPayload uid size bytes) size = uid.toNat ↔ uid.toNat < 256) ∧
    ∀ (other : UInt32) (size' : Nat) (bytes' : Memory), 4 ≤ size' → uid.toNat < 256 → other.toNat < 256 →
      getUid (setPayload uid size bytes) size = getUid (setPayload other size' bytes') size' → uid = other := by
  refine ⟨key_eq_uid_iff uid room bytes, fun other size' bytes' room' small small' same => ?_⟩
  rw [(key_eq_uid_iff uid room bytes).mpr small, (key_eq_uid_iff other room' bytes').mpr small'] at same
  exact UInt32.toNat_inj.mp same

theorem flow_uid_round_trip_iff_seven : getUid (setPayload 7 64 fun _ => 0) 64 = 7 := by
  have both := flow_uid_round_trip_iff 7 (show 4 ≤ 64 by decide) fun _ => 0
  exact both.1.mpr (by decide)

/-- The flow with uid 256 is counted as the one with uid 255. -/
theorem flow_uids_collide :
    getUid (setPayload 256 64 fun _ => 0) 64 ≠ 256 ∧
    getUid (setPayload 256 64 fun _ => 0) 64 = getUid (setPayload 255 64 fun _ => 0) 64 := by
  decide

end MoonGen
