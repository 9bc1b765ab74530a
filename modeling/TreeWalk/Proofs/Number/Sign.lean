import Mathlib
import TreeWalk.Number.Decimal

/-! Finite binary64 numbers by sign and magnitude: the two determine the number, and a minus sign
changes the first and keeps the second. -/

namespace TreeWalk

namespace Binary64

open Float.Model Float.Model.UnpackedFloat

variable {b c : BitVec Format.binary64.numBits} {x : Float} {pattern : Nat}

section Fields

theorem toNat_unpackExponent (b : BitVec Format.binary64.numBits) :
    (unpackExponent b).toNat = b.toNat / 2 ^ 52 % 2 ^ 11 := by
  rw [unpackExponent_def, BitVec.extractLsb'_toNat, Nat.shiftRight_eq_div_pow]

theorem toNat_unpackMantissa (b : BitVec Format.binary64.numBits) :
    (unpackMantissa b).toNat = b.toNat % 2 ^ 52 := by
  rw [unpackMantissa_def, BitVec.extractLsb'_toNat, Nat.shiftRight_zero]

theorem toNat_unpackSign (b : BitVec Format.binary64.numBits) :
    (unpackSign b).toNat = b.toNat / 2 ^ 63 % 2 ^ 1 := by
  rw [unpackSign_def, BitVec.extractLsb'_toNat, Nat.shiftRight_eq_div_pow]
  rfl

/-- The exponent of infinities and NaN is all ones. -/
theorem unpackExponent_eq_iff (b : BitVec Format.binary64.numBits) :
    unpackExponent b = -1#11 ↔ infinityPattern ≤ b.toNat % 2 ^ 63 := by
  have hones : (-1#11).toNat = 2047 := by decide
  have hinfinity : infinityPattern = 2047 * 2 ^ 52 := by decide +kernel
  rw [← BitVec.toNat_inj, toNat_unpackExponent, hones, hinfinity]
  omega

theorem isFinite_iff (x : Float) :
    x.isFinite = true ↔ x.toBits.toNat % 2 ^ 63 < infinityPattern := by
  have hexponent : @unpackExponent Format.binary64 x.toBits.toBitVec = -1#11 ↔
      infinityPattern ≤ x.toBits.toNat % 2 ^ 63 := unpackExponent_eq_iff _
  change (UnpackedFloat.unpack Format.binary64 x.toBits.toBitVec).isFinite = true ↔ _
  rw [← Nat.not_le, ← hexponent, UnpackedFloat.unpack]
  by_cases hones : @unpackExponent Format.binary64 x.toBits.toBitVec = -1#11
  · simp only [hones, if_true]
    split_ifs <;> exact ⟨fun h => Bool.noConfusion h, fun h => absurd trivial h⟩
  · simp only [hones, if_false]
    split_ifs <;> exact ⟨fun _ => not_false, fun _ => rfl⟩

/-- Numbers with the same magnitude and opposite signs. -/
theorem unpack_eq_neg (hexponent : unpackExponent c = unpackExponent b)
    (hmantissa : unpackMantissa c = unpackMantissa b)
    (hpositive : unpackSign b = 0#1) (hnegative : unpackSign c = 1#1) :
    UnpackedFloat.unpack Format.binary64 c = (UnpackedFloat.unpack Format.binary64 b).neg := by
  have hsign : Sign.ofBitVec 1#1 = -Sign.ofBitVec 0#1 := rfl
  simp only [UnpackedFloat.unpack, hexponent, hmantissa, hpositive, hnegative, hsign]
  split_ifs <;> rfl

/-- Setting the sign of a word negates the number. -/
theorem unpack_signed (hb : b.toNat < 2 ^ 63) (hc : c.toNat = b.toNat + 2 ^ 63) :
    UnpackedFloat.unpack Format.binary64 c = (UnpackedFloat.unpack Format.binary64 b).neg := by
  have hexponent : unpackExponent c = unpackExponent b := by
    apply BitVec.eq_of_toNat_eq
    rw [toNat_unpackExponent, toNat_unpackExponent]
    omega
  have hmantissa : unpackMantissa c = unpackMantissa b := by
    apply BitVec.eq_of_toNat_eq
    rw [toNat_unpackMantissa, toNat_unpackMantissa]
    omega
  have hpositive : unpackSign b = 0#1 := by
    apply BitVec.eq_of_toNat_eq
    rw [toNat_unpackSign, BitVec.toNat_ofNat]
    omega
  have hnegative : unpackSign c = 1#1 := by
    apply BitVec.eq_of_toNat_eq
    rw [toNat_unpackSign, BitVec.toNat_ofNat]
    omega
  exact unpack_eq_neg hexponent hmantissa hpositive hnegative

/-- A word that is no NaN is kept as it is when it is packed again. -/
theorem pack_unpack_of_le (h : b.toNat % 2 ^ 63 ≤ infinityPattern) :
    UnpackedFloat.pack Format.binary64 (UnpackedFloat.unpack Format.binary64 b) = b := by
  have hinfinity : infinityPattern = 2047 * 2 ^ 52 := by decide +kernel
  have hzero : unpackExponent b = -1#11 → unpackMantissa b = 0#52 := by
    intro hones
    rw [unpackExponent_eq_iff] at hones
    have hnone : b.toNat % 2 ^ 52 = 0 := by omega
    apply BitVec.eq_of_toNat_eq
    rw [toNat_unpackMantissa, hnone]
    rfl
  have hnumber : isNaNBits b = false := decide_eq_false (fun hnan => hnan.2 (hzero hnan.1))
  rw [pack_unpack, hnumber]
  rfl

end Fields

section Signs

theorem toNat_lt (x : Float) : x.toBits.toNat < 2 ^ 64 :=
  x.toBits.toNat_lt

/-- A number without a sign is that of its pattern. -/
theorem ofBits_of_positive (x : Float) : Float.ofBits x.toBits.toNat.toUInt64 = x := by
  rw [Nat.toUInt64_eq, UInt64.ofNat_toNat, Float.ofBits_toBits]

/-- The word of a pattern without a sign, which is kept when it is packed again. -/
theorem pack_unpack_toUInt64 {n : Nat} (h : n ≤ infinityPattern) :
    n.toUInt64.toBitVec.toNat = n ∧
      UnpackedFloat.pack Format.binary64 (UnpackedFloat.unpack Format.binary64
        n.toUInt64.toBitVec) = n.toUInt64.toBitVec := by
  have hinfinity : infinityPattern = 2047 * 2 ^ 52 := by decide +kernel
  have hnat : n.toUInt64.toBitVec.toNat = n := by
    rw [UInt64.toNat_toBitVec, Nat.toUInt64_eq, UInt64.toNat_ofNat', Nat.mod_eq_of_lt]
    omega
  refine ⟨hnat, pack_unpack_of_le ?_⟩
  rw [hnat]
  omega

/-- A number with a sign is the one without it, negated. -/
theorem neg_ofBits_of_negative (hfinite : x.isFinite = true) (hsign : 2 ^ 63 ≤ x.toBits.toNat) :
    -Float.ofBits (x.toBits.toNat - 2 ^ 63).toUInt64 = x := by
  have hbound := toNat_lt x
  rw [isFinite_iff] at hfinite
  obtain ⟨hnat, hpacked⟩ :=
    pack_unpack_toUInt64 (show x.toBits.toNat - 2 ^ 63 ≤ infinityPattern by omega)
  generalize (x.toBits.toNat - 2 ^ 63).toUInt64 = word at *
  have hnat' : x.toBits.toBitVec.toNat = word.toBitVec.toNat + 2 ^ 63 := by
    rw [hnat, UInt64.toNat_toBitVec]
    omega
  have hself : UnpackedFloat.pack Format.binary64
      (UnpackedFloat.unpack Format.binary64 x.toBits.toBitVec) = x.toBits.toBitVec :=
    pack_unpack_of_le hfinite.le
  have hneg : UnpackedFloat.unpack Format.binary64 x.toBits.toBitVec =
      (UnpackedFloat.unpack Format.binary64 word.toBitVec).neg := by
    apply unpack_signed
    · rw [hnat]
      omega
    · exact hnat'
  apply Float.toBits_inj.mp
  apply UInt64.toBitVec_inj.mp
  calc (-Float.ofBits word).toBits.toBitVec
      = UnpackedFloat.pack Format.binary64 (UnpackedFloat.unpack Format.binary64
          (UnpackedFloat.pack Format.binary64
            (UnpackedFloat.unpack Format.binary64 word.toBitVec))).neg := rfl
    _ = x.toBits.toBitVec := by rw [hpacked, ← hneg, hself]

/-- A word that is no NaN and has no sign is that of the number it stands for. -/
theorem toNat_toBits_ofBits {n : Nat} (h : n ≤ infinityPattern) :
    (Float.ofBits n.toUInt64).toBits.toNat = n := by
  obtain ⟨hnat, hpacked⟩ := pack_unpack_toUInt64 h
  have hbits : (Float.ofBits n.toUInt64).toBits.toBitVec = n.toUInt64.toBitVec := hpacked
  rw [← UInt64.toNat_toBitVec, hbits, hnat]

end Signs

end Binary64

end TreeWalk
