import Mathlib
import ReducedSpace.Scalar

/-!
# Rounding of binary64 numbers

A machine number unpacks to a sign, a mantissa and an exponent, every operation rounds an exact
result of this form, and the rounded result is packed again. Here is what later arguments need of
this: rounding keeps a positive mantissa positive and never takes the leading digit down, and
packing changes a rounded number only if it overflows to infinity.
-/

namespace ReducedSpace.Machine

open Float.Model Float.Model.UnpackedFloat

/-- What a machine number stands for. -/
def value (x : Float) : UnpackedFloat := x.toModel.unpack

/-- Machine numbers compare as what they unpack to. -/
theorem lt_eq (x y : Float) : Scalar.lt x y = (value x).lt (value y) := by
  show decide (decide ((value x).lt (value y) = true) = true) = _
  rw [Bool.decide_eq_true, Bool.decide_eq_true]

/-- With equality allowed as well. -/
theorem le_eq (x y : Float) : Scalar.le x y = (value x).le (value y) := by
  show decide (decide ((value x).le (value y) = true) = true) = _
  rw [Bool.decide_eq_true, Bool.decide_eq_true]

/-- The mantissa and exponent of a rounded number: the mantissa has its full length unless the
exponent is the least one. The exponent is not bounded from above. -/
structure Rounded (m : Nat) (e : Int) : Prop where
  lt : m < 2 ^ 53
  least : -1074 ≤ e
  full : 2 ^ 52 ≤ m ∨ e = -1074

section Shift

/-- A shift to the right divides the significand, whatever it keeps of the digits shifted out. -/
theorem mantissa_shiftRight (em : ExtendedMantissa) (k : Nat) :
    (em >>> k).mantissa = em.mantissa / 2 ^ k := by
  show (Nat.repeat ExtendedMantissa.shiftRightOne k em).mantissa = _
  induction k with
  | zero => exact (Nat.div_one _).symm
  | succ k ih =>
    show (Nat.repeat ExtendedMantissa.shiftRightOne k em).mantissa / 2 = _
    rw [ih, Nat.div_div_eq_div_mul, ← Nat.pow_succ]

/-- The accuracy does not change the significand. -/
theorem mantissa_ofMantissaAndAccuracy (m : Nat) (a : Accuracy) :
    (ExtendedMantissa.ofMantissaAndAccuracy m a).mantissa = m := by
  cases a with
  | exact => rfl
  | inexact o => cases o <;> rfl

/-- Rounding to a whole mantissa goes to the one below or to the next one. -/
theorem roundedMantissa_bounds (em : ExtendedMantissa) :
    em.mantissa ≤ em.roundedMantissa ∧ em.roundedMantissa ≤ em.mantissa + 1 := by
  obtain ⟨m, round, sticky⟩ := em
  cases round <;> cases sticky <;>
    simp only [ExtendedMantissa.roundedMantissa, ExtendedMantissa.accuracy,
      Accuracy.roundToNearestEven] <;> omega

/-- The exponent of a rounded number keeps 53 binary digits, but never falls below that of the
subnormal numbers. -/
theorem targetExponent_eq (m : Nat) (e : Int) :
    Format.binary64.targetExponent (totalExponent m e) = max (m.log2 + e - 52) (-1074) := by
  have hmin : Format.binary64.minExponent = -1074 := by decide
  have hbits : Format.binary64.mantissaBits = 53 := by decide
  rw [Format.targetExponent, totalExponent, hmin, hbits]
  congr 1
  omega

variable {m : Nat} {e : Int}

/-- A mantissa that is not too long is left as it is. -/
theorem shiftToTargetExponent_of_lt (hm : m < 2 ^ 53) (he : -1074 ≤ e) :
    shiftToTargetExponent .binary64 m e .exact = (⟨m, false, false⟩, e) := by
  have hlog : m.log2 ≤ 52 := by
    by_cases hzero : m = 0
    · rw [hzero]
      decide
    · exact Nat.le_of_lt_succ ((Nat.log2_lt hzero).2 hm)
  have hshift : (max ((m.log2 : Int) + e - 52) (-1074) - e).toNat = 0 := by omega
  rw [shiftToTargetExponent, targetExponent_eq, shiftToExponent, hshift]
  exact Prod.ext rfl (Int.add_zero e)

/-- A mantissa that rounding has made one digit too long is halved. -/
theorem shiftToTargetExponent_carry (he : -1074 ≤ e) :
    shiftToTargetExponent .binary64 (2 ^ 53) e .exact = (⟨2 ^ 52, false, false⟩, e + 1) := by
  have hlog : (2 ^ 53 : Nat).log2 = 53 := Nat.log2_two_pow
  have hshift : (max (((2 ^ 53 : Nat).log2 : Int) + e - 52) (-1074) - e).toNat = 1 := by omega
  rw [shiftToTargetExponent, targetExponent_eq, shiftToExponent, hshift]
  rfl

end Shift

section Round

variable {m : Nat} {e : Int}

/-- A positive mantissa rounds to a positive one whose leading digit is not below the given one. -/
theorem exists_roundWithAccuracy (s : Sign) (hm : 0 < m) (he : -1074 ≤ e)
    (hlong : m.log2 < 52 → e = -1074) (a : Accuracy) :
    ∃ m' e', ∃ hm' : 0 < m', roundWithAccuracy .binary64 s m e a = .finite s m' e' hm' ∧
      Rounded m' e' ∧ (m.log2 : Int) + e ≤ m'.log2 + e' := by
  let k : Nat := (max ((m.log2 : Int) + e - 52) (-1074) - e).toNat
  have hk : k ≤ m.log2 := by omega
  let em := ExtendedMantissa.ofMantissaAndAccuracy m a >>> k
  have hem : em.mantissa = m / 2 ^ k := by
    show (ExtendedMantissa.ofMantissaAndAccuracy m a >>> k).mantissa = _
    rw [mantissa_shiftRight, mantissa_ofMantissaAndAccuracy]
  have hfirst : shiftToTargetExponent .binary64 m e a = (em, e + k) := by
    rw [shiftToTargetExponent, targetExponent_eq]
    rfl
  obtain ⟨hlow, hhigh⟩ := roundedMantissa_bounds em
  have hlead : 2 ^ (m.log2 - k) ≤ em.roundedMantissa := by
    refine Nat.le_trans ?_ hlow
    rw [hem, Nat.le_div_iff_mul_le (Nat.two_pow_pos k), ← Nat.pow_add, Nat.sub_add_cancel hk]
    exact Nat.log2_self_le (Nat.ne_of_gt hm)
  have hquot : em.mantissa < 2 ^ 53 := by
    rw [hem, Nat.div_lt_iff_lt_mul (Nat.two_pow_pos k), ← Nat.pow_add]
    exact Nat.lt_of_lt_of_le Nat.lt_log2_self (Nat.pow_le_pow_right (by decide) (by omega))
  have hpos : 0 < em.roundedMantissa := Nat.lt_of_lt_of_le (Nat.two_pow_pos _) hlead
  have hfull : 2 ^ 52 ≤ em.roundedMantissa ∨ e + (k : Int) = -1074 := by
    by_cases hdigits : 52 ≤ m.log2 - k
    · exact .inl (Nat.le_trans (Nat.pow_le_pow_right (by decide) hdigits) hlead)
    · exact .inr (by omega)
  rw [roundWithAccuracy, hfirst]
  dsimp only
  rcases Nat.lt_or_ge em.roundedMantissa (2 ^ 53) with hlt | hge
  · rw [shiftToTargetExponent_of_lt hlt (by omega)]
    dsimp only
    rw [dif_neg (Nat.ne_of_gt hpos)]
    refine ⟨_, _, hpos, rfl, ⟨hlt, by omega, hfull⟩, ?_⟩
    have hlog := (Nat.le_log2 (Nat.ne_of_gt hpos)).2 hlead
    omega
  · have hcarry : em.roundedMantissa = 2 ^ 53 := by omega
    rw [hcarry, shiftToTargetExponent_carry (by omega)]
    refine ⟨_, _, Nat.two_pow_pos 52, rfl, ⟨by decide, by omega, .inl (Nat.le_refl _)⟩, ?_⟩
    have hlog : (2 ^ 52 : Nat).log2 = 52 := Nat.log2_two_pow
    omega

/-- A shift to the left adds binary digits. -/
theorem log2_shiftLeft (hm : 0 < m) (k : Nat) : 0 < m <<< k ∧ (m <<< k).log2 = m.log2 + k := by
  induction k with
  | zero => exact ⟨hm, rfl⟩
  | succ k ih =>
    obtain ⟨hpos, hlog⟩ := ih
    rw [Nat.shiftLeft_succ, Nat.log2_two_mul (Nat.ne_of_gt hpos), hlog]
    exact ⟨by omega, rfl⟩

/-- The same for a mantissa that may be too short, which rounding first extends. -/
theorem exists_round (s : Sign) (hm : 0 < m) (he : -1074 ≤ e) :
    ∃ m' e', ∃ hm' : 0 < m', round .binary64 s m e = .finite s m' e' hm' ∧
      Rounded m' e' ∧ (m.log2 : Int) + e ≤ m'.log2 + e' := by
  let k : Nat := (e - max ((m.log2 : Int) + e - 52) (-1074)).toNat
  have hround : round .binary64 s m e = roundWithAccuracy .binary64 s (m <<< k) (e - k) .exact := by
    rw [UnpackedFloat.round, targetExponent_eq]
    rfl
  obtain ⟨hpos, hlog⟩ := log2_shiftLeft hm k
  obtain ⟨m', e', hm', hresult, hrounded, hlead⟩ :=
    exists_roundWithAccuracy (e := e - k) s hpos (by omega) (by omega) .exact
  refine ⟨m', e', hm', hround.trans hresult, hrounded, ?_⟩
  omega

end Round

section Pack

/-- A zero survives a round through its bits, with its sign. -/
theorem unpack_pack_zero (s : Sign) :
    UnpackedFloat.unpack .binary64 (UnpackedFloat.pack .binary64 (.zero s)) = .zero s := by
  cases s <;> rfl

/-- So does an infinity. -/
theorem unpack_pack_infinity (s : Sign) :
    UnpackedFloat.unpack .binary64 (UnpackedFloat.pack .binary64 (.infinity s)) =
      .infinity s := by
  cases s <;> rfl

/-- The sign is read back from the bits. -/
theorem ofBitVec_unpackSign (s : Sign) (e : BitVec 11) (m : BitVec 52) :
    Sign.ofBitVec (unpackSign (packComponents .binary64 s e m)) = s := by
  unfold unpackSign packComponents BitVec.extractLsb
  rw [BitVec.extractLsb'_append_eq_of_le (by decide),
    BitVec.extractLsb'_append_eq_of_le (by decide)]
  cases s <;> rfl

/-- The hidden digit adds its weight to the stored ones. -/
theorem toNat_one_append (m : BitVec 52) : (1#1 ++ m).toNat = 2 ^ 52 + m.toNat := by
  rw [BitVec.toNat_append, ← Nat.shiftLeft_add_eq_or_of_lt m.isLt]
  rfl

/-- A packed number whose exponent field is neither full nor empty has a leading digit that is not
stored. -/
theorem unpack_normal (s : Sign) {e : BitVec 11} (m : BitVec 52) (hfull : e ≠ -1#11)
    (hempty : e ≠ 0#11) :
    UnpackedFloat.unpack .binary64 (packComponents .binary64 s e m) =
      .finite s (2 ^ 52 + m.toNat) (e.toNat - 1075) (by omega) := by
  rw [UnpackedFloat.unpack]
  simp only [unpackMantissa_packComponents, unpackExponent_packComponents, ofBitVec_unpackSign]
  rw [if_neg hfull, if_neg hempty]
  simp only [toNat_one_append]
  rfl

/-- With an empty exponent field all digits are stored. -/
theorem unpack_subnormal (s : Sign) {m : BitVec 52} (hm : 0 < m.toNat) :
    UnpackedFloat.unpack .binary64 (packComponents .binary64 s 0#11 m) =
      .finite s m.toNat (-1074) hm := by
  have hne : m ≠ 0#52 := by
    rintro rfl
    exact absurd hm (by decide)
  rw [UnpackedFloat.unpack]
  simp only [unpackMantissa_packComponents, unpackExponent_packComponents, ofBitVec_unpackSign]
  rw [if_neg (by decide), if_pos (by decide), dif_neg hne]
  rfl

variable {m : Nat} {e : Int}

/-- Packing keeps a rounded number, or turns it into infinity. -/
theorem unpack_pack (s : Sign) (hm : 0 < m) (h : Rounded m e) :
    UnpackedFloat.unpack .binary64 (UnpackedFloat.pack .binary64 (.finite s m e hm)) =
      if e ≤ 971 then .finite s m e hm else .infinity s := by
  have hleast := h.least
  have hlt := h.lt
  have hbias : (e + Format.binary64.exponentBias +
      Format.binary64.mantissaBitsWithoutImplicit).toNat = (e + 1075).toNat := by
    show (e + 1023 + 52).toNat = _
    omega
  have hbits : Format.binary64.mantissaBits = 53 := by decide
  rw [UnpackedFloat.pack]
  simp only [hbias, hbits]
  by_cases hover : e ≤ 971
  · rw [if_pos hover, if_neg (by omega)]
    by_cases hfull : 2 ^ 52 ≤ m
    · have hlog : m.log2 = 52 := (Nat.log2_eq_iff (Nat.ne_of_gt hm)).2 ⟨hfull, hlt⟩
      have hexp : (BitVec.ofNat 11 (e + 1075).toNat).toNat = (e + 1075).toNat := by
        rw [BitVec.toNat_ofNat]
        omega
      have hrest : (BitVec.ofNat 52 m).toNat = m - 2 ^ 52 := by
        rw [BitVec.toNat_ofNat]
        omega
      rw [if_pos (by omega), unpack_normal]
      · congr 1
        · omega
        · omega
      · intro hexponent
        have hnat := congrArg BitVec.toNat hexponent
        rw [hexp] at hnat
        have : (-1#11 : BitVec 11).toNat = 2047 := by decide
        omega
      · intro hexponent
        have hnat := congrArg BitVec.toNat hexponent
        rw [hexp] at hnat
        have : (0#11 : BitVec 11).toNat = 0 := by decide
        omega
    · have hlog : m.log2 < 52 := (Nat.log2_lt (Nat.ne_of_gt hm)).2 (by omega)
      have hmantissa : (BitVec.ofNat 52 m).toNat = m := by
        rw [BitVec.toNat_ofNat]
        omega
      rw [if_neg (by omega), unpack_subnormal s (by omega)]
      congr 1
      have := h.full
      omega
  · rw [if_neg hover, if_pos (by omega)]
    exact unpack_pack_infinity s

/-- The finite machine numbers are rounded and do not overflow. -/
theorem rounded_of_value {x : Float} {s : Sign} {hm : 0 < m} (h : value x = .finite s m e hm) :
    Rounded m e ∧ e ≤ 971 := by
  let b : BitVec Format.binary64.numBits := x.toModel.toBits.toBitVec
  have hdigits : (unpackMantissa b).toNat < 2 ^ 52 := (unpackMantissa b).isLt
  have hexponent : (unpackExponent b).toNat < 2048 := (unpackExponent b).isLt
  have hbias : ((Format.binary64.exponentBias : Nat) : Int) = 1023 := rfl
  have hvalue : UnpackedFloat.unpack .binary64 b = .finite s m e hm := h
  rw [UnpackedFloat.unpack] at hvalue
  simp only [toNat_one_append] at hvalue
  split at hvalue
  · split at hvalue
    · cases hvalue
    · cases hvalue
  · rename_i hfull
    split at hvalue
    · rename_i hempty
      split at hvalue
      · cases hvalue
      · have hzero : (unpackExponent b).toNat = 0 := congrArg BitVec.toNat hempty
        cases hvalue
        rw [hbias]
        exact ⟨⟨by omega, by omega, by omega⟩, by omega⟩
    · rename_i hempty
      have hlast : (unpackExponent b).toNat ≠ 2047 := fun hlast =>
        hfull (BitVec.eq_of_toNat_eq hlast)
      have hfirst : (unpackExponent b).toNat ≠ 0 := fun hfirst =>
        hempty (BitVec.eq_of_toNat_eq hfirst)
      cases hvalue
      rw [hbias]
      exact ⟨⟨by omega, by omega, by omega⟩, by omega⟩

/-- What a machine number stands for survives packing. -/
theorem unpack_pack_value (x : Float) :
    UnpackedFloat.unpack .binary64 (UnpackedFloat.pack .binary64 (value x)) = value x := by
  cases h : value x with
  | notANumber => rfl
  | infinity s => exact unpack_pack_infinity s
  | zero s => exact unpack_pack_zero s
  | finite s m e hm =>
    obtain ⟨hrounded, hle⟩ := rounded_of_value h
    exact (unpack_pack s hm hrounded).trans (if_pos hle)

/-- A machine number is the packed form of what it stands for. -/
theorem ofModel_pack_value (x : Float) : Float.ofModel (.pack (value x)) = x := by
  have hbits : UnpackedFloat.pack .binary64 (value x) = x.toModel.toBits.toBitVec :=
    (unpack_inj_of_valid valid_pack x.toModel.valid (by decide)).1 (unpack_pack_value x)
  obtain ⟨⟨⟨bits⟩, hvalid⟩⟩ := x
  show Float.ofModel ⟨⟨UnpackedFloat.pack .binary64 (value _)⟩, _⟩ = _
  simp only [hbits]

/-- Machine numbers that unpack alike are equal, all NaNs being one. -/
theorem value_inj {x y : Float} (h : value x = value y) : x = y := by
  rw [← ofModel_pack_value x, h, ofModel_pack_value]

end Pack

end ReducedSpace.Machine
