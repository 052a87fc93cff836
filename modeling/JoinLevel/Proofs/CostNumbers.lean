import Mathlib
import JoinLevel.Cost

namespace JoinLevel

open Float.Model (Format UnpackedFloat)
open Float.Model.UnpackedFloat

section

variable (b : BitVec 64)

theorem toNat_unpackMantissa : (@unpackMantissa .binary64 b).toNat = b.toNat % 2 ^ 52 := by
  change (b.toNat >>> 0) % 2 ^ 52 = b.toNat % 2 ^ 52
  rw [Nat.shiftRight_zero]

theorem toNat_unpackExponent : (@unpackExponent .binary64 b).toNat = b.toNat / 2 ^ 52 % 2 ^ 11 := by
  change (b.toNat >>> 52) % 2 ^ 11 = b.toNat / 2 ^ 52 % 2 ^ 11
  rw [Nat.shiftRight_eq_div_pow]

theorem toNat_unpackSign : (@unpackSign .binary64 b).toNat = b.toNat / 2 ^ 63 := by
  change (b.toNat >>> 63) % 2 ^ 1 = b.toNat / 2 ^ 63
  rw [Nat.shiftRight_eq_div_pow]
  omega

theorem ofBitVec_unpackSign :
    Sign.ofBitVec (@unpackSign .binary64 b) = if b.toNat < 2 ^ 63 then .positive else .negative := by
  have hzero : @unpackSign .binary64 b = 0#1 ↔ b.toNat < 2 ^ 63 := by
    rw [← BitVec.toNat_inj, toNat_unpackSign]
    change b.toNat / 2 ^ 63 = 0 ↔ _
    omega
  exact if_congr hzero rfl rfl

theorem unpackExponent_eq_neg_one_iff :
    @unpackExponent .binary64 b = -1#11 ↔ 2047 * 2 ^ 52 ≤ b.toNat % 2 ^ 63 := by
  rw [← BitVec.toNat_inj, toNat_unpackExponent]
  change b.toNat / 2 ^ 52 % 2 ^ 11 = 2047 ↔ _
  omega

theorem unpackExponent_eq_zero_iff : @unpackExponent .binary64 b = 0#11 ↔ b.toNat % 2 ^ 63 / 2 ^ 52 = 0 := by
  rw [← BitVec.toNat_inj, toNat_unpackExponent]
  change b.toNat / 2 ^ 52 % 2 ^ 11 = 0 ↔ _
  omega

theorem unpackMantissa_eq_zero_iff : @unpackMantissa .binary64 b = 0#52 ↔ b.toNat % 2 ^ 63 % 2 ^ 52 = 0 := by
  rw [← BitVec.toNat_inj, toNat_unpackMantissa]
  change b.toNat % 2 ^ 52 = 0 ↔ _
  omega

theorem toNat_one_append_unpackMantissa :
    (1#1 ++ @unpackMantissa .binary64 b).toNat = 2 ^ 52 + b.toNat % 2 ^ 52 := by
  rw [BitVec.toNat_append, toNat_unpackMantissa]
  exact (Nat.two_pow_add_eq_or_of_lt (Nat.mod_lt _ (Nat.two_pow_pos 52)) 1).symm

theorem isNaNBits_iff : @isNaNBits .binary64 b ↔ 2047 * 2 ^ 52 < b.toNat % 2 ^ 63 := by
  rw [isNaNBits, decide_eq_true_iff, unpackExponent_eq_neg_one_iff, ne_eq, unpackMantissa_eq_zero_iff]
  omega

end

theorem unpack_of_isNaNBits {b : BitVec 64} (h : @isNaNBits .binary64 b) :
    unpack .binary64 b = .notANumber := by
  obtain ⟨hexp, hman⟩ := of_decide_eq_true h
  rw [unpack]
  dsimp only
  rw [if_pos hexp, if_neg hman]

theorem unpack_infinity {b : BitVec 64} (h : b.toNat % 2 ^ 63 = 2047 * 2 ^ 52) :
    unpack .binary64 b = .infinity (.ofBitVec (@unpackSign .binary64 b)) := by
  have hexp := (unpackExponent_eq_neg_one_iff b).mpr h.ge
  have hman := (unpackMantissa_eq_zero_iff b).mpr (by rw [h, Nat.mul_mod_left])
  rw [unpack]
  dsimp only
  rw [if_pos hexp, if_pos hman]

namespace Cost

def ofBits (b : UInt64) : Cost := ⟨Float.ofBits b⟩

/-- The number that is unpacked from a float. What is not a number counts above all numbers. -/
noncomputable def numberOf : UnpackedFloat → WithTop EReal
  | notANumber => ⊤
  | infinity .positive => ((⊤ : EReal) : WithTop EReal)
  | infinity .negative => ((⊥ : EReal) : WithTop EReal)
  | zero _ => ((0 : ℝ) : EReal)
  | finite s m e _ => ((s.apply m * (2 : ℝ) ^ e : ℝ) : EReal)

noncomputable def number (b : UInt64) : WithTop EReal := numberOf (unpack .binary64 b.toBitVec)

/-- What the lower 63 bits stand for, in units of the least positive float. -/
def units (m : Nat) : Nat :=
  if m / 2 ^ 52 = 0 then m % 2 ^ 52 else (2 ^ 52 + m % 2 ^ 52) * 2 ^ (m / 2 ^ 52 - 1)

theorem units_strictMono : StrictMono units := by
  apply strictMono_nat_of_lt_succ
  intro m
  simp only [units]
  by_cases hcarry : m % 2 ^ 52 + 1 = 2 ^ 52
  · have hexp : (m + 1) / 2 ^ 52 = m / 2 ^ 52 + 1 := by omega
    have hman : (m + 1) % 2 ^ 52 = 0 := by omega
    rw [hexp, hman, if_neg (Nat.succ_ne_zero _), Nat.add_sub_cancel, Nat.add_zero]
    split
    · rename_i h0
      rw [h0, pow_zero]
      omega
    · rename_i h0
      -- the exponent grows by one, so the full mantissa is met by the empty one of twice the weight
      have hpow : 2 ^ (m / 2 ^ 52) = 2 * 2 ^ (m / 2 ^ 52 - 1) := (mul_pow_sub_one h0 2).symm
      rw [hpow, ← Nat.mul_assoc]
      exact Nat.mul_lt_mul_of_pos_right (by omega) (Nat.two_pow_pos _)
  · have hexp : (m + 1) / 2 ^ 52 = m / 2 ^ 52 := by omega
    have hman : (m + 1) % 2 ^ 52 = m % 2 ^ 52 + 1 := by omega
    rw [hexp, hman]
    split
    · exact Nat.lt_succ_self _
    · exact Nat.mul_lt_mul_of_pos_right (by omega) (Nat.two_pow_pos _)

def signedUnits (r : Int) : Int := if 0 ≤ r then units r.toNat else -units (-r).toNat

theorem signedUnits_neg (m : Nat) : signedUnits (-m) = -units m := by
  rw [signedUnits]
  split
  · have h0 : m = 0 := by omega
    rw [h0]
    rfl
  · rw [neg_neg, Int.toNat_natCast]

theorem signedUnits_apply (s : Sign) (m : Nat) : signedUnits (s.apply m) = s.apply (units m) := by
  cases s with
  | positive => rfl
  | negative => exact signedUnits_neg m

theorem signedUnits_strictMono : StrictMono signedUnits := by
  apply strictMono_int_of_lt_succ
  intro r
  obtain ⟨m, rfl | rfl⟩ := r.eq_nat_or_neg
  · exact Int.ofNat_lt.mpr (units_strictMono (Nat.lt_succ_self m))
  · cases m with
    | zero => decide
    | succ m =>
      have hlt : units m < units (m + 1) := units_strictMono (Nat.lt_succ_self m)
      have hsucc : -((m + 1 : Nat) : Int) + 1 = -(m : Int) := by omega
      rw [hsucc, signedUnits_neg, signedUnits_neg]
      omega

noncomputable def place (r : Int) : WithTop EReal :=
  if 2047 * 2 ^ 52 < r then ⊤
  else if r = 2047 * 2 ^ 52 then ((⊤ : EReal) : WithTop EReal)
  else if r = -(2047 * 2 ^ 52) then ((⊥ : EReal) : WithTop EReal)
  else ((signedUnits r * (2 : ℝ) ^ (-1074 : Int) : ℝ) : EReal)

def IsRank (r : Int) : Prop := -(2047 * 2 ^ 52) ≤ r ∧ r ≤ 2047 * 2 ^ 52 ∨ r = 2 ^ 63

theorem place_strictMonoOn : StrictMonoOn place {r | IsRank r} := by
  rintro a (⟨ha, ha'⟩ | rfl) b (⟨hb, hb'⟩ | rfl) hab
  · rw [place, place, if_neg (not_lt.mpr ha'), if_neg (not_lt.mpr hb'), if_neg (hab.trans_le hb').ne,
      if_neg (ha.trans_lt hab).ne', ← apply_ite WithTop.some, ← apply_ite WithTop.some, WithTop.coe_lt_coe]
    split
    · split
      · exact bot_lt_top
      · exact EReal.bot_lt_coe _
    · split
      · exact EReal.coe_lt_top _
      · have hlt : signedUnits a < signedUnits b := signedUnits_strictMono hab
        rw [EReal.coe_lt_coe_iff]
        exact mul_lt_mul_of_pos_right (Int.cast_lt.mpr hlt) (zpow_pos two_pos _)
  · rw [place, place, if_neg (not_lt.mpr ha'), if_pos (by norm_num : (2047 * 2 ^ 52 : Int) < 2 ^ 63),
      ← apply_ite WithTop.some, ← apply_ite WithTop.some]
    exact WithTop.coe_lt_top _
  · omega
  · exact absurd hab (lt_irrefl _)

theorem place_finite {s : Sign} {m : Nat} (h : m < 2047 * 2 ^ 52) :
    place (s.apply m) = ((s.apply (units m) * (2 : ℝ) ^ (-1074 : Int) : ℝ) : EReal) := by
  have hlow : -(2047 * 2 ^ 52) < s.apply m := by cases s <;> simp only [Sign.apply] <;> omega
  have hhigh : s.apply m < 2047 * 2 ^ 52 := by cases s <;> simp only [Sign.apply] <;> omega
  rw [place, if_neg hhigh.not_gt, if_neg hhigh.ne, if_neg hlow.ne', signedUnits_apply]

theorem place_infinity (s : Sign) : place (s.apply (2047 * 2 ^ 52 : Nat)) = numberOf (.infinity s) := by
  cases s with
  | positive => exact (if_neg (by decide)).trans (if_pos rfl)
  | negative => exact (if_neg (by decide)).trans ((if_neg (by decide)).trans (if_pos rfl))

theorem rank_eq (c : Cost) (h : c.total.toBits.toNat % 2 ^ 63 ≤ 2047 * 2 ^ 52) :
    c.rank = if c.total.toBits.toNat < 2 ^ 63 then ((c.total.toBits.toNat % 2 ^ 63 : Nat) : Int) else
      -((c.total.toBits.toNat % 2 ^ 63 : Nat) : Int) := if_neg (not_lt.mpr h)

theorem isRank_rank (c : Cost) : IsRank c.rank := by
  by_cases h : c.total.toBits.toNat % 2 ^ 63 ≤ 2047 * 2 ^ 52
  · rw [rank_eq c h]
    left
    split <;> omega
  · exact .inr (if_pos (not_le.mp h))

theorem toBits_ofBits {b : UInt64} (h : b.toNat % 2 ^ 63 ≤ 2047 * 2 ^ 52) : (ofBits b).total.toBits = b := by
  have hnan : ¬ @isNaNBits .binary64 b.toBitVec := (isNaNBits_iff _).not.mpr (not_lt.mpr h)
  rw [← UInt64.toBitVec_inj]
  exact (@pack_unpack .binary64 b.toBitVec (by decide)).trans (if_neg hnan)

theorem toBits_ofBits_nan {b : UInt64} (h : 2047 * 2 ^ 52 < b.toNat % 2 ^ 63) :
    (ofBits b).total.toBits = ⟨packedNaN .binary64⟩ := by
  rw [← UInt64.toBitVec_inj]
  exact (@pack_unpack .binary64 b.toBitVec (by decide)).trans (if_pos ((isNaNBits_iff _).mpr h))

theorem rank_ofBits {b : UInt64} (h : b.toNat % 2 ^ 63 ≤ 2047 * 2 ^ 52) :
    (ofBits b).rank = (Sign.ofBitVec (@unpackSign .binary64 b.toBitVec)).apply (b.toNat % 2 ^ 63 : Nat) := by
  rw [rank_eq _ (by rwa [toBits_ofBits h]), toBits_ofBits h, ofBitVec_unpackSign]
  change _ = Sign.apply (if b.toNat < 2 ^ 63 then _ else _) _
  split <;> rfl

theorem rank_ofBits_nan {b : UInt64} (h : 2047 * 2 ^ 52 < b.toNat % 2 ^ 63) : (ofBits b).rank = 2 ^ 63 := by
  rw [rank, toBits_ofBits_nan h]
  decide

theorem numberOf_zero (s : Sign) :
    numberOf (.zero s) = ((s.apply (0 : Nat) * (2 : ℝ) ^ (-1074 : Int) : ℝ) : EReal) := by
  have hzero : s.apply (0 : Nat) = 0 := by cases s <;> rfl
  rw [hzero, Int.cast_zero, zero_mul]
  rfl

theorem numberOf_finite {s : Sign} {m n : Nat} {e : Int} (hm : 0 < m)
    (h : (m : ℝ) * (2 : ℝ) ^ e = n * (2 : ℝ) ^ (-1074 : Int)) :
    numberOf (.finite s m e hm) = ((s.apply n * (2 : ℝ) ^ (-1074 : Int) : ℝ) : EReal) := by
  cases s with
  | positive => simp only [numberOf, Sign.apply, Int.cast_natCast, h]
  | negative => simp only [numberOf, Sign.apply, Int.cast_neg, Int.cast_natCast, neg_mul, h]

theorem numberOf_unpack_finite {b : BitVec 64} (h : b.toNat % 2 ^ 63 < 2047 * 2 ^ 52) :
    numberOf (unpack .binary64 b) = (((Sign.ofBitVec (@unpackSign .binary64 b)).apply
      (units (b.toNat % 2 ^ 63)) * (2 : ℝ) ^ (-1074 : Int) : ℝ) : EReal) := by
  have hbias : Format.binary64.exponentBias = 1023 := by decide
  have hexp : b.toNat / 2 ^ 52 % 2 ^ 11 = b.toNat % 2 ^ 63 / 2 ^ 52 := by omega
  have hman : b.toNat % 2 ^ 52 = b.toNat % 2 ^ 63 % 2 ^ 52 := by omega
  rw [unpack]
  dsimp only
  rw [if_neg ((unpackExponent_eq_neg_one_iff b).not.mpr (not_le.mpr h))]
  split
  · rename_i hzero
    have hunits : units (b.toNat % 2 ^ 63) = b.toNat % 2 ^ 52 := by
      rw [units, if_pos ((unpackExponent_eq_zero_iff b).mp hzero), hman]
    rw [hunits]
    split
    · rename_i hempty
      rw [hman, (unpackMantissa_eq_zero_iff b).mp hempty]
      exact numberOf_zero _
    · apply numberOf_finite
      rw [hzero, toNat_unpackMantissa, hbias]
      rfl
  · rename_i hnonzero
    have hne := (unpackExponent_eq_zero_iff b).not.mp hnonzero
    apply numberOf_finite
    rw [toNat_one_append_unpackMantissa, toNat_unpackExponent, hbias, hexp, hman, units, if_neg hne]
    generalize b.toNat % 2 ^ 63 / 2 ^ 52 = e at hne
    rw [Nat.cast_mul, mul_assoc]
    congr 1
    rw [Nat.cast_pow, Nat.cast_two, ← zpow_natCast, ← zpow_add₀ two_ne_zero]
    congr 1
    omega

/-- The number depends on the rank only and grows strictly with it, so comparing ranks compares numbers. -/
theorem number_eq_place (b : UInt64) : number b = place (ofBits b).rank := by
  rcases lt_trichotomy (b.toNat % 2 ^ 63) (2047 * 2 ^ 52) with h | h | h
  · rw [rank_ofBits h.le, place_finite h]
    exact numberOf_unpack_finite h
  · rw [rank_ofBits h.le, h, place_infinity, number, unpack_infinity h]
  · rw [rank_ofBits_nan h, number, unpack_of_isNaNBits ((isNaNBits_iff _).mpr h)]
    exact (if_pos (by decide)).symm

structure ComparesAs (a b : UInt64) : Prop where
  le_iff : ofBits a ≤ ofBits b ↔ number a ≤ number b
  lt_iff : ofBits a < ofBits b ↔ number a < number b
  beq_iff : ofBits a == ofBits b ↔ number a = number b

theorem comparesAs (a b : UInt64) : ComparesAs a b := by
  have ha := isRank_rank (ofBits a)
  have hb := isRank_rank (ofBits b)
  constructor
  · rw [number_eq_place, number_eq_place, place_strictMonoOn.le_iff_le ha hb]
    rfl
  · rw [number_eq_place, number_eq_place, place_strictMonoOn.lt_iff_lt ha hb]
    rfl
  · rw [number_eq_place, number_eq_place, place_strictMonoOn.eq_iff_eq ha hb]
    change ((ofBits a).rank == (ofBits b).rank) = true ↔ _
    rw [beq_iff_eq]

theorem ofBits_toBits (c : Cost) : ofBits c.total.toBits = c := congrArg Cost.mk (Float.ofBits_toBits c.total)

end Cost
end JoinLevel
