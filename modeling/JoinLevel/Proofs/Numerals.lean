import Mathlib.Data.List.Basic
import Mathlib.Data.List.Induction
import JoinLevel.Json.Token

namespace JoinLevel.Token

variable {cs : List Char} {c : Char} {n : Nat}

theorem exists_digitChar (h : c.isDigit) : ∃ d < 10, c = Nat.digitChar d := by
  have hc : 48 ≤ c.toNat ∧ c.toNat ≤ 57 := by
    simpa [Char.isDigit, UInt32.le_iff_toNat_le] using h
  refine ⟨c.toNat - 48, by omega, ?_⟩
  apply Char.toNat_inj.mp
  rw [Nat.toNat_digitChar_of_lt_ten (by omega)]
  omega

theorem isDigits_iff : isDigits cs ↔ cs ≠ [] ∧ ∀ c ∈ cs, c.isDigit := by simp [isDigits]

theorem isDigits_toDigits (n : Nat) : isDigits (Nat.toDigits 10 n) :=
  isDigits_iff.mpr ⟨Nat.toDigits_ne_nil, fun _ hc => Nat.isDigit_of_mem_toDigits (by decide) (by decide) hc⟩

theorem toDigits_of_head_zero (h : (Nat.toDigits 10 n).head? = some '0') : Nat.toDigits 10 n = ['0'] := by
  induction n using Nat.strongRecOn with
  | ind n ih =>
    by_cases hn : n < 10
    · rw [Nat.toDigits_of_lt_base hn] at h ⊢
      rw [Option.some.inj h]
    · rw [Nat.toDigits_of_base_le (by decide) (by omega), List.head?_append_of_ne_nil _ Nat.toDigits_ne_nil] at h
      -- the leading digits would be those of zero
      have hzero := congrArg (Nat.ofDigitChars 10 · 0) (ih (n / 10) (by omega) h)
      simp only [Nat.ofDigitChars_ten_toDigits] at hzero
      have : Nat.ofDigitChars 10 ['0'] 0 = 0 := by decide
      omega

theorem toDigits_ofDigitChars (hne : cs ≠ []) (hcs : ∀ c ∈ cs, c.isDigit) (h0 : cs.head? ≠ some '0') :
    0 < Nat.ofDigitChars 10 cs 0 ∧ Nat.toDigits 10 (Nat.ofDigitChars 10 cs 0) = cs := by
  induction cs using List.reverseRecOn with
  | nil => exact absurd rfl hne
  | append_singleton ds c ih =>
    obtain ⟨d, hd, rfl⟩ := exists_digitChar (hcs c (by simp))
    have hval : Nat.ofDigitChars 10 (ds ++ [d.digitChar]) 0 = 10 * Nat.ofDigitChars 10 ds 0 + d := by
      rw [Nat.ofDigitChars_append, Nat.ofDigitChars_cons_digitChar_of_lt_ten hd, Nat.ofDigitChars_nil]
    rw [hval]
    by_cases hds : ds = []
    · have hd0 : d ≠ 0 := by simpa [hds] using h0
      simp only [hds, Nat.ofDigitChars_nil, Nat.mul_zero, Nat.zero_add, List.nil_append]
      exact ⟨by omega, Nat.toDigits_of_lt_base hd⟩
    · rw [List.head?_append_of_ne_nil _ hds] at h0
      obtain ⟨hpos, hdigits⟩ := ih hds (fun c hc => hcs c (List.mem_append_left _ hc)) h0
      refine ⟨by omega, ?_⟩
      rw [← Nat.toDigits_append_toDigits (by decide) hpos hd, hdigits, Nat.toDigits_of_lt_base hd]

/-- Each number is written in one way only. -/
theorem natural?_eq_some_iff : natural? cs = some n ↔ cs = Nat.toDigits 10 n := by
  rw [natural?]
  constructor
  · intro h
    split at h
    · rename_i hcs
      obtain ⟨hne, hdigits⟩ := isDigits_iff.mp hcs.1
      obtain rfl := Option.some.inj h
      by_cases h0 : cs.head? = some '0'
      · rw [hcs.2 h0]
        rfl
      · exact (toDigits_ofDigitChars hne hdigits h0).2.symm
    · cases h
  · rintro rfl
    rw [if_pos ⟨isDigits_toDigits n, toDigits_of_head_zero⟩, Nat.ofDigitChars_ten_toDigits]

theorem toDigits_inj {m n : Nat} : Nat.toDigits 10 m = Nat.toDigits 10 n ↔ m = n := by
  rw [← natural?_eq_some_iff, natural?_eq_some_iff.mpr rfl, Option.some.injEq]

theorem toList_toString (a : UInt32) : (toString a).toList = Nat.toDigits 10 a.toNat := Nat.toList_repr

end JoinLevel.Token
