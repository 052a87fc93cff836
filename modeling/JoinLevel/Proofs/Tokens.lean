import JoinLevel.Json.Token

namespace JoinLevel.Token

/-- A text of the tokens, with any white space between them and around them. -/
inductive Spaced : List Token → List Char → Prop
  | nil : Spaced [] []
  | blank {ts : List Token} {c : Char} {cs : List Char} (hc : isBlank c) (h : Spaced ts cs) : Spaced ts (c :: cs)
  | mark {ts : List Token} {c : Char} {cs : List Char} (h : Spaced ts cs) : Spaced (.mark c :: ts) (c :: cs)
  | word {ts : List Token} {w cs : List Char} (h : Spaced ts cs) : Spaced (.word w :: ts) (w ++ cs)

inductive Separated : List Token → Prop
  | nil : Separated []
  | mark {ts : List Token} {c : Char} (hc : isMark c) (h : Separated ts) : Separated (.mark c :: ts)
  | word {ts : List Token} {w : List Char} {c : Char} (hne : w ≠ []) (hw : ∀ a ∈ w, inWord a)
      (h : Separated (.mark c :: ts)) : Separated (.word w :: .mark c :: ts)

/-- The text of the tokens without white space. -/
structure Compact (ts : List Token) (cs : List Char) : Prop where
  spaced : Spaced ts cs
  unblank : ∀ c ∈ cs, ¬ isBlank c

variable {ts : List Token} {w cs ds : List Char} {c : Char}

theorem inWord_iff : inWord c ↔ ¬ isBlank c ∧ ¬ isMark c ∧ c ≠ '"' := by simp [inWord, and_assoc]

theorem not_isBlank_of_isMark (h : isMark c) : ¬ isBlank c := by
  simp only [isMark, List.mem_cons, List.not_mem_nil, or_false, decide_eq_true_iff] at h
  rcases h with rfl | rfl | rfl | rfl | rfl | rfl <;> decide

theorem Separated.isMark (h : Separated (.mark c :: ts)) : isMark c := by
  cases h with
  | mark hc _ => exact hc

theorem Separated.text_not_mem (h : Separated ts) (codes : List Nat) : .text codes ∉ ts := by
  induction h with
  | nil => exact List.not_mem_nil
  | mark _ _ ih => exact List.not_mem_cons_of_ne_of_not_mem nofun ih
  | word _ _ _ ih => exact List.not_mem_cons_of_ne_of_not_mem nofun ih

theorem lex_mark (hc : isMark c) (cs : List Char) : lex (c :: cs) = (lex cs).map (.mark c :: ·) := by
  rw [lex, if_neg (not_isBlank_of_isMark hc), if_pos hc]

theorem lex_word (hne : w ≠ []) (hw : ∀ a ∈ w, inWord a) (hcs : ∀ c ∈ cs.head?, ¬ inWord c) :
    lex (w ++ cs) = (lex cs).map (.word w :: ·) := by
  obtain ⟨c, r, rfl⟩ := List.exists_cons_of_ne_nil hne
  obtain ⟨hc, hr⟩ := List.forall_mem_cons.mp hw
  obtain ⟨hblank, hmark, hquote⟩ := inWord_iff.mp hc
  have htake : cs.takeWhile inWord = [] := by
    cases cs with
    | nil => rfl
    | cons d cs => exact List.takeWhile_cons_of_neg (hcs d rfl)
  have hdrop : cs.dropWhile inWord = cs := by
    cases cs with
    | nil => rfl
    | cons d cs => exact List.dropWhile_cons_of_neg (hcs d rfl)
  rw [List.cons_append, lex, if_neg hblank, if_neg hmark, if_neg hquote, List.takeWhile_append_of_pos hr,
    List.dropWhile_append_of_pos hr, htake, hdrop, List.append_nil]

theorem Spaced.head_not_inWord (h : Spaced (.mark c :: ts) cs) (hc : isMark c) : ∀ d ∈ cs.head?, ¬ inWord d := by
  intro d hd hw
  obtain ⟨hblank, hmark, -⟩ := inWord_iff.mp hw
  cases h with
  | blank hb h =>
    cases hd
    exact hblank hb
  | mark h =>
    cases hd
    exact hmark hc

theorem Spaced.lex (h : Spaced ts cs) (hs : Separated ts) : lex cs = some ts := by
  induction h with
  | nil => rw [Token.lex]
  | blank hc h ih => rw [Token.lex, if_pos hc, ih hs]
  | mark h ih =>
    cases hs with
    | mark hc hs => rw [lex_mark hc, ih hs, Option.map_some]
  | word h ih =>
    cases hs with
    | word hne hw hs =>
      rw [lex_word hne hw (h.head_not_inWord hs.isMark), ih hs, Option.map_some]

theorem spaced_of_lex (h : lex cs = some ts) (ht : ∀ codes, .text codes ∉ ts) : Spaced ts cs := by
  fun_induction Token.lex cs generalizing ts with
  | case1 =>
    cases h
    exact .nil
  | case2 c r hc ih => exact .blank hc (ih h ht)
  | case3 c r hblank hmark ih =>
    obtain ⟨us, hus, rfl⟩ := Option.map_eq_some_iff.mp h
    exact .mark (ih hus fun codes => List.not_mem_of_not_mem_cons (ht codes))
  | case4 r s t hr _ _ ih =>
    obtain ⟨us, -, rfl⟩ := Option.map_eq_some_iff.mp h
    exact absurd List.mem_cons_self (ht s)
  | case5 => cases h
  | case6 c r _ _ _ ih =>
    obtain ⟨us, hus, rfl⟩ := Option.map_eq_some_iff.mp h
    have hr : c :: r = (c :: r.takeWhile inWord) ++ r.dropWhile inWord := by
      rw [List.cons_append, List.takeWhile_append_dropWhile]
    rw [hr]
    exact .word (ih hus fun codes => List.not_mem_of_not_mem_cons (ht codes))

theorem lex_eq_some_iff (hs : Separated ts) : lex cs = some ts ↔ Spaced ts cs :=
  ⟨fun h => spaced_of_lex h hs.text_not_mem, fun h => h.lex hs⟩

namespace Compact

theorem nil : Compact [] [] := ⟨.nil, by simp⟩

theorem mark (h : Compact ts cs) (hc : isMark c) : Compact (.mark c :: ts) (c :: cs) :=
  ⟨.mark h.spaced, List.forall_mem_cons.mpr ⟨not_isBlank_of_isMark hc, h.unblank⟩⟩

theorem word (h : Compact ts cs) (hw : ∀ a ∈ w, inWord a) : Compact (.word w :: ts) (w ++ cs) := by
  refine ⟨.word h.spaced, List.forall_mem_append.mpr ⟨?_, h.unblank⟩⟩
  exact fun a ha => (inWord_iff.mp (hw a ha)).1

theorem unique (h : Compact ts cs) (h' : Compact ts ds) : cs = ds := by
  obtain ⟨hcs, hblank⟩ := h
  obtain ⟨hds, hblank'⟩ := h'
  induction hcs generalizing ds with
  | nil =>
    cases hds with
    | nil => rfl
    | blank hc => exact absurd hc (hblank' _ List.mem_cons_self)
  | blank hc => exact absurd hc (hblank _ List.mem_cons_self)
  | mark h ih =>
    cases hds with
    | blank hc => exact absurd hc (hblank' _ List.mem_cons_self)
    | mark h' => rw [ih (List.forall_mem_cons.mp hblank).2 h' (List.forall_mem_cons.mp hblank').2]
  | word h ih =>
    cases hds with
    | blank hc => exact absurd hc (hblank' _ List.mem_cons_self)
    | word h' => rw [ih (List.forall_mem_append.mp hblank).2 h' (List.forall_mem_append.mp hblank').2]

end Compact
end JoinLevel.Token
