import JoinLevel.Bases.Json
import JoinLevel.Proofs.BaseSets
import JoinLevel.Proofs.Numerals
import JoinLevel.Proofs.Tokens

namespace JoinLevel.BaseSet

open Token

def numeral (a : BaseId) : List Char := Nat.toDigits 10 a.toNat

def entryTokens (a : BaseId) : List BaseId → List Token
  | [] => [.word (numeral a), .mark ']']
  | b :: bs => .word (numeral a) :: .mark ',' :: entryTokens b bs

/-- How a list of numbers is written. -/
def listTokens : List BaseId → List Token
  | [] => [.mark '[', .mark ']']
  | a :: as => .mark '[' :: entryTokens a as

variable {s t : BaseSet} {a : BaseId} {as xs ys : List BaseId} {ts : List Token} {cs : List Char} {text : String}

theorem id?_eq_some_iff : id? cs = some a ↔ cs = numeral a := by
  simp only [id?, guard, Option.bind_eq_bind, Option.bind_eq_some_iff, natural?_eq_some_iff]
  constructor
  · rintro ⟨n, rfl, u, hn, ha⟩
    obtain rfl : UInt32.ofNat n = a := Option.some.inj ha
    have hlt : n < UInt32.size := by
      by_contra hge
      rw [if_neg hge] at hn
      cases hn
    rw [numeral, UInt32.toNat_ofNat_of_lt' hlt]
  · rintro rfl
    exact ⟨a.toNat, rfl, (), if_pos a.toNat_lt, congrArg some UInt32.ofNat_toNat⟩

theorem entries?_entryTokens (a : BaseId) (as : List BaseId) : entries? (entryTokens a as) = some (a :: as) := by
  have hid (b : BaseId) : id? (numeral b) = some b := id?_eq_some_iff.mpr rfl
  induction as generalizing a with
  | nil =>
    rw [entryTokens, entries?, hid]
    rfl
  | cons b bs ih =>
    rw [entryTokens, entries?, hid, ih]
    rfl

theorem eq_entryTokens (h : entries? ts = some xs) : ∃ a as, xs = a :: as ∧ ts = entryTokens a as := by
  fun_induction entries? ts generalizing xs with
  | case1 cs =>
    obtain ⟨a, ha, hxs⟩ := Option.bind_eq_some_iff.mp h
    rw [id?_eq_some_iff] at ha
    exact ⟨a, [], (Option.some.inj hxs).symm, by rw [ha, entryTokens]⟩
  | case2 cs ts ih =>
    obtain ⟨a, ha, h⟩ := Option.bind_eq_some_iff.mp h
    obtain ⟨ys, hys, hxs⟩ := Option.bind_eq_some_iff.mp h
    obtain ⟨b, bs, rfl, rfl⟩ := ih hys
    rw [id?_eq_some_iff] at ha
    exact ⟨a, b :: bs, (Option.some.inj hxs).symm, by rw [ha, entryTokens]⟩
  | case3 => cases h

theorem ids?_eq_some_iff : ids? ts = some xs ↔ ts = listTokens xs := by
  constructor
  · intro h
    unfold ids? at h
    split at h
    · cases h
      rfl
    · obtain ⟨a, as, rfl, rfl⟩ := eq_entryTokens h
      rfl
    · cases h
  · rintro rfl
    cases xs with
    | nil => rfl
    | cons a as =>
      have hids : ids? (.mark '[' :: entryTokens a as) = entries? (entryTokens a as) := by cases as <;> rfl
      rw [listTokens, hids, entries?_entryTokens]

theorem inWord_of_mem_numeral {c : Char} (h : c ∈ numeral a) : inWord c := by
  obtain ⟨d, hd, rfl⟩ := exists_digitChar (Nat.isDigit_of_mem_toDigits (by decide) (by decide) h)
  have hall : ∀ d < 10, inWord (Nat.digitChar d) := by decide
  exact hall d hd

theorem separated_entryTokens (a : BaseId) (as : List BaseId) : Separated (entryTokens a as) := by
  induction as generalizing a with
  | nil => exact .word Nat.toDigits_ne_nil (fun _ => inWord_of_mem_numeral) (.mark rfl .nil)
  | cons b bs ih => exact .word Nat.toDigits_ne_nil (fun _ => inWord_of_mem_numeral) (.mark rfl (ih b))

theorem separated_listTokens (xs : List BaseId) : Separated (listTokens xs) := by
  cases xs with
  | nil => exact .mark rfl (.mark rfl .nil)
  | cons a as => exact .mark rfl (separated_entryTokens a as)

theorem ofJson?_eq_some_iff : ofJson? text = some s ↔ ∃ xs, Spaced (listTokens xs) text.toList ∧ ofList xs = s := by
  simp only [ofJson?, Option.bind_eq_bind, Option.bind_eq_some_iff, ids?_eq_some_iff]
  constructor
  · rintro ⟨ts, hlex, xs, rfl, hs⟩
    exact ⟨xs, (lex_eq_some_iff (separated_listTokens xs)).mp hlex, Option.some.inj hs⟩
  · rintro ⟨xs, hspaced, rfl⟩
    exact ⟨_, (lex_eq_some_iff (separated_listTokens xs)).mpr hspaced, xs, rfl, rfl⟩

theorem compact_entryTokens (a : BaseId) (as : List BaseId) :
    Compact (entryTokens a as) ([','].intercalate ((a :: as).map numeral) ++ [']']) := by
  have hword (b : BaseId) : ∀ c ∈ numeral b, inWord c := fun _ => inWord_of_mem_numeral
  induction as generalizing a with
  | nil =>
    rw [List.map_singleton, List.intercalate_singleton, entryTokens]
    exact (Compact.nil.mark rfl).word (hword a)
  | cons b bs ih =>
    rw [List.map_cons, List.map_cons, List.intercalate_cons_cons, ← List.map_cons, entryTokens, List.append_assoc,
      List.append_assoc]
    exact ((ih b).mark rfl).word (hword a)

theorem toList_toJson (s : BaseSet) : s.toJson.toList = '[' :: ([','].intercalate (s.ids.map numeral) ++ [']']) := by
  have hnumeral : String.toList ∘ toString = numeral := by
    funext a
    exact Token.toList_toString a
  rw [toJson, String.toList_append, String.toList_append, String.toList_intercalate, List.map_map, hnumeral]
  rfl

theorem compact_toJson (s : BaseSet) : Compact (listTokens s.ids) s.toJson.toList := by
  rw [toList_toJson]
  cases s.ids with
  | nil => exact (Compact.nil.mark rfl).mark rfl
  | cons a as => exact (compact_entryTokens a as).mark rfl

theorem ofList_ids (s : BaseSet) : ofList s.ids = s := eq_of_mem_iff fun _ => mem_ofList

theorem ofJson?_toJson (s : BaseSet) : ofJson? s.toJson = some s :=
  ofJson?_eq_some_iff.mpr ⟨s.ids, (compact_toJson s).spaced, ofList_ids s⟩

theorem toJson_inj : s.toJson = t.toJson ↔ s = t := by
  constructor
  · intro h
    have hread := congrArg ofJson? h
    rwa [ofJson?_toJson, ofJson?_toJson, Option.some.injEq] at hread
  · exact congrArg toJson

theorem json_read_back :
    (∀ s : BaseSet, ofJson? s.toJson = some s) ∧
    (∀ (text : String) (s : BaseSet), ofJson? text = some s ↔
      ∃ xs, Spaced (listTokens xs) text.toList ∧ ofList xs = s) ∧
    (∀ (xs ys : List BaseId) (text text' : String), Spaced (listTokens xs) text.toList →
      Spaced (listTokens ys) text'.toList → (∀ a, a ∈ xs ↔ a ∈ ys) →
      ofJson? text = some (ofList xs) ∧ ofJson? text' = ofJson? text) ∧
    (∀ text, ((ofJson? text).map toJson).bind ofJson? = ofJson? text ∧
      (((ofJson? text).map toJson).bind ofJson?).map toJson = (ofJson? text).map toJson) ∧
    (∀ (s : BaseSet) (text : String), Compact (listTokens s.ids) text.toList ↔ text = s.toJson) ∧
    ∀ s t : BaseSet, s.toJson = t.toJson ↔ s = t := by
  refine ⟨ofJson?_toJson, fun text s => ofJson?_eq_some_iff, ?_, ?_, ?_, fun s t => toJson_inj⟩
  · intro xs ys text text' hxs hys hsame
    have hread : ofJson? text = some (ofList xs) := ofJson?_eq_some_iff.mpr ⟨xs, hxs, rfl⟩
    have hread' : ofJson? text' = some (ofList ys) := ofJson?_eq_some_iff.mpr ⟨ys, hys, rfl⟩
    exact ⟨hread, by rw [hread, hread', ofList_eq_ofList_iff.mpr hsame]⟩
  · intro text
    have hback : ((ofJson? text).map toJson).bind ofJson? = ofJson? text := by
      cases ofJson? text with
      | none => rfl
      | some s => exact ofJson?_toJson s
    exact ⟨hback, congrArg (Option.map toJson) hback⟩
  · intro s text
    constructor
    · intro h
      exact String.toList_inj.mp (h.unique (compact_toJson s))
    · rintro rfl
      exact compact_toJson s

theorem json_read_back_respaced :
    Spaced (listTokens [3, 1, 3]) "[3, 1,\n 3]".toList ∧ Spaced (listTokens [1, 3]) "[1,3]".toList ∧
      (∀ a : BaseId, a ∈ [3, 1, 3] ↔ a ∈ [1, 3]) ∧ ofJson? "[3, 1,\n 3]" = some (ofList [1, 3]) := by
  have hloose : Spaced (listTokens [3, 1, 3]) "[3, 1,\n 3]".toList :=
    .mark (.word (w := ['3']) (.mark (.blank rfl (.word (w := ['1']) (.mark (.blank rfl (.blank rfl
      (.word (w := ['3']) (.mark .nil)))))))))
  have htight : Spaced (listTokens [1, 3]) "[1,3]".toList :=
    .mark (.word (w := ['1']) (.mark (.word (w := ['3']) (.mark .nil))))
  have hsame (a : BaseId) : a ∈ [3, 1, 3] ↔ a ∈ [1, 3] := by
    simp only [List.mem_cons, List.not_mem_nil, or_false]
    tauto
  obtain ⟨-, -, hrespaced, -⟩ := json_read_back
  obtain ⟨hread, -⟩ := hrespaced _ _ _ _ hloose htight hsame
  rw [hread, ofList_eq_ofList_iff.mpr hsame]
  exact ⟨hloose, htight, hsame, rfl⟩

end JoinLevel.BaseSet
