import JoinLevel.Proofs.BaseSets
import JoinLevel.Proofs.MergeLaws
import JoinLevel.Proofs.Numerals

namespace JoinLevel

section Separators

variable {α : Type} {c : α} {u v x y sep : List α} {us vs : List (List α)}

theorem append_inj_of_head (hu : c ∉ u) (hv : c ∉ v) (hx : ∀ d ∈ x.head?, d = c) (hy : ∀ d ∈ y.head?, d = c) :
    u ++ x = v ++ y ↔ u = v ∧ x = y := by
  induction u generalizing v with
  | nil =>
    cases v with
    | nil => simp
    | cons d v =>
      have hxd : x ≠ d :: (v ++ y) := by
        rintro rfl
        exact List.ne_of_not_mem_cons hv (hx d rfl).symm
      simp [hxd]
  | cons d u ih =>
    cases v with
    | nil =>
      have hyd : d :: (u ++ x) ≠ y := by
        rintro rfl
        exact List.ne_of_not_mem_cons hu (hy d rfl).symm
      simp [hyd]
    | cons e v =>
      rw [List.cons_append, List.cons_append, List.cons.injEq, List.cons.injEq, and_assoc,
        ih (List.not_mem_of_not_mem_cons hu) (List.not_mem_of_not_mem_cons hv)]

theorem append_cons_inj (hu : c ∉ u) (hv : c ∉ v) : u ++ c :: x = v ++ c :: y ↔ u = v ∧ x = y := by
  rw [append_inj_of_head hu hv (by simp) (by simp), List.cons.injEq, and_iff_right rfl]

theorem append_cons_last_inj (hx : c ∉ x) (hy : c ∉ y) : u ++ c :: x = v ++ c :: y ↔ u = v ∧ x = y := by
  have hsplit (l m : List α) : (l ++ c :: m).reverse = m.reverse ++ c :: l.reverse := by simp
  rw [← List.reverse_inj, hsplit, hsplit, append_cons_inj (by simpa using hx) (by simpa using hy), List.reverse_inj,
    List.reverse_inj, and_comm]

theorem intercalate_cons_eq_append (u : List α) (us : List (List α)) :
    sep.intercalate (u :: us) = u ++ us.flatMap (sep ++ ·) := by
  induction us generalizing u with
  | nil => simp
  | cons v vs ih => rw [List.intercalate_cons_cons, ih, List.flatMap_cons, List.append_assoc, List.append_assoc]

theorem head_flatMap_separated (us : List (List α)) : ∀ d ∈ (us.flatMap (c :: sep ++ ·)).head?, d = c := by
  cases us <;> simp

theorem flatMap_separated_inj (hus : ∀ u ∈ us, c ∉ u) (hvs : ∀ v ∈ vs, c ∉ v) :
    us.flatMap (c :: sep ++ ·) = vs.flatMap (c :: sep ++ ·) ↔ us = vs := by
  induction us generalizing vs with
  | nil => cases vs <;> simp
  | cons u us ih =>
    cases vs with
    | nil => simp
    | cons v vs =>
      obtain ⟨hu, hus⟩ := List.forall_mem_cons.mp hus
      obtain ⟨hv, hvs⟩ := List.forall_mem_cons.mp hvs
      rw [List.flatMap_cons, List.flatMap_cons, List.append_assoc, List.append_assoc, List.append_cancel_left_eq,
        append_inj_of_head hu hv (head_flatMap_separated us) (head_flatMap_separated vs), ih hus hvs, List.cons.injEq]

theorem intercalate_inj (hus : ∀ u ∈ us, u ≠ [] ∧ c ∉ u) (hvs : ∀ v ∈ vs, v ≠ [] ∧ c ∉ v) :
    (c :: sep).intercalate us = (c :: sep).intercalate vs ↔ us = vs := by
  cases us with
  | nil =>
    cases vs with
    | nil => simp
    | cons v vs => simp [intercalate_cons_eq_append, (hvs v List.mem_cons_self).1]
  | cons u us =>
    cases vs with
    | nil => simp [intercalate_cons_eq_append, (hus u List.mem_cons_self).1]
    | cons v vs =>
      have hrow : (u :: us).flatMap (c :: sep ++ ·) = (v :: vs).flatMap (c :: sep ++ ·) ↔ u :: us = v :: vs :=
        flatMap_separated_inj (fun u hu => (hus u hu).2) fun v hv => (hvs v hv).2
      rwa [List.flatMap_cons, List.flatMap_cons, List.append_assoc, List.append_assoc, List.append_cancel_left_eq,
        ← intercalate_cons_eq_append, ← intercalate_cons_eq_append] at hrow

theorem not_mem_intercalate (hsep : c ∉ sep) (hus : ∀ u ∈ us, c ∉ u) : c ∉ sep.intercalate us := by
  cases us with
  | nil => exact List.not_mem_nil
  | cons u us =>
    obtain ⟨hu, hus⟩ := List.forall_mem_cons.mp hus
    rw [intercalate_cons_eq_append, List.mem_append, List.mem_flatMap]
    rintro (h | ⟨v, hv, h⟩)
    · exact hu h
    · exact (List.mem_append.mp h).elim hsep (hus v hv)

end Separators

/-- The texts of `α` tell its elements apart, also when they stand in a row with `c` between them. -/
structure Separable (α : Type) [ToString α] (c : Char) : Prop where
  inj : ∀ a b : α, toString a = toString b → a = b
  ne_nil : ∀ a : α, (toString a).toList ≠ []
  not_mem : ∀ a : α, c ∉ (toString a).toList

namespace Separable

variable {α : Type} [ToString α] {c l r : Char} {sep x y : List Char} {a b : α} {as bs : List α}

theorem toString_inj (h : Separable α c) : toString a = toString b ↔ a = b := ⟨h.inj a b, congrArg toString⟩

theorem append_cons_inj (h : Separable α c) :
    (toString a).toList ++ c :: x = (toString b).toList ++ c :: y ↔ a = b ∧ x = y := by
  rw [JoinLevel.append_cons_inj (h.not_mem a) (h.not_mem b), String.toList_inj]
  exact and_congr_left' h.toString_inj

theorem append_cons_last_inj (h : Separable α c) :
    x ++ c :: (toString a).toList = y ++ c :: (toString b).toList ↔ x = y ∧ a = b := by
  rw [JoinLevel.append_cons_last_inj (h.not_mem a) (h.not_mem b), String.toList_inj]
  exact and_congr_right' h.toString_inj

theorem bracketed_inj (h : Separable α c) {s : String} (hs : s.toList = c :: sep) :
    l :: ((s.intercalate (as.map toString)).toList ++ [r]) = l :: ((s.intercalate (bs.map toString)).toList ++ [r]) ↔
      as = bs := by
  have hwords (as : List α) : ∀ u ∈ (as.map toString).map String.toList, u ≠ [] ∧ c ∉ u := by
    simp only [List.forall_mem_map]
    exact fun a _ => ⟨h.ne_nil a, h.not_mem a⟩
  rw [List.cons.injEq, and_iff_right rfl, List.append_cancel_right_eq, String.toList_intercalate,
    String.toList_intercalate, hs, intercalate_inj (hwords as) (hwords bs),
    List.map_inj_right fun _ _ => String.toList_inj.mp, List.map_inj_right h.inj]

theorem not_mem_bracketed (h : Separable α c) {s : String} (hs : c ∉ s.toList) (hl : c ≠ l) (hr : c ≠ r) :
    c ∉ l :: ((s.intercalate (as.map toString)).toList ++ [r]) := by
  have hrow : c ∉ (s.intercalate (as.map toString)).toList := by
    rw [String.toList_intercalate]
    apply not_mem_intercalate hs
    simp only [List.forall_mem_map]
    exact fun a _ => h.not_mem a
  have hend : c ∉ [r] := by simpa using hr
  exact List.not_mem_cons_of_ne_of_not_mem hl (List.not_mem_append hrow hend)

end Separable

theorem separable_numeral {c : Char} (hc : ¬ c.isDigit) : Separable UInt32 c where
  inj a b h := by
    rw [← String.toList_inj, Token.toList_toString, Token.toList_toString, Token.toDigits_inj] at h
    exact UInt32.toNat_inj.mp h
  ne_nil a := by
    rw [Token.toList_toString]
    exact Nat.toDigits_ne_nil
  not_mem a ha := by
    rw [Token.toList_toString] at ha
    exact hc (Nat.isDigit_of_mem_toDigits (by decide) (by decide) ha)

namespace BaseSet

variable {s t : BaseSet}

theorem toList_toString (s : BaseSet) :
    (toString s).toList = '{' :: ((",".intercalate (s.ids.map toString)).toList ++ ['}']) := by
  change ("\x7b" ++ ",".intercalate (s.ids.map toString) ++ "\x7d").toList = _
  simp

theorem toString_inj : toString s = toString t ↔ s = t := by
  have hids : Separable BaseId ',' := separable_numeral (by decide)
  rw [← String.toList_inj, toList_toString, toList_toString, hids.bracketed_inj rfl, ids_inj]

theorem separable : Separable BaseSet ' ' where
  inj s t := toString_inj.mp
  ne_nil s := by
    rw [toList_toString]
    exact List.cons_ne_nil _ _
  not_mem s := by
    have hids : Separable BaseId ' ' := separable_numeral (by decide)
    rw [toList_toString]
    exact hids.not_mem_bracketed (by decide) (by decide) (by decide)

end BaseSet

namespace Column

theorem toList_toString (d : Column) :
    (toString d).toList = '#' :: ((toString d.base).toList ++ '.' :: (toString d.index).toList) := by
  change ("#" ++ toString d.base ++ "." ++ toString d.index).toList = _
  simp

theorem separable {c : Char} (hc : ¬ c.isDigit) (hmark : c ∉ ['#', '.']) : Separable Column c where
  inj := by
    rintro ⟨a, i⟩ ⟨b, j⟩ h
    have hbases : Separable BaseId '.' := separable_numeral (by decide)
    rw [← String.toList_inj, toList_toString, toList_toString, List.cons.injEq, hbases.append_cons_inj,
      String.toList_inj] at h
    obtain ⟨-, rfl, hij⟩ := h
    rw [(separable_numeral hc).inj i j hij]
  ne_nil d := by
    rw [toList_toString]
    exact List.cons_ne_nil _ _
  not_mem d := by
    simp only [List.mem_cons, List.not_mem_nil, or_false, not_or] at hmark
    rw [toList_toString]
    simp [hmark, (separable_numeral hc).not_mem]

end Column

namespace Direction

theorem toString_inj {d e : Direction} : toString d = toString e ↔ d = e := by
  cases d <;> cases e <;> decide

theorem isAlphanum_of_mem_toString (d : Direction) : ∀ c ∈ (toString d).toList, c.isAlphanum := by
  rw [← List.all_eq_true]
  cases d <;> decide

end Direction

namespace SortKey

theorem toList_toString (k : SortKey) :
    (toString k).toList = (toString k.column).toList ++ ' ' :: (toString k.direction).toList := by
  change (toString k.column ++ " " ++ toString k.direction).toList = _
  simp

theorem separable {c : Char} (hc : ¬ c.isAlphanum) (hmark : c ∉ ['#', '.', ' ']) : Separable SortKey c where
  inj := by
    rintro ⟨a, d⟩ ⟨b, e⟩ h
    have hcolumns : Separable Column ' ' := Column.separable (by decide) (by decide)
    rw [← String.toList_inj, toList_toString, toList_toString, hcolumns.append_cons_inj, String.toList_inj,
      Direction.toString_inj] at h
    exact (SortKey.mk.injEq ..).mpr h
  ne_nil k := by
    rw [toList_toString]
    exact List.append_ne_nil_of_right_ne_nil _ (List.cons_ne_nil _ _)
  not_mem k := by
    have hdigit : ¬ c.isDigit := fun h => hc (Bool.or_eq_true_iff.mpr (.inr h))
    have hspace : c ≠ ' ' := fun h => hmark (by simp [h])
    have hcolumn : c ∉ (toString k.column).toList := by
      apply (Column.separable hdigit _).not_mem
      exact fun h => hmark (List.mem_append_left [' '] h)
    have hdirection : c ∉ (toString k.direction).toList := fun h => hc (k.direction.isAlphanum_of_mem_toString c h)
    rw [toList_toString]
    simp [hcolumn, hspace, hdirection]

end SortKey

namespace OutputOrder

variable {o u : OutputOrder} {ks : List SortKey}

theorem toList_toString_sorted (ks : List SortKey) :
    (toString (sorted ks)).toList = '[' :: ((", ".intercalate (ks.map toString)).toList ++ [']']) := by
  change ("[" ++ ", ".intercalate (ks.map toString) ++ "]").toList = _
  simp

theorem toString_unordered_ne_sorted : toString unordered ≠ toString (sorted ks) := by
  intro h
  rw [← String.toList_inj, toList_toString_sorted] at h
  exact absurd (List.cons.inj h).1 (by decide)

theorem toString_inj : toString o = toString u ↔ o = u := by
  cases o with
  | unordered =>
    cases u with
    | unordered => exact iff_of_true rfl rfl
    | sorted ls => exact iff_of_false toString_unordered_ne_sorted nofun
  | sorted ks =>
    cases u with
    | unordered => exact iff_of_false toString_unordered_ne_sorted.symm nofun
    | sorted ls =>
      have hkeys : Separable SortKey ',' := SortKey.separable (by decide) (by decide)
      rw [← String.toList_inj, toList_toString_sorted, toList_toString_sorted, hkeys.bracketed_inj rfl, sorted.injEq]

example : toString (sorted []) = "[]" ∧
    toString (sorted [⟨⟨1, 0⟩, .asc⟩, ⟨⟨12, 3⟩, .desc⟩]) = "[#1.0 asc, #12.3 desc]" := by decide

theorem separable : Separable OutputOrder '=' where
  inj o u := toString_inj.mp
  ne_nil o := by
    cases o with
    | unordered => decide
    | sorted ks =>
      rw [toList_toString_sorted]
      exact List.cons_ne_nil _ _
  not_mem o := by
    cases o with
    | unordered => decide
    | sorted ks =>
      have hkeys : Separable SortKey '=' := SortKey.separable (by decide) (by decide)
      rw [toList_toString_sorted]
      exact hkeys.not_mem_bracketed (by decide) (by decide) (by decide)

end OutputOrder

theorem Candidate.bases_eq_of_toString_eq {r d : Candidate} (h : toString r = toString d) : r.bases = d.bases := by
  have htext (s : Candidate) :
      ∃ x, (toString s).toList = "(Rel ".toList ++ ((toString s.bases).toList ++ ' ' :: x) := by
    obtain ⟨t, ht⟩ : ∃ t, toString s = "(Rel " ++ toString s.bases ++ " paths=" ++ toString s.paths.length ++
        " size=" ++ shortestText s.size ++ t ++ ")" := ⟨_, rfl⟩
    refine ⟨("paths=" ++ toString s.paths.length ++ " size=" ++ shortestText s.size ++ t ++ ")").toList, ?_⟩
    rw [ht]
    simp
  obtain ⟨x, hx⟩ := htext r
  obtain ⟨y, hy⟩ := htext d
  -- the text of the bases ends at the first blank after it
  rw [← String.toList_inj, hx, hy, List.append_cancel_left_eq, BaseSet.separable.append_cons_inj] at h
  exact h.1

theorem Path.order_eq_of_toString_eq {p q : Path} (h : toString p = toString q) : p.order = q.order := by
  have htext (w : Path) : ∃ x, (toString w).toList = x ++ '=' :: (toString w.order).toList ++ [')'] := by
    refine ⟨("(" ++ w.head ++ " cost=" ++ toString w.cost ++ " order").toList, ?_⟩
    change ("(" ++ w.head ++ " cost=" ++ toString w.cost ++ " order=" ++ toString w.order ++ ")").toList = _
    simp
  obtain ⟨x, hx⟩ := htext p
  obtain ⟨y, hy⟩ := htext q
  -- a cost text may hold anything before the last `=`, after which the order stands
  rw [← String.toList_inj, hx, hy, List.append_cancel_right_eq, OutputOrder.separable.append_cons_last_inj] at h
  exact h.2

/-- As `Grouped`, but candidates fall into one group where `key` says the same of them. -/
structure GroupedBy {κ : Type} [DecidableEq κ] (key : Candidate → κ) (p : Pruner) (rs out : List Candidate) : Prop where
  keys : out.map key = (rs.map key).eraseDups
  survives : ∀ s ∈ out, ∃ r ds, rs.filter (key · = key s) = r :: ds ∧ Survives p r ds s

theorem groupedBy_comp_iff {κ : Type} [DecidableEq κ] {f : BaseSet → κ} (hf : f.Injective) {p : Pruner}
    {rs out : List Candidate} : GroupedBy (f ∘ Candidate.bases) p rs out ↔ Grouped p rs out := by
  have hkeys : out.map (f ∘ Candidate.bases) = (rs.map (f ∘ Candidate.bases)).eraseDups ↔
      out.map Candidate.bases = (rs.map Candidate.bases).eraseDups := by
    rw [← List.map_map, ← List.map_map, eraseDups_map hf, (List.map_injective_iff.mpr hf).eq_iff]
  have hgroup (s : Candidate) : rs.filter (fun r => (f ∘ Candidate.bases) r = (f ∘ Candidate.bases) s) =
      rs.filter (·.bases = s.bases) := by
    simp only [Function.comp_apply, hf.eq_iff]
  constructor
  · rintro ⟨hmap, hout⟩
    exact ⟨hkeys.mp hmap, fun s hs => hgroup s ▸ hout s hs⟩
  · rintro ⟨hmap, hout⟩
    exact ⟨hkeys.mpr hmap, fun s hs => (hgroup s).symm ▸ hout s hs⟩

namespace Sample

def keptChosen : Candidate := { chosen with pruneable := false }

def sortedProduct : Path :=
  .join ⟨11⟩ (sortedOn 1 0) ⟨8⟩ .hashJoin (scan ⟨2⟩ 2 ⟨1⟩ .unordered) (scan ⟨1⟩ 1 ⟨1⟩ .unordered) 100 40 []

end Sample

theorem identity_texts_faithful :
    (∀ s t : BaseSet, toString s = toString t ↔ s = t) ∧
    (∀ o u : OutputOrder, toString o = toString u ↔ o = u) ∧
    (∀ (p : Pruner) (rs out : List Candidate),
      ((p.dedup rs).result = .ok out → GroupedBy (fun r => toString r.bases) p rs out) ∧
      (p.options.verify = false → GroupedBy (fun r => toString r.bases) p rs out → (p.dedup rs).result = .ok out)) ∧
    (∀ (r : Candidate) (old new : List Path), MergePolicy.dominance.merge r old new =
      digest (fun q => toString q.order) (List.minOn? Path.cost) (old ++ new)) ∧
    (∀ r d : Candidate, toString r = toString d → r.bases = d.bases) ∧
    ∀ p q : Path, toString p = toString q → p.order = q.order := by
  have hbases : Function.Injective (toString : BaseSet → String) := fun s t => BaseSet.toString_inj.mp
  have horder : Function.Injective (toString : OutputOrder → String) := fun o u => OutputOrder.toString_inj.mp
  refine ⟨fun s t => BaseSet.toString_inj, fun o u => OutputOrder.toString_inj, fun p rs out => ⟨?_, ?_⟩, ?_,
    fun r d => Candidate.bases_eq_of_toString_eq, fun p q => Path.order_eq_of_toString_eq⟩
  · intro h
    exact (groupedBy_comp_iff hbases).mpr (Pruner.resolve_ok_iff_grouped.mp (Pruner.dedup_ok h))
  · intro hv h
    exact (Pruner.dedup_ok_iff_grouped hv).mpr ((groupedBy_comp_iff hbases).mp h)
  · intro r old new
    rw [MergePolicy.dominance_merge]
    exact (digest_comp horder (List.minOn? Path.cost) (old ++ new)).symm

theorem identity_texts_faithful_chosen :
    (({} : Pruner).dedup (Sample.chosen :: Sample.offers)).result = .ok [Sample.chosen] ∧
    ({} : Pruner).options.verify = false ∧
    GroupedBy (fun r => toString r.bases) {} (Sample.chosen :: Sample.offers) [Sample.chosen] ∧
    toString Sample.keptChosen = toString Sample.chosen ∧ Sample.keptChosen.bases = Sample.chosen.bases ∧
    toString Sample.sortedProduct = toString Sample.sortedJoin ∧
    Sample.sortedProduct.order = Sample.sortedJoin.order := by
  have hdedup : (({} : Pruner).dedup (Sample.chosen :: Sample.offers)).result = .ok [Sample.chosen] := rfl
  have hcandidate : toString Sample.keptChosen = toString Sample.chosen := rfl
  have hpath : toString Sample.sortedProduct = toString Sample.sortedJoin := rfl
  obtain ⟨-, -, hgrouped, -, hbases, horder⟩ := identity_texts_faithful
  exact ⟨(hgrouped _ _ _).2 rfl ((hgrouped _ _ _).1 hdedup), rfl, (hgrouped _ _ _).1 hdedup, hcandidate,
    hbases _ _ hcandidate, hpath, horder _ _ hpath⟩

end JoinLevel
