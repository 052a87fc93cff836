import Mathlib.Data.List.Sort
import JoinLevel.Bases

namespace JoinLevel.BaseSet

variable {s t : BaseSet} {a : BaseId}

theorem find_iff {bs : List BaseId} (h : bs.Pairwise (· < ·)) : find a bs ↔ a ∈ bs := by
  induction bs with
  | nil => simp [find]
  | cons b bs ih =>
    obtain ⟨hb, hbs⟩ := List.pairwise_cons.mp h
    rw [find, List.mem_cons]
    by_cases hba : b < a
    · have hne : a ≠ b := fun hab => UInt32.lt_irrefl b (hab ▸ hba)
      rw [if_pos hba, ih hbs]
      simp [hne]
    · have ha : a ∉ bs := fun ha => hba (hb a ha)
      rw [if_neg hba, beq_iff_eq]
      simp [ha, eq_comm]

theorem contains_iff : s.contains a ↔ a ∈ s := find_iff s.ascending

instance : HasSubset BaseSet := ⟨fun s t => ∀ a ∈ s, a ∈ t⟩

theorem isSubset_iff : s.isSubset t ↔ s ⊆ t := by
  rw [isSubset, List.all_eq_true]
  exact forall₂_congr fun a _ => contains_iff

theorem isSubset_eq_false_iff : s.isSubset t = false ↔ ¬ s ⊆ t := by
  rw [← isSubset_iff, Bool.not_eq_true]

theorem mem_union : a ∈ s ∪ t ↔ a ∈ s ∨ a ∈ t := mem_merge

theorem subset_union_left : s ⊆ s ∪ t := fun _ ha => mem_union.mpr (.inl ha)

theorem subset_union_right : t ⊆ s ∪ t := fun _ ha => mem_union.mpr (.inr ha)

theorem subset_trans {u : BaseSet} (hst : s ⊆ t) (htu : t ⊆ u) : s ⊆ u := fun a ha => htu a (hst a ha)

theorem ids_inj : s.ids = t.ids ↔ s = t := by
  cases s
  cases t
  exact (Iff.of_eq (BaseSet.mk.injEq ..)).symm

theorem eq_of_mem_iff (h : ∀ a, a ∈ s ↔ a ∈ t) : s = t :=
  ids_inj.mp (List.Pairwise.eq_of_mem_iff s.ascending t.ascending h)

theorem mem_ofList {l : List BaseId} : a ∈ ofList l ↔ a ∈ l := by
  change a ∈ l.foldr insertId [] ↔ a ∈ l
  induction l with
  | nil => rfl
  | cons b l ih => rw [List.foldr_cons, mem_insertId, ih, List.mem_cons]

theorem ofList_eq_ofList_iff {l m : List BaseId} : ofList l = ofList m ↔ ∀ a, a ∈ l ↔ a ∈ m := by
  constructor
  · intro h a
    rw [← mem_ofList, h, mem_ofList]
  · intro h
    apply eq_of_mem_iff
    intro a
    rw [mem_ofList, mem_ofList, h]

end JoinLevel.BaseSet
