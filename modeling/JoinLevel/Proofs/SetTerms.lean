import Mathlib.Data.Finset.Card
import JoinLevel.Proofs.BaseSets

namespace JoinLevel

inductive BaseTerm where
  | empty
  | single (a : BaseId)
  | ofList (l : List BaseId)
  | union (d e : BaseTerm)

namespace BaseTerm

def eval : BaseTerm → BaseSet
  | empty => ∅
  | single a => .single a
  | ofList l => .ofList l
  | union d e => d.eval ∪ e.eval

def listed : BaseTerm → List BaseId
  | empty => []
  | single a => [a]
  | ofList l => l
  | union d e => d.listed ++ e.listed

end BaseTerm

namespace BaseSet

variable {s t u : BaseSet} {a : BaseId} {bs : List BaseId}

/-- Looks at the middle and goes on in one half. -/
def bisect (a : BaseId) (bs : List BaseId) : Bool :=
  match h : bs.drop (bs.length / 2) with
  | [] => false
  | b :: right =>
    if a = b then true else if a < b then bisect a (bs.take (bs.length / 2)) else bisect a right
termination_by bs.length
decreasing_by
  all_goals
    have hlen := congrArg List.length h
    simp only [List.length_drop, List.length_cons] at hlen
  · rw [List.length_take]
    omega
  · omega

theorem bisect_iff (h : bs.Pairwise (· < ·)) : bisect a bs ↔ a ∈ bs := by
  fun_induction bisect a bs with
  | case1 bs hbs =>
    have hlen := congrArg List.length hbs
    rw [List.length_drop, List.length_nil] at hlen
    have hnil : bs = [] := List.eq_nil_of_length_eq_zero (by omega)
    simp [hnil]
  | case2 bs right hbs =>
    have hmem : a ∈ bs := List.mem_of_mem_drop (hbs ▸ List.mem_cons_self)
    simp [hmem]
  | case3 bs b right hbs hne hab ih =>
    rw [ih (h.sublist (List.take_sublist _ _))]
    rw [← List.take_append_drop (bs.length / 2) bs, hbs, List.pairwise_append, List.pairwise_cons] at h
    have hright : a ∉ right := fun ha => UInt32.lt_asymm hab (h.2.1.1 a ha)
    conv_rhs => rw [← List.take_append_drop (bs.length / 2) bs, hbs]
    simp [hne, hright]
  | case4 bs b right hbs hne hab ih =>
    rw [← List.take_append_drop (bs.length / 2) bs, hbs, List.pairwise_append] at h
    have hleft : a ∉ bs.take (bs.length / 2) := fun ha => hab (h.2.2 a ha b List.mem_cons_self)
    rw [ih h.2.1.tail]
    conv_rhs => rw [← List.take_append_drop (bs.length / 2) bs, hbs]
    simp [hne, hleft]

theorem contains_eq_bisect (s : BaseSet) (a : BaseId) : s.contains a = bisect a s.ids := by
  rw [Bool.eq_iff_iff, contains_iff, bisect_iff s.ascending]
  rfl

theorem overlaps_iff : s.overlaps t ↔ ∃ a, a ∈ s ∧ a ∈ t := by
  rw [overlaps, List.any_eq_true]
  simp only [contains_iff]
  rfl

theorem ids_nodup (s : BaseSet) : s.ids.Nodup := s.ascending.imp fun h => UInt32.ne_of_lt h

theorem size_ofList (l : List BaseId) : (ofList l).size = l.toFinset.card := by
  have hset : (ofList l).ids.toFinset = l.toFinset := by
    ext a
    rw [List.mem_toFinset, List.mem_toFinset]
    exact mem_ofList
  rw [size, ← List.toFinset_card_of_nodup (ids_nodup _), hset]

theorem ofList_append (l m : List BaseId) : ofList (l ++ m) = ofList l ∪ ofList m := by
  apply eq_of_mem_iff
  intro a
  rw [mem_union, mem_ofList, mem_ofList, mem_ofList, List.mem_append]

theorem union_assoc (s t u : BaseSet) : s ∪ t ∪ u = s ∪ (t ∪ u) := by
  apply eq_of_mem_iff
  intro a
  rw [mem_union, mem_union, mem_union, mem_union, or_assoc]

theorem union_comm (s t : BaseSet) : s ∪ t = t ∪ s := by
  apply eq_of_mem_iff
  intro a
  rw [mem_union, mem_union, or_comm]

theorem union_self (s : BaseSet) : s ∪ s = s := by
  apply eq_of_mem_iff
  intro a
  rw [mem_union, or_self]

theorem union_empty (s : BaseSet) : s ∪ ∅ = s := by
  apply eq_of_mem_iff
  intro a
  have hempty : a ∉ (∅ : BaseSet) := List.not_mem_nil
  rw [mem_union, or_iff_left hempty]

instance : Std.TransOrd BaseSet where
  eq_swap := Std.OrientedOrd.eq_swap (α := List BaseId)
  isLE_trans := Std.TransOrd.isLE_trans (α := List BaseId)

theorem compare_eq_eq_iff : compare s t = .eq ↔ s = t := by
  change compare s.ids t.ids = .eq ↔ s = t
  rw [Std.LawfulEqOrd.compare_eq_iff_eq, ids_inj]

theorem compare_list_eq_lt_iff {as bs : List BaseId} : compare as bs = .lt ↔ List.Lex (· < ·) as bs := by
  induction as generalizing bs with
  | nil => cases bs <;> simp
  | cons a as ih =>
    cases bs with
    | nil => simp
    | cons b bs =>
      rw [List.compare_cons_cons, Ordering.then_eq_lt, ih, Std.compare_eq_lt, Std.LawfulEqOrd.compare_eq_iff_eq,
        List.cons_lex_cons_iff]

end BaseSet

namespace BaseTerm

theorem eval_eq_ofList (e : BaseTerm) : e.eval = .ofList e.listed := by
  induction e with
  | empty => rfl
  | single a => rfl
  | ofList l => rfl
  | union d e hd he => rw [eval, hd, he, listed, BaseSet.ofList_append]

theorem mem_eval {e : BaseTerm} {a : BaseId} : a ∈ e.eval ↔ a ∈ e.listed := by
  rw [eval_eq_ofList, BaseSet.mem_ofList]

theorem eval_is_listed_set :
    (∀ e : BaseTerm, e.eval.ids.Pairwise (· < ·) ∧ ∀ a, a ∈ e.eval.ids ↔ a ∈ e.listed) ∧
    (∀ xs ys, BaseSet.ofList xs = .ofList ys ↔ ∀ a, a ∈ xs ↔ a ∈ ys) ∧
    (∀ xs ys, BaseSet.ofList xs ∪ .ofList ys = .ofList (xs ++ ys)) ∧
    (∀ s t u : BaseSet, s ∪ t ∪ u = s ∪ (t ∪ u) ∧ s ∪ t = t ∪ s ∧ s ∪ s = s ∧ s ∪ ∅ = s) ∧
    (∀ e : BaseTerm, e.eval.size = e.listed.toFinset.card ∧
      ∀ a, e.eval.contains a = BaseSet.bisect a e.eval.ids ∧ (e.eval.contains a ↔ a ∈ e.listed)) ∧
    (∀ d e : BaseTerm, (d.eval.isSubset e.eval ↔ d.listed ⊆ e.listed) ∧
      (d.eval.overlaps e.eval ↔ ∃ a, a ∈ d.listed ∧ a ∈ e.listed)) ∧
    Std.TransOrd BaseSet ∧
    ∀ d e : BaseTerm, (compare d.eval e.eval = .lt ↔ List.Lex (· < ·) d.eval.ids e.eval.ids) ∧
      (compare d.eval e.eval = .eq ↔ ∀ a, a ∈ d.listed ↔ a ∈ e.listed) := by
  refine ⟨?_, fun xs ys => BaseSet.ofList_eq_ofList_iff, fun xs ys => (BaseSet.ofList_append xs ys).symm, ?_, ?_, ?_,
    inferInstance, ?_⟩
  · exact fun e => ⟨e.eval.ascending, fun a => mem_eval⟩
  · intro s t u
    exact ⟨BaseSet.union_assoc s t u, BaseSet.union_comm s t, BaseSet.union_self s, BaseSet.union_empty s⟩
  · intro e
    constructor
    · rw [eval_eq_ofList, BaseSet.size_ofList]
    · intro a
      exact ⟨e.eval.contains_eq_bisect a, BaseSet.contains_iff.trans mem_eval⟩
  · intro d e
    constructor
    · rw [BaseSet.isSubset_iff]
      exact forall_congr' fun a => imp_congr mem_eval mem_eval
    · rw [BaseSet.overlaps_iff]
      simp only [mem_eval]
  · intro d e
    constructor
    · exact BaseSet.compare_list_eq_lt_iff
    · rw [BaseSet.compare_eq_eq_iff, eval_eq_ofList, eval_eq_ofList, BaseSet.ofList_eq_ofList_iff]

end BaseTerm
end JoinLevel
