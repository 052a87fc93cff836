import JoinLevel.Proofs.Optimum

namespace JoinLevel

variable {ps : List Path} {o : OutputOrder}

/-- The first path with the order `o` that no other path with this order undercuts. -/
def firstCheapest? (ps : List Path) (o : OutputOrder) : Option Path :=
  ps.find? fun q => q.order = o ∧ ∀ w ∈ ps, w.order = o → q.cost ≤ w.cost

theorem minOn?_filter_order_eq (ps : List Path) (o : OutputOrder) :
    (ps.filter (·.order = o)).minOn? Path.cost = firstCheapest? ps o := by
  rw [minOn?_eq_head?_optima, optima, List.head?_filter, List.find?_filter, firstCheapest?]
  congr 1
  funext q
  simp only [decide_eq_true_eq, List.all_eq_true, List.mem_filter, and_imp]

theorem map_some_leaders (ps : List Path) :
    (leaders ps).map some = (ps.map Path.order).eraseDups.map (firstCheapest? ps) := by
  rw [leaders, minOn?_picks.map_some_digest]
  apply List.map_congr_left
  intro o _
  exact minOn?_filter_order_eq ps o

namespace MergePolicy

variable {r : Candidate}

theorem dominance_merge_assoc (r : Candidate) (x y z : List Path) :
    dominance.merge r (dominance.merge r x y) z = dominance.merge r x (dominance.merge r y z) := by
  simp only [dominance_merge]
  calc
    leaders (leaders (x ++ y) ++ z) = leaders ((x ++ y) ++ z) := leaders_congr (leaders_leaders (x ++ y)) rfl
    _ = leaders (x ++ (y ++ z)) := by rw [List.append_assoc]
    _ = leaders (x ++ leaders (y ++ z)) := leaders_congr rfl (leaders_leaders (y ++ z)).symm

theorem dominance_keeps_first_cheapest (r : Candidate) :
    (∀ old new, (dominance.merge r old new).map some =
      ((old ++ new).map Path.order).eraseDups.map (firstCheapest? (old ++ new))) ∧
    (∀ old new, ((dominance.merge r old new).map Path.order).Nodup) ∧
    (∀ old new o, o ∈ (dominance.merge r old new).map Path.order ↔ o ∈ (old ++ new).map Path.order) ∧
    (∀ old new, dominance.merge r old new ⊆ old ++ new) ∧
    (∀ old new s, dominance.merge s old new = dominance.merge r old new) ∧
    (∀ x y z, dominance.merge r (dominance.merge r x y) z = dominance.merge r x (dominance.merge r y z)) ∧
    OutputOrder.unordered ≠ .sorted [] := by
  refine ⟨?_, ?_, ?_, ?_, ?_, dominance_merge_assoc r, ?_⟩
  · intro old new
    rw [dominance_merge]
    exact map_some_leaders (old ++ new)
  · intro old new
    rw [dominance_merge]
    exact minOn?_picks.nodup_digest (old ++ new)
  · intro old new o
    rw [dominance_merge, leaders, minOn?_picks.map_digest, List.mem_eraseDups]
  · exact dominance_selective r
  · intro old new s
    rw [dominance_merge, dominance_merge]
  · decide

/-- A cheaper path takes over the place of the path that it replaces. -/
example (r : Candidate) : dominance.merge r [Sample.heapJoin, Sample.sortedJoin] [Sample.cheapHeapJoin] =
    [Sample.cheapHeapJoin, Sample.sortedJoin] := rfl

end MergePolicy
end JoinLevel
