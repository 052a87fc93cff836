import JoinLevel.Pruner
import JoinLevel.Proofs.CostOrder
import JoinLevel.Proofs.Keyed

namespace JoinLevel

variable {ps ps' qs qs' : List Path} {p q : Path}

theorem minOn?_append_toList (ps qs : List Path) :
    ((ps.minOn? Path.cost).toList ++ (qs.minOn? Path.cost).toList).minOn? Path.cost =
      (ps ++ qs).minOn? Path.cost := by
  have htoList (o : Option Path) : o.toList.minOn? Path.cost = o := by cases o <;> simp
  rw [List.minOn?_append, List.minOn?_append, htoList, htoList]

theorem minOn?_picks : Picks Path.order (List.minOn? Path.cost) where
  nil := List.minOn?_nil
  cons p ps h := by
    obtain ⟨c, hc⟩ : ∃ c, (p :: ps).minOn? Path.cost = some c := by
      apply Option.isSome_iff_exists.mp
      simp
    refine ⟨c, hc, ?_⟩
    cases List.mem_cons.mp (List.minOn?_mem hc) with
    | inl hcp => rw [hcp]
    | inr hmem => exact h c hmem

/-- For each output order the first of the cheapest paths. -/
def leaders (ps : List Path) : List Path := digest Path.order (List.minOn? Path.cost) ps

theorem mem_leaders_iff : q ∈ leaders ps ↔ (ps.filter (·.order = q.order)).minOn? Path.cost = some q :=
  minOn?_picks.mem_digest_iff

theorem nodup_leaders (ps : List Path) : (leaders ps).Nodup := .of_map Path.order (minOn?_picks.nodup_digest ps)

theorem leaders_append (ps qs : List Path) : leaders (leaders ps ++ leaders qs) = leaders (ps ++ qs) :=
  minOn?_picks.digest_append minOn?_append_toList ps qs

theorem leaders_leaders (ps : List Path) : leaders (leaders ps) = leaders ps := by
  have h := leaders_append ps []
  rwa [List.append_nil, show leaders [] = [] from rfl, List.append_nil] at h

theorem leaders_congr (hp : leaders ps = leaders ps') (hq : leaders qs = leaders qs') :
    leaders (ps ++ qs) = leaders (ps' ++ qs') := by
  rw [← leaders_append, hp, hq, leaders_append]

theorem leaders_subset : leaders ps ⊆ ps := by
  intro q hq
  obtain ⟨o, -, ho⟩ := List.mem_filterMap.mp hq
  exact List.mem_of_mem_filter (List.minOn?_mem ho)

theorem exists_leader_le (hq : q ∈ ps) : ∃ w ∈ leaders ps, w.order = q.order ∧ w.cost ≤ q.cost := by
  obtain ⟨w, hw, hord⟩ := minOn?_picks.filter_eq_some (List.mem_map_of_mem hq)
  have hmem : w ∈ leaders ps :=
    List.mem_filterMap.mpr ⟨q.order, List.mem_eraseDups.mpr (List.mem_map_of_mem hq), hw⟩
  exact ⟨w, hmem, hord, cost_le_of_minOn? hw (List.mem_filter.mpr ⟨hq, by simp⟩)⟩

theorem leaders_eq_nil_iff : leaders ps = [] ↔ ps = [] := by
  constructor
  · intro h
    apply List.eq_nil_iff_forall_not_mem.mpr
    intro q hq
    obtain ⟨w, hw, -⟩ := exists_leader_le hq
    rw [h] at hw
    cases hw
  · rintro rfl
    rfl

theorem contend_eq_upsert (kept : List Path) (p : Path) :
    contend kept p = upsert Path.order p.order (fun o => o.elim p fun q => minOn Path.cost q p) kept := by
  induction kept with
  | nil => rfl
  | cons q qs ih =>
    have hmin : minOn Path.cost q p = if p.cost < q.cost then p else q := by
      by_cases hlt : p.cost < q.cost
      · rw [minOn, if_neg (Std.not_le.mpr hlt), if_pos hlt]
      · rw [minOn, if_pos (Std.not_lt.mp hlt), if_neg hlt]
    simp only [contend, upsert, ih, Option.elim_some, hmin]

theorem foldl_contend_eq_leaders (ps : List Path) : ps.foldl contend [] = leaders ps := by
  have hstep : contend = fun kept p =>
      upsert Path.order p.order (fun o => o.elim p fun q => minOn Path.cost q p) kept := by
    funext kept p
    exact contend_eq_upsert kept p
  rw [hstep]
  apply minOn?_picks.foldl_upsert
  · intro p o ho
    cases o with
    | none => rfl
    | some q =>
      have hq : q.order = p.order := ho q rfl
      simp only [Option.elim_some, minOn]
      split
      · exact hq
      · rfl
  · intro ps p
    rw [List.minOn?_append, List.minOn?_singleton]
    cases ps.minOn? Path.cost <;> rfl

namespace MergePolicy

def Selective (m : MergePolicy) : Prop := ∀ r old new, m.merge r old new ⊆ old ++ new

theorem dominance_merge (r : Candidate) (old new : List Path) : dominance.merge r old new = leaders (old ++ new) :=
  foldl_contend_eq_leaders (old ++ new)

theorem dominance_selective : dominance.Selective := by
  intro r old new
  rw [dominance_merge]
  exact leaders_subset

end MergePolicy
end JoinLevel
