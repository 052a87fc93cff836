import JoinLevel.Proofs.Grouping
import JoinLevel.Proofs.Dominance
import JoinLevel.Proofs.Verification

namespace JoinLevel

namespace Candidate

variable {r d : Candidate} {ds es : List Candidate}

/-- What is left of the paths of `r` and of the later candidates `ds` over its bases.
The paths of a candidate that stands alone never compete. -/
def pooledPaths (r : Candidate) : List Candidate → List Path
  | [] => r.paths
  | d :: ds => leaders ((r :: d :: ds).flatMap paths)

def pool (r : Candidate) (ds : List Candidate) : Candidate := { r with paths := r.pooledPaths ds }

theorem pooledPaths_of_ne_nil (h : ds ≠ []) : r.pooledPaths ds = leaders ((r :: ds).flatMap paths) := by
  cases ds with
  | nil => exact absurd rfl h
  | cons d ds => rfl

theorem leaders_pooledPaths : leaders (r.pooledPaths ds) = leaders ((r :: ds).flatMap paths) := by
  cases ds with
  | nil => rw [pooledPaths, List.flatMap_singleton]
  | cons d ds => exact leaders_leaders _

theorem pooledPaths_subset : r.pooledPaths ds ⊆ (r :: ds).flatMap paths := by
  cases ds with
  | nil => simp [pooledPaths]
  | cons d ds => exact leaders_subset

theorem exists_pooledPath_le {q : Path} (hq : q ∈ (r :: ds).flatMap paths) :
    ∃ w ∈ r.pooledPaths ds, w.cost ≤ q.cost := by
  cases ds with
  | nil =>
    rw [List.flatMap_singleton] at hq
    exact ⟨q, hq, Std.le_refl q.cost⟩
  | cons d ds =>
    obtain ⟨w, hw, -, hle⟩ := exists_leader_le hq
    exact ⟨w, hw, hle⟩

theorem pool_pool : (r.pool ds).pool [d.pool es] = r.pool (ds ++ d :: es) := by
  have hsplit : (r :: (ds ++ d :: es)).flatMap paths = (r :: ds).flatMap paths ++ (d :: es).flatMap paths := by
    rw [← List.flatMap_append, List.cons_append]
  have hpaths : (r.pool ds).pooledPaths [d.pool es] = r.pooledPaths (ds ++ d :: es) := by
    rw [pooledPaths_of_ne_nil (List.cons_ne_nil _ _), pooledPaths_of_ne_nil (by simp), hsplit, List.flatMap_cons,
      List.flatMap_singleton]
    exact leaders_congr leaders_pooledPaths leaders_pooledPaths
  exact congrArg (fun ps => { r with paths := ps }) hpaths

def pool? : List Candidate → Option Candidate
  | [] => none
  | r :: ds => some (r.pool ds)

theorem pool?_append_toList (rs ss : List Candidate) :
    pool? ((pool? rs).toList ++ (pool? ss).toList) = pool? (rs ++ ss) := by
  cases rs with
  | nil => cases ss <;> rfl
  | cons r ds =>
    cases ss with
    | nil =>
      rw [List.append_nil (r :: ds)]
      rfl
    | cons d es => exact congrArg some pool_pool

theorem pool?_picks : Picks bases pool? where
  nil := rfl
  cons r ds _ := ⟨r.pool ds, rfl, rfl⟩

end Candidate

def pooled (rs : List Candidate) : List Candidate := digest Candidate.bases Candidate.pool? rs

theorem pooled_append (rs ss : List Candidate) : pooled (pooled rs ++ pooled ss) = pooled (rs ++ ss) :=
  Candidate.pool?_picks.digest_append Candidate.pool?_append_toList rs ss

theorem nodup_pooled (rs : List Candidate) : ((pooled rs).map Candidate.bases).Nodup :=
  Candidate.pool?_picks.nodup_digest rs

theorem forall_mem_pooled {P : Candidate → Prop} {rs : List Candidate} (hP : ∀ r ps, P r → P { r with paths := ps })
    (hrs : ∀ r ∈ rs, P r) : ∀ s ∈ pooled rs, P s := by
  intro s hs
  obtain ⟨b, -, hb⟩ := List.mem_filterMap.mp hs
  cases hf : rs.filter (·.bases = b) with
  | nil => simp [hf, Candidate.pool?] at hb
  | cons r ds =>
    rw [hf, Candidate.pool?, Option.some.injEq] at hb
    have hr : r ∈ rs := List.mem_of_mem_filter (hf ▸ List.mem_cons_self)
    rw [← hb]
    exact hP r _ (hrs r hr)

namespace Pruner

variable {p : Pruner} {r d : Candidate} {ds rs : List Candidate}

theorem absorb_paths (hp : p.policy = .dominance) : (p.absorb r d).paths = leaders (r.paths ++ d.paths) := by
  rw [← foldl_contend_eq_leaders]
  simp only [absorb, hp, MergePolicy.dominance]

theorem gather_paths (hp : p.policy = .dominance) : (r.gather p.policy ds).paths = r.pooledPaths ds := by
  induction ds using List.reverseRecOn with
  | nil => rfl
  | append_singleton ds d ih =>
    have hpooled : r.pooledPaths (ds ++ [d]) = leaders ((r :: ds).flatMap Candidate.paths ++ d.paths) := by
      rw [Candidate.pooledPaths_of_ne_nil (by simp), ← List.cons_append, List.flatMap_append, List.flatMap_singleton]
    rw [gather_append, absorb_paths hp, ih, hpooled]
    exact leaders_congr Candidate.leaders_pooledPaths rfl

theorem gather_unordered (hu : r.unordered = none) : (r.gather p.policy ds).unordered = none := by
  induction ds using List.reverseRecOn with
  | nil => exact hu
  | append_singleton ds d ih =>
    rw [gather_append, absorb, ih]
    rfl

theorem gather_cheapest (hc : r.cheapest = none) : (r.gather p.policy ds).cheapest = none := by
  rw [← Option.not_isSome_iff_eq_none] at hc ⊢
  exact fun hsel => hc (gather_isSelected hsel)

theorem gather_eq_pool (hp : p.policy = .dominance) (hc : r.cheapest = none) (hu : r.unordered = none) :
    r.gather p.policy ds = r.pool ds := by
  calc
    r.gather p.policy ds = { r with
        paths := (r.gather p.policy ds).paths
        cheapest := (r.gather p.policy ds).cheapest
        unordered := (r.gather p.policy ds).unordered } := rfl
    _ = r.pool ds := by simp only [gather_paths hp, gather_cheapest hc, gather_unordered hu, Candidate.pool, hc, hu]

/-- Without a choice among the paths nothing has to be selected again, and no check can fail. -/
theorem dedup_of_unselected (hrs : ∀ r ∈ rs, r.cheapest = none) : ∃ out, (p.dedup rs).result = .ok out ∧
    out.map Candidate.bases = (rs.map Candidate.bases).eraseDups ∧
    ∀ s ∈ out, ∃ r ds, rs.filter (·.bases = s.bases) = r :: ds ∧ s = r.gather p.policy ds := by
  have hg := gathered_foldl p .deduplicate rs
  have hpending : (rs.foldl (p.receive .deduplicate) {}).pending = [] := by
    apply List.eq_nil_iff_forall_not_mem.mpr
    intro b hb
    obtain ⟨-, q, hq, hsel⟩ := (hg.pending b).mp hb
    simp [Candidate.isSelected, hrs q (List.mem_of_mem_filter hq)] at hsel
  have hunselected : ∀ s ∈ (rs.foldl (p.receive .deduplicate) {}).kept, ¬ s.isSelected := by
    intro s hs
    obtain ⟨r, ds, hr, hsr⟩ := hg.kept s hs
    have hmem : r ∈ rs := List.mem_of_mem_filter (hr ▸ List.mem_cons_self)
    rw [hsr, Candidate.isSelected, gather_cheapest (hrs r hmem)]
    simp
  refine ⟨(rs.foldl (p.receive .deduplicate) {}).kept, ?_, hg.bases, hg.kept⟩
  rw [dedup_result, resolve_result, hpending]
  exact checked_eq_ok hg.nodup fun s hs hsel => absurd hsel (hunselected s hs)

theorem dedup_eq_pooled (hp : p.policy = .dominance) (hrs : ∀ r ∈ rs, r.cheapest = none ∧ r.unordered = none) :
    (p.dedup rs).result = .ok (pooled rs) := by
  obtain ⟨out, hout, hmap, hgather⟩ := dedup_of_unselected fun r hr => (hrs r hr).1
  rw [hout, eq_digest hmap]
  · rfl
  · intro s hs
    obtain ⟨r, ds, hr, hsr⟩ := hgather s hs
    obtain ⟨hc, hu⟩ := hrs r (List.mem_of_mem_filter (hr ▸ List.mem_cons_self))
    rw [hr, hsr, gather_eq_pool hp hc hu]
    rfl

end Pruner
end JoinLevel
