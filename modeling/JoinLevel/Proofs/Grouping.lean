import JoinLevel.Proofs.Keyed
import JoinLevel.Proofs.Receiving

namespace JoinLevel

structure Holding where
  paths : List Path
  cheapest : Option Path
  unordered : Option Path

def Holding.merge (policy : MergePolicy) (r : Candidate) (h : Holding) (new : List Path) : Holding :=
  let paths := policy.merge { r with paths := [], cheapest := h.cheapest, unordered := h.unordered } h.paths new
  { paths
    cheapest := h.cheapest.filter fun c => c.id ∈ paths.map Path.id
    unordered := h.unordered.filter fun u => u.id ∈ paths.map Path.id }

def Candidate.hold (r : Candidate) (h : Holding) : Candidate :=
  { r with paths := h.paths, cheapest := h.cheapest, unordered := h.unordered }

def Candidate.gather (policy : MergePolicy) (r : Candidate) (ds : List Candidate) : Candidate :=
  r.hold ((ds.map Candidate.paths).foldl (Holding.merge policy r) ⟨r.paths, r.cheapest, r.unordered⟩)

/-- `s` is what `r` becomes when the later candidates over its bases are `ds`. -/
structure Survives (p : Pruner) (r : Candidate) (ds : List Candidate) (s : Candidate) : Prop where
  bases : s.bases = r.bases
  pruneable : s.pruneable = r.pruneable
  edges : s.edges = r.edges
  alone : ds = [] → s = r
  reselected : ds ≠ [] → (∃ d ∈ r :: ds, d.isSelected) → (p.select (r.gather p.policy ds)).result = .ok s
  unselected : ds ≠ [] → (∀ d ∈ r :: ds, d.cheapest = none) →
    s = r.gather p.policy ds ∧ s.cheapest = none ∧ s.size = r.size

structure Gathered (p : Pruner) (rs : List Candidate) (m : Merging) : Prop where
  bases : m.kept.map Candidate.bases = (rs.map Candidate.bases).eraseDups
  kept : ∀ s ∈ m.kept, ∃ r ds, rs.filter (·.bases = s.bases) = r :: ds ∧ s = r.gather p.policy ds
  pending : ∀ b, b ∈ m.pending ↔
    1 < (rs.filter (·.bases = b)).length ∧ ∃ q ∈ rs.filter (·.bases = b), q.isSelected

namespace Pruner

variable {p : Pruner} {r d : Candidate} {ds : List Candidate}

theorem absorb_hold (h : Holding) : p.absorb (r.hold h) d = r.hold (h.merge p.policy r d.paths) := by
  have hlists (ps : List Path) : lists ps = fun q : Path => decide (q.id ∈ ps.map Path.id) := by
    funext q
    rw [Bool.eq_iff_iff]
    simp [lists]
  simp only [absorb, Holding.merge, hlists]
  rfl

theorem foldl_absorb : ds.foldl p.absorb r = r.gather p.policy ds := by
  suffices h : ∀ h : Holding, ds.foldl p.absorb (r.hold h) =
      r.hold ((ds.map Candidate.paths).foldl (Holding.merge p.policy r) h) from
    h ⟨r.paths, r.cheapest, r.unordered⟩
  induction ds with
  | nil => intro h; rfl
  | cons d ds ih =>
    intro h
    rw [List.foldl_cons, absorb_hold, ih]
    rfl

theorem gather_append : r.gather p.policy (ds ++ [d]) = p.absorb (r.gather p.policy ds) d := by
  rw [← foldl_absorb, ← foldl_absorb, List.foldl_append]
  rfl

theorem gather_isSelected (h : (r.gather p.policy ds).isSelected) : r.isSelected := by
  induction ds using List.reverseRecOn with
  | nil => exact h
  | append_singleton ds d ih =>
    apply ih
    rw [gather_append, Candidate.isSelected, Option.isSome_iff_exists] at h
    obtain ⟨c, hc⟩ := h
    rw [Candidate.isSelected, (Option.filter_eq_some_iff.mp hc).1]
    rfl

end Pruner

namespace Gathered

variable {p : Pruner} {task : MergeTask} {m : Merging} {d : Candidate} {rs : List Candidate}

theorem nodup (h : Gathered p rs m) : (m.kept.map Candidate.bases).Nodup := h.bases ▸ nodup_eraseDups _

theorem mem_bases (h : Gathered p rs m) {s : Candidate} (hs : s ∈ m.kept) : s.bases ∈ rs.map Candidate.bases := by
  rw [← List.mem_eraseDups, ← h.bases]
  exact List.mem_map_of_mem hs

theorem filter_append_ne {b : BaseSet} (h : b ≠ d.bases) :
    (rs ++ [d]).filter (·.bases = b) = rs.filter (·.bases = b) := by
  simp [List.filter_append, h.symm]

theorem filter_append_eq : (rs ++ [d]).filter (·.bases = d.bases) = rs.filter (·.bases = d.bases) ++ [d] := by
  simp [List.filter_append]

theorem append_new (h : Gathered p rs m) (hnew : ∀ r ∈ m.kept, r.bases ≠ d.bases) :
    Gathered p (rs ++ [d]) { m with kept := m.kept ++ [d] } := by
  have hd : d.bases ∉ rs.map Candidate.bases := by
    rw [← List.mem_eraseDups, ← h.bases]
    intro hd
    obtain ⟨r, hr, hb⟩ := List.mem_map.mp hd
    exact hnew r hr hb
  have hnil : rs.filter (·.bases = d.bases) = [] := by
    apply List.filter_eq_nil_iff.mpr
    intro r hr hb
    exact hd (List.mem_map.mpr ⟨r, hr, by simpa using hb⟩)
  refine ⟨?_, ?_, ?_⟩
  · simp only [List.map_append, List.map_cons, List.map_nil, h.bases]
    rw [eraseDups_append_of_not_mem hd]
  · dsimp only
    rw [List.forall_mem_append, List.forall_mem_singleton]
    constructor
    · intro s hs
      rw [filter_append_ne (hnew s hs)]
      exact h.kept s hs
    · rw [filter_append_eq, hnil]
      exact ⟨d, [], rfl, rfl⟩
  · intro b
    by_cases hb : b = d.bases
    · rw [hb, h.pending, filter_append_eq, hnil]
      simp
    · rw [h.pending, filter_append_ne hb]

theorem pending_absorb {q r : Candidate} {ds : List Candidate} (h : Gathered p rs m)
    (hq : rs.filter (·.bases = d.bases) = q :: ds) (hrq : r = q.gather p.policy ds) :
    d.bases ∈ (if r.isSelected || d.isSelected then m.pending ++ [d.bases] else m.pending) ↔
      1 < ((rs ++ [d]).filter (·.bases = d.bases)).length ∧
        ∃ t ∈ (rs ++ [d]).filter (·.bases = d.bases), t.isSelected := by
  have hpend := h.pending d.bases
  rw [hq] at hpend
  rw [filter_append_eq, hq]
  have hlen : 1 < (q :: ds ++ [d]).length := by simp
  by_cases hsel : r.isSelected || d.isSelected
  · have hex : ∃ t ∈ q :: ds ++ [d], t.isSelected := by
      rcases Bool.or_eq_true_iff.mp hsel with hr | hd
      · rw [hrq] at hr
        exact ⟨q, by simp, Pruner.gather_isSelected hr⟩
      · exact ⟨d, by simp, hd⟩
    rw [if_pos hsel]
    exact iff_of_true (by simp) ⟨hlen, hex⟩
  · rw [if_neg hsel, hpend]
    simp only [Bool.or_eq_true, not_or] at hsel
    constructor
    · rintro ⟨-, t, ht, htsel⟩
      exact ⟨hlen, t, List.mem_append_left _ ht, htsel⟩
    · rintro ⟨-, t, ht, htsel⟩
      rcases List.mem_append.mp ht with ht | ht
      · refine ⟨?_, t, ht, htsel⟩
        cases ds with
        | nil =>
          -- the only candidate so far is `r` itself
          rw [List.mem_singleton.mp ht] at htsel
          rw [hrq] at hsel
          exact absurd htsel hsel.1
        | cons e es => simp
      · rw [List.mem_singleton.mp ht] at htsel
        exact absurd htsel hsel.2

theorem kept_absorb {q r : Candidate} {ds xs ys : List Candidate} (h : Gathered p rs m)
    (hkept : m.kept = xs ++ r :: ys) (hr : r.bases = d.bases)
    (hq : rs.filter (·.bases = d.bases) = q :: ds) (hrq : r = q.gather p.policy ds) :
    ∀ s ∈ xs ++ p.absorb r d :: ys, ∃ r ds,
      (rs ++ [d]).filter (·.bases = s.bases) = r :: ds ∧ s = r.gather p.policy ds := by
  have hrest : ∀ s ∈ xs ++ ys, ∃ r ds,
      (rs ++ [d]).filter (·.bases = s.bases) = r :: ds ∧ s = r.gather p.policy ds := by
    intro s hs
    have hmem : s ∈ m.kept ∧ s.bases ≠ d.bases := by
      have hn := h.nodup
      rw [hkept, List.map_append, List.map_cons, List.nodup_middle, List.nodup_cons, ← List.map_append] at hn
      refine ⟨?_, fun hb => hn.1 (List.mem_map.mpr ⟨s, hs, hb.trans hr.symm⟩)⟩
      rw [hkept, List.mem_append, List.mem_cons]
      rw [List.mem_append] at hs
      tauto
    rw [filter_append_ne hmem.2]
    exact h.kept s hmem.1
  rw [List.forall_mem_append] at hrest ⊢
  rw [List.forall_mem_cons]
  refine ⟨hrest.1, ⟨q, ds ++ [d], ?_, ?_⟩, hrest.2⟩
  · rw [Pruner.absorb_bases, hr, filter_append_eq, hq]
    rfl
  · rw [Pruner.gather_append, ← hrq]

theorem receive (h : Gathered p rs m) : Gathered p (rs ++ [d]) (p.receive task m d) := by
  rcases p.receive_cases task m d with ⟨hnew, he⟩ | ⟨xs, r, ys, hkept, hr, -, he⟩
  · rw [he]
    exact h.append_new hnew
  · rw [he]
    have hrm : r ∈ m.kept := by simp [hkept]
    obtain ⟨q, ds, hq, hrq⟩ := h.kept r hrm
    rw [hr] at hq
    refine ⟨?_, h.kept_absorb hkept hr hq hrq, ?_⟩
    · have hmem : d.bases ∈ rs.map Candidate.bases := hr ▸ h.mem_bases hrm
      have hmap : (rs ++ [d]).map Candidate.bases = rs.map Candidate.bases ++ [d.bases] := by simp
      rw [hmap, eraseDups_append_of_mem hmem, ← h.bases, hkept]
      simp
    · intro b
      by_cases hb : b = d.bases
      · rw [hb]
        exact h.pending_absorb hq hrq
      · rw [filter_append_ne hb, ← h.pending]
        dsimp only
        split <;> simp [hb]

end Gathered

theorem gathered_foldl (p : Pruner) (task : MergeTask) (rs : List Candidate) :
    Gathered p rs (rs.foldl (p.receive task) {}) := by
  induction rs using List.reverseRecOn with
  | nil => exact ⟨rfl, by simp, by simp⟩
  | append_singleton rs d ih =>
    rw [List.foldl_append]
    exact ih.receive

namespace Pruner

variable {p : Pruner} {b : BaseSet} {pending : List BaseSet} {rs out : List Candidate}

theorem foldlM_reselect_ok (hn : (rs.map Candidate.bases).Nodup) (hp : pending.Nodup)
    (hok : (pending.foldlM p.reselect rs).result = .ok out) :
    out.map Candidate.bases = rs.map Candidate.bases ∧
      ∀ s ∈ out, ∃ r ∈ rs, if r.bases ∈ pending then (p.select r).result = .ok s else s = r := by
  induction pending generalizing rs with
  | nil =>
    cases hok
    exact ⟨rfl, fun s hs => ⟨s, hs, rfl⟩⟩
  | cons b bs ih =>
    obtain ⟨hb, hbs⟩ := List.nodup_cons.mp hp
    rw [List.foldlM_cons, Run.bind_ok_iff] at hok
    obtain ⟨ss, hss, hok⟩ := hok
    rcases reselect_ok hss with ⟨hnone, rfl⟩ | ⟨xs, r, ys, t, rfl, rfl, hys, ht, rfl⟩
    · obtain ⟨hmap, hout⟩ := ih hn hbs hok
      refine ⟨hmap, fun s hs => ?_⟩
      obtain ⟨r, hr, hrs⟩ := hout s hs
      exact ⟨r, hr, by simpa [hnone r hr] using hrs⟩
    · have hsame : (xs ++ t :: ys).map Candidate.bases = (xs ++ r :: ys).map Candidate.bases := by
        simp [select_bases ht]
      obtain ⟨hmap, hout⟩ := ih (hsame ▸ hn) hbs hok
      refine ⟨hmap.trans hsame, fun s hs => ?_⟩
      obtain ⟨q, hq, hqs⟩ := hout s hs
      have hrest : q.bases ≠ r.bases → q ∈ xs ++ r :: ys →
          ∃ r' ∈ xs ++ r :: ys, if r'.bases ∈ r.bases :: bs then (p.select r').result = .ok s else s = r' :=
        fun hne hmem => ⟨q, hmem, by simpa [hne] using hqs⟩
      rw [List.map_append, List.nodup_append] at hn
      rcases List.mem_append.mp hq with hq | hq
      · have hne := hn.2.2 q.bases (List.mem_map_of_mem hq) r.bases (by simp)
        exact hrest hne (List.mem_append_left _ hq)
      · rcases List.mem_cons.mp hq with rfl | hq
        · -- `r` has been selected, and its bases do not come up again
          rw [select_bases ht, if_neg hb] at hqs
          exact ⟨r, by simp, by simpa [hqs] using ht⟩
        · exact hrest (hys q hq) (by simp [hq])

theorem exists_reselect (h : ∀ r ∈ rs, r.bases = b → ∃ s, (p.select r).result = .ok s) :
    ∃ out, (p.reselect rs b).result = .ok out := by
  unfold reselect
  cases hl : lastOver? b rs with
  | none => exact ⟨rs, rfl⟩
  | some r =>
    obtain ⟨hb, xs, ys, rfl, -⟩ := lastOver?_eq_some_iff.mp hl
    obtain ⟨s, hs⟩ := h r (by simp) hb
    exact ⟨_, Run.bind_ok_iff.mpr ⟨s, hs, rfl⟩⟩

theorem exists_foldlM_reselect (hp : pending.Nodup)
    (h : ∀ r ∈ rs, r.bases ∈ pending → ∃ s, (p.select r).result = .ok s) :
    ∃ out, (pending.foldlM p.reselect rs).result = .ok out := by
  induction pending generalizing rs with
  | nil => exact ⟨rs, rfl⟩
  | cons b bs ih =>
    obtain ⟨hb, hbs⟩ := List.nodup_cons.mp hp
    have hb' : ∀ r ∈ rs, r.bases = b → ∃ s, (p.select r).result = .ok s := by
      intro r hr hrb
      exact h r hr (by simp [hrb])
    obtain ⟨ss, hss⟩ := exists_reselect hb'
    have hrest : ∀ r ∈ rs, r.bases ∈ bs → ∃ s, (p.select r).result = .ok s :=
      fun r hr hrb => h r hr (List.mem_cons_of_mem _ hrb)
    have hnext : ∀ r ∈ ss, r.bases ∈ bs → ∃ s, (p.select r).result = .ok s := by
      rcases reselect_ok hss with ⟨-, rfl⟩ | ⟨xs, r, ys, t, rfl, rfl, -, ht, rfl⟩
      · exact hrest
      · apply forall_mem_replace hrest
        intro htb
        rw [select_bases ht] at htb
        exact absurd htb hb
    obtain ⟨out, hout⟩ := ih hbs hnext
    exact ⟨out, by rw [List.foldlM_cons, Run.bind_ok_iff]; exact ⟨ss, hss, hout⟩⟩

end Pruner

namespace Survives

variable {p : Pruner} {r s t : Candidate} {ds : List Candidate}

theorem of_select (hne : ds ≠ []) (hsel : ∃ d ∈ r :: ds, d.isSelected)
    (hs : (p.select (r.gather p.policy ds)).result = .ok s) : Survives p r ds s := by
  have hs' := hs
  obtain ⟨c, j, -, -, rfl⟩ := Pruner.select_ok_iff.mp hs
  refine ⟨rfl, rfl, rfl, fun h => absurd h hne, fun _ _ => hs', fun _ hnone => ?_⟩
  obtain ⟨d, hd, hdsel⟩ := hsel
  simp [Candidate.isSelected, hnone d hd] at hdsel

theorem gather (h : ds = [] ∨ ∀ d ∈ r :: ds, ¬ d.isSelected) : Survives p r ds (r.gather p.policy ds) := by
  refine ⟨rfl, rfl, rfl, ?_, ?_, ?_⟩
  · rintro rfl
    rfl
  · rintro hne ⟨d, hd, hsel⟩
    exact absurd hsel (h.resolve_left hne d hd)
  · intro hne hnone
    refine ⟨rfl, ?_, rfl⟩
    rw [← Option.not_isSome_iff_eq_none]
    intro hsel
    have hr : r.isSelected := Pruner.gather_isSelected hsel
    simp [Candidate.isSelected, hnone r] at hr

theorem unique (hs : Survives p r ds s) (ht : Survives p r ds t) : s = t := by
  by_cases hne : ds = []
  · rw [hs.alone hne, ht.alone hne]
  by_cases hsel : ∃ d ∈ r :: ds, d.isSelected
  · have h := hs.reselected hne hsel
    rw [ht.reselected hne hsel] at h
    exact (Except.ok.inj h).symm
  · have hnone : ∀ d ∈ r :: ds, d.cheapest = none := by
      simpa [Candidate.isSelected] using hsel
    rw [(hs.unselected hne hnone).1, (ht.unselected hne hnone).1]

end Survives

/-- `out` has one candidate for each group of `rs` over the same bases, in the order of their firsts. -/
structure Grouped (p : Pruner) (rs out : List Candidate) : Prop where
  bases : out.map Candidate.bases = (rs.map Candidate.bases).eraseDups
  survives : ∀ s ∈ out, ∃ r ds, rs.filter (·.bases = s.bases) = r :: ds ∧ Survives p r ds s

theorem Grouped.unique {p : Pruner} {rs out out' : List Candidate} (h : Grouped p rs out)
    (h' : Grouped p rs out') : out = out' := by
  apply eq_of_map_eq (h.bases.trans h'.bases.symm)
  intro s hs t ht hst
  obtain ⟨r, ds, hr, hsurv⟩ := h.survives s hs
  obtain ⟨r', ds', hr', hsurv'⟩ := h'.survives t ht
  rw [hst, hr'] at hr
  obtain ⟨rfl, rfl⟩ := List.cons.inj hr
  exact hsurv.unique hsurv'

namespace Gathered

variable {p : Pruner} {m : Merging} {r : Candidate} {ds rs out : List Candidate}

theorem mem_pending_iff {b : BaseSet} (h : Gathered p rs m) (hr : rs.filter (·.bases = b) = r :: ds) :
    b ∈ m.pending ↔ ds ≠ [] ∧ ∃ d ∈ r :: ds, d.isSelected := by
  rw [h.pending, hr, List.length_cons, Nat.lt_add_left_iff_pos, List.length_pos_iff]

theorem resolve (h : Gathered p rs m) (hok : (p.resolve m).result = .ok out) : Grouped p rs out := by
  rw [Pruner.resolve_result] at hok
  obtain ⟨hmap, hout⟩ := Pruner.foldlM_reselect_ok h.nodup (nodup_eraseDups _) hok
  refine ⟨hmap.trans h.bases, fun s hs => ?_⟩
  obtain ⟨q, hq, hqs⟩ := hout s hs
  obtain ⟨r, ds, hr, hqr⟩ := h.kept q hq
  have hpending := h.mem_pending_iff hr
  rw [← List.mem_eraseDups] at hpending
  split_ifs at hqs with hmem
  · rw [Pruner.select_bases hqs]
    obtain ⟨hne, hsel⟩ := hpending.mp hmem
    exact ⟨r, ds, hr, Survives.of_select hne hsel (hqr ▸ hqs)⟩
  · rw [hqs]
    refine ⟨r, ds, hr, ?_⟩
    rw [hqr]
    apply Survives.gather
    by_cases hne : ds = []
    · exact .inl hne
    · exact .inr fun d hd hsel => hmem (hpending.mpr ⟨hne, d, hd, hsel⟩)

theorem exists_resolve (h : Gathered p rs m) (hout : Grouped p rs out) :
    ∃ out', (p.resolve m).result = .ok out' := by
  rw [Pruner.resolve_result]
  apply Pruner.exists_foldlM_reselect (nodup_eraseDups _)
  intro q hq hmem
  obtain ⟨r, ds, hr, hqr⟩ := h.kept q hq
  obtain ⟨hne, hsel⟩ := (h.mem_pending_iff hr).mp (List.mem_eraseDups.mp hmem)
  obtain ⟨s, hs, hsb⟩ : ∃ s ∈ out, s.bases = q.bases := by
    rw [← List.mem_map, hout.bases, ← h.bases]
    exact List.mem_map_of_mem hq
  obtain ⟨r', ds', hr', hsurv⟩ := hout.survives s hs
  rw [hsb, hr] at hr'
  obtain ⟨rfl, rfl⟩ := List.cons.inj hr'
  rw [hqr]
  exact ⟨s, hsurv.reselected hne hsel⟩

end Gathered

namespace Pruner

variable {p : Pruner} {rs out : List Candidate}

theorem dedup_result_of_not_verify (hv : p.options.verify = false) :
    (p.dedup rs).result = (p.resolve (rs.foldl (p.receive .deduplicate) {})).result := by
  rw [dedup_result, bind_checked_of_not_verify hv]

theorem resolve_ok_iff_grouped :
    (p.resolve (rs.foldl (p.receive .deduplicate) {})).result = .ok out ↔ Grouped p rs out := by
  have hg := gathered_foldl p .deduplicate rs
  constructor
  · exact hg.resolve
  · intro h
    obtain ⟨out', hok⟩ := hg.exists_resolve h
    rw [hok, (hg.resolve hok).unique h]

theorem dedup_ok_iff_grouped (hv : p.options.verify = false) :
    (p.dedup rs).result = .ok out ↔ Grouped p rs out := by
  rw [dedup_result_of_not_verify hv]
  exact resolve_ok_iff_grouped

theorem dedup_groups_chosen : ({} : Pruner).options.verify = false ∧
    Grouped {} (Sample.chosen :: Sample.offers) [Sample.chosen] :=
  ⟨rfl, (dedup_ok_iff_grouped rfl).mp rfl⟩

end Pruner
end JoinLevel
