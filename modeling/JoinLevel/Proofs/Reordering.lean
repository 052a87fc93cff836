import JoinLevel.Proofs.Optimum

namespace JoinLevel

def Untied (ps : List Path) : Prop := ∀ q ∈ ps, ∀ w ∈ ps, q.cost == w.cost → q = w

namespace Untied

variable {ps qs : List Path}

theorem subset (h : Untied ps) (hqs : qs ⊆ ps) : Untied qs := fun q hq w hw => h q (hqs hq) w (hqs hw)

theorem minOn?_perm (h : Untied ps) (hperm : qs.Perm ps) : qs.minOn? Path.cost = ps.minOn? Path.cost := by
  cases hc : ps.minOn? Path.cost with
  | none =>
    rw [minOn?_cost_eq_none_iff] at hc ⊢
    rwa [hc, List.perm_nil] at hperm
  | some c =>
    have hcps : c ∈ ps := List.minOn?_mem hc
    have hcqs : c ∈ qs := hperm.mem_iff.mpr hcps
    cases hd : qs.minOn? Path.cost with
    | none =>
      rw [minOn?_cost_eq_none_iff.mp hd] at hcqs
      cases hcqs
    | some d =>
      have hdps : d ∈ ps := hperm.mem_iff.mp (List.minOn?_mem hd)
      have htie : d.cost == c.cost := Cost.beq_iff_le.mpr ⟨cost_le_of_minOn? hd hcqs, cost_le_of_minOn? hc hdps⟩
      rw [h d hdps c hcps htie]

theorem leaders_perm (h : Untied ps) (hperm : qs.Perm ps) : (leaders qs).Perm (leaders ps) := by
  rw [List.perm_ext_iff_of_nodup (nodup_leaders qs) (nodup_leaders ps)]
  intro w
  have hgroup : Untied (ps.filter (·.order = w.order)) := h.subset (List.filter_subset_self ps)
  rw [mem_leaders_iff, mem_leaders_iff, hgroup.minOn?_perm (hperm.filter _)]

end Untied

section Ties

variable {ps qs : List Path} {q w : Path}

theorem leaders_order_perm (h : qs.Perm ps) : ((leaders qs).map Path.order).Perm ((leaders ps).map Path.order) := by
  rw [leaders, leaders, minOn?_picks.map_digest, minOn?_picks.map_digest]
  exact eraseDups_perm (h.map _)

theorem leader_le (hw : w ∈ leaders ps) (hq : q ∈ ps) (ho : q.order = w.order) : w.cost ≤ q.cost :=
  cost_le_of_minOn? (mem_leaders_iff.mp hw) (List.mem_filter.mpr ⟨hq, decide_eq_true ho⟩)

theorem leader_cost_beq (h : qs.Perm ps) (hq : q ∈ leaders qs) (hw : w ∈ leaders ps) (ho : q.order = w.order) :
    q.cost == w.cost := by
  apply Cost.beq_iff_le.mpr
  constructor
  · exact leader_le hq (h.mem_iff.mpr (leaders_subset hw)) ho.symm
  · exact leader_le hw (h.mem_iff.mp (leaders_subset hq)) ho

end Ties

theorem count_bases (rs : List Candidate) (b : BaseSet) :
    (rs.map Candidate.bases).count b = (rs.filter (·.bases = b)).length := by
  rw [List.count_eq_countP, List.countP_map, List.countP_eq_length_filter]
  congr 1

structure TieFree (rs : List Candidate) : Prop where
  ids : ((rs.flatMap Candidate.paths).map Path.id).Nodup
  costs : ∀ b, Untied (offers rs b)
  pruneable : ∀ r ∈ rs, ∀ s ∈ rs, s.bases = r.bases → s.pruneable = r.pruneable

structure Matched (R : Candidate → Candidate → Prop) (out out' : List Candidate) : Prop where
  bases : (out'.map Candidate.bases).Perm (out.map Candidate.bases)
  related : ∀ s ∈ out, ∀ s' ∈ out', s'.bases = s.bases → R s s'

/-- `r'` can be taken for `r` before a choice is made among the paths. -/
structure Rearranged (r r' : Candidate) : Prop where
  bases : r'.bases = r.bases
  pruneable : r'.pruneable = r.pruneable
  paths : r'.paths.Perm r.paths

structure Agreeing (s s' : Candidate) : Prop where
  bases : s'.bases = s.bases
  paths : s'.paths.Perm s.paths
  cheapest : s'.cheapest = s.cheapest
  unordered : s'.unordered = s.unordered
  size : s'.size = s.size

namespace Rearranged

variable {p : Pruner} {r r' s : Candidate} {c : Path} {size : Float}

theorem cheapestUnordered_eq (h : Rearranged r r') (hu : Untied r.paths) :
    r'.cheapestUnordered? = r.cheapestUnordered? := by
  have hunordered : Untied (r.paths.filter Path.isUnordered) := hu.subset (List.filter_subset_self _)
  exact hunordered.minOn?_perm (h.paths.filter _)

theorem eraseP_id (h : Rearranged r r') (hids : (r.paths.map Path.id).Nodup) (i : PathId) :
    (r'.paths.eraseP (·.id = i)).Perm (r.paths.eraseP (·.id = i)) := by
  apply List.Perm.symm
  apply List.Perm.eraseP _ _ h.paths.symm
  apply (List.pairwise_map.mp hids).imp
  intro q w hne hq hw
  exact hne ((of_decide_eq_true hq).trans (of_decide_eq_true hw).symm)

theorem find_id (h : Rearranged r r') (hids : (r.paths.map Path.id).Nodup) {u : Path} (hu : u ∈ r.paths) :
    r'.paths.find? (·.id = u.id) = r.paths.find? (·.id = u.id) := by
  have hid : Identified r.paths := identified_of_nodup hids
  rw [hid.find_id (List.Subset.refl _) hu, hid.find_id h.paths.subset (h.paths.mem_iff.mpr hu)]

theorem choose (h : Rearranged r r') (hids : (r.paths.map Path.id).Nodup) (hu : Untied r.paths) :
    Agreeing (p.choose r c size) (p.choose r' c size) := by
  have hcu := h.cheapestUnordered_eq hu
  have hbeaten : p.beaten? r' c = p.beaten? r c := by simp only [Pruner.beaten?, hcu, h.pruneable]
  refine ⟨h.bases, ?_, rfl, ?_, rfl⟩
  · simp only [Pruner.choose, hbeaten]
    cases p.beaten? r c with
    | none => exact h.paths
    | some u => exact h.eraseP_id hids u.id
  · simp only [Pruner.choose, hbeaten, hcu]
    cases p.beaten? r c with
    | some u => rfl
    | none =>
      cases hq : r.cheapestUnordered? with
      | none => rfl
      | some u => exact h.find_id hids (Candidate.cheapestUnordered?_mem hq).1

theorem select (h : Rearranged r r') (hm : p.model = .standard) (hids : (r.paths.map Path.id).Nodup)
    (hu : Untied r.paths) (hs : (p.select r).result = .ok s) :
    ∃ s', (p.select r').result = .ok s' ∧ Agreeing s s' := by
  obtain ⟨c, j, hc, hj, rfl⟩ := Pruner.select_ok_iff.mp hs
  have hc' : p.model.cheapest? r'.paths = some c := by
    rw [← hc, hm]
    exact hu.minOn?_perm h.paths
  exact ⟨_, Pruner.select_ok_iff.mpr ⟨c, j, hc', hj, rfl⟩, h.choose hids hu⟩

end Rearranged

namespace Candidate

variable {r r' : Candidate} {ds ds' : List Candidate}

theorem group_eq_of_perm (h : (r' :: ds').Perm [r]) : r' = r ∧ ds' = [] := List.cons.inj (List.perm_singleton.mp h)

theorem ne_nil_of_perm (h : (r' :: ds').Perm (r :: ds)) (hds : ds ≠ []) : ds' ≠ [] := by
  rintro rfl
  exact hds (List.cons.inj (List.perm_singleton.mp h.symm)).2

theorem pooledPaths_perm (h : (r' :: ds').Perm (r :: ds)) (hu : Untied ((r :: ds).flatMap paths)) :
    (r'.pooledPaths ds').Perm (r.pooledPaths ds) := by
  by_cases hds : ds = []
  · rw [hds] at h
    obtain ⟨rfl, rfl⟩ := group_eq_of_perm h
    rw [hds]
  · rw [pooledPaths_of_ne_nil hds, pooledPaths_of_ne_nil (ne_nil_of_perm h hds)]
    exact hu.leaders_perm (h.flatMap_right _)

end Candidate

namespace TieFree

variable {rs rs' : List Candidate} {r : Candidate}

theorem of_perm (h : TieFree rs) (hperm : rs'.Perm rs) : TieFree rs' where
  ids := ((hperm.flatMap_right _).map _).nodup_iff.mpr h.ids
  costs b := (h.costs b).subset ((hperm.filter _).flatMap_right _).subset
  pruneable r hr s hs := h.pruneable r (hperm.mem_iff.mp hr) s (hperm.mem_iff.mp hs)

theorem nodup_paths (h : TieFree rs) (hr : r ∈ rs) : r.paths.Nodup := by
  have hnodup : (rs.flatMap Candidate.paths).Nodup := .of_map Path.id h.ids
  exact (List.nodup_flatMap.mp hnodup).1 r hr

end TieFree

def Regathered (p : Pruner) (rs : List Candidate) (s s' : Candidate) : Prop :=
  ∃ r ds r' ds', rs.filter (·.bases = s.bases) = r :: ds ∧ (r' :: ds').Perm (r :: ds) ∧
    s = r.gather p.policy ds ∧ s' = r'.gather p.policy ds'

namespace Regathered

variable {p : Pruner} {rs : List Candidate} {s s' : Candidate}

theorem subset_offers (h : Regathered p rs s s') (hp : p.policy = .dominance) : s.paths ⊆ offers rs s.bases := by
  obtain ⟨r, ds, r', ds', hr, -, hs, -⟩ := h
  rw [offers, hr, hs, Pruner.gather_paths hp]
  exact Candidate.pooledPaths_subset

theorem nodup_ids (h : Regathered p rs s s') (hp : p.policy = .dominance) (hfree : TieFree rs) :
    (s.paths.map Path.id).Nodup := by
  have hsub : s.paths ⊆ rs.flatMap Candidate.paths := fun q hq => offers_subset (h.subset_offers hp hq)
  have hnodup : s.paths.Nodup := by
    obtain ⟨r, ds, r', ds', hr, -, rfl, -⟩ := h
    rw [Pruner.gather_paths hp]
    -- a candidate that stands alone keeps its list as it came, so here the input itself must list no path twice
    cases ds with
    | nil => exact hfree.nodup_paths (List.mem_of_mem_filter (hr ▸ List.mem_cons_self))
    | cons d ds => exact nodup_leaders _
  apply hnodup.map_on
  intro q hq w hw hid
  exact identified_of_nodup hfree.ids q (hsub hq) w (hsub hw) hid

theorem rearranged (h : Regathered p rs s s') (hp : p.policy = .dominance) (hfree : TieFree rs) :
    Rearranged s s' := by
  obtain ⟨r, ds, r', ds', hr, hperm, rfl, rfl⟩ := h
  have hgroup : ∀ q ∈ r :: ds, q ∈ rs ∧ q.bases = r.bases := by
    intro q hq
    rw [← hr, List.mem_filter] at hq
    exact ⟨hq.1, of_decide_eq_true hq.2⟩
  obtain ⟨hr', hb⟩ := hgroup r' (hperm.mem_iff.mp List.mem_cons_self)
  refine ⟨hb, hfree.pruneable r (hgroup r List.mem_cons_self).1 r' hr' hb, ?_⟩
  have hoffers : Untied ((r :: ds).flatMap Candidate.paths) := hr ▸ hfree.costs (r.gather p.policy ds).bases
  rw [Pruner.gather_paths hp, Pruner.gather_paths hp]
  exact Candidate.pooledPaths_perm hperm hoffers

theorem select {t : Candidate} (h : Regathered p rs s s') (hm : p.model = .standard) (hp : p.policy = .dominance)
    (hfree : TieFree rs) (ht : (p.select s).result = .ok t) :
    ∃ t', (p.select s').result = .ok t' ∧ Agreeing t t' :=
  (h.rearranged hp hfree).select hm (h.nodup_ids hp hfree) ((hfree.costs s.bases).subset (h.subset_offers hp)) ht

theorem alone (h : Regathered p rs s s') (hcount : (rs.map Candidate.bases).count s.bases = 1) : s' = s := by
  obtain ⟨r, ds, r', ds', hr, hperm, rfl, rfl⟩ := h
  rw [count_bases, hr] at hcount
  obtain rfl : ds = [] := by simpa using hcount
  obtain ⟨rfl, rfl⟩ := Candidate.group_eq_of_perm hperm
  rfl

theorem tied (h : Regathered p rs s s') (hp : p.policy = .dominance)
    (hcount : 1 < (rs.map Candidate.bases).count s.bases) :
    (s'.paths.map Path.order).Perm (s.paths.map Path.order) ∧
      ∀ q ∈ s.paths, ∀ q' ∈ s'.paths, q'.order = q.order → q'.cost == q.cost := by
  obtain ⟨r, ds, r', ds', hr, hperm, rfl, rfl⟩ := h
  rw [count_bases, hr, List.length_cons, Nat.lt_add_left_iff_pos, List.length_pos_iff] at hcount
  have hoffers := hperm.flatMap_right Candidate.paths
  rw [Pruner.gather_paths hp, Pruner.gather_paths hp, Candidate.pooledPaths_of_ne_nil hcount,
    Candidate.pooledPaths_of_ne_nil (Candidate.ne_nil_of_perm hperm hcount)]
  exact ⟨leaders_order_perm hoffers, fun q hq q' hq' ho => leader_cost_beq hoffers hq' hq ho⟩

end Regathered

namespace Pruner

variable {p : Pruner} {rs rs' out : List Candidate}

theorem dedup_regathered (hrs : ∀ r ∈ rs, r.cheapest = none) (hperm : rs'.Perm rs) :
    ∃ kept kept', (p.dedup rs).result = .ok kept ∧ (p.dedup rs').result = .ok kept' ∧
      Matched (Regathered p rs) kept kept' := by
  obtain ⟨kept, hkept, hbases, hgather⟩ := dedup_of_unselected (p := p) hrs
  obtain ⟨kept', hkept', hbases', hgather'⟩ := dedup_of_unselected (p := p) fun r hr => hrs r (hperm.mem_iff.mp hr)
  refine ⟨kept, kept', hkept, hkept', ?_, ?_⟩
  · rw [hbases, hbases']
    exact eraseDups_perm (hperm.map _)
  · intro s hs s' hs' hb
    obtain ⟨r, ds, hr, hsr⟩ := hgather s hs
    obtain ⟨r', ds', hr', hsr'⟩ := hgather' s' hs'
    have hgroup : (r' :: ds').Perm (r :: ds) := by
      rw [← hr, ← hr', hb]
      exact hperm.filter _
    exact ⟨r, ds, r', ds', hr, hgroup, hsr, hsr'⟩

theorem finish_agreeing (hm : p.model = .standard) (hp : p.policy = .dominance) (hrs : ∀ r ∈ rs, r.cheapest = none)
    (hfree : TieFree rs) (hperm : rs'.Perm rs) (hout : (p.finish rs).result = .ok out) :
    ∃ out', (p.finish rs').result = .ok out' ∧ Matched Agreeing out out' := by
  obtain ⟨kept, kept', hkept, hkept', hmatch⟩ := dedup_regathered (p := p) hrs hperm
  rw [finish_of_dedup hm hkept] at hout
  rw [finish_of_dedup hm hkept']
  have hselected : ∀ s' ∈ kept', ∃ t', (p.select s').result = .ok t' := by
    intro s' hs'
    obtain ⟨s, hs, hb⟩ : ∃ s ∈ kept, s.bases = s'.bases := by
      rw [← List.mem_map, ← hmatch.bases.mem_iff]
      exact List.mem_map_of_mem hs'
    obtain ⟨t, -, ht⟩ := Run.exists_of_mem_left (Run.mapM_ok_iff.mp hout) hs
    obtain ⟨t', ht', -⟩ := (hmatch.related s hs s' hs' hb.symm).select hm hp hfree ht
    exact ⟨t', ht'⟩
  obtain ⟨out', hout'⟩ := Run.exists_mapM_ok_iff.mpr hselected
  refine ⟨out', hout', ?_, ?_⟩
  · rw [mapM_select_bases hout, mapM_select_bases hout']
    exact hmatch.bases
  · intro t ht t' ht' hb
    obtain ⟨s, hs, hst⟩ := Run.exists_of_mem_right (Run.mapM_ok_iff.mp hout) ht
    obtain ⟨s', hs', hst'⟩ := Run.exists_of_mem_right (Run.mapM_ok_iff.mp hout') ht'
    rw [select_bases hst, select_bases hst'] at hb
    obtain ⟨u', hu', hagree⟩ := (hmatch.related s hs s' hs' hb).select hm hp hfree hst
    rw [hst', Except.ok.injEq] at hu'
    rwa [hu']

/-- With ties the order of arrival decides which path is kept, but neither for which orders nor at what cost. -/
theorem arrival_order_immaterial (hm : p.model = .standard) (hp : p.policy = .dominance)
    (hrs : ∀ r ∈ rs, r.cheapest = none) (hperm : rs'.Perm rs) :
    (TieFree rs →
      ((∃ out, (p.finish rs).result = .ok out) ↔ ∃ out', (p.finish rs').result = .ok out') ∧
      ∀ out out', (p.finish rs).result = .ok out → (p.finish rs').result = .ok out' →
        Matched Agreeing out out') ∧
    ∃ kept kept', (p.dedup rs).result = .ok kept ∧ (p.dedup rs').result = .ok kept' ∧
      Matched (fun s s' =>
        ((rs.map Candidate.bases).count s.bases = 1 → s'.paths = s.paths) ∧
        (1 < (rs.map Candidate.bases).count s.bases →
          (s'.paths.map Path.order).Perm (s.paths.map Path.order) ∧
          ∀ q ∈ s.paths, ∀ q' ∈ s'.paths, q'.order = q.order → q'.cost == q.cost)) kept kept' := by
  constructor
  · intro hfree
    refine ⟨⟨?_, ?_⟩, ?_⟩
    · rintro ⟨out, hout⟩
      obtain ⟨out', hout', -⟩ := finish_agreeing hm hp hrs hfree hperm hout
      exact ⟨out', hout'⟩
    · rintro ⟨out', hout'⟩
      have hrs' : ∀ r ∈ rs', r.cheapest = none := fun r hr => hrs r (hperm.mem_iff.mp hr)
      obtain ⟨out, hout, -⟩ := finish_agreeing hm hp hrs' (hfree.of_perm hperm) hperm.symm hout'
      exact ⟨out, hout⟩
    · intro out out' hout hout'
      obtain ⟨ss, hss, hmatch⟩ := finish_agreeing hm hp hrs hfree hperm hout
      rw [hout', Except.ok.injEq] at hss
      rwa [hss]
  · obtain ⟨kept, kept', hkept, hkept', hmatch⟩ := dedup_regathered (p := p) hrs hperm
    refine ⟨kept, kept', hkept, hkept', hmatch.bases, ?_⟩
    intro s hs s' hs' hb
    have hsame := hmatch.related s hs s' hs' hb
    exact ⟨fun hcount => by rw [hsame.alone hcount], hsame.tied hp⟩

end Pruner

theorem Sample.offers_tieFree : TieFree offers where
  ids := by decide
  costs b := by
    apply Untied.subset _ offers_subset
    have hpaths : Sample.offers.flatMap Candidate.paths = [heapJoin, sortedJoin] := rfl
    rw [hpaths]
    intro q hq w hw htie
    simp only [List.mem_cons, List.not_mem_nil, or_false] at hq hw
    rcases hq with rfl | rfl <;> rcases hw with rfl | rfl
    · rfl
    · cases htie
    · cases htie
    · rfl
  pruneable := by simp [Sample.offers, candidate]

theorem Pruner.arrival_order_immaterial_reversed : ∃ s, (({} : Pruner).finish Sample.offers.reverse).result = .ok [s] ∧
    s.bases = Sample.chosen.bases ∧ s.paths.Perm Sample.chosen.paths ∧ s.cheapest = some Sample.sortedJoin := by
  have hunselected : ∀ r ∈ Sample.offers, r.cheapest = none := by simp [Sample.offers, Sample.candidate]
  obtain ⟨hfinish, -⟩ :=
    arrival_order_immaterial (p := {}) rfl rfl hunselected (List.reverse_perm Sample.offers)
  obtain ⟨hok, hmatch⟩ := hfinish Sample.offers_tieFree
  have hchosen : (({} : Pruner).finish Sample.offers).result = .ok [Sample.chosen] := rfl
  obtain ⟨out, hout⟩ := hok.mp ⟨_, hchosen⟩
  obtain ⟨hbases, hrelated⟩ := hmatch _ out hchosen hout
  obtain ⟨s, rfl, hs⟩ := List.map_eq_singleton_iff.mp (List.perm_singleton.mp hbases)
  have hagree := hrelated _ List.mem_cons_self s List.mem_cons_self hs
  exact ⟨s, hout, hs, hagree.paths, hagree.cheapest⟩

end JoinLevel
