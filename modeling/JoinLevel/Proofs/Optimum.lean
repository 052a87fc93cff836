import JoinLevel.Proofs.Pooling

namespace JoinLevel

section Optima

variable {ps : List Path} {q w : Path} {o : OutputOrder}

def optima (ps : List Path) : List Path := ps.filter fun q => ps.all fun w => q.cost ≤ w.cost

theorem mem_optima_iff : q ∈ optima ps ↔ q ∈ ps ∧ ∀ w ∈ ps, q.cost ≤ w.cost := by simp [optima]

theorem minOn?_eq_head?_optima (ps : List Path) : ps.minOn? Path.cost = (optima ps).head? := by
  cases hc : ps.minOn? Path.cost with
  | none =>
    rw [minOn?_cost_eq_none_iff.mp hc]
    rfl
  | some c =>
    obtain ⟨as, bs, hps, has⟩ := minOn?_cost_first hc
    symm
    rw [optima, List.head?_filter, List.find?_eq_some_iff_append]
    refine ⟨?_, as, bs, hps, ?_⟩
    · simpa using fun w hw => cost_le_of_minOn? hc hw
    · intro q hq
      have hcps : c ∈ ps := List.minOn?_mem hc
      have hall : ¬ ps.all (fun w => q.cost ≤ w.cost) = true := by
        intro hall
        have hqc : q.cost ≤ c.cost := by simpa using List.all_eq_true.mp hall c hcps
        exact Std.not_le.mpr (has q hq) hqc
      simpa using hall

theorem optima_filter_order (hw : w ∈ optima ps) (ho : w.order = o) :
    optima (ps.filter (·.order = o)) = (optima ps).filter (·.order = o) := by
  obtain ⟨hwps, hwle⟩ := mem_optima_iff.mp hw
  simp only [optima, List.filter_filter]
  apply List.filter_congr
  intro q _
  rw [Bool.eq_iff_iff]
  simp only [List.all_eq_true, List.mem_filter, Bool.and_eq_true, decide_eq_true_eq]
  constructor
  · rintro ⟨hle, hq⟩
    refine ⟨hq, fun v hv => ?_⟩
    exact Std.le_trans (hle w ⟨hwps, ho⟩) (hwle v hv)
  · rintro ⟨hq, hle⟩
    exact ⟨fun v hv => hle v hv.1, hq⟩

theorem minOn?_filter_order (hw : w ∈ optima ps) (ho : w.order = o) :
    (ps.filter (·.order = o)).minOn? Path.cost = (optima ps).find? (·.order = o) := by
  rw [minOn?_eq_head?_optima, optima_filter_order hw ho, List.head?_filter]

/-- Of the orders that reach the least cost the one that comes up first, and its first path of that cost. -/
def preferred? (ps : List Path) : Option Path :=
  (ps.find? fun q => (optima ps).any (·.order = q.order)).bind fun q => (optima ps).find? (·.order = q.order)

theorem all_leaders_le (ps : List Path) (q : Path) :
    (leaders ps).all (fun w => q.cost ≤ w.cost) = ps.all fun w => q.cost ≤ w.cost := by
  rw [Bool.eq_iff_iff, List.all_eq_true, List.all_eq_true]
  constructor
  · intro h w hw
    obtain ⟨v, hv, -, hvw⟩ := exists_leader_le hw
    have hqv : q.cost ≤ v.cost := by simpa using h v hv
    exact decide_eq_true (Std.le_trans hqv hvw)
  · exact fun h w hw => h w (leaders_subset hw)

theorem any_leader_optimal (ps : List Path) (o : OutputOrder) :
    ((ps.filter (·.order = o)).minOn? Path.cost).any (fun q => ps.all fun w => q.cost ≤ w.cost) =
      (optima ps).any (·.order = o) := by
  rw [Bool.eq_iff_iff, Option.any_eq_true, List.any_eq_true]
  constructor
  · rintro ⟨c, hc, hall⟩
    obtain ⟨hcps, hco⟩ := List.mem_filter.mp (List.minOn?_mem hc)
    exact ⟨c, List.mem_filter.mpr ⟨hcps, hall⟩, hco⟩
  · rintro ⟨w, hw, hwo⟩
    obtain ⟨c, hc⟩ : ∃ c, (optima ps).find? (·.order = o) = some c := by
      apply Option.isSome_iff_exists.mp
      exact List.find?_isSome.mpr ⟨w, hw, hwo⟩
    rw [minOn?_filter_order hw (by simpa using hwo)]
    exact ⟨c, hc, (List.mem_filter.mp (List.mem_of_find?_eq_some hc)).2⟩

theorem minOn?_leaders (ps : List Path) : (leaders ps).minOn? Path.cost = preferred? ps := by
  rw [minOn?_eq_head?_optima, optima, List.head?_filter]
  simp only [all_leaders_le]
  -- the leaders stand in the order of their orders, so the first optimal one has the first such order
  rw [leaders, digest, List.find?_filterMap, find?_eraseDups, List.find?_map]
  simp only [any_leader_optimal, Function.comp_def]
  rw [preferred?]
  cases hq : ps.find? fun q => (optima ps).any (·.order = q.order) with
  | none => rfl
  | some q =>
    obtain ⟨hany, -⟩ := List.find?_eq_some_iff_append.mp hq
    obtain ⟨w, hw, hwo⟩ := List.any_eq_true.mp hany
    exact minOn?_filter_order hw (by simpa using hwo)

end Optima

section Offers

variable {rs ss ds : List Candidate} {r : Candidate} {b : BaseSet} {q : Path}

def offers (rs : List Candidate) (b : BaseSet) : List Path := (rs.filter (·.bases = b)).flatMap Candidate.paths

theorem mem_offers_iff : q ∈ offers rs b ↔ ∃ r ∈ rs, r.bases = b ∧ q ∈ r.paths := by
  simp [offers, and_assoc]

theorem offers_append : offers (rs ++ ss) b = offers rs b ++ offers ss b := by
  rw [offers, List.filter_append, List.flatMap_append, offers, offers]

theorem offers_subset : offers rs b ⊆ rs.flatMap Candidate.paths := by
  intro q hq
  obtain ⟨r, hr, -, hqr⟩ := mem_offers_iff.mp hq
  exact List.mem_flatMap.mpr ⟨r, hr, hqr⟩

/-- The path that a level made of `rs` is to be left with over `b`. Only what is offered more than once is
merged, and merging moves a path to where its order came up first. -/
def optimum? (rs : List Candidate) (b : BaseSet) : Option Path :=
  if (rs.filter (·.bases = b)).length = 1 then (optima (offers rs b)).head? else preferred? (offers rs b)

theorem minOn?_pooledPaths (h : rs.filter (·.bases = b) = r :: ds) :
    (r.pooledPaths ds).minOn? Path.cost = optimum? rs b := by
  rw [optimum?, offers, h]
  cases ds with
  | nil => rw [if_pos List.length_singleton, ← minOn?_eq_head?_optima, List.flatMap_singleton, Candidate.pooledPaths]
  | cons d ds =>
    rw [if_neg (by simp), ← minOn?_leaders, Candidate.pooledPaths]

theorem optimum?_eq_none_iff : optimum? rs b = none ↔ offers rs b = [] := by
  rw [optimum?]
  split
  · rw [← minOn?_eq_head?_optima, minOn?_cost_eq_none_iff]
  · rw [← minOn?_leaders, minOn?_cost_eq_none_iff, leaders_eq_nil_iff]

theorem optimum?_mem_optima {w : Path} (h : optimum? rs b = some w) : w ∈ optima (offers rs b) := by
  rw [optimum?] at h
  split at h
  · exact List.mem_of_head? h
  · obtain ⟨q, -, hq⟩ := Option.bind_eq_some_iff.mp h
    exact List.mem_of_find?_eq_some hq

end Offers

namespace Pruner

variable {p : Pruner} {rs : List Candidate} {s t : Candidate}

theorem finish_result (hm : p.model = .standard) (hp : p.policy = .dominance) (hrs : ∀ r ∈ rs, r.cheapest = none) :
    ∃ kept : List Candidate, kept.map Candidate.bases = (rs.map Candidate.bases).eraseDups ∧
      (∀ s ∈ kept, s.paths ⊆ offers rs s.bases ∧ s.paths.minOn? Path.cost = optimum? rs s.bases) ∧
      (p.finish rs).result = (kept.mapM p.select).result := by
  obtain ⟨kept, hkept, hmap, hgather⟩ := dedup_of_unselected (p := p) hrs
  refine ⟨kept, hmap, fun s hs => ?_, ?_⟩
  · obtain ⟨r, ds, hr, hsr⟩ := hgather s hs
    have hpaths : s.paths = r.pooledPaths ds := hsr ▸ gather_paths hp
    rw [hpaths, offers, hr]
    exact ⟨Candidate.pooledPaths_subset, minOn?_pooledPaths hr⟩
  · exact finish_of_dedup hm hkept

theorem select_ok_iff_optimum (hm : p.model = .standard)
    (hs : s.paths.minOn? Path.cost = optimum? rs s.bases) : (p.select s).result = .ok t ↔
      ∃ w j, optimum? rs s.bases = some w ∧ w.join? = some j ∧ p.choose s w j.estimate = t := by
  rw [select_ok_iff, hm, ← hs]
  rfl

theorem exists_select_iff_optimum (hm : p.model = .standard)
    (hs : s.paths.minOn? Path.cost = optimum? rs s.bases) :
    (∃ t, (p.select s).result = .ok t) ↔ ∃ w j, optimum? rs s.bases = some w ∧ w.join? = some j := by
  rw [exists_select_iff_choosesJoin, ChoosesJoin, hm, ← hs]
  rfl

theorem select_error_optimum (hm : p.model = .standard) {v : Violation}
    (hs : s.paths.minOn? Path.cost = optimum? rs s.bases) (h : (p.select s).result = .error v) :
    offers rs s.bases = [] ∧ v = .noPaths s.bases ∨
      ∃ w, optimum? rs s.bases = some w ∧ w.join? = none ∧ v = .cheapestNotJoin s.bases w.id := by
  have hc : p.model.cheapest? s.paths = optimum? rs s.bases := hm ▸ hs
  have hreport : p.ChoiceReport s v := select_error_iff.mp h
  rwa [ChoiceReport, hc, optimum?_eq_none_iff] at hreport

theorem finish_finds_optimum (hm : p.model = .standard) (hp : p.policy = .dominance)
    (hrs : ∀ r ∈ rs, r.cheapest = none) :
    ((∃ out, (p.finish rs).result = .ok out) ↔
      ∀ b ∈ rs.map Candidate.bases, ∃ w j, optimum? rs b = some w ∧ w.join? = some j) ∧
    (∀ out, (p.finish rs).result = .ok out →
      List.Forall₂ (fun b s => s.bases = b ∧ ∃ w j, optimum? rs b = some w ∧ w.join? = some j ∧
        s.cheapest = some w ∧ s.size = j.estimate) (rs.map Candidate.bases).eraseDups out) ∧
    ∀ v, (p.finish rs).result = .error v → ∃ done b rest, (rs.map Candidate.bases).eraseDups = done ++ b :: rest ∧
      (∀ b' ∈ done, ∃ w j, optimum? rs b' = some w ∧ w.join? = some j) ∧
      (offers rs b = [] ∧ v = .noPaths b ∨
        ∃ w, optimum? rs b = some w ∧ w.join? = none ∧ v = .cheapestNotJoin b w.id) := by
  obtain ⟨kept, hmap, hkept, hfinish⟩ := finish_result hm hp hrs
  have hselect : ∀ s ∈ kept, (∃ t, (p.select s).result = .ok t) ↔
      ∃ w j, optimum? rs s.bases = some w ∧ w.join? = some j :=
    fun s hs => exists_select_iff_optimum hm (hkept s hs).2
  rw [hfinish, Run.exists_mapM_ok_iff, ← hmap]
  refine ⟨?_, ?_, ?_⟩
  · constructor
    · intro h b hb
      rw [← List.mem_eraseDups, ← hmap] at hb
      obtain ⟨s, hs, rfl⟩ := List.mem_map.mp hb
      exact (hselect s hs).mp (h s hs)
    · intro h s hs
      have hb : s.bases ∈ rs.map Candidate.bases := List.mem_map.mpr (exists_mem_of_eraseDups hmap hs)
      exact (hselect s hs).mpr (h s.bases hb)
  · intro out hout
    rw [List.forall₂_map_left_iff]
    refine List.Forall₂.imp ?_ ((List.forall₂_and_left kept out).mpr ⟨hkept, Run.mapM_ok_iff.mp hout⟩)
    rintro s t ⟨⟨-, hs⟩, hst⟩
    obtain ⟨w, j, hw, hj, rfl⟩ := (select_ok_iff_optimum hm hs).mp hst
    exact ⟨rfl, w, j, hw, hj, rfl, rfl⟩
  · intro v hv
    obtain ⟨xs, s, ys, rfl, hxs, hs⟩ := Run.mapM_error hv
    refine ⟨xs.map Candidate.bases, s.bases, ys.map Candidate.bases, by simp, ?_, ?_⟩
    · rw [List.forall_mem_map]
      exact fun x hx => (hselect x (List.mem_append_left _ hx)).mp (hxs x hx)
    · exact select_error_optimum hm (hkept s (by simp)).2 hs

end Pruner

def Sample.dearSortedJoin : Path := join ⟨12⟩ ⟨9⟩ (sortedOn 1 0) (scan ⟨1⟩ 1 ⟨1⟩ .unordered) (scan ⟨2⟩ 2 ⟨1⟩ .unordered)

def Sample.cheapHeapJoin : Path := join ⟨13⟩ ⟨8⟩ .unordered (scan ⟨1⟩ 1 ⟨1⟩ .unordered) (scan ⟨2⟩ 2 ⟨1⟩ .unordered)

def Sample.tied : List Candidate := [candidate [1, 2] [dearSortedJoin, cheapHeapJoin], candidate [2, 1] [sortedJoin]]

theorem Pruner.finish_finds_optimum_tied : ∃ s, (({} : Pruner).finish Sample.tied).result = .ok [s] ∧
    s.bases = .ofList [1, 2] ∧ s.cheapest = some Sample.sortedJoin ∧
    some s.size = Sample.sortedJoin.join?.map Join.estimate := by
  have hunselected : ∀ r ∈ Sample.tied, r.cheapest = none := by simp [Sample.tied, Sample.candidate]
  have hbases : ∀ b ∈ Sample.tied.map Candidate.bases, b = .ofList [1, 2] := by decide
  have hopt : optimum? Sample.tied (.ofList [1, 2]) = some Sample.sortedJoin := rfl
  obtain ⟨hok, hresult, -⟩ := finish_finds_optimum (p := {}) rfl rfl hunselected
  obtain ⟨out, hout⟩ := hok.mpr fun b hb => ⟨_, _, hbases b hb ▸ hopt, rfl⟩
  have hfound := hresult out hout
  rw [show (Sample.tied.map Candidate.bases).eraseDups = [.ofList [1, 2]] from rfl] at hfound
  cases hfound with
  | cons hs hnil =>
    cases hnil
    obtain ⟨hb, w, j, hw, hj, hc, hsize⟩ := hs
    rw [hopt, Option.some.injEq] at hw
    rw [← hw] at hj hc
    exact ⟨_, hout, hb, hc, by rw [hj, hsize]; rfl⟩

end JoinLevel
