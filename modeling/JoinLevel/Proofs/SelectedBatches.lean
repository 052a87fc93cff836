import JoinLevel.Proofs.Batching
import JoinLevel.Proofs.Optimum

namespace JoinLevel

/-- `s` has come to a path that nothing offered in `rs` over its bases undercuts. -/
structure Settled (rs : List Candidate) (s : Candidate) : Prop where
  offered : s.paths ⊆ offers rs s.bases
  settled : ∃ c j, s.cheapest = some c ∧ c ∈ s.paths ∧ c ∈ optima (offers rs s.bases) ∧
    c.join? = some j ∧ s.size = j.estimate

structure SettledLevel (rs out : List Candidate) : Prop where
  bases : out.map Candidate.bases = (rs.map Candidate.bases).eraseDups
  settled : ∀ s ∈ out, Settled rs s

namespace Settled

variable {rs : List Candidate} {s : Candidate}

theorem chosen (h : Settled rs s) : ∃ c j, s.cheapest = some c ∧ c ∈ s.paths ∧ c.join? = some j ∧ s.size = j.estimate := by
  obtain ⟨c, j, hc, hcs, -, hj, hsize⟩ := h.settled
  exact ⟨c, j, hc, hcs, hj, hsize⟩

theorem hasMinimalCheapest (h : Settled rs s) : s.hasMinimalCheapest := by
  obtain ⟨c, j, hc, hcs, hopt, -, -⟩ := h.settled
  have hle : ∀ q ∈ s.paths, c.cost ≤ q.cost := fun q hq => (mem_optima_iff.mp hopt).2 q (h.offered hq)
  rw [Candidate.hasMinimalCheapest, hc, Option.any_some, Bool.and_eq_true]
  constructor
  · exact List.any_eq_true.mpr ⟨c, hcs, by simp⟩
  · simpa using hle

end Settled

namespace SettledLevel

variable {xs ys rs out first second : List Candidate} {s : Candidate} {b : BaseSet} {q : Path}

theorem nodup (h : SettledLevel rs out) : (out.map Candidate.bases).Nodup := h.bases ▸ nodup_eraseDups _

theorem exists_le (h : SettledLevel rs out) (hq : q ∈ offers rs b) :
    ∃ s ∈ out, s.bases = b ∧ ∃ c, s.cheapest = some c ∧ c ∈ s.paths ∧ c.cost ≤ q.cost := by
  obtain ⟨r, hr, hrb, hqr⟩ := mem_offers_iff.mp hq
  obtain ⟨s, hs, hsb⟩ := exists_first_of_mem h.bases hr
  obtain ⟨c, -, hc, hcs, hopt, -⟩ := (h.settled s hs).settled
  rw [hsb, hrb] at hopt
  exact ⟨s, hs, hsb.trans hrb, c, hc, hcs, (mem_optima_iff.mp hopt).2 q hq⟩

theorem exists_le_append (hfirst : SettledLevel xs first) (hsecond : SettledLevel ys second)
    (hq : q ∈ offers (xs ++ ys) b) :
    ∃ s ∈ (first ++ second).filter (·.bases = b), ∃ c, s.cheapest = some c ∧ c ∈ s.paths ∧ c.cost ≤ q.cost := by
  have hmem : ∃ s ∈ first ++ second, s.bases = b ∧ ∃ c, s.cheapest = some c ∧ c ∈ s.paths ∧ c.cost ≤ q.cost := by
    rw [offers_append, List.mem_append] at hq
    cases hq with
    | inl hq =>
      obtain ⟨s, hs, hle⟩ := hfirst.exists_le hq
      exact ⟨s, List.mem_append_left _ hs, hle⟩
    | inr hq =>
      obtain ⟨s, hs, hle⟩ := hsecond.exists_le hq
      exact ⟨s, List.mem_append_right _ hs, hle⟩
  obtain ⟨s, hs, hsb, hle⟩ := hmem
  exact ⟨s, List.mem_filter.mpr ⟨hs, by simpa using hsb⟩, hle⟩

theorem chosen_append (hfirst : SettledLevel xs first) (hsecond : SettledLevel ys second) (hs : s ∈ first ++ second) :
    ∃ c j, s.cheapest = some c ∧ c ∈ s.paths ∧ c.join? = some j ∧ s.size = j.estimate := by
  cases List.mem_append.mp hs with
  | inl hs => exact (hfirst.settled s hs).chosen
  | inr hs => exact (hsecond.settled s hs).chosen

theorem offered_append (hfirst : SettledLevel xs first) (hsecond : SettledLevel ys second) :
    ((first ++ second).filter (·.bases = b)).flatMap Candidate.paths ⊆ offers (xs ++ ys) b := by
  intro q hq
  obtain ⟨s, hs, hqs⟩ := List.mem_flatMap.mp hq
  obtain ⟨hs, hsb⟩ := List.mem_filter.mp hs
  have hsb' : s.bases = b := by simpa using hsb
  rw [offers_append, List.mem_append, ← hsb']
  cases List.mem_append.mp hs with
  | inl hs => exact .inl ((hfirst.settled s hs).offered hqs)
  | inr hs => exact .inr ((hsecond.settled s hs).offered hqs)

end SettledLevel

namespace Pruner

variable {p : Pruner} {xs ys rs first second ds : List Candidate} {r s t : Candidate}

theorem exists_select (hm : p.model = .standard) (hne : s.paths ≠ []) (hjoin : ∀ q ∈ s.paths, q.join?.isSome) :
    ∃ t, (p.select s).result = .ok t := by
  obtain ⟨c, hc⟩ : ∃ c, s.paths.minOn? Path.cost = some c :=
    Option.isSome_iff_exists.mp (List.isSome_minOn?_iff.mpr hne)
  obtain ⟨j, hj⟩ := Option.isSome_iff_exists.mp (hjoin c (List.minOn?_mem hc))
  exact exists_select_iff_choosesJoin.mpr ⟨c, j, hm ▸ hc, hj⟩

theorem settled_of_select (hm : p.model = .standard) (hoffered : s.paths ⊆ offers rs s.bases)
    (hopt : ∀ c, s.paths.minOn? Path.cost = some c → c ∈ optima (offers rs s.bases))
    (hok : (p.select s).result = .ok t) : Settled rs t := by
  obtain ⟨c, j, hc, hj, rfl⟩ := select_ok_iff.mp hok
  rw [hm] at hc ⊢
  have hmem : c ∈ (p.choose s c (CostModel.standard.joinSize j)).paths := chosen_mem_choose_paths (List.minOn?_mem hc)
  exact ⟨List.Subset.trans choose_paths_subset hoffered, c, j, rfl, hmem, hopt c hc, hj, rfl⟩

theorem finish_settled (hm : p.model = .standard) (hp : p.policy = .dominance)
    (hrs : ∀ r ∈ rs, r.cheapest = none ∧ r.paths ≠ [] ∧ ∀ q ∈ r.paths, q.join?.isSome) :
    ∃ out, (p.finish rs).result = .ok out ∧ SettledLevel rs out := by
  obtain ⟨kept, hmap, hkept, hfinish⟩ := finish_result hm hp fun r hr => (hrs r hr).1
  have hselect : ∀ s ∈ kept, ∃ t, (p.select s).result = .ok t := by
    intro s hs
    obtain ⟨hoffered, hmin⟩ := hkept s hs
    apply exists_select hm
    · intro hnil
      rw [hnil] at hmin
      have hoffers : offers rs s.bases = [] := optimum?_eq_none_iff.mp hmin.symm
      obtain ⟨r, hr, hrb⟩ := exists_mem_of_eraseDups hmap hs
      obtain ⟨q, hq⟩ := List.exists_mem_of_ne_nil r.paths (hrs r hr).2.1
      have hqo : q ∈ offers rs s.bases := mem_offers_iff.mpr ⟨r, hr, hrb, hq⟩
      rw [hoffers] at hqo
      cases hqo
    · intro q hq
      obtain ⟨r, hr, -, hqr⟩ := mem_offers_iff.mp (hoffered hq)
      exact (hrs r hr).2.2 q hqr
  obtain ⟨out, hout⟩ := Run.exists_mapM_ok_iff.mpr hselect
  refine ⟨out, hfinish.trans hout, (mapM_select_bases hout).trans hmap, ?_⟩
  · intro t ht
    obtain ⟨s, hs, hok⟩ := Run.exists_of_mem_right (Run.mapM_ok_iff.mp hout) ht
    obtain ⟨hoffered, hmin⟩ := hkept s hs
    exact settled_of_select hm hoffered (fun c hc => optimum?_mem_optima (hmin ▸ hc)) hok

theorem survives_settled (hm : p.model = .standard) (hp : p.policy = .dominance) (hfirst : SettledLevel xs first)
    (hsecond : SettledLevel ys second) (hr : (first ++ second).filter (·.bases = s.bases) = r :: ds)
    (hs : Survives p r ds s) : Settled (xs ++ ys) s := by
  have hmem : r ∈ first ++ second := List.mem_of_mem_filter (hr ▸ List.mem_cons_self)
  have hoffered : (r :: ds).flatMap Candidate.paths ⊆ offers (xs ++ ys) s.bases :=
    hr ▸ hfirst.offered_append hsecond
  have hle : ∀ q ∈ offers (xs ++ ys) s.bases,
      ∃ d ∈ r :: ds, ∃ c, d.cheapest = some c ∧ c ∈ d.paths ∧ c.cost ≤ q.cost :=
    fun q hq => hr ▸ hfirst.exists_le_append hsecond hq
  obtain ⟨c, j, hc, hcr, hj, hsize⟩ := hfirst.chosen_append hsecond hmem
  by_cases hds : ds = []
  · rw [hds] at hoffered hle
    rw [hs.alone hds] at hoffered hle ⊢
    rw [List.flatMap_singleton] at hoffered
    refine ⟨hoffered, c, j, hc, hcr, mem_optima_iff.mpr ⟨hoffered hcr, ?_⟩, hj, hsize⟩
    intro q hq
    obtain ⟨d, hd, c', hc', -, hle⟩ := hle q hq
    rw [List.mem_singleton.mp hd, hc, Option.some.injEq] at hc'
    rwa [hc']
  · have hsel : r.isSelected := by rw [Candidate.isSelected, hc]; rfl
    have hok := hs.reselected hds ⟨r, List.mem_cons_self, hsel⟩
    have hpaths : (r.gather p.policy ds).paths = r.pooledPaths ds := gather_paths hp
    rw [hs.bases] at hoffered hle
    apply settled_of_select hm _ _ hok
    · rw [hpaths]
      exact List.Subset.trans Candidate.pooledPaths_subset hoffered
    · rw [hpaths]
      intro c hc
      refine mem_optima_iff.mpr ⟨hoffered (Candidate.pooledPaths_subset (List.minOn?_mem hc)), ?_⟩
      intro q hq
      obtain ⟨d, hd, c', -, hc', hle⟩ := hle q hq
      obtain ⟨w, hw, hwc⟩ := Candidate.exists_pooledPath_le (List.mem_flatMap.mpr ⟨d, hd, hc'⟩)
      exact Std.le_trans (cost_le_of_minOn? hc hw) (Std.le_trans hwc hle)

theorem mergeBatches_settled (hm : p.model = .standard) (hp : p.policy = .dominance)
    (hfirst : SettledLevel xs first) (hsecond : SettledLevel ys second)
    (hjoin : ∀ b, ∀ q ∈ offers (xs ++ ys) b, q.join?.isSome) :
    ∃ out, (p.mergeBatches first second).result = .ok out ∧ SettledLevel (xs ++ ys) out := by
  have hg := gathered_foldl p .deduplicate (first ++ second)
  have hselect : ∀ s ∈ ((first ++ second).foldl (p.receive .deduplicate) {}).kept,
      ∃ t, (p.select s).result = .ok t := by
    intro s hs
    obtain ⟨r, ds, hr, hsr⟩ := hg.kept s hs
    have hpaths : s.paths = r.pooledPaths ds := hsr ▸ gather_paths hp
    apply exists_select hm
    · have hrm : r ∈ first ++ second := List.mem_of_mem_filter (hr ▸ List.mem_cons_self)
      obtain ⟨c, -, -, hcr, -⟩ := hfirst.chosen_append hsecond hrm
      have hcg : c ∈ (r :: ds).flatMap Candidate.paths := List.mem_flatMap.mpr ⟨r, List.mem_cons_self, hcr⟩
      obtain ⟨w, hw, -⟩ := Candidate.exists_pooledPath_le hcg
      rw [hpaths]
      exact List.ne_nil_of_mem hw
    · intro q hq
      rw [hpaths] at hq
      have hqo : q ∈ offers (xs ++ ys) s.bases := hfirst.offered_append hsecond (hr ▸ Candidate.pooledPaths_subset hq)
      exact hjoin s.bases q hqo
  obtain ⟨out, hout⟩ := exists_foldlM_reselect (nodup_eraseDups _) fun s hs _ => hselect s hs
  rw [← resolve_result] at hout
  have hgrouped := hg.resolve hout
  have hlevel : SettledLevel (xs ++ ys) out := by
    constructor
    · rw [hgrouped.bases, List.map_append, hfirst.bases, hsecond.bases, eraseDups_append_eraseDups, List.map_append]
    · intro s hs
      obtain ⟨r, ds, hr, hsurv⟩ := hgrouped.survives s hs
      exact survives_settled hm hp hfirst hsecond hr hsurv
  refine ⟨out, ?_, hlevel⟩
  rw [mergeBatches_result, ← resolve_foldl_receive_append hfirst.nodup hsecond.nodup, hout]
  exact checked_eq_ok hlevel.nodup fun s hs _ => (hlevel.settled s hs).hasMinimalCheapest

end Pruner

namespace Batches

variable {p : Pruner} {t : Batches}

theorem run_finish_settled (hm : p.model = .standard) (hp : p.policy = .dominance)
    (ht : ∀ r ∈ t.candidates, r.cheapest = none ∧ r.paths ≠ [] ∧ ∀ q ∈ r.paths, q.join?.isSome) :
    ∃ out, ((t.plan .finish).run p).result = .ok out ∧ SettledLevel t.candidates out := by
  induction t with
  | batch rs => exact Pruner.finish_settled hm hp ht
  | merge first second ih₁ ih₂ =>
    obtain ⟨hfirst, hsecond⟩ := List.forall_mem_append.mp ht
    obtain ⟨xs, hxs, hxs'⟩ := ih₁ hfirst
    obtain ⟨ys, hys, hys'⟩ := ih₂ hsecond
    rw [run_merge hxs hys]
    apply Pruner.mergeBatches_settled hm hp hxs' hys'
    intro b q hq
    obtain ⟨r, hr, -, hqr⟩ := mem_offers_iff.mp hq
    exact (ht r hr).2.2 q hqr

theorem run_finish_optimal (hm : p.model = .standard) (hp : p.policy = .dominance)
    (ht : ∀ r ∈ t.candidates, r.cheapest = none ∧ r.paths ≠ [] ∧ ∀ q ∈ r.paths, q.join?.isSome) :
    ∃ whole parts, (p.finish t.candidates).result = .ok whole ∧ ((t.plan .finish).run p).result = .ok parts ∧
      List.Forall₂ (fun s s' => s'.bases = s.bases ∧
        (∃ c c', s.cheapest = some c ∧ s'.cheapest = some c' ∧ c'.cost == c.cost) ∧
        ((∃! w, w ∈ optima (offers t.candidates s.bases)) → s'.cheapest = s.cheapest ∧ s'.size = s.size))
        whole parts := by
  obtain ⟨whole, hwhole, hsettled⟩ := Pruner.finish_settled hm hp ht
  obtain ⟨parts, hparts, hsettled'⟩ := run_finish_settled hm hp ht
  refine ⟨whole, parts, hwhole, hparts, forall₂_of_map_eq (hsettled.bases.trans hsettled'.bases.symm) ?_⟩
  intro s hs s' hs' hb
  obtain ⟨c, j, hc, -, hopt, hj, hsize⟩ := (hsettled.settled s hs).settled
  obtain ⟨c', j', hc', -, hopt', hj', hsize'⟩ := (hsettled'.settled s' hs').settled
  rw [← hb] at hopt'
  refine ⟨hb.symm, ⟨c, c', hc, hc', ?_⟩, ?_⟩
  · obtain ⟨hco, hle⟩ := mem_optima_iff.mp hopt
    obtain ⟨hco', hle'⟩ := mem_optima_iff.mp hopt'
    exact Cost.beq_iff_le.mpr ⟨hle' c hco, hle c' hco'⟩
  · intro hunique
    obtain rfl : c' = c := hunique.unique hopt' hopt
    rw [hj, Option.some.injEq] at hj'
    rw [hc, hc', hsize, hsize', hj']
    exact ⟨rfl, rfl⟩

end Batches

def Sample.chosenHeap : Candidate :=
  { candidate [1, 3] [heapJoin] with
    cheapest := some heapJoin
    unordered := some heapJoin
    size := (heapJoin.join?.map Join.estimate).getD 0 }

theorem Batches.run_finish_optimal_nested : ∃ parts, ((Sample.batches.plan .finish).run {}).result = .ok parts ∧
    List.Forall₂ (fun s s' => s'.bases = s.bases ∧ s'.cheapest = s.cheapest ∧ s'.size = s.size)
      [Sample.chosen, Sample.chosenHeap] parts := by
  have hjoins : ∀ r ∈ Sample.batches.candidates,
      r.cheapest = none ∧ r.paths ≠ [] ∧ ∀ q ∈ r.paths, q.join?.isSome := by
    simp [Sample.batches, candidates, Sample.candidate, Sample.heapJoin, Sample.sortedJoin, Sample.join, Path.join?]
  have hone {ps : List Path} {w : Path} (h : optima ps = [w]) : ∃! v, v ∈ optima ps := by simp [h]
  obtain ⟨whole, parts, hwhole, hparts, hsame⟩ := run_finish_optimal (p := {}) rfl rfl hjoins
  cases (show Except.ok [Sample.chosen, Sample.chosenHeap] = .ok whole from hwhole)
  refine ⟨parts, hparts, ?_⟩
  cases hsame with
  | cons hfirst hrest =>
    cases hrest with
    | cons hsecond hnil =>
      cases hnil
      exact .cons ⟨hfirst.1, hfirst.2.2 (hone rfl)⟩ (.cons ⟨hsecond.1, hsecond.2.2 (hone rfl)⟩ .nil)

end JoinLevel
