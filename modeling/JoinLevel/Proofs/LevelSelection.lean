import JoinLevel.Proofs.Settling
import JoinLevel.Proofs.Verification

namespace JoinLevel

/-- `u`, between `xs` and `ys`, is the first of the cheapest unordered paths. -/
structure FirstUnordered (xs : List Path) (u : Path) (ys : List Path) : Prop where
  unordered : u.isUnordered
  before : ∀ q ∈ xs, q.isUnordered → u.cost < q.cost
  after : ∀ q ∈ ys, q.isUnordered → u.cost ≤ q.cost

namespace Candidate

variable {r : Candidate} {c u : Path} {xs ys : List Path}

theorem cheapestUnordered?_eq_none_iff : r.cheapestUnordered? = none ↔ ∀ q ∈ r.paths, ¬ q.isUnordered := by
  rw [cheapestUnordered?, minOn?_cost_eq_none_iff, List.filter_eq_nil_iff]

theorem cheapestUnordered?_of_first (hps : r.paths = xs ++ u :: ys) (hu : FirstUnordered xs u ys) :
    r.cheapestUnordered? = some u :=
  minOn?_filter_eq_some_iff.mpr ⟨hu.unordered, xs, ys, hps, hu.before, hu.after⟩

theorem exists_firstUnordered (hu : r.cheapestUnordered? = some u) :
    ∃ xs ys, r.paths = xs ++ u :: ys ∧ FirstUnordered xs u ys := by
  obtain ⟨hun, xs, ys, hps, hxs, hys⟩ := minOn?_filter_eq_some_iff.mp hu
  exact ⟨xs, ys, hps, hun, hxs, hys⟩

/-- Both scans take the first of equally cheap paths, so they agree where the cheapest path is unordered. -/
theorem cheapestUnordered?_of_cheapest (hc : r.paths.minOn? Path.cost = some c) (hu : c.isUnordered) :
    r.cheapestUnordered? = some c := minOn?_filter hc hu

end Candidate

namespace Pruner

variable {p : Pruner} {r s : Candidate} {rs out : List Candidate} {c u : Path} {xs ys : List Path} {size : Float}
  {v : Violation}

theorem choose_paths_cases (p : Pruner) (r : Candidate) (c : Path) (size : Float) :
    (p.choose r c size).paths = r.paths ∨
      ∃ xs u ys, r.paths = xs ++ u :: ys ∧ (p.choose r c size).paths = xs ++ ys := by
  simp only [choose]
  split
  · rename_i u hu
    have hmem : u ∈ r.paths := (Candidate.cheapestUnordered?_mem (beaten?_eq_some_iff.mp hu).1).1
    obtain ⟨w, xs, ys, -, -, hps, herase⟩ :=
      List.exists_of_eraseP (p := fun q => decide (q.id = u.id)) hmem (decide_eq_true rfl)
    exact .inr ⟨xs, w, ys, hps, herase⟩
  · exact .inl rfl

theorem choose_of_all_sorted (p : Pruner) (c : Path) (size : Float) (h : ∀ q ∈ r.paths, ¬ q.isUnordered) :
    (p.choose r c size).paths = r.paths ∧ (p.choose r c size).unordered = none := by
  have hnone : r.cheapestUnordered? = none := Candidate.cheapestUnordered?_eq_none_iff.mpr h
  have hbeaten : p.beaten? r c = none := by simp only [beaten?, hnone, Option.filter_none]
  simp only [choose, hbeaten, hnone, Option.bind_none, and_self]

theorem cheapest_sorted (hc : r.paths.minOn? Path.cost = some c) (hu : r.cheapestUnordered? = some u)
    (hne : u.id ≠ c.id) : ¬ c.isUnordered := by
  intro hcu
  rw [Candidate.cheapestUnordered?_of_cheapest hc hcu, Option.some.injEq] at hu
  exact hne (congrArg Path.id hu.symm)

theorem id_ne_cheapest_iff (hn : (r.paths.map Path.id).Nodup) (hc : r.paths.minOn? Path.cost = some c)
    (hu : r.cheapestUnordered? = some u) : u.id ≠ c.id ↔ ¬ c.isUnordered := by
  obtain ⟨hmem, hun⟩ := Candidate.cheapestUnordered?_mem hu
  constructor
  · exact cheapest_sorted hc hu
  · intro hcu hid
    have huc : u = c := identified_of_nodup hn u hmem c (List.minOn?_mem hc) hid
    exact hcu (huc ▸ hun)

theorem choose_of_first (p : Pruner) (size : Float) (hn : (r.paths.map Path.id).Nodup)
    (hc : r.paths.minOn? Path.cost = some c) (hps : r.paths = xs ++ u :: ys) (hu : FirstUnordered xs u ys) :
    if r.pruneable ∧ p.options.pruneUnordered ∧ ¬ c.isUnordered then
      (p.choose r c size).paths = xs ++ ys ∧ (p.choose r c size).unordered = none
    else (p.choose r c size).paths = r.paths ∧ (p.choose r c size).unordered = some u := by
  have hcu : r.cheapestUnordered? = some u := Candidate.cheapestUnordered?_of_first hps hu
  have hfirst : u.id ∉ xs.map Path.id := by
    rw [hps, List.map_append, List.map_cons] at hn
    intro hmem
    exact (List.nodup_append.mp hn).2.2 u.id hmem u.id List.mem_cons_self rfl
  have hne : u.id ≠ c.id ↔ ¬ c.isUnordered := id_ne_cheapest_iff hn hc hcu
  split
  · rename_i hgives
    have hbeaten : p.beaten? r c = some u :=
      beaten?_eq_some_iff.mpr ⟨hcu, hne.mpr hgives.2.2, hgives.1, hgives.2.1⟩
    simp only [choose, hbeaten, hps, eraseP_id_append_cons hfirst, and_self]
  · rename_i hstays
    have hbeaten : p.beaten? r c = none := by
      rw [Option.eq_none_iff_forall_not_mem]
      intro w hw
      obtain ⟨hw, hid, hpr, hopt⟩ := beaten?_eq_some_iff.mp hw
      rw [hcu, Option.some.injEq] at hw
      rw [← hw] at hid
      exact hstays ⟨hpr, hopt, hne.mp hid⟩
    simp only [choose, hbeaten, hcu, Option.bind_some, hps, find?_id_append_cons hfirst, and_self]

theorem selectLevel_error_iff (hv : p.options.verify = false) : (p.selectLevel rs).result = .error v ↔
    ∃ r, FirstFailing p.ChoosesJoin rs r ∧ p.ChoiceReport r v := by
  rw [selectLevel_of_not_verify hv, Run.mapM_error_iff]
  simp only [exists_select_iff_choosesJoin, select_error_iff]
  constructor
  · rintro ⟨xs, r, ys, hrs, hxs, hr⟩
    exact ⟨r, ⟨xs, ys, hrs, hxs, hr.not_choosesJoin⟩, hr⟩
  · rintro ⟨r, ⟨xs, ys, hrs, hxs, -⟩, hr⟩
    exact ⟨xs, r, ys, hrs, hxs, hr⟩

structure Selected (p : Pruner) (r s : Candidate) : Prop where
  untouched : s = { r with paths := s.paths, cheapest := s.cheapest, unordered := s.unordered, size := s.size }
  chosen : ∃ c j, p.model.cheapest? r.paths = some c ∧ c.join? = some j ∧ s.cheapest = some c ∧ c ∈ s.paths ∧
    s.size = p.model.joinSize j
  paths : s.paths = r.paths ∨ ∃ xs u ys, r.paths = xs ++ u :: ys ∧ s.paths = xs ++ ys

structure Pruned (p : Pruner) (r s : Candidate) : Prop where
  first : ∀ c xs u ys, s.cheapest = some c → r.paths = xs ++ u :: ys → FirstUnordered xs u ys →
    if r.pruneable ∧ p.options.pruneUnordered ∧ ¬ c.isUnordered then s.paths = xs ++ ys ∧ s.unordered = none
    else s.paths = r.paths ∧ s.unordered = some u
  sorted : (∀ q ∈ r.paths, ¬ q.isUnordered) → s.paths = r.paths ∧ s.unordered = none

theorem selected_of_select (hm : p.model.Selective) (h : (p.select r).result = .ok s) : Selected p r s := by
  obtain ⟨c, j, hc, hj, rfl⟩ := select_ok_iff.mp h
  exact ⟨rfl, ⟨c, j, hc, hj, rfl, chosen_mem_choose_paths (hm _ _ hc), rfl⟩, choose_paths_cases p r c _⟩

theorem pruned_of_select (hm : p.model = .standard) (hn : (r.paths.map Path.id).Nodup)
    (h : (p.select r).result = .ok s) : Pruned p r s := by
  obtain ⟨c, j, hc, hj, rfl⟩ := select_ok_iff.mp h
  rw [hm] at hc
  constructor
  · intro c' xs u ys hc' hps hu
    cases hc'
    exact choose_of_first p _ hn hc hps hu
  · exact choose_of_all_sorted p c _

theorem selectLevel_chooses (hm : p.model.Selective) (hv : p.options.verify = false) (rs : List Candidate) :
    ((∃ out, (p.selectLevel rs).result = .ok out) ↔ ∀ r ∈ rs, p.ChoosesJoin r) ∧
    (∀ v, (p.selectLevel rs).result = .error v ↔ ∃ r, FirstFailing p.ChoosesJoin rs r ∧ p.ChoiceReport r v) ∧
    (∀ b i, (p.selectLevel rs).result ≠ .error (.unknownUnordered b i)) ∧
    ∀ out, (p.selectLevel rs).result = .ok out → List.Forall₂ (fun r s => Selected p r s ∧
      (p.model = .standard → (r.paths.map Path.id).Nodup → Pruned p r s)) rs out := by
  refine ⟨?_, fun v => selectLevel_error_iff hv, ?_, ?_⟩
  · rw [selectLevel_of_not_verify hv, Run.exists_mapM_ok_iff]
    simp only [exists_select_iff_choosesJoin]
  · intro b i h
    obtain ⟨r, -, hr⟩ := (selectLevel_error_iff hv).mp h
    simp [ChoiceReport] at hr
  · intro out hout
    apply (selectLevel_ok hout).imp
    intro r s hs
    exact ⟨selected_of_select hm hs, fun hstandard hn => pruned_of_select hstandard hn hs⟩

end Pruner

def Sample.offered : List Candidate :=
  [candidate [1, 2] [heapJoin, sortedJoin], { candidate [1, 3] [heapJoin, sortedJoin] with pruneable := false }]

theorem Pruner.selectLevel_chooses_offered : CostModel.standard.Selective ∧ ({} : Pruner).options.verify = false ∧
    ∃ s t, (({} : Pruner).selectLevel Sample.offered).result = .ok [s, t] ∧
      s.paths = [Sample.sortedJoin] ∧ s.unordered = none ∧
      t.paths = [Sample.heapJoin, Sample.sortedJoin] ∧ t.unordered = some Sample.heapJoin := by
  have hjoins : ∀ r ∈ Sample.offered, ({} : Pruner).ChoosesJoin r := by
    intro r hr
    simp only [Sample.offered, List.mem_cons, List.not_mem_nil, or_false] at hr
    rcases hr with rfl | rfl <;> exact ⟨Sample.sortedJoin, _, rfl, rfl⟩
  have hfirst : FirstUnordered [] Sample.heapJoin [Sample.sortedJoin] := by
    constructor <;> decide
  obtain ⟨hok, -, -, hselected⟩ := selectLevel_chooses (p := {}) CostModel.standard_selective rfl Sample.offered
  obtain ⟨out, hout⟩ := hok.mpr hjoins
  cases hselected out hout with
  | cons hs hrest =>
    cases hrest with
    | cons ht hnil =>
      cases hnil
      obtain ⟨c, -, hc, -, hsc, -⟩ := hs.1.chosen
      obtain ⟨d, -, hd, -, htd, -⟩ := ht.1.chosen
      obtain rfl : Sample.sortedJoin = c := Option.some.inj hc
      obtain rfl : Sample.sortedJoin = d := Option.some.inj hd
      obtain ⟨hsp, hsu⟩ := (hs.2 rfl (by decide)).first Sample.sortedJoin [] _ _ hsc rfl hfirst
      obtain ⟨htp, htu⟩ := (ht.2 rfl (by decide)).first Sample.sortedJoin [] _ _ htd rfl hfirst
      exact ⟨CostModel.standard_selective, rfl, _, _, hout, hsp, hsu, htp, htu⟩

end JoinLevel
