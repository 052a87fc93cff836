import Mathlib.Data.List.Nodup
import JoinLevel.Proofs.Settling

namespace JoinLevel

def Identified (ps : List Path) : Prop := ∀ p ∈ ps, ∀ q ∈ ps, p.id = q.id → p = q

theorem identified_of_nodup {ps : List Path} (h : (ps.map Path.id).Nodup) : Identified ps :=
  fun _ hp _ hq hid => List.inj_on_of_nodup_map h hp hq hid

theorem Identified.find_id {ps qs : List Path} {u : Path} (h : Identified ps) (hqs : qs ⊆ ps) (hu : u ∈ qs) :
    qs.find? (·.id = u.id) = some u := by
  cases hf : qs.find? (·.id = u.id) with
  | none => simpa using List.find?_eq_none.mp hf u hu
  | some v =>
    have hv : v ∈ qs := List.mem_of_find?_eq_some hf
    have hid : v.id = u.id := by simpa using List.find?_some hf
    rw [h v (hqs hv) u (hqs hu) hid]

theorem Sample.offers_identified : Identified (offers.flatMap Candidate.paths) := by
  have hpaths : offers.flatMap Candidate.paths = [heapJoin, sortedJoin] := rfl
  rw [hpaths]
  intro p hp q hq hid
  simp only [List.mem_cons, List.not_mem_nil, or_false] at hp hq
  rcases hp with rfl | rfl <;> rcases hq with rfl | rfl
  · rfl
  · cases hid
  · cases hid
  · rfl

/-- Says that no cheapest path could be chosen, not that a check struck. -/
def Violation.OfSelection : Violation → Prop
  | noPaths _ | cheapestNotJoin _ _ => True
  | unknownUnordered _ _ | duplicate _ | cheapestNotMinimal _ => False

namespace Pruner

variable {p : Pruner} {r s : Candidate} {c q u : Path} {size : Float} {v : Violation}

/-- The unordered path that gives way to the cheapest path `c`. -/
def beaten? (p : Pruner) (r : Candidate) (c : Path) : Option Path :=
  r.cheapestUnordered?.filter fun u => u.id ≠ c.id ∧ r.pruneable ∧ p.options.pruneUnordered

def choose (p : Pruner) (r : Candidate) (c : Path) (size : Float) : Candidate :=
  { r with
    paths := match p.beaten? r c with
      | some u => r.paths.eraseP (·.id = u.id)
      | none => r.paths
    cheapest := some c
    unordered := match p.beaten? r c with
      | some _ => none
      | none => r.cheapestUnordered?.bind fun u => r.paths.find? (·.id = u.id)
    size }

theorem beaten?_eq_some_iff :
    p.beaten? r c = some u ↔
      r.cheapestUnordered? = some u ∧ u.id ≠ c.id ∧ r.pruneable ∧ p.options.pruneUnordered := by
  simp [beaten?, Option.filter_eq_some_iff]

theorem choose_paths_subset : (p.choose r c size).paths ⊆ r.paths := by
  intro q hq
  simp only [choose] at hq
  split at hq
  · exact List.mem_of_mem_eraseP hq
  · exact hq

theorem mem_choose_paths (hq : q ∈ r.paths) :
    q ∈ (p.choose r c size).paths ∨ ∃ u, p.beaten? r c = some u ∧ q.id = u.id := by
  simp only [choose]
  cases hu : p.beaten? r c with
  | none => exact .inl hq
  | some u =>
    by_cases hid : q.id = u.id
    · exact .inr ⟨u, rfl, hid⟩
    · exact .inl ((List.mem_eraseP_of_neg (by simpa using hid)).mpr hq)

theorem chosen_mem_choose_paths (hc : c ∈ r.paths) : c ∈ (p.choose r c size).paths := by
  rcases mem_choose_paths hc with h | ⟨u, hb, hu⟩
  · exact h
  · exact absurd hu.symm (beaten?_eq_some_iff.mp hb).2.1

theorem choose_minOn? (hc : r.paths.minOn? Path.cost = some c) :
    (p.choose r c size).paths.minOn? Path.cost = some c := by
  simp only [choose]
  cases hb : p.beaten? r c with
  | none => exact hc
  | some u =>
    apply minOn?_eraseP hc
    simpa using (beaten?_eq_some_iff.mp hb).2.1.symm

theorem settle_cheapestUnordered (hc : p.model.cheapest? r.paths = some c) :
    ∃ es, p.settle r (r.cheapestUnordered?.map Path.id) = (p.choose r c r.size, ⟨es, .ok c⟩) := by
  simp only [choose, beaten?]
  cases hu : r.cheapestUnordered? with
  | none => exact ⟨[], settle_undesignated hc⟩
  | some u =>
    -- the path that is found under the id of `u` may be another one that comes earlier
    obtain ⟨xs, v, ys, hps, hvu, hfirst⟩ := exists_first_id (List.mem_map_of_mem (Candidate.cheapestUnordered?_mem hu).1)
    have hfind : r.paths.find? (·.id = v.id) = some v := hps ▸ find?_id_append_cons hfirst
    have herase : r.paths.eraseP (·.id = v.id) = xs ++ ys := hps ▸ eraseP_id_append_cons hfirst
    simp only [Option.map_some, Option.bind_some, ← hvu, hfind, settle_listed hc hps hfirst]
    by_cases hgives : v.id ≠ c.id ∧ r.pruneable ∧ p.options.pruneUnordered
    · rw [if_pos hgives, Option.filter_some_pos (by simpa [← hvu] using hgives)]
      simp only [← hvu, herase]
      exact ⟨_, rfl⟩
    · rw [if_neg hgives, Option.filter_some_neg (by simpa [← hvu] using hgives)]
      exact ⟨_, rfl⟩

theorem select_result (p : Pruner) (r : Candidate) :
    (p.select r).result =
      match p.model.cheapest? r.paths with
      | none => .error (.noPaths r.bases)
      | some c =>
        match c.join? with
        | none => .error (.cheapestNotJoin r.bases c.id)
        | some j => .ok (p.choose r c (p.model.joinSize j)) := by
  cases hc : p.model.cheapest? r.paths with
  | none =>
    have hs : p.settle { r with size := 0 } (r.cheapestUnordered?.map Path.id) = _ := settle_noPaths hc
    simp only [select, hs]
    rfl
  | some c =>
    obtain ⟨es, hs⟩ := settle_cheapestUnordered (r := { r with size := 0 }) hc
    change (p.settle { r with size := 0 } (r.cheapestUnordered?.map Path.id)) = _ at hs
    simp only [select, hs, Run.result_bind, Except.bind]
    cases c.join? with
    | none => rfl
    | some j => rfl

theorem select_ok_iff : (p.select r).result = .ok s ↔
    ∃ c j, p.model.cheapest? r.paths = some c ∧ c.join? = some j ∧ p.choose r c (p.model.joinSize j) = s := by
  rw [select_result]
  cases hc : p.model.cheapest? r.paths with
  | none => simp
  | some c => cases hj : c.join? <;> simp [hj]

def ChoosesJoin (p : Pruner) (r : Candidate) : Prop := ∃ c j, p.model.cheapest? r.paths = some c ∧ c.join? = some j

def ChoiceReport (p : Pruner) (r : Candidate) (v : Violation) : Prop :=
  p.model.cheapest? r.paths = none ∧ v = .noPaths r.bases ∨
    ∃ c, p.model.cheapest? r.paths = some c ∧ c.join? = none ∧ v = .cheapestNotJoin r.bases c.id

theorem exists_select_iff_choosesJoin : (∃ s, (p.select r).result = .ok s) ↔ p.ChoosesJoin r := by
  simp only [select_ok_iff]
  constructor
  · rintro ⟨s, c, j, hc, hj, -⟩
    exact ⟨c, j, hc, hj⟩
  · rintro ⟨c, j, hc, hj⟩
    exact ⟨_, c, j, hc, hj, rfl⟩

theorem select_error_iff : (p.select r).result = .error v ↔ p.ChoiceReport r v := by
  rw [select_result, ChoiceReport]
  cases hc : p.model.cheapest? r.paths with
  | none => simp [eq_comm]
  | some c => cases hj : c.join? <;> simp [hj, eq_comm]

theorem ChoiceReport.not_choosesJoin (h : p.ChoiceReport r v) : ¬ p.ChoosesJoin r := by
  rw [← exists_select_iff_choosesJoin, select_error_iff.mpr h]
  simp

theorem select_error (h : (p.select r).result = .error v) : v.OfSelection := by
  rcases select_error_iff.mp h with ⟨-, rfl⟩ | ⟨c, -, -, rfl⟩ <;> trivial

theorem select_bases (h : (p.select r).result = .ok s) : s.bases = r.bases := by
  obtain ⟨c, j, -, -, rfl⟩ := select_ok_iff.mp h
  rfl

theorem select_paths_subset (h : (p.select r).result = .ok s) : s.paths ⊆ r.paths := by
  obtain ⟨c, j, -, -, rfl⟩ := select_ok_iff.mp h
  exact choose_paths_subset

theorem mapM_select_bases {rs out : List Candidate} (h : (rs.mapM p.select).result = .ok out) :
    out.map Candidate.bases = rs.map Candidate.bases := by
  apply Run.map_eq_of_forall₂
  exact (Run.mapM_ok_iff.mp h).imp fun r s => select_bases

theorem selectLevel_ok {rs out : List Candidate} (h : (p.selectLevel rs).result = .ok out) :
    List.Forall₂ (fun r s => (p.select r).result = .ok s) rs out := by
  simp only [selectLevel, Run.bind_ok_iff, Run.mapM_ok_iff] at h
  obtain ⟨ss, hss, -, -, -, -, hout⟩ := h
  cases hout
  exact hss

end Pruner
end JoinLevel
