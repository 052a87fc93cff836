import JoinLevel.Level
import JoinLevel.Proofs.Edges
import JoinLevel.Proofs.Results

namespace JoinLevel

/-- Asks for the edge to the bases `ids`, appends clauses to it and sets its flag if one is given. -/
structure EdgeRequest where
  ids : List BaseId
  clauses : List Clause := []
  inactive : Option Bool := none

/-- A candidate that had no edges at first, and what was asked of its edges since then. -/
structure EdgeHistory where
  start : Candidate
  bare : start.edges = []
  requests : List EdgeRequest

namespace EdgeRequest

def target (q : EdgeRequest) : BaseSet := .ofList q.ids

def apply (r : Candidate) (q : EdgeRequest) : Candidate := r.amendEdge q.target q.clauses q.inactive

end EdgeRequest

def lastFlag (qs : List EdgeRequest) (target : BaseSet) : Bool :=
  ((qs.filter (·.target = target)).filterMap EdgeRequest.inactive).getLast?.getD false

def recorded (qs : List EdgeRequest) (target : BaseSet) : Edge where
  target
  clauses := (qs.filter (·.target = target)).flatMap EdgeRequest.clauses
  inactive := lastFlag qs target

namespace EdgeHistory

def candidate (h : EdgeHistory) : Candidate := h.requests.foldl EdgeRequest.apply h.start

def targets (h : EdgeHistory) : List BaseSet := h.requests.map EdgeRequest.target

def after (h : EdgeHistory) (q : EdgeRequest) : EdgeHistory := { h with requests := h.requests ++ [q] }

def StaysOpen (h : EdgeHistory) : Prop :=
  h.requests = [] ∨ ∃ q ∈ h.requests, lastFlag h.requests q.target = false

instance (h : EdgeHistory) : Decidable h.StaysOpen :=
  inferInstanceAs (Decidable (h.requests = [] ∨ ∃ q ∈ h.requests, lastFlag h.requests q.target = false))

end EdgeHistory

structure Records (qs : List EdgeRequest) (es : List Edge) : Prop where
  targets : es.map Edge.target = (qs.map EdgeRequest.target).eraseDups
  edge : ∀ t, (es.find? (·.target = t)).getD { target := t } = recorded qs t

variable {qs : List EdgeRequest} {q : EdgeRequest} {es : List Edge} {target t : BaseSet} {h : EdgeHistory}

theorem recorded_append_target (qs : List EdgeRequest) (q : EdgeRequest) :
    recorded (qs ++ [q]) q.target = (recorded qs q.target).amend q.clauses q.inactive := by
  have hlast : [q].filter (·.target = q.target) = [q] := by simp
  simp only [recorded, lastFlag, List.filter_append, hlast, List.flatMap_append, List.flatMap_singleton,
    List.filterMap_append, Edge.amend]
  cases hq : q.inactive <;> simp [hq]

theorem recorded_append_of_ne (qs : List EdgeRequest) (hne : target ≠ q.target) :
    recorded (qs ++ [q]) target = recorded qs target := by
  have hlast : [q].filter (·.target = target) = [] := by simpa using hne.symm
  simp only [recorded, lastFlag, List.filter_append, hlast, List.append_nil]

theorem find?_amendIn (es : List Edge) (target : BaseSet) (clauses : List Clause) (inactive : Option Bool) (t : BaseSet) :
    (Edge.amendIn target clauses inactive es).find? (·.target = t) =
      if t = target then some (((es.find? (·.target = target)).getD { target }).amend clauses inactive)
      else es.find? (·.target = t) := by
  rw [amendIn_eq_upsert, find?_upsert (amend_keepsKey target clauses inactive)]

theorem amendIn_others (target : BaseSet) (clauses : List Clause) (inactive : Option Bool) (es : List Edge) :
    (Edge.amendIn target clauses inactive es).filter (·.target ≠ target) = es.filter (·.target ≠ target) := by
  rw [amendIn_eq_upsert, filter_upsert_ne (amend_keepsKey target clauses inactive)]

namespace Records

theorem nil : Records [] [] := ⟨rfl, fun _ => rfl⟩

theorem request (h : Records qs es) (q : EdgeRequest) :
    Records (qs ++ [q]) (Edge.amendIn q.target q.clauses q.inactive es) := by
  constructor
  · rw [amendIn_eq_upsert, List.map_append, List.map_singleton]
    by_cases hq : q.target ∈ qs.map EdgeRequest.target
    · have hes : q.target ∈ es.map Edge.target := by rwa [h.targets, List.mem_eraseDups]
      rw [eraseDups_append_of_mem hq, ← h.targets, map_upsert_of_mem (amend_keepsKey _ _ _) hes]
    · have hes : q.target ∉ es.map Edge.target := by rwa [h.targets, List.mem_eraseDups]
      rw [eraseDups_append_of_not_mem hq, ← h.targets, map_upsert_of_not_mem (amend_keepsKey _ _ _) hes]
  · intro t
    rw [find?_amendIn]
    by_cases ht : t = q.target
    · rw [if_pos ht, Option.getD_some, h.edge, ht, recorded_append_target]
    · rw [if_neg ht, h.edge, recorded_append_of_ne qs ht]

theorem find?_of_mem (h : Records qs es) (ht : t ∈ qs.map EdgeRequest.target) :
    es.find? (·.target = t) = some (recorded qs t) := by
  rw [← List.mem_eraseDups, ← h.targets] at ht
  obtain ⟨e, he⟩ : ∃ e, es.find? (·.target = t) = some e := by
    apply Option.isSome_iff_exists.mp
    simpa using ht
  rw [← h.edge t, he, Option.getD_some]

theorem find?_of_not_mem (h : Records qs es) (ht : t ∉ qs.map EdgeRequest.target) :
    es.find? (·.target = t) = none := by
  rw [← List.mem_eraseDups, ← h.targets] at ht
  simpa using ht

theorem eq_map (h : Records qs es) : es = (qs.map EdgeRequest.target).eraseDups.map (recorded qs) := by
  have hn : (es.map Edge.target).Nodup := h.targets ▸ nodup_eraseDups _
  have hself : ∀ e ∈ es, e = recorded qs e.target := by
    intro e he
    rw [← h.edge, find?_key_of_mem hn he, Option.getD_some]
  rw [← h.targets, List.map_map]
  conv_lhs => rw [← List.map_id es]
  exact List.map_congr_left hself

end Records

namespace EdgeHistory

theorem records (h : EdgeHistory) : Records h.requests h.candidate.edges := by
  obtain ⟨r, hr, qs⟩ := h
  simp only [candidate]
  induction qs using List.reverseRecOn with
  | nil =>
    rw [List.foldl_nil, hr]
    exact .nil
  | append_singleton qs q ih =>
    rw [List.foldl_append, List.foldl_cons, List.foldl_nil]
    exact ih.request q

theorem candidate_eq (h : EdgeHistory) :
    h.candidate = { h.start with edges := h.targets.eraseDups.map (recorded h.requests) } := by
  have huntouched (qs : List EdgeRequest) (r : Candidate) :
      qs.foldl EdgeRequest.apply r = { r with edges := (qs.foldl EdgeRequest.apply r).edges } := by
    induction qs generalizing r with
    | nil => rfl
    | cons q qs ih => rw [List.foldl_cons, ih]; rfl
  rw [candidate, huntouched, ← candidate, h.records.eq_map, targets]

theorem edgeOrNew_eq (h : EdgeHistory) (target : BaseSet) :
    h.candidate.edgeOrNew target = recorded h.requests target := by
  rw [Candidate.edgeOrNew, slot_edge, h.records.edge]

theorem edgeTo?_eq (h : EdgeHistory) (target : BaseSet) :
    h.candidate.edgeTo? target = if target ∈ h.targets then some (recorded h.requests target) else none := by
  rw [Candidate.edgeTo?]
  split
  · rename_i ht
    exact h.records.find?_of_mem ht
  · rename_i ht
    exact h.records.find?_of_not_mem ht

theorem candidate_after (h : EdgeHistory) (q : EdgeRequest) :
    (h.after q).candidate = h.candidate.amendEdge q.target q.clauses q.inactive := by
  rw [candidate, after, List.foldl_append]
  rfl

theorem edges_eq_nil_iff (h : EdgeHistory) : h.candidate.edges = [] ↔ h.requests = [] := by
  constructor
  · intro hes
    have htargets := h.records.targets
    rw [hes, List.map_nil] at htargets
    apply List.eq_nil_iff_forall_not_mem.mpr
    intro q hq
    have hmem : q.target ∈ (h.requests.map EdgeRequest.target).eraseDups :=
      List.mem_eraseDups.mpr (List.mem_map_of_mem hq)
    rw [← htargets] at hmem
    cases hmem
  · intro hqs
    rw [h.records.eq_map, hqs]
    rfl

theorem isExhausted_eq_false_iff (h : EdgeHistory) : h.candidate.isExhausted = false ↔ h.StaysOpen := by
  rw [Candidate.isExhausted, Bool.and_eq_false_iff, Bool.not_eq_false', List.isEmpty_iff, edges_eq_nil_iff,
    StaysOpen]
  apply or_congr Iff.rfl
  rw [h.records.eq_map]
  simp [recorded]

theorem edgeTo?_after (h : EdgeHistory) (q : EdgeRequest) : (h.after q).candidate.edgeTo? q.target =
    some ((h.candidate.edgeOrNew q.target).amend q.clauses q.inactive) := by
  rw [candidate_after, Candidate.edgeTo?, Candidate.amendEdge, find?_amendIn, if_pos rfl, Candidate.edgeOrNew,
    slot_edge]

theorem dropExhausted_map_candidate (hs : List EdgeHistory) :
    (dropExhausted (hs.map candidate)).result = .ok ((hs.filter (·.StaysOpen)).map candidate) := by
  have hresult : (dropExhausted (hs.map candidate)).result =
      .ok ((hs.map candidate).filter (!·.isExhausted)) := rfl
  have hopen : ∀ h ∈ hs, (!h.candidate.isExhausted) = decide h.StaysOpen := by
    intro h _
    rw [Bool.eq_iff_iff, Bool.not_eq_true', isExhausted_eq_false_iff, decide_eq_true_iff]
  rw [hresult, List.filter_map]
  congr 2
  exact List.filter_congr hopen

theorem edges_follow_requests :
    (∀ q q' : EdgeRequest, q.target = q'.target ↔ ∀ a, a ∈ q.ids ↔ a ∈ q'.ids) ∧
    (∀ h : EdgeHistory,
      h.candidate = { h.start with edges := h.targets.eraseDups.map (recorded h.requests) } ∧
      ∀ target, h.candidate.edgeOrNew target = recorded h.requests target ∧
        h.candidate.edgeTo? target = if target ∈ h.targets then some (recorded h.requests target) else none) ∧
    (∀ (h : EdgeHistory) (q : EdgeRequest),
      (h.after q).candidate.edgeTo? q.target =
        some ((h.candidate.edgeOrNew q.target).amend q.clauses q.inactive) ∧
      (h.after q).candidate.edges.filter (·.target ≠ q.target) =
        h.candidate.edges.filter (·.target ≠ q.target)) ∧
    ∀ hs : List EdgeHistory, (dropExhausted (hs.map candidate)).result =
      .ok ((hs.filter (·.StaysOpen)).map candidate) := by
  refine ⟨?_, ?_, ?_, dropExhausted_map_candidate⟩
  · exact fun q q' => BaseSet.ofList_eq_ofList_iff
  · exact fun h => ⟨h.candidate_eq, fun target => ⟨h.edgeOrNew_eq target, h.edgeTo?_eq target⟩⟩
  · intro h q
    refine ⟨h.edgeTo?_after q, ?_⟩
    rw [candidate_after]
    exact amendIn_others q.target q.clauses q.inactive h.candidate.edges

def used : EdgeHistory where
  start := { bases := .single 1 }
  bare := rfl
  requests := [
    ⟨[2, 3], [⟨⟨1, 0⟩, ⟨2, 0⟩, 0.5⟩], some true⟩,
    ⟨[4], [], some true⟩,
    ⟨[3, 2, 3], [⟨⟨1, 1⟩, ⟨3, 0⟩, 0.25⟩], none⟩]

def reopened : EdgeHistory := used.after ⟨[4], [], some false⟩

theorem edges_follow_requests_reopened :
    used.candidate.edges =
      [⟨.ofList [2, 3], [⟨⟨1, 0⟩, ⟨2, 0⟩, 0.5⟩, ⟨⟨1, 1⟩, ⟨3, 0⟩, 0.25⟩], true⟩, ⟨.single 4, [], true⟩] ∧
    used.candidate.edgeTo? (.ofList [3, 2]) = some (used.candidate.edgeOrNew (.ofList [2, 3, 2])) ∧
    used.candidate.edgeTo? (.single 2) = none ∧
    (dropExhausted [used.candidate, reopened.candidate]).result = .ok [reopened.candidate] := by
  obtain ⟨htargets, hedges, -, hdrop⟩ := edges_follow_requests
  obtain ⟨hcandidate, hlookup⟩ := hedges used
  have hsame : BaseSet.ofList [3, 2] = .ofList [2, 3, 2] :=
    (htargets ⟨[3, 2], [], none⟩ ⟨[2, 3, 2], [], none⟩).mpr (by simp)
  refine ⟨?_, ?_, ?_, ?_⟩
  · rw [hcandidate]
    rfl
  · rw [hsame, (hlookup _).1, (hlookup _).2, if_pos (by decide)]
  · rw [(hlookup _).2, if_neg (by decide)]
  · have hopen : [used, reopened].filter (·.StaysOpen) = [reopened] := by
      rw [List.filter_cons_of_neg (by decide), List.filter_cons_of_pos (by decide), List.filter_nil]
    have hrun := hdrop [used, reopened]
    rw [hopen] at hrun
    exact hrun

end EdgeHistory
end JoinLevel
