import JoinLevel.Candidate
import JoinLevel.Proofs.BaseSets
import JoinLevel.Proofs.Keyed

namespace JoinLevel

variable {bases target : BaseSet} {es : List Edge} {e : Edge}

theorem slot_cons (target : BaseSet) (e : Edge) (es : List Edge) : Edge.slot target (e :: es) =
    if e.target = target then ⟨e :: es, 0⟩
    else ⟨e :: (Edge.slot target es).edges, (Edge.slot target es).index.succ⟩ := by
  by_cases he : e.target = target
  · rw [if_pos he]
    simp [Edge.slot, List.findIdx_cons, he]
  · rw [if_neg he]
    simp only [Edge.slot, List.findIdx_cons, he, decide_false, cond_false]
    by_cases hlt : es.findIdx (·.target = target) < es.length
    · rw [dif_pos hlt, dif_pos (by simpa using hlt)]
      rfl
    · rw [dif_neg hlt, dif_neg (by simpa using hlt)]
      rfl

theorem slot_edge (target : BaseSet) (es : List Edge) :
    (Edge.slot target es).edge = (es.find? (·.target = target)).getD { target } := by
  induction es with
  | nil => rfl
  | cons e es ih =>
    rw [slot_cons, List.find?_cons]
    by_cases he : e.target = target
    · rw [if_pos he, decide_eq_true he, Option.getD_some]
      rfl
    · rw [if_neg he, decide_eq_false he, ← ih]
      rfl

theorem amendIn_eq_upsert (target : BaseSet) (clauses : List Clause) (inactive : Option Bool) (es : List Edge) :
    Edge.amendIn target clauses inactive es =
      upsert Edge.target target (fun o => (o.getD { target }).amend clauses inactive) es := by
  induction es with
  | nil => rfl
  | cons e es ih =>
    rw [Edge.amendIn, slot_cons, upsert]
    by_cases he : e.target = target
    · rw [if_pos he, if_pos he]
      rfl
    · rw [if_neg he, if_neg he, ← ih]
      rfl

theorem amend_keepsKey (target : BaseSet) (clauses : List Clause) (inactive : Option Bool) :
    KeepsKey Edge.target target fun o => (o.getD { target }).amend clauses inactive := by
  intro o ho
  cases o with
  | none => rfl
  | some e => exact ho e rfl

def clausesTo (target : BaseSet) (es : List Edge) : List Clause :=
  (es.filter (·.target = target)).flatMap Edge.clauses

theorem clausesTo_append (target : BaseSet) (es es' : List Edge) :
    clausesTo target (es ++ es') = clausesTo target es ++ clausesTo target es' := by
  rw [clausesTo, List.filter_append, List.flatMap_append, clausesTo, clausesTo]

def bundle? : List Edge → Option Edge
  | [] => none
  | e :: es => some { target := e.target, clauses := (e :: es).flatMap Edge.clauses }

theorem bundle?_picks : Picks Edge.target bundle? where
  nil := rfl
  cons _ _ _ := ⟨_, rfl, rfl⟩

theorem bundle?_append (es : List Edge) (e : Edge) :
    bundle? (es ++ [e]) = some (((bundle? es).getD { target := e.target }).amend e.clauses none) := by
  cases es with
  | nil =>
    simp only [List.nil_append, bundle?, List.flatMap_singleton]
    rfl
  | cons e' es =>
    rw [List.cons_append, bundle?, ← List.cons_append, List.flatMap_append, List.flatMap_singleton]
    rfl

theorem inheritEdges_eq_digest (bases : BaseSet) (es : List Edge) :
    inheritEdges bases es = digest Edge.target bundle? (es.filter fun e => !e.target.isSubset bases) := by
  rw [← bundle?_picks.foldl_upsert (fun e => amend_keepsKey e.target e.clauses none) bundle?_append, inheritEdges]
  simp only [amendIn_eq_upsert]

theorem nodup_inheritEdges (bases : BaseSet) (es : List Edge) : ((inheritEdges bases es).map Edge.target).Nodup := by
  rw [inheritEdges_eq_digest]
  exact bundle?_picks.nodup_digest _

theorem mem_inheritEdges_target : target ∈ (inheritEdges bases es).map Edge.target ↔
    target ∈ es.map Edge.target ∧ ¬ target ⊆ bases := by
  rw [inheritEdges_eq_digest, bundle?_picks.map_digest, List.mem_eraseDups, List.mem_map, List.mem_map,
    ← BaseSet.isSubset_iff]
  constructor
  · rintro ⟨e, he, rfl⟩
    obtain ⟨hes, hsub⟩ := List.mem_filter.mp he
    exact ⟨⟨e, hes, rfl⟩, by simpa using hsub⟩
  · rintro ⟨⟨e, he, rfl⟩, hsub⟩
    exact ⟨e, List.mem_filter.mpr ⟨he, by simpa using hsub⟩, rfl⟩

theorem inheritEdges_active (he : e ∈ inheritEdges bases es) : e.inactive = false := by
  rw [inheritEdges_eq_digest] at he
  obtain ⟨t, -, ht⟩ := List.mem_filterMap.mp he
  cases hg : (es.filter fun e => !e.target.isSubset bases).filter (·.target = t) with
  | nil => simp [hg, bundle?] at ht
  | cons e' es' =>
    rw [hg, bundle?, Option.some.injEq] at ht
    rw [← ht]

theorem clausesTo_inheritEdges (h : ¬ target ⊆ bases) :
    clausesTo target (inheritEdges bases es) = clausesTo target es := by
  have hbundle (es : List Edge) : (bundle? es).toList.flatMap Edge.clauses = es.flatMap Edge.clauses := by
    cases es <;> simp [bundle?]
  rw [clausesTo, inheritEdges_eq_digest, bundle?_picks.filter_digest, hbundle, List.filter_filter, clausesTo]
  congr 1
  apply List.filter_congr
  intro e _
  by_cases he : e.target = target
  · simp [he, BaseSet.isSubset_eq_false_iff.mpr h]
  · simp [he]

theorem clausesTo_of_mem (hn : (es.map Edge.target).Nodup) (he : e ∈ es) : clausesTo e.target es = e.clauses := by
  rw [clausesTo, filter_key_of_mem hn he, List.flatMap_singleton]

end JoinLevel
