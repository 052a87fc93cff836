import Mathlib.Algebra.Order.Group.Multiset
import Mathlib.Tactic.Abel
import JoinLevel.Level
import JoinLevel.Proofs.Covering

namespace JoinLevel

namespace Event

def lost? : Event → Option PathId
  | replaced _ old _ => some old
  | dominated _ path _ => some path
  | unorderedPruned _ path _ _ => some path
  | _ => none

def mergedBases? : Event → Option BaseSet
  | merged _ bases _ _ => some bases
  | _ => none

def droppedBases? : Event → Option BaseSet
  | exhaustedDropped bases _ => some bases
  | _ => none

/-- What a trace line shows, where `keys` has the key for each name of a line that counts. -/
def shown? (keys : List (String × String)) (e : Event) : Option String :=
  match e.severity, (keys.lookup e.name).bind fun k => List.lookup k e.fields with
  | .trace, some (Field.text s) => some s
  | _, _ => none

theorem lost?_shown (e : Event) : e.lost?.map toString =
    e.shown? [("path_replaced", "old"), ("path_dominated", "path"), ("prune_unordered", "path")] := by
  cases e <;> rfl

theorem mergedBases?_shown (e : Event) : e.mergedBases?.map toString = e.shown? [("merge_rel", "relids")] := by
  cases e <;> rfl

theorem droppedBases?_shown (e : Event) : e.droppedBases?.map toString = e.shown? [("drop_exhausted", "relids")] := by
  cases e <;> rfl

end Event

def named {α : Type} (field : Event → Option α) (es : List Event) : Multiset α := es.filterMap field

def lost : List Event → Multiset PathId := named Event.lost?

def mergedBases : List Event → Multiset BaseSet := named Event.mergedBases?

def droppedBases : List Event → Multiset BaseSet := named Event.droppedBases?

def idsOf (ps : List Path) : Multiset PathId := ps.map Path.id

def listedIds (rs : List Candidate) : Multiset PathId := idsOf (rs.flatMap Candidate.paths)

def basesOf (rs : List Candidate) : Multiset BaseSet := rs.map Candidate.bases

/-- From `rs` to `out` nothing went missing but what the events `es` name. -/
structure Balanced (rs out : List Candidate) (es : List Event) : Prop where
  paths : listedIds rs = listedIds out + lost es
  bases : basesOf rs = basesOf out + mergedBases es

section Counting

variable {es es' : List Event} {ps qs : List Path} {rs ss : List Candidate}

@[simp] theorem lost_nil : lost [] = 0 := rfl

theorem named_append {α : Type} (field : Event → Option α) (es es' : List Event) :
    named field (es ++ es') = named field es + named field es' := by
  rw [named, List.filterMap_append, ← Multiset.coe_add]
  rfl

theorem lost_append : lost (es ++ es') = lost es + lost es' := named_append _ es es'

theorem mergedBases_append : mergedBases (es ++ es') = mergedBases es + mergedBases es' := named_append _ es es'

@[simp] theorem idsOf_append : idsOf (ps ++ qs) = idsOf ps + idsOf qs := by
  rw [idsOf, List.map_append, ← Multiset.coe_add]
  rfl

theorem idsOf_cons (p : Path) (ps : List Path) : idsOf (p :: ps) = {p.id} + idsOf ps := by
  rw [← List.singleton_append, idsOf_append]
  rfl

@[simp] theorem listedIds_append : listedIds (rs ++ ss) = listedIds rs + listedIds ss := by
  rw [listedIds, List.flatMap_append, idsOf_append]
  rfl

@[simp] theorem basesOf_append : basesOf (rs ++ ss) = basesOf rs + basesOf ss := by
  rw [basesOf, List.map_append, ← Multiset.coe_add]
  rfl

theorem idsOf_perm (h : ps.Perm qs) : idsOf ps = idsOf qs := Multiset.coe_eq_coe.mpr (h.map _)

theorem listedIds_perm (h : rs.Perm ss) : listedIds rs = listedIds ss := idsOf_perm (h.flatMap_right _)

theorem basesOf_perm (h : rs.Perm ss) : basesOf rs = basesOf ss := Multiset.coe_eq_coe.mpr (h.map _)

end Counting

namespace Balanced

variable {rs rs' ss out out' : List Candidate} {es es' : List Event}

theorem silent (rs : List Candidate) (hlost : lost es = 0) (hmerged : mergedBases es = 0) : Balanced rs rs es where
  paths := by rw [hlost, add_zero]
  bases := by rw [hmerged, add_zero]

theorem refl (rs : List Candidate) : Balanced rs rs [] := silent rs rfl rfl

theorem single {r s : Candidate} (hbases : s.bases = r.bases) (hpaths : idsOf r.paths = idsOf s.paths + lost es)
    (hmerged : mergedBases es = 0) : Balanced [r] [s] es where
  paths := by simpa [listedIds] using hpaths
  bases := by simp [basesOf, hbases, hmerged]

theorem trans (h : Balanced rs ss es) (h' : Balanced ss out es') : Balanced rs out (es ++ es') where
  paths := by rw [h.paths, h'.paths, lost_append]; abel
  bases := by rw [h.bases, h'.bases, mergedBases_append]; abel

theorem append (h : Balanced rs out es) (h' : Balanced rs' out' es') :
    Balanced (rs ++ rs') (out ++ out') (es ++ es') where
  paths := by rw [listedIds_append, listedIds_append, h.paths, h'.paths, lost_append]; abel
  bases := by rw [basesOf_append, basesOf_append, h.bases, h'.bases, mergedBases_append]; abel

theorem beside (h : Balanced rs out es) (xs ys : List Candidate) : Balanced (xs ++ rs ++ ys) (xs ++ out ++ ys) es := by
  simpa using ((refl xs).append h).append (refl ys)

theorem of_perm (hperm : rs'.Perm rs) (h : Balanced rs out es) : Balanced rs' out es where
  paths := (listedIds_perm hperm).trans h.paths
  bases := (basesOf_perm hperm).trans h.bases

end Balanced

theorem idsOf_contend (bases : BaseSet) (kept : List Path) (p : Path) :
    idsOf (p :: kept) = idsOf (contend kept p) + lost (contest bases kept p) := by
  induction kept with
  | nil => exact (add_zero _).symm
  | cons q qs ih =>
    by_cases hord : q.order = p.order
    · have hfind : (q :: qs).find? (·.order = p.order) = some q := List.find?_cons_of_pos (by simpa using hord)
      simp only [contend, contest, hfind, hord, ↓reduceIte]
      by_cases hlt : p.cost < q.cost
      · have hlost : lost [.replaced bases q.id p.id] = {q.id} := rfl
        rw [if_pos hlt, if_pos hlt, hlost, idsOf_cons, idsOf_cons, idsOf_cons]
        abel
      · have hlost : lost [.dominated bases p.id q.id] = {p.id} := rfl
        rw [if_neg hlt, if_neg hlt, hlost, idsOf_cons, idsOf_cons]
        abel
    · have hfind : (q :: qs).find? (·.order = p.order) = qs.find? (·.order = p.order) :=
        List.find?_cons_of_neg (by simpa using hord)
      have hcontest : contest bases (q :: qs) p = contest bases qs p := by simp only [contest, hfind]
      rw [hcontest, contend, if_neg hord, idsOf_cons q, add_assoc, ← ih]
      simp only [idsOf_cons]
      abel

theorem idsOf_foldl_contend (bases : BaseSet) (kept ps : List Path) :
    idsOf (kept ++ ps) = idsOf (ps.foldl contend kept) + lost (contests bases kept ps) := by
  induction ps generalizing kept with
  | nil => simp [contests]
  | cons p ps ih =>
    have hfirst : idsOf (kept ++ p :: ps) = idsOf (p :: kept) + idsOf ps := by
      rw [idsOf_append, idsOf_cons, idsOf_cons]
      abel
    -- `p` first contends with `kept` alone, the rest with what that leaves
    rw [hfirst, idsOf_contend bases, List.foldl_cons, contests, lost_append, add_right_comm, ← idsOf_append, ih]
    abel

theorem mergedBases_contests (bases : BaseSet) (kept ps : List Path) : mergedBases (contests bases kept ps) = 0 := by
  induction ps generalizing kept with
  | nil => rfl
  | cons p ps ih =>
    have hcontest : mergedBases (contest bases kept p) = 0 := by
      unfold contest
      split
      · split <;> rfl
      · rfl
    rw [contests, mergedBases_append, hcontest, ih, add_zero]

namespace Pruner

variable {p : Pruner} {task : MergeTask} {m : Merging} {rs ss ds out first second : List Candidate}
  {r s d : Candidate} {c : Path} {b : BaseSet} {es : List Event}

theorem absorb_balanced (hp : p.policy = .dominance) (hb : r.bases = d.bases) :
    Balanced [r, d] [p.absorb r d] (p.absorbEvents task r d) := by
  have habsorb : (p.absorb r d).paths = (r.paths ++ d.paths).foldl contend [] := by
    simp only [absorb, hp, MergePolicy.dominance]
  have hevents : p.absorbEvents task r d =
      [.merged task r.bases r.paths.length d.paths.length] ++ contests r.bases [] (r.paths ++ d.paths) := by
    simp only [absorbEvents, hp, MergePolicy.dominance, List.singleton_append]
  rw [hevents]
  constructor
  · have hlost : lost [.merged task r.bases r.paths.length d.paths.length] = 0 := rfl
    rw [lost_append, hlost, zero_add]
    simpa [listedIds, habsorb] using idsOf_foldl_contend r.bases [] (r.paths ++ d.paths)
  · have hmerged : mergedBases [.merged task r.bases r.paths.length d.paths.length] = {r.bases} := rfl
    have hbases : basesOf [r, d] = basesOf [p.absorb r d] + {r.bases} := by
      rw [show [r, d] = [r] ++ [d] from rfl, basesOf_append, hb]
      simp [basesOf, hb]
    rw [mergedBases_append, hmerged, mergedBases_contests, add_zero, hbases]

theorem receive_balanced (hp : p.policy = .dominance) (h : Balanced rs m.kept m.events) :
    Balanced (rs ++ [d]) (p.receive task m d).kept (p.receive task m d).events := by
  have hstart : Balanced (rs ++ [d]) (m.kept ++ [d]) m.events := h.beside [] [d]
  rcases p.receive_cases task m d with ⟨-, he⟩ | ⟨xs, r, ys, hkept, hr, -, he⟩
  · rw [he]
    exact hstart
  · rw [he]
    apply hstart.trans
    -- the balance does not see where `d` stands, so it may be taken next to `r`, which absorbs it
    have hperm : (m.kept ++ [d]).Perm (xs ++ [r, d] ++ ys) := by
      have hd : (r :: ys ++ [d]).Perm ([r, d] ++ ys) := (List.perm_append_singleton d ys).cons r
      rw [hkept, List.append_assoc, List.append_assoc]
      exact hd.append_left xs
    have habsorb : Balanced (xs ++ [r, d] ++ ys) (xs ++ [p.absorb r d] ++ ys) (p.absorbEvents task r d) :=
      (absorb_balanced hp hr).beside xs ys
    simpa using habsorb.of_perm hperm

theorem foldl_receive_balanced (hp : p.policy = .dominance) (h : Balanced rs m.kept m.events) :
    Balanced (rs ++ ds) (ds.foldl (p.receive task) m).kept (ds.foldl (p.receive task) m).events := by
  induction ds generalizing rs m with
  | nil => simpa using h
  | cons d ds ih =>
    have hstep : Balanced (rs ++ [d]) (p.receive task m d).kept (p.receive task m d).events := receive_balanced hp h
    have hrest := ih hstep
    rwa [List.append_assoc] at hrest

theorem settle_balanced {designated : Option PathId} (h : p.settle r designated = (s, ⟨es, .ok c⟩)) :
    Balanced [r] [s] es := by
  have hsettles := settles_settle p r designated
  rw [h] at hsettles
  cases hsettles with
  | undesignated | kept => exact .single rfl (add_zero _).symm rfl
  | @removed _ u xs ys _ hps _ _ =>
    have hlost : lost [.unorderedPruned r.bases u.id u.cost c.id] = {u.id} := rfl
    refine .single rfl ?_ rfl
    rw [hps, hlost, idsOf_append, idsOf_append, idsOf_cons]
    abel

theorem select_balanced (h : p.select r = ⟨es, .ok s⟩) : Balanced [r] [s] es := by
  unfold select at h
  cases hs : p.settle { r with size := 0 } (r.cheapestUnordered?.map Path.id) with
  | mk t run =>
    simp only [hs, Run.bind_eq_ok_iff] at h
    obtain ⟨c, es₁, es₂, rfl, h, rfl⟩ := h
    have hreset : Balanced [r] [{ r with size := 0 }] [] := .single rfl (add_zero _).symm rfl
    have hstep : Balanced [r] [t] es₁ := hreset.trans (settle_balanced hs)
    cases hj : c.join? with
    | none =>
      rw [hj] at h
      cases h
    | some j =>
      rw [hj] at h
      cases h
      exact hstep.trans (.single rfl (add_zero _).symm rfl)

theorem mapM_select_balanced (h : rs.mapM p.select = ⟨es, .ok out⟩) : Balanced rs out es := by
  induction rs generalizing es out with
  | nil =>
    cases h
    exact .refl []
  | cons r rs ih =>
    simp only [List.mapM_cons, Run.bind_eq_ok_iff] at h
    obtain ⟨s, es₁, es', hs, ⟨ss, es₂, es₃, hss, h, rfl⟩, rfl⟩ := h
    cases h
    rw [List.append_nil]
    exact (select_balanced hs).append (ih hss)

theorem reselect_balanced (h : p.reselect rs b = ⟨es, .ok out⟩) : Balanced rs out es := by
  unfold reselect at h
  cases hl : lastOver? b rs with
  | none =>
    rw [hl] at h
    cases h
    exact .refl rs
  | some r =>
    simp only [hl, Run.bind_eq_ok_iff] at h
    obtain ⟨s, es₁, es₂, hs, h, rfl⟩ := h
    cases h
    obtain ⟨rfl, xs, ys, rfl, hys⟩ := lastOver?_eq_some_iff.mp hl
    have hsb : s.bases = r.bases := select_bases (congrArg Run.result hs)
    rw [replaceLast_append_cons hsb hys, List.append_nil]
    simpa using (select_balanced hs).beside xs ys

theorem foldlM_reselect_balanced {pending : List BaseSet} (h : pending.foldlM p.reselect rs = ⟨es, .ok out⟩) :
    Balanced rs out es := by
  induction pending generalizing rs es with
  | nil =>
    cases h
    exact .refl _
  | cons b bs ih =>
    rw [List.foldlM_cons, Run.bind_eq_ok_iff] at h
    obtain ⟨ss, es₁, es₂, hss, h, rfl⟩ := h
    exact (reselect_balanced hss).trans (ih h)

theorem resolve_balanced (hm : Balanced rs m.kept m.events) (h : p.resolve m = ⟨es, .ok out⟩) :
    Balanced rs out es := by
  rw [resolve, Run.bind_eq_ok_iff] at h
  obtain ⟨u, es₁, es₂, hrecord, h, rfl⟩ := h
  cases hrecord
  exact hm.trans (foldlM_reselect_balanced h)

theorem verifyCheapest_silent (h : p.verifyCheapest ss = ⟨es, .ok ()⟩) : Balanced rs rs es := by
  unfold verifyCheapest at h
  split at h
  · split at h
    · cases h
    · cases h
      exact .silent rs rfl rfl
  · cases h
    exact .refl rs

theorem verifyMerged_silent (h : p.verifyMerged ss = ⟨es, .ok ()⟩) : Balanced rs rs es := by
  rw [verifyMerged, Run.bind_eq_ok_iff] at h
  obtain ⟨u, es₁, es₂, hdistinct, h, rfl⟩ := h
  have hnone : es₁ = [] := by
    unfold verifyDistinct at hdistinct
    split at hdistinct
    · split at hdistinct <;> cases hdistinct
      rfl
    · cases hdistinct
      rfl
  rw [hnone]
  exact verifyCheapest_silent h

theorem concluded_balanced {e : Event} {check : Run Unit} (hlost : lost [e] = 0) (hmerged : mergedBases [e] = 0)
    (hcheck : ∀ es, check = ⟨es, .ok ()⟩ → Balanced rs rs es)
    (h : (do Run.log e; check; return rs : Run (List Candidate)) = ⟨es, .ok out⟩) : Balanced rs out es := by
  simp only [Run.bind_eq_ok_iff] at h
  obtain ⟨u, es₁, es', hlog, ⟨u', es₂, es₃, hes, h, rfl⟩, rfl⟩ := h
  cases hlog
  cases h
  rw [List.append_nil]
  exact (Balanced.silent rs hlost hmerged).trans (hcheck es₂ hes)

theorem dedup_balanced (hp : p.policy = .dominance) (h : p.dedup rs = ⟨es, .ok out⟩) : Balanced rs out es := by
  rw [dedup, Run.bind_eq_ok_iff] at h
  obtain ⟨ss, es₁, es₂, hss, h, rfl⟩ := h
  have hreceived : Balanced rs (rs.foldl (p.receive .deduplicate) {}).kept (rs.foldl (p.receive .deduplicate) {}).events :=
    foldl_receive_balanced (m := {}) hp (.refl [])
  exact (resolve_balanced hreceived hss).trans (concluded_balanced rfl rfl (fun _ => verifyMerged_silent) h)

theorem mergeBatches_balanced (hp : p.policy = .dominance) (h : p.mergeBatches first second = ⟨es, .ok out⟩) :
    Balanced (first ++ second) out es := by
  simp only [mergeBatches, List.partition_eq_filter_filter] at h
  generalize hmatched : second.filter (fun d => first.any (·.bases = d.bases)) = matched at h
  generalize hextra : second.filter (not ∘ fun d => first.any (·.bases = d.bases)) = extra at h
  rw [Run.bind_eq_ok_iff] at h
  obtain ⟨merged, es₁, es₂, hresolve, h, rfl⟩ := h
  have hreceived : Balanced (first ++ matched) (matched.foldl (p.receive .mergeBatches) { kept := first }).kept
      (matched.foldl (p.receive .mergeBatches) { kept := first }).events :=
    foldl_receive_balanced hp (.refl first)
  have hmerged : Balanced (first ++ matched ++ extra) (merged ++ extra) es₁ :=
    (resolve_balanced hreceived hresolve).beside [] extra
  have hperm : (first ++ second).Perm (first ++ matched ++ extra) := by
    rw [List.append_assoc, ← hmatched, ← hextra]
    exact ((List.filter_append_perm _ second).symm).append_left first
  exact (hmerged.of_perm hperm).trans (concluded_balanced rfl rfl (fun _ => verifyMerged_silent) h)

theorem selectLevel_balanced (h : p.selectLevel rs = ⟨es, .ok out⟩) : Balanced rs out es := by
  rw [selectLevel, Run.bind_eq_ok_iff] at h
  obtain ⟨ss, es₁, es₂, hss, h, rfl⟩ := h
  exact (mapM_select_balanced hss).trans (concluded_balanced rfl rfl (fun _ => verifyCheapest_silent) h)

theorem finish_balanced (hp : p.policy = .dominance) (h : p.finish rs = ⟨es, .ok out⟩) : Balanced rs out es := by
  rw [finish, Run.bind_eq_ok_iff] at h
  obtain ⟨ss, es₁, es₂, hss, h, rfl⟩ := h
  exact (dedup_balanced hp hss).trans (selectLevel_balanced h)

end Pruner

theorem LevelPlan.run_balanced {p : Pruner} {plan : LevelPlan} {out : List Candidate} {es : List Event}
    (hp : p.policy = .dominance) (h : plan.run p = ⟨es, .ok out⟩) : Balanced plan.candidates out es := by
  induction plan generalizing out es with
  | given rs =>
    cases h
    exact .refl rs
  | dedup part ih =>
    obtain ⟨rs, es₁, es₂, hrs, hrest, rfl⟩ := Run.bind_eq_ok_iff.mp h
    exact (ih hrs).trans (Pruner.dedup_balanced hp hrest)
  | select part ih =>
    obtain ⟨rs, es₁, es₂, hrs, hrest, rfl⟩ := Run.bind_eq_ok_iff.mp h
    exact (ih hrs).trans (Pruner.selectLevel_balanced hrest)
  | finish part ih =>
    obtain ⟨rs, es₁, es₂, hrs, hrest, rfl⟩ := Run.bind_eq_ok_iff.mp h
    exact (ih hrs).trans (Pruner.finish_balanced hp hrest)
  | mergeBatches first second ih₁ ih₂ =>
    obtain ⟨rs, es₁, es', hrs, hrest, rfl⟩ := Run.bind_eq_ok_iff.mp h
    obtain ⟨ss, es₂, es₃, hss, hmerge, rfl⟩ := Run.bind_eq_ok_iff.mp hrest
    rw [← List.append_assoc]
    exact ((ih₁ hrs).append (ih₂ hss)).trans (Pruner.mergeBatches_balanced hp hmerge)

theorem droppedBases_dropExhausted (rs : List Candidate) :
    droppedBases (dropExhausted rs).events = basesOf (rs.filter Candidate.isExhausted) := by
  have hevents : (dropExhausted rs).events =
      (rs.filter Candidate.isExhausted).map (fun r => .exhaustedDropped r.bases r.edges.length) ++
        [.exhaustedPruned rs.length (rs.filter (!·.isExhausted)).length] := rfl
  have hsummary (n m : Nat) : named Event.droppedBases? [.exhaustedPruned n m] = 0 := rfl
  rw [hevents, droppedBases, named_append, hsummary, add_zero, named, List.filterMap_map, basesOf,
    ← List.filterMap_eq_map]
  rfl

theorem dropExhausted_balanced (rs : List Candidate) : ∃ out, (dropExhausted rs).result = .ok out ∧
    basesOf rs = basesOf out + droppedBases (dropExhausted rs).events := by
  refine ⟨rs.filter (!·.isExhausted), rfl, ?_⟩
  have hsplit : (rs.filter Candidate.isExhausted ++ rs.filter (!·.isExhausted)).Perm rs :=
    List.filter_append_perm _ rs
  rw [droppedBases_dropExhausted, ← basesOf_perm hsplit, basesOf_append, add_comm]

theorem Pruner.losses_logged_once {p : Pruner} (hp : p.policy = .dominance) :
    (∀ rs out, (p.dedup rs).result = .ok out → Balanced rs out (p.dedup rs).events) ∧
    (∀ first second out, (p.mergeBatches first second).result = .ok out →
      Balanced (first ++ second) out (p.mergeBatches first second).events) ∧
    (∀ rs out, (p.selectLevel rs).result = .ok out → Balanced rs out (p.selectLevel rs).events) ∧
    (∀ rs out, (p.finish rs).result = .ok out → Balanced rs out (p.finish rs).events) ∧
    (∀ rs, ∃ out, (dropExhausted rs).result = .ok out ∧
      basesOf rs = basesOf out + droppedBases (dropExhausted rs).events) ∧
    ∀ e : Event,
      e.lost?.map toString =
        e.shown? [("path_replaced", "old"), ("path_dominated", "path"), ("prune_unordered", "path")] ∧
      e.mergedBases?.map toString = e.shown? [("merge_rel", "relids")] ∧
      e.droppedBases?.map toString = e.shown? [("drop_exhausted", "relids")] := by
  have hrun {x : Run (List Candidate)} {out : List Candidate} (h : x.result = .ok out) :
      x = ⟨x.events, .ok out⟩ := by rw [← h]
  refine ⟨fun rs out h => ?_, fun first second out h => ?_, fun rs out h => ?_, fun rs out h => ?_, ?_, ?_⟩
  · exact dedup_balanced hp (hrun h)
  · exact mergeBatches_balanced hp (hrun h)
  · exact selectLevel_balanced (hrun h)
  · exact finish_balanced hp (hrun h)
  · exact dropExhausted_balanced
  · exact fun e => ⟨e.lost?_shown, e.mergedBases?_shown, e.droppedBases?_shown⟩

theorem Pruner.losses_logged_once_chosen : (({} : Pruner).finish Sample.offers).result = .ok [Sample.chosen] ∧
    lost (({} : Pruner).finish Sample.offers).events = {⟨10⟩} ∧
    Balanced Sample.offers [Sample.chosen] (({} : Pruner).finish Sample.offers).events := by
  have hfinish : (({} : Pruner).finish Sample.offers).result = .ok [Sample.chosen] := rfl
  obtain ⟨-, -, -, hbalanced, -, -⟩ := losses_logged_once (p := {}) rfl
  exact ⟨hfinish, rfl, hbalanced _ _ hfinish⟩

end JoinLevel
