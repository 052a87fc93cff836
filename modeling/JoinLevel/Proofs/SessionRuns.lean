import Mathlib.Data.Fintype.EquivFin
import JoinLevel.Proofs.Soundness

namespace JoinLevel

def Answer.isFailure : Answer → Bool
  | violation _ | missing | notSelected => true
  | _ => false

namespace Step

def target? : Step → Option String
  | add level _ | run _ level => some level
  | pick _ target _ _ | mergeBatches _ _ target | join _ _ target _ _ _ => some target
  | settle place _ | edit place _ | amendEdge place _ _ _ => some place.level
  | list _ | cheapestUnordered _ | edgeTo _ _ | isExhausted _ => none

def place? : Step → Option Place
  | settle place _ | edit place _ | amendEdge place _ _ _ => some place
  | _ => none

/-- Steps that rewrite no candidate in its place, and bring in none but those of `start`. -/
def DrawsOn (start : List Candidate) : Step → Prop
  | add _ r => r ∈ start
  | settle _ _ | edit _ _ | amendEdge _ _ _ _ | join _ _ _ _ _ _ => False
  | _ => True

end Step

namespace Session

variable {p : Pruner} {s : Session} {st : Step} {steps steps' : List Step} {start rs ss out : List Candidate}
  {level level' name : String} {names : List String} {place place' : Place} {r : Candidate}
  {x : Run (List Candidate)} {f : Candidate → Outcome}

theorem put_self (s : Session) (level : String) (rs : List Candidate) : s.put level rs level = rs := if_pos rfl

theorem put_of_ne (s : Session) (rs : List Candidate) (h : name ≠ level) : s.put level rs name = s name := if_neg h

theorem get?_set_of_ne (s : Session) (r : Candidate) (h : place' ≠ place) :
    (s.set place r).get? place' = s.get? place' := by
  obtain ⟨level, i⟩ := place
  obtain ⟨level', i'⟩ := place'
  by_cases hl : level' = level
  · subst hl
    have hi : i ≠ i' := fun hi => h (by rw [hi])
    rw [get?, set, put_self, List.getElem?_set_ne hi, get?]
  · rw [get?, set, put_of_ne _ _ hl, get?]

/-- The outcome leaves the session as it was, or it answers without a failure and has changed one level. -/
def Moves (s : Session) (level : Option String) (o : Outcome) : Prop :=
  o.session = s ∨ ∃ name rs, level = some name ∧ o.answer.isFailure = false ∧ o.session = s.put name rs

theorem moves_store (s : Session) (level : String) (x : Run (List Candidate)) :
    s.Moves (some level) (s.store level x) := by
  rw [store]
  cases x.result with
  | ok rs => exact .inr ⟨level, rs, rfl, rfl, rfl⟩
  | error v => exact .inl rfl

theorem moves_withCandidate {target : Option String} (h : ∀ r, s.get? place = some r → s.Moves target (f r)) :
    s.Moves target (s.withCandidate place f) := by
  rw [withCandidate]
  cases hr : s.get? place with
  | some r => exact h r hr
  | none => exact .inl rfl

theorem step_moves (p : Pruner) (s : Session) (st : Step) : s.Moves st.target? (step p s st) := by
  cases st with
  | add level r => exact .inr ⟨level, _, rfl, rfl, rfl⟩
  | pick source target indexes append =>
    simp only [step]
    split
    · exact .inr ⟨target, _, rfl, rfl, rfl⟩
    · exact .inl rfl
  | list level => exact .inl rfl
  | run task level => exact moves_store s level _
  | mergeBatches first second target => exact moves_store s target _
  | settle place _ | edit place _ | amendEdge place _ _ _ =>
    exact moves_withCandidate fun r _ => .inr ⟨place.level, _, rfl, rfl, rfl⟩
  | cheapestUnordered place | edgeTo place _ | isExhausted place => exact moves_withCandidate fun r _ => .inl rfl
  | join outer inner target clauses plans pruneable =>
    refine moves_withCandidate fun o _ => moves_withCandidate fun i _ => ?_
    split
    · exact .inr ⟨target, _, rfl, rfl, rfl⟩
    · exact .inl rfl

theorem step_of_failure (h : (step p s st).answer.isFailure) : (step p s st).session = s := by
  rcases step_moves p s st with hs | ⟨level, rs, -, ha, -⟩
  · exact hs
  · rw [ha] at h
    cases h

theorem step_other (h : st.target? ≠ some name) : (step p s st).session name = s name := by
  rcases step_moves p s st with hs | ⟨level, rs, ht, -, hs⟩
  · rw [hs]
  · rw [hs, put_of_ne]
    rintro rfl
    exact h ht

theorem get?_step_of_ne (hst : st.place? = some place) (h : place' ≠ place) :
    (step p s st).session.get? place' = s.get? place' := by
  cases st with
  | settle _ _ | edit _ _ | amendEdge _ _ _ _ =>
    cases hst
    simp only [step, withCandidate]
    split
    · exact get?_set_of_ne s _ h
    · rfl
  | _ => cases hst

def ReachedFrom (p : Pruner) (start : List Candidate) (s : Session) : Prop := ∀ name, Reached p start (s name)

namespace ReachedFrom

theorem empty : ReachedFrom p start empty := fun _ => .pick .start (List.nil_subset start)

theorem put (hs : ReachedFrom p start s) (h : Reached p start rs) : ReachedFrom p start (s.put level rs) := by
  intro name
  by_cases hn : name = level
  · rwa [hn, put_self]
  · rw [put_of_ne _ _ hn]
    exact hs name

theorem store (hs : ReachedFrom p start s) (h : ∀ rs, x.result = .ok rs → Reached p start rs) :
    ReachedFrom p start (s.store level x).session := by
  rw [Session.store]
  cases hx : x.result with
  | ok rs => exact hs.put (h rs hx)
  | error v => exact hs

theorem withCandidate (hs : ReachedFrom p start s) (h : ∀ r, (f r).session = s) :
    ReachedFrom p start (s.withCandidate place f).session := by
  rw [Session.withCandidate]
  cases s.get? place with
  | some r => rwa [h r]
  | none => exact hs

end ReachedFrom

theorem mapM_getElem?_subset {is : List Nat} (h : is.mapM (fun i => rs[i]?) = some out) : out ⊆ rs := by
  induction is generalizing out with
  | nil =>
    cases h
    exact List.nil_subset rs
  | cons i is ih =>
    rw [List.mapM_cons] at h
    obtain ⟨r, hr, h⟩ := Option.bind_eq_some_iff.mp h
    obtain ⟨out', hout', h⟩ := Option.bind_eq_some_iff.mp h
    cases h
    exact List.cons_subset.mpr ⟨List.mem_of_getElem? hr, ih hout'⟩

theorem ReachedFrom.step (hs : ReachedFrom p start s) (hst : st.DrawsOn start) :
    ReachedFrom p start (step p s st).session := by
  cases st with
  | add level r =>
    have hr : [r] ⊆ start := List.cons_subset.mpr ⟨hst, List.nil_subset start⟩
    exact hs.put (.append (hs level) (.pick .start hr))
  | pick source target indexes append =>
    simp only [Session.step]
    split
    · rename_i rs hrs
      have hpicked : Reached p start rs := by
        refine .pick (hs source) ?_
        cases indexes with
        | none =>
          cases hrs
          exact List.Subset.refl _
        | some is => exact mapM_getElem?_subset hrs
      apply hs.put
      split
      · exact .append (hs target) hpicked
      · exact hpicked
    · exact hs
  | list level => exact hs
  | run task level => exact hs.store fun rs hrs => .run task (hs level) hrs
  | mergeBatches first second target => exact hs.store fun rs hrs => .mergeBatches (hs first) (hs second) hrs
  | cheapestUnordered place | edgeTo place _ | isExhausted place => exact hs.withCandidate fun _ => rfl
  | settle _ _ | edit _ _ | amendEdge _ _ _ _ | join _ _ _ _ _ _ => exact hst.elim

def after (p : Pruner) (s : Session) (steps : List Step) : Session :=
  steps.foldl (fun s st => (step p s st).session) s

theorem after_append (s : Session) (steps steps' : List Step) :
    s.after p (steps ++ steps') = (s.after p steps).after p steps' :=
  List.foldl_append

theorem ReachedFrom.after (hs : ReachedFrom p start s) (hsteps : ∀ st ∈ steps, st.DrawsOn start) :
    ReachedFrom p start (s.after p steps) :=
  List.foldlRecOn steps _ hs fun _ hs st hst => hs.step (hsteps st hst)

theorem after_other (h : ∀ st ∈ steps, st.target? ≠ some name) : s.after p steps name = s name :=
  List.foldlRecOn steps _ (motive := fun t : Session => t name = s name) rfl
    fun _ ht st hst => (step_other (h st hst)).trans ht

theorem exists_mapM_getElem? (h : out ⊆ rs) : ∃ is : List Nat, is.mapM (fun i => rs[i]?) = some out := by
  induction out with
  | nil => exact ⟨[], rfl⟩
  | cons r out ih =>
    obtain ⟨hr, hout⟩ := List.cons_subset.mp h
    obtain ⟨i, hi⟩ := List.mem_iff_getElem?.mp hr
    obtain ⟨is, his⟩ := ih hout
    exact ⟨i :: is, by rw [List.mapM_cons, hi, his]; rfl⟩

/-- The steps put `rs` at a level of its own and leave the levels `names` as they were. -/
structure Builds (p : Pruner) (start : List Candidate) (s : Session) (names : List String) (steps : List Step)
    (level : String) (rs : List Candidate) : Prop where
  draws : ∀ st ∈ steps, st.DrawsOn start
  fresh : level ∉ names
  built : s.after p steps level = rs
  kept : ∀ name ∈ names, s.after p steps name = s name

namespace Builds

theorem nil (h : level ∉ names) : Builds p start s names [] level (s level) :=
  ⟨fun _ hst => absurd hst List.not_mem_nil, h, rfl, fun _ _ => rfl⟩

theorem extend (h : Builds p start s names steps level rs) (st : Step) (hst : st.DrawsOn start)
    (hput : (Session.step p (s.after p steps) st).session = (s.after p steps).put level out) :
    Builds p start s names (steps ++ [st]) level out := by
  have hafter : s.after p (steps ++ [st]) = (s.after p steps).put level out := by
    rw [after_append, ← hput]
    rfl
  refine ⟨?_, h.fresh, by rw [hafter, put_self], fun name hname => ?_⟩
  · rw [List.forall_mem_append, List.forall_mem_singleton]
    exact ⟨h.draws, hst⟩
  · have hne : name ≠ level := fun he => h.fresh (he ▸ hname)
    rw [hafter, put_of_ne _ _ hne, h.kept name hname]

theorem pick (h : Builds p start s names steps level rs) (hsub : out ⊆ rs) :
    ∃ steps', Builds p start s names steps' level out := by
  obtain ⟨is, his⟩ := exists_mapM_getElem? hsub
  refine ⟨_, h.extend (.pick level level (some is) false) trivial ?_⟩
  simp only [Session.step, h.built, his]
  rfl

theorem beside (h : Builds p start s names steps level rs)
    (h' : Builds p start (s.after p steps) (level :: names) steps' level' ss) :
    Builds p start s names (steps ++ steps') level rs ∧ s.after p (steps ++ steps') level' = ss := by
  -- the second steps leave the level of the first alone
  rw [after_append]
  refine ⟨⟨?_, h.fresh, ?_, fun name hname => ?_⟩, h'.built⟩
  · rw [List.forall_mem_append]
    exact ⟨h.draws, h'.draws⟩
  · rw [after_append, h'.kept level List.mem_cons_self, h.built]
  · rw [after_append, h'.kept name (List.mem_cons_of_mem level hname), h.kept name hname]

end Builds

/-- Whatever the session and whichever levels are to be left alone, some steps make `rs`. -/
def Buildable (p : Pruner) (start rs : List Candidate) : Prop :=
  ∀ (s : Session) (names : List String), ∃ steps level, Builds p start s names steps level rs

theorem buildable_of_subset (p : Pruner) (h : rs ⊆ start) : Buildable p start rs := by
  intro s names
  induction rs using List.reverseRecOn with
  | nil =>
    obtain ⟨level, hlevel⟩ := Infinite.exists_notMem_finset names.toFinset
    have hfresh : level ∉ names := by simpa using hlevel
    obtain ⟨steps, hsteps⟩ := (Builds.nil hfresh).pick (List.nil_subset (s level))
    exact ⟨steps, level, hsteps⟩
  | append_singleton rs r ih =>
    obtain ⟨hrs, hr⟩ := List.append_subset.mp h
    obtain ⟨steps, level, hsteps⟩ := ih hrs
    refine ⟨_, level, hsteps.extend (.add level r) (hr List.mem_cons_self) ?_⟩
    rw [step, hsteps.built]

theorem Buildable.both (h : Buildable p start rs) (h' : Buildable p start ss) (s : Session) (names : List String) :
    ∃ steps level level', Builds p start s names steps level rs ∧ s.after p steps level' = ss := by
  obtain ⟨steps, level, hsteps⟩ := h s names
  obtain ⟨steps', level', hsteps'⟩ := h' (s.after p steps) (level :: names)
  exact ⟨steps ++ steps', level, level', hsteps.beside hsteps'⟩

theorem buildable_of_reached (h : Reached p start rs) : Buildable p start rs := by
  induction h with
  | start => exact buildable_of_subset p (List.Subset.refl start)
  | pick _ hsub ih =>
    intro s names
    obtain ⟨steps, level, hsteps⟩ := ih s names
    obtain ⟨steps', hsteps'⟩ := hsteps.pick hsub
    exact ⟨steps', level, hsteps'⟩
  | append _ _ ih ih' =>
    intro s names
    obtain ⟨steps, level, level', hsteps, hlevel'⟩ := ih.both ih' s names
    refine ⟨_, level, hsteps.extend (.pick level' level none true) trivial ?_⟩
    simp only [step, hsteps.built, hlevel']
    rfl
  | run task _ hok ih =>
    intro s names
    obtain ⟨steps, level, hsteps⟩ := ih s names
    refine ⟨_, level, hsteps.extend (.run task level) trivial ?_⟩
    simp only [step, store, hsteps.built, hok]
  | mergeBatches _ _ hok ih ih' =>
    intro s names
    obtain ⟨steps, level, level', hsteps, hlevel'⟩ := ih.both ih' s names
    refine ⟨_, level, hsteps.extend (.mergeBatches level level' level) trivial ?_⟩
    simp only [step, store, hsteps.built, hlevel', hok]

theorem reached_iff_exists_steps : Reached p start rs ↔
    ∃ steps level, (∀ st ∈ steps, st.DrawsOn start) ∧ empty.after p steps level = rs := by
  constructor
  · intro h
    obtain ⟨steps, level, hsteps⟩ := buildable_of_reached h empty []
    exact ⟨steps, level, hsteps.draws, hsteps.built⟩
  · rintro ⟨steps, level, hdraws, rfl⟩
    exact ReachedFrom.empty.after hdraws level

theorem forall_mem_after {W I : Candidate → Prop} (hp : Preserved p W I) (hstart : ∀ r ∈ start, I r)
    (hsteps : ∀ st ∈ steps, st.DrawsOn start) : ∀ r ∈ empty.after p steps name, I r := by
  have hreached : ReachedFrom p start (empty.after p steps) := ReachedFrom.empty.after hsteps
  exact hp.reached hstart (hreached name)

theorem sound_after (hm : p.model = .standard) (hp : p.policy.Selective)
    (hstart : ∀ r ∈ start, r.cheapest = none ∧ r.unordered = none)
    (hid : Identified (start.flatMap Candidate.paths)) (hsteps : ∀ st ∈ steps, st.DrawsOn start) :
    ∀ r ∈ empty.after p steps name, r.Sound p.options := by
  have hall : ∀ r ∈ empty.after p steps name, r.paths ⊆ start.flatMap Candidate.paths ∧ r.Sound p.options :=
    forall_mem_after (Pruner.sound_preserved hm hp hid) (Candidate.sound_of_start hstart) hsteps
  exact fun r hr => (hall r hr).2

example : empty.after {} (Sample.offers.map (Step.add "pair") ++ [.run .finish "pair"]) "pair" = [Sample.chosen] := rfl

end Session
end JoinLevel
