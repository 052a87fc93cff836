import JoinLevel.Level

namespace JoinLevel

/-- The levels at hand, by name; a level that was never stored is empty. -/
abbrev Session := String → List Candidate

structure Place where
  level : String
  index : Nat

inductive LevelTask where
  | deduplicate
  | select
  | finish
  | dropExhausted

structure Edit where
  paths : Option (List Path) := none
  cheapest : Option (Option Path) := none
  unordered : Option (Option Path) := none
  pruneable : Option Bool := none

inductive Step where
  | add (level : String) (r : Candidate)
  | pick (source target : String) (indexes : Option (List Nat)) (append : Bool)
  | list (level : String)
  | run (task : LevelTask) (level : String)
  | mergeBatches (first second target : String)
  | settle (place : Place) (designated : Option PathId)
  | cheapestUnordered (place : Place)
  | edit (place : Place) (change : Edit)
  | amendEdge (place : Place) (target : BaseSet) (clauses : List Clause) (inactive : Option Bool)
  | edgeTo (place : Place) (target : BaseSet)
  | isExhausted (place : Place)
  | join (outer inner : Place) (target : String) (clauses : List Clause) (plans : List JoinPlan)
      (pruneable : Bool)

inductive Answer where
  | level (rs : List Candidate)
  | candidate (r : Candidate)
  | settled (outcome : Except Violation Path) (r : Candidate)
  | path (p : Option Path)
  | edge (e : Option Edge)
  | amended (e : Edge) (r : Candidate)
  | flag (b : Bool)
  | joined (overlap : Bool) (r : Candidate)
  | violation (v : Violation)
  | missing
  | notSelected

def Edit.apply (e : Edit) (r : Candidate) : Candidate :=
  { r with
    paths := e.paths.getD r.paths
    cheapest := e.cheapest.getD r.cheapest
    unordered := e.unordered.getD r.unordered
    pruneable := e.pruneable.getD r.pruneable }

def LevelTask.apply (p : Pruner) : LevelTask → List Candidate → Run (List Candidate)
  | deduplicate => p.dedup
  | select => p.selectLevel
  | finish => p.finish
  | dropExhausted => JoinLevel.dropExhausted

structure Outcome where
  answer : Answer
  events : List Event := []
  session : Session

namespace Session

def empty : Session := fun _ => []

def put (s : Session) (level : String) (rs : List Candidate) : Session :=
  fun name => if name = level then rs else s name

def get? (s : Session) (place : Place) : Option Candidate := (s place.level)[place.index]?

def set (s : Session) (place : Place) (r : Candidate) : Session :=
  s.put place.level ((s place.level).set place.index r)

def store (s : Session) (level : String) (run : Run (List Candidate)) : Outcome :=
  match run.result with
  | .ok rs => ⟨.level rs, run.events, s.put level rs⟩
  | .error v => ⟨.violation v, run.events, s⟩

def withCandidate (s : Session) (place : Place) (f : Candidate → Outcome) : Outcome :=
  match s.get? place with
  | some r => f r
  | none => { answer := .missing, session := s }

def step (p : Pruner) (s : Session) : Step → Outcome
  | .add level r => { answer := .candidate r, session := s.put level (s level ++ [r]) }
  | .pick source target indexes append =>
    let picked := match indexes with
      | some is => is.mapM fun i => (s source)[i]?
      | none => some (s source)
    match picked with
    | some rs =>
      let rs := if append then s target ++ rs else rs
      { answer := .level rs, session := s.put target rs }
    | none => { answer := .missing, session := s }
  | .list level => { answer := .level (s level), session := s }
  | .run task level => s.store level (task.apply p (s level))
  | .mergeBatches first second target => s.store target (p.mergeBatches (s first) (s second))
  | .settle place designated => s.withCandidate place fun r =>
    let (r, run) := p.settle r designated
    ⟨.settled run.result r, run.events, s.set place r⟩
  | .cheapestUnordered place => s.withCandidate place fun r =>
    { answer := .path r.cheapestUnordered?, session := s }
  | .edit place change => s.withCandidate place fun r =>
    let r := change.apply r
    { answer := .candidate r, session := s.set place r }
  | .amendEdge place target clauses inactive => s.withCandidate place fun r =>
    let after := r.amendEdge target clauses inactive
    { answer := .amended (r.edgeOrNew target) after, session := s.set place after }
  | .edgeTo place target => s.withCandidate place fun r => { answer := .edge (r.edgeTo? target), session := s }
  | .isExhausted place => s.withCandidate place fun r => { answer := .flag r.isExhausted, session := s }
  | .join outer inner target clauses plans pruneable =>
    s.withCandidate outer fun o => s.withCandidate inner fun i =>
      match o.join? i clauses plans pruneable with
      | some r =>
        { answer := .joined (o.bases.overlaps i.bases) r, session := s.put target (s target ++ [r]) }
      | none => { answer := .notSelected, session := s }

end Session
end JoinLevel
