import JoinLevel.Event

namespace JoinLevel

inductive Violation where
  | cheapestNotJoin (bases : BaseSet) (path : PathId)
  | noPaths (bases : BaseSet)
  | unknownUnordered (bases : BaseSet) (path : PathId)
  | duplicate (bases : BaseSet)
  | cheapestNotMinimal (bases : BaseSet)
  deriving DecidableEq

namespace Violation

def message : Violation → String
  | cheapestNotJoin b p =>
    "cheapest path " ++ toString p ++ " of relation " ++ toString b ++ " is not a join path"
  | noPaths b => "relation " ++ toString b ++ " has no paths"
  | unknownUnordered b p =>
    "unordered path " ++ toString p ++ " is not in the path list of relation " ++ toString b
  | duplicate b => "relation " ++ toString b ++ " appears more than once after pruning"
  | cheapestNotMinimal b => "cheapest path of relation " ++ toString b ++ " does not have the minimum cost"

end Violation

/-- What a step wrote to the log, and its value unless it stopped at a violation. -/
structure Run (α : Type) where
  events : List Event
  result : Except Violation α

namespace Run

variable {α β : Type}

def andThen (x : Run α) (f : α → Run β) : Run β :=
  match x.result with
  | .ok a => ⟨x.events ++ (f a).events, (f a).result⟩
  | .error v => ⟨x.events, .error v⟩

instance : Monad Run where
  pure a := ⟨[], .ok a⟩
  bind := andThen

def record (es : List Event) : Run Unit := ⟨es, .ok ()⟩

def log (e : Event) : Run Unit := record [e]

def fail (v : Violation) : Run α := ⟨[], .error v⟩

theorem bind_of_ok {x : Run α} {a : α} (f : α → Run β) (h : x.result = .ok a) :
    x >>= f = ⟨x.events ++ (f a).events, (f a).result⟩ := by
  simp only [bind, andThen, h]

theorem bind_of_error {x : Run α} {v : Violation} (f : α → Run β) (h : x.result = .error v) :
    x >>= f = ⟨x.events, .error v⟩ := by
  simp only [bind, andThen, h]

instance : LawfulMonad Run := LawfulMonad.mk' Run
  (by
    intro α ⟨es, r⟩
    cases r <;> simp [Functor.map, andThen])
  (by intro α β a f; simp [pure, bind, andThen])
  (by
    intro α β γ ⟨es, r⟩ f g
    cases r with
    | error v => rfl
    | ok a =>
      simp only [bind, andThen]
      cases (f a).result <;> simp)

end Run
end JoinLevel
