import JoinLevel.Pruner
import JoinLevel.Json.Token

namespace JoinLevel

namespace Token

inductive Awaited where
  | value (mayEnd : Bool)
  | key (mayEnd : Bool)
  | colon
  | more

/-- Reads over a value. The marks that are open stand on a stack, so any depth will do. -/
def skip : Awaited → List Char → List Token → Option (List Token)
  | .more, [], ts => some ts
  | _, _, [] => none
  | a, opened, t :: ts =>
    match a, t with
    | .value _, text _ => skip .more opened ts
    | .value _, word cs => if isScalar cs then skip .more opened ts else none
    | .value _, mark '[' => skip (.value true) ('[' :: opened) ts
    | .value _, mark '{' => skip (.key true) ('{' :: opened) ts
    | .value true, mark ']' => skip .more opened.tail ts
    | .key _, text _ => skip .colon opened ts
    | .key true, mark '}' => skip .more opened.tail ts
    | .colon, mark ':' => skip (.value false) opened ts
    | .more, mark ',' => skip (if opened.head? = some '[' then .value false else .key false) opened ts
    | .more, mark ']' => if opened.head? = some '[' then skip .more opened.tail ts else none
    | .more, mark '}' => if opened.head? = some '{' then skip .more opened.tail ts else none
    | _, _ => none

def skipValue : List Token → Option (List Token) := skip (.value false) []

theorem skip_length {a : Awaited} {opened : List Char} {ts rest : List Token}
    (h : skip a opened ts = some rest) : rest.length ≤ ts.length := by
  fun_induction skip a opened ts <;> simp_all <;> omega

theorem skipValue_length {ts rest : List Token} (h : skipValue ts = some rest) :
    rest.length ≤ ts.length :=
  skip_length h

end Token

namespace Options

structure Named where
  pruneUnordered : Option Bool := none
  verify : Option Bool := none

def Named.complete (n : Named) : Options where
  pruneUnordered := n.pruneUnordered.getD ({} : Options).pruneUnordered
  verify := n.verify.getD ({} : Options).verify

def member? (n : Named) (codes : List Nat) (ts : List Token) : Option (Named × List Token) := do
  let name := String.ofList (← Token.characters? codes)
  if name = "prune_unordered_paths" then
    match n.pruneUnordered, ts with
    | none, .word cs :: rest => return ({ n with pruneUnordered := ← Token.bool? cs }, rest)
    | _, _ => none
  else if name = "verify_invariants" then
    match n.verify, ts with
    | none, .word cs :: rest => return ({ n with verify := ← Token.bool? cs }, rest)
    | _, _ => none
  else return (n, ← Token.skipValue ts)

theorem member?_length {n m : Named} {codes : List Nat} {ts rest : List Token}
    (h : member? n codes ts = some (m, rest)) : rest.length ≤ ts.length := by
  obtain ⟨cs, _, h⟩ := Option.bind_eq_some_iff.mp h
  simp only at h
  split at h
  · split at h
    · obtain ⟨b, _, h⟩ := Option.bind_eq_some_iff.mp h
      obtain ⟨_, rfl⟩ := Prod.mk.inj (Option.some.inj h)
      simp
    · simp at h
  · split at h
    · split at h
      · obtain ⟨b, _, h⟩ := Option.bind_eq_some_iff.mp h
        obtain ⟨_, rfl⟩ := Prod.mk.inj (Option.some.inj h)
        simp
      · simp at h
    · obtain ⟨u, hu, h⟩ := Option.bind_eq_some_iff.mp h
      obtain ⟨_, rfl⟩ := Prod.mk.inj (Option.some.inj h)
      exact Token.skipValue_length hu

def members? (n : Named) (ts : List Token) : Option Named :=
  match ts with
  | .text codes :: .mark ':' :: ts =>
    match _h : member? n codes ts with
    | some (m, .mark ',' :: rest) => members? m rest
    | some (m, [.mark '}']) => some m
    | _ => none
  | _ => none
termination_by ts.length
decreasing_by
  have := member?_length ‹_›
  simp only [List.length_cons] at *
  omega

/-- An object, or a list of at most two flags; what is left out keeps its default. -/
def ofTokens? : List Token → Option Options
  | [.mark '[', .mark ']'] => some {}
  | [.mark '[', .word a, .mark ']'] => do return { pruneUnordered := ← Token.bool? a }
  | [.mark '[', .word a, .mark ',', .word b, .mark ']'] => do
    return { pruneUnordered := ← Token.bool? a, verify := ← Token.bool? b }
  | [.mark '{', .mark '}'] => some {}
  | .mark '{' :: ts => (members? {} ts).map Named.complete
  | _ => none

def ofJson? (text : String) : Option Options := Token.lex text.toList >>= ofTokens?

def toJson (o : Options) : String :=
  "\x7b\"prune_unordered_paths\":" ++ toString o.pruneUnordered ++
    ",\"verify_invariants\":" ++ toString o.verify ++ "\x7d"

end Options
end JoinLevel
