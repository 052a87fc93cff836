import JoinLevel.Bases
import JoinLevel.Json.Token

namespace JoinLevel
namespace BaseSet

def id? (cs : List Char) : Option BaseId := do
  let n ← Token.natural? cs
  guard (n < UInt32.size)
  return .ofNat n

def entries? : List Token → Option (List BaseId)
  | [.word cs, .mark ']'] => do return [← id? cs]
  | .word cs :: .mark ',' :: ts => do return (← id? cs) :: (← entries? ts)
  | _ => none

def ids? : List Token → Option (List BaseId)
  | [.mark '[', .mark ']'] => some []
  | .mark '[' :: ts => entries? ts
  | _ => none

def ofJson? (text : String) : Option BaseSet := do
  let ts ← Token.lex text.toList
  return ofList (← ids? ts)

def toJson (s : BaseSet) : String := "[" ++ ",".intercalate (s.ids.map toString) ++ "]"

end BaseSet
end JoinLevel
