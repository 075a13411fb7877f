import Dynarec.Json.Token
import Dynarec.Json.Value

/-!
# Reading JSON

`JsonValue.ofText?` reads a whole text as one value.  Keys may repeat; whoever takes an object apart
decides what that means.
-/

namespace Dynarec.JsonValue

mutual

/-- A value. -/
def readValue : (fuel : Nat) → List JsonToken → Option (JsonValue × List JsonToken)
  | 0, _ => none
  | fuel + 1, tokens =>
    match tokens with
    | .null :: rest => some (null, rest)
    | .bool b :: rest => some (bool b, rest)
    | .number literal :: rest => some (number (String.ofList literal), rest)
    | .string text :: rest => some (string (text.map String.ofList), rest)
    | .mark '[' :: .mark ']' :: rest => some (array [], rest)
    | .mark '[' :: rest => do
      let (items, rest) ← readItems fuel rest
      return (array items, rest)
    | .mark '\x7b' :: .mark '\x7d' :: rest => some (object [], rest)
    | .mark '\x7b' :: rest => do
      let (fields, rest) ← readFields fuel rest
      return (object fields, rest)
    | _ => none

/-- Items up to the closing bracket, one at least. -/
def readItems : (fuel : Nat) → List JsonToken → Option (List JsonValue × List JsonToken)
  | 0, _ => none
  | fuel + 1, tokens => do
    let (item, rest) ← readValue fuel tokens
    match rest with
    | .mark ']' :: rest => return ([item], rest)
    | .mark ',' :: rest =>
      let (items, rest) ← readItems fuel rest
      return (item :: items, rest)
    | _ => none

/-- Fields up to the closing brace, one at least. -/
def readFields : (fuel : Nat) → List JsonToken →
    Option (List (Option String × JsonValue) × List JsonToken)
  | 0, _ => none
  | fuel + 1, tokens => do
    match tokens with
    | .string key :: .mark ':' :: rest =>
      let (value, rest) ← readValue fuel rest
      let field := (key.map String.ofList, value)
      match rest with
      | .mark '\x7d' :: rest => return ([field], rest)
      | .mark ',' :: rest =>
        let (fields, rest) ← readFields fuel rest
        return (field :: fields, rest)
      | _ => none
    | _ => none

end

/-- One value that takes up all tokens. -/
def ofTokens? (tokens : List JsonToken) : Option JsonValue :=
  match readValue (2 * tokens.length + 1) tokens with
  | some (value, []) => some value
  | _ => none

/-- **One value that takes up the whole text.** -/
def ofText? (text : String) : Option JsonValue := do ofTokens? (← JsonToken.ofChars? text.toList)

end Dynarec.JsonValue
