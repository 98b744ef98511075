import ResponseShape.Config.Basic

/-!
# Reading configurations

A configuration is written in JSON, as an object with the members `merging_strategy` and
`recursion_limit` or as an array of these two. What is missing keeps its standard value; what is
repeated, unknown or too much is refused, and so is any text behind the value.
-/

namespace ResponseShape.Config

/-- The settings read so far. -/
structure Draft where
  mergingStrategy : Option MergingStrategy
  recursionLimit : Option Nat
deriving Inhabited

/-- No settings. -/
def Draft.empty : Draft := ⟨none, none⟩

/-- The configuration with what is missing at its standard value. -/
def Draft.complete (draft : Draft) : Config where
  mergingStrategy := draft.mergingStrategy.getD standard.mergingStrategy
  recursionLimit := draft.recursionLimit.getD standard.recursionLimit

/-- The characters between the tokens of a JSON text. -/
def isSeparator (c : Char) : Bool := c == ' ' || c == '\n' || c == '\r' || c == '\t'

/-- A text from its next token on. -/
def skip (source : List Char) : List Char := source.dropWhile isSeparator

/-- A string, in which control characters have to be escaped. -/
def readString? : List Char → Option (String × List Char)
  | '"' :: rest => do
      let (text, remaining) ← StringLiteral.readQuoted? rest
      let literal := rest.take (rest.length - remaining.length)
      if literal.any fun c => c.toNat < 32 then none
      else return (String.ofList text, remaining)
  | _ => none

/-- A strategy, given by its text. -/
def readStrategy? (source : List Char) : Option (MergingStrategy × List Char) := do
  let (text, remaining) ← readString? source
  return (← MergingStrategy.ofText? text, remaining)

/-- A limit, given by its digits. -/
def readLimit? (source : List Char) : Option (Nat × List Char) := do
  let digits := source.takeWhile Char.isDigit
  let number := digits.foldl (fun value digit => 10 * value + (digit.toNat - '0'.toNat)) 0
  if digits.isEmpty || (digits.head? == some '0' && digits.length != 1) || limitBound ≤ number
  then none
  else return (number, source.dropWhile Char.isDigit)

/-- A member of the object. -/
def readMember? (draft : Draft) (source : List Char) : Option (Draft × List Char) := do
  let (key, rest) ← readString? source
  match skip rest with
  | ':' :: rest =>
      match key, draft.mergingStrategy, draft.recursionLimit with
      | "merging_strategy", none, _ =>
          let (strategy, rest) ← readStrategy? (skip rest)
          return ({ draft with mergingStrategy := some strategy }, rest)
      | "recursion_limit", _, none =>
          let (limit, rest) ← readLimit? (skip rest)
          return ({ draft with recursionLimit := some limit }, rest)
      | _, _, _ => none
  | _ => none

/-- The members of the object up to its end. No setting occurs twice, so `count` bounds them. -/
def readMembers? (draft : Draft) : Nat → List Char → Option (Draft × List Char)
  | 0, _ => none
  | count + 1, source => do
      let (draft, rest) ← readMember? draft source
      match skip rest with
      | ',' :: rest => readMembers? draft count (skip rest)
      | '\x7d' :: rest => some (draft, rest)
      | _ => none

/-- The object behind its opening brace. -/
def readObject? (source : List Char) : Option (Draft × List Char) :=
  match skip source with
  | '\x7d' :: rest => some (.empty, rest)
  | source => readMembers? .empty 2 source

/-- The array behind its opening bracket. -/
def readArray? (source : List Char) : Option (Draft × List Char) :=
  match skip source with
  | ']' :: rest => some (.empty, rest)
  | source => do
      let (strategy, rest) ← readStrategy? source
      match skip rest with
      | ']' :: rest => return (⟨strategy, none⟩, rest)
      | ',' :: rest =>
          let (limit, rest) ← readLimit? (skip rest)
          match skip rest with
          | ']' :: rest => return (⟨strategy, limit⟩, rest)
          | _ => none
      | _ => none

/-- The configuration that a JSON text describes. -/
def ofText? (text : String) : Option Config := do
  let (draft, rest) ←
    match skip text.toList with
    | '\x7b' :: rest => readObject? rest
    | '[' :: rest => readArray? rest
    | _ => none
  if (skip rest).isEmpty then return draft.complete else none

end ResponseShape.Config
