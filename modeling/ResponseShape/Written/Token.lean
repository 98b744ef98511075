import ResponseShape.Written.StringLiteral
import ResponseShape.Written.Value

/-!
# Tokens

A GraphQL text is a sequence of tokens. White space, line breaks, byte order marks and comments
separate tokens and mean nothing else. Commas separate tokens, too, but are kept among them: in a
few places the grammar asks that none stands between two others.
-/

namespace ResponseShape.Written

/-- A lexical token. -/
inductive Token where
  | symbol (char : Char)
  | comma
  /-- Three dots. -/
  | spread
  | name (text : Name)
  | int (digits : String)
  | float (digits : String)
  | string (text : String)
deriving DecidableEq, Inhabited

namespace Token

/-- Characters between tokens. -/
def isIgnored (c : Char) : Bool :=
  c == ' ' || c == '\t' || c == '\n' || c == '\r' || c == '\ufeff'

/-- A comment ends at the line break. -/
def isInComment (c : Char) : Bool := !StringLiteral.isLineBreak c

/-- A letter or an underscore. -/
def isNameStart (c : Char) : Bool := c.isAlpha || c == '_'

/-- A letter, a digit or an underscore. -/
def isNameContinue (c : Char) : Bool := isNameStart c || c.isDigit

/-- The characters that are tokens of their own. -/
def isSymbol (c : Char) : Bool :=
  ['!', '$', '&', '(', ')', ':', '=', '@', '[', ']', '\x7b', '|', '\x7d'].contains c

/-- Digits at the start of a text, at least one, and the rest. -/
def readDigits? (source : List Char) : Option (List Char × List Char) :=
  match source.takeWhile Char.isDigit with
  | [] => none
  | digits => some (digits, source.dropWhile Char.isDigit)

/-- Digits that start with zero only if they are nothing but zero. -/
def readIntegerPart? : List Char → Option (List Char × List Char)
  | '-' :: rest => do
      let (digits, remaining) ← readUnsigned? rest
      return ('-' :: digits, remaining)
  | source => readUnsigned? source
where
  /-- The digits behind the sign. -/
  readUnsigned? (source : List Char) : Option (List Char × List Char) := do
    let (digits, remaining) ← readDigits? source
    if digits.head? == some '0' && digits.length != 1 then none
    else return (digits, remaining)

/-- A fraction, absent if the text does not go on with a point. -/
def readFraction? : List Char → Option (List Char × List Char)
  | '.' :: rest => do
      let (digits, remaining) ← readDigits? rest
      return ('.' :: digits, remaining)
  | source => some ([], source)

/-- An exponent, absent if the text does not go on with its letter. -/
def readExponent? : List Char → Option (List Char × List Char)
  | letter :: rest =>
      if letter == 'e' || letter == 'E' then
        match rest with
        | sign :: digits =>
            if sign == '+' || sign == '-' then do
              let (digits, remaining) ← readDigits? digits
              return (letter :: sign :: digits, remaining)
            else do
              let (digits, remaining) ← readDigits? rest
              return (letter :: digits, remaining)
        | [] => none
      else some ([], letter :: rest)
  | [] => some ([], [])

/-- A number, which no letter, digit or point may touch. -/
def readNumber? (source : List Char) : Option (Token × List Char) := do
  let (integer, rest) ← readIntegerPart? source
  let (fraction, rest) ← readFraction? rest
  let (exponent, rest) ← readExponent? rest
  if rest.head?.any fun c => isNameContinue c || c == '.' then none
  else if fraction.isEmpty && exponent.isEmpty then
    return (.int (String.ofList integer), rest)
  else return (.float (String.ofList (integer ++ fraction ++ exponent)), rest)

/-- The first token of a text that starts with one, and the rest. -/
def readOne? : List Char → Option (Token × List Char)
  | ',' :: rest => some (.comma, rest)
  | '.' :: '.' :: '.' :: rest => some (.spread, rest)
  | '"' :: '"' :: '"' :: rest =>
      (StringLiteral.readBlock? rest).map fun (text, remaining) =>
        (.string (String.ofList text), remaining)
  | '"' :: rest =>
      (StringLiteral.readQuoted? rest).map fun (text, remaining) =>
        (.string (String.ofList text), remaining)
  | c :: rest =>
      if isSymbol c then some (.symbol c, rest)
      else if isNameStart c then
        some (.name (String.ofList (c :: rest.takeWhile isNameContinue)),
          rest.dropWhile isNameContinue)
      else readNumber? (c :: rest)
  | [] => none

/-- Reads at most `steps` tokens or separators. -/
def readWithin? : Nat → List Char → Option (List Token)
  | _, [] => some []
  | 0, _ :: _ => none
  | steps + 1, c :: rest =>
      if isIgnored c then readWithin? steps rest
      else if c == '#' then readWithin? steps (rest.dropWhile isInComment)
      else do
        let (token, remaining) ← readOne? (c :: rest)
        return token :: (← readWithin? steps remaining)

end Token

/-- The tokens of a text. Each token and each separator takes at least one character, so the text's
length bounds their number. -/
def tokens? (text : String) : Option (List Token) :=
  Token.readWithin? text.toList.length text.toList

end ResponseShape.Written
