/-!
# String literals

A string value is written between single quotation marks with escapes, or between triple ones as a
block. `StringLiteral.render` chooses the block form exactly for texts that a block gives back
unchanged; `StringLiteral.readQuoted?` and `StringLiteral.readBlock?` read the two forms.
-/

namespace ResponseShape.StringLiteral

/-- The lines of a text, split at every line feed. -/
def lines : List Char → List (List Char)
  | [] => [[]]
  | '\n' :: rest => [] :: lines rest
  | c :: rest =>
      match lines rest with
      | [] => [[c]]
      | line :: more => (c :: line) :: more

/-- Spaces and tabs are the only characters that indent a line. -/
def isIndent (c : Char) : Bool := c == ' ' || c == '\t'

/-- A line without content. -/
def isBlank (line : List Char) : Bool := line.all isIndent

/-- How far a line is indented. -/
def indentOf (line : List Char) : Nat := (line.takeWhile isIndent).length

/-- The indent that all lines with content share, absent if no line has content. -/
def commonIndent? (text : List (List Char)) : Option Nat :=
  ((text.filter fun line => !isBlank line).map indentOf).min?

/-! ## Writing -/

/-- One hexadecimal digit, in upper case. -/
def hexDigit (n : Nat) : Char :=
  if n < 10 then Char.ofNat ('0'.toNat + n) else Char.ofNat ('A'.toNat + (n - 10))

/-- How a character is written between single quotation marks. -/
def escape (c : Char) : List Char :=
  if c == '"' then ['\\', '"']
  else if c == '\\' then ['\\', '\\']
  else if c == '\n' then ['\\', 'n']
  else if c == '\r' then ['\\', 'r']
  else if c == '\x08' then ['\\', 'b']
  else if c == '\x0c' then ['\\', 'f']
  else if c == '\t' then [c]
  else if c.toNat < 32 then ['\\', 'u', '0', '0', hexDigit (c.toNat / 16), hexDigit (c.toNat % 16)]
  else [c]

/-- A text between single quotation marks. -/
def renderQuoted (text : String) : String :=
  "\"" ++ String.ofList (text.toList.flatMap escape) ++ "\""

/-- Two spaces for each level of nesting. -/
def indentation (level : Nat) : String :=
  String.ofList (List.replicate (2 * level) ' ')

/-- A line break, followed by the indent of the next line. -/
def newLine (level : Nat) : String := "\n" ++ indentation level

/-- A line of a block, in which a triple quotation mark has to be escaped. -/
def escapeBlock : List Char → List Char
  | '"' :: '"' :: '"' :: rest => '\\' :: '"' :: '"' :: '"' :: escapeBlock rest
  | c :: rest => c :: escapeBlock rest
  | [] => []

/-- A text between triple quotation marks, each line on a line of its own. -/
def renderBlock (level : Nat) (text : String) : String :=
  let body := (lines text.toList).map fun line =>
    if line.isEmpty then "\n" else newLine level ++ String.ofList (escapeBlock line)
  "\"\"\"" ++ String.join body ++ newLine level ++ "\"\"\""

/-- Whether reading the block form of a text gives back the text: block reading normalizes line
breaks, strips blank lines at both ends and removes the common indent. -/
def survivesBlock (text : String) : Bool :=
  let written := lines text.toList
  !text.toList.contains '\r' && !(written.head?.any isBlank) && !(written.getLast?.any isBlank)
    && commonIndent? written == some 0

/-- A text of several lines is written as a block if it survives that, any other between single
quotation marks. -/
def render (level : Nat) (text : String) : String :=
  if text.toList.contains '\n' && survivesBlock text then renderBlock level text
  else renderQuoted text

/-! ## Reading -/

/-- The value of a hexadecimal digit of either case. -/
def hexValue? (c : Char) : Option Nat :=
  if '0' ≤ c ∧ c ≤ '9' then some (c.toNat - '0'.toNat)
  else if 'a' ≤ c ∧ c ≤ 'f' then some (c.toNat - 'a'.toNat + 10)
  else if 'A' ≤ c ∧ c ≤ 'F' then some (c.toNat - 'A'.toNat + 10)
  else none

/-- The number that hexadecimal digits denote. -/
def hexNumber? (digits : List Char) : Option Nat :=
  digits.foldlM (fun value digit => return 16 * value + (← hexValue? digit)) 0

/-- The character of a code point, if it has one. -/
def codePoint? (n : Nat) : Option Char :=
  if n.isValidChar then some (Char.ofNat n) else none

/-- The character that a backslash and this letter stand for. -/
def shortEscape? : Char → Option Char
  | '"' => some '"'
  | '\\' => some '\\'
  | '/' => some '/'
  | 'b' => some '\x08'
  | 'f' => some '\x0c'
  | 'n' => some '\n'
  | 'r' => some '\r'
  | 't' => some '\t'
  | _ => none

/-- Whether a character ends a line. -/
def isLineBreak (c : Char) : Bool := c == '\n' || c == '\r'

/-- Reads the rest of a string behind its opening quotation mark: its code points, where an escape
may give one half of a surrogate pair, and what follows the closing mark. -/
def readCodes? : List Char → Option (List Nat × List Char)
  | '"' :: rest => some ([], rest)
  | '\\' :: 'u' :: a :: b :: c :: d :: rest => do
      let code ← hexNumber? [a, b, c, d]
      let (codes, remaining) ← readCodes? rest
      return (code :: codes, remaining)
  | '\\' :: letter :: rest => do
      let char ← shortEscape? letter
      let (codes, remaining) ← readCodes? rest
      return (char.toNat :: codes, remaining)
  | c :: rest =>
      if isLineBreak c || c == '\\' then none
      else do
        let (codes, remaining) ← readCodes? rest
        return (c.toNat :: codes, remaining)
  | [] => none

/-- The characters of code points, two surrogates denoting one character. -/
def joinSurrogates? : List Nat → Option (List Char)
  | [] => some []
  | [code] => return [← codePoint? code]
  | high :: low :: rest =>
      if 0xD800 ≤ high && high < 0xDC00 && 0xDC00 ≤ low && low < 0xE000 then do
        let char ← codePoint? (0x10000 + 0x400 * (high - 0xD800) + (low - 0xDC00))
        return char :: (← joinSurrogates? rest)
      else do
        let char ← codePoint? high
        return char :: (← joinSurrogates? (low :: rest))

/-- Reads the rest of a string behind its opening quotation mark. The line of a string can break
there, but nowhere else. -/
def readQuoted? (source : List Char) : Option (List Char × List Char) := do
  let lineBreak := (source.take 1).filter isLineBreak
  let (codes, remaining) ← readCodes? (source.drop lineBreak.length)
  return (lineBreak ++ (← joinSurrogates? codes), remaining)

/-- Reads the rest of a block behind its opening quotation marks, with line breaks normalized: the
raw text and what follows the closing marks. -/
def readRawBlock? : List Char → Option (List Char × List Char)
  | '"' :: '"' :: '"' :: rest => some ([], rest)
  | '\\' :: '"' :: '"' :: '"' :: rest => do
      let (text, remaining) ← readRawBlock? rest
      return ('"' :: '"' :: '"' :: text, remaining)
  | '\r' :: '\n' :: rest => do
      let (text, remaining) ← readRawBlock? rest
      return ('\n' :: text, remaining)
  | c :: rest => do
      let (text, remaining) ← readRawBlock? rest
      return ((if c == '\r' then '\n' else c) :: text, remaining)
  | [] => none

/-- The text that a raw block denotes: the indent that all lines but the first share is removed, and
so are the blank lines at both ends. -/
def blockText (raw : List Char) : List Char :=
  match lines raw with
  | [] => []
  | first :: rest =>
      let indent := (commonIndent? rest).getD 0
      let dedented := first :: rest.map (·.drop indent)
      let trimmed := ((dedented.dropWhile isBlank).reverse.dropWhile isBlank).reverse
      ['\n'].intercalate trimmed

/-- Reads the rest of a block behind its opening quotation marks. -/
def readBlock? (source : List Char) : Option (List Char × List Char) :=
  (readRawBlock? source).map fun (raw, remaining) => (blockText raw, remaining)

end ResponseShape.StringLiteral
