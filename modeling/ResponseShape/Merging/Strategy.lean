import ResponseShape.Text.WhiteSpace
import ResponseShape.Written.StringLiteral

/-!
# Merging strategies

Which selections elsewhere are merged into a selection set: those on the way to it within the same
entity (ancestors), those in other scopes that its scope is within (siblings), and those of spread
named fragments. A strategy is a set of flags in one byte; bits without a meaning are kept.

`MergingStrategy.ofText?` and `MergingStrategy.toText` read and write a strategy as flag names
joined by vertical bars.
-/

namespace ResponseShape

/-- The sources that merging draws on. -/
structure MergingStrategy where
  bits : BitVec 8
deriving DecidableEq, Hashable, Inhabited

namespace MergingStrategy

/-- Merge selections in wider scopes. -/
def ancestors : MergingStrategy := ⟨1⟩

/-- Merge selections in other matched scopes. -/
def siblings : MergingStrategy := ⟨2⟩

/-- Merge selections of spread fragments. -/
def namedFragments : MergingStrategy := ⟨4⟩

/-- Merge nothing. -/
def none : MergingStrategy := ⟨0⟩

/-- The flags of either strategy. -/
def union (left right : MergingStrategy) : MergingStrategy := ⟨left.bits ||| right.bits⟩

/-- The flags of the first strategy that the second lacks. -/
def without (left right : MergingStrategy) : MergingStrategy := ⟨left.bits &&& ~~~right.bits⟩

/-- Whether a strategy has all flags of another. -/
def includes (strategy flags : MergingStrategy) : Bool :=
  strategy.bits &&& flags.bits == flags.bits

/-- Merge everything. -/
def all : MergingStrategy := (ancestors.union siblings).union namedFragments

/-- The flags and their names, in the order in which they are written. -/
def names : List (String × MergingStrategy) :=
  [("ANCESTORS", ancestors), ("SIBLINGS", siblings), ("NAMED_FRAGMENTS", namedFragments)]

/-- A number as hexadecimal digits in lower case. -/
def hexText (number : Nat) : String := String.ofList (Nat.toDigits 16 number)

/-- The names of a strategy's flags, and the remaining bits as a number. -/
def toText (strategy : MergingStrategy) : String :=
  let named := (names.filter (strategy.includes ·.2)).map (·.1)
  let rest := strategy.without all
  let unnamed := if rest == none then [] else ["0x" ++ hexText rest.bits.toNat]
  " | ".intercalate (named ++ unnamed)

/-- The bits that a hexadecimal number denotes, absent if it does not fit into a byte. -/
def ofHex? (digits : List Char) : Option MergingStrategy := do
  let unsigned := if digits.head? == some '+' then digits.tail else digits
  if unsigned.isEmpty then failure
  let number ← StringLiteral.hexNumber? unsigned
  if number < 256 then return ⟨BitVec.ofNat 8 number⟩ else failure

/-- The flags that one part of a text stands for. -/
def ofPart? (part : List Char) : Option MergingStrategy :=
  match part with
  | '0' :: 'x' :: digits => ofHex? digits
  | _ => names.lookup (String.ofList part)

/-- The parts of a text between vertical bars. -/
def parts : List Char → List (List Char)
  | [] => [[]]
  | '|' :: rest => [] :: parts rest
  | c :: rest =>
      match parts rest with
      | [] => [[c]]
      | part :: more => (c :: part) :: more

/-- The strategy that a text denotes; an empty text denotes the empty one. -/
def ofText? (text : String) : Option MergingStrategy :=
  let trimmed := WhiteSpace.trim text.toList
  if trimmed.isEmpty then some none
  else
    (parts trimmed).foldlM (fun strategy part =>
      return strategy.union (← ofPart? (WhiteSpace.trim part))) none

end MergingStrategy

end ResponseShape
