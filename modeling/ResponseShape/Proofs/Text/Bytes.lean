import Mathlib.Data.List.Basic
import ResponseShape.Workspace

/-!
# Texts read from their bytes

Evaluating what a text stands for spends most of its time on taking the characters out of the
string, each of which is looked for from the start. The characters of an ASCII text are its bytes,
which are at hand at once; a compilation that reads its texts in this way is the same
(`Compilation.validated?_eq_validatedFromBytes?`).

A `Sample` is a small project to try statements on. It carries that its texts are valid, found by
reading them in this way, and what it stands for is evaluated in this way, too
(`Sample.compilation_eq`).
-/

namespace ResponseShape

namespace Written

/-- If all bytes of a character are ASCII, it has one, and is that byte. -/
theorem map_utf8EncodeChar_of_isAscii {c : Char}
    (isAscii : ∀ byte ∈ String.utf8EncodeChar c, byte.toNat < 128) :
    (String.utf8EncodeChar c).map (fun byte => Char.ofNat byte.toNat) = [c] := by
  revert isAscii
  fun_cases String.utf8EncodeChar c <;> intro isAscii
  next code isOne =>
    have fits : code % 256 = code := Nat.mod_eq_of_lt (by omega)
    simp only [List.map_cons, List.map_nil, UInt8.toNat_ofNat', fits]
    exact congrArg (fun c => [c]) (Char.ofNat_toNat c)
  -- Otherwise the first byte tells how many follow, by bits that no ASCII byte has.
  all_goals
    have first := isAscii _ List.mem_cons_self
    simp only [UInt8.toNat_ofNat'] at first
    omega

/-- The characters of a text, taken from its bytes if all of these are ASCII. -/
def characters (text : String) : List Char :=
  let bytes := text.toByteArray.data.toList
  if bytes.all (·.toNat < 128) then bytes.map fun byte => Char.ofNat byte.toNat else text.toList

theorem toList_eq_characters (text : String) : text.toList = characters text := by
  have encoded : text.toByteArray.data.toList = text.toList.flatMap String.utf8EncodeChar := by
    rw [← String.utf8Encode_toList, List.utf8Encode, List.data_toByteArray, List.toList_toArray]
  simp only [characters, encoded]
  split
  next isAscii =>
    simp only [List.all_eq_true, decide_eq_true_eq, List.mem_flatMap] at isAscii
    have isByte : ∀ c ∈ text.toList,
        (String.utf8EncodeChar c).map (fun byte => Char.ofNat byte.toNat) = [c] := fun c mem =>
      map_utf8EncodeChar_of_isAscii fun byte ofChar => isAscii byte ⟨c, mem, ofChar⟩
    rw [List.map_flatMap, List.flatMap_congr isByte, List.flatMap_singleton']
  next => rfl

/-- The definitions of a text, read from its bytes. -/
def definitionsFromBytes? (text : String) : Option (List Definition) := do
  let tokens ← Token.readWithin? (characters text).length (characters text)
  let bound := tokens.length + 1
  let (definitions, _) ← Reader.whileNext (fun _ => true) (Reader.definition bound) bound tokens
  if definitions.isEmpty then none else return definitions

theorem definitions?_eq_definitionsFromBytes? (text : String) :
    definitions? text = definitionsFromBytes? text := by
  simp only [definitions?, tokens?, toList_eq_characters, definitionsFromBytes?]

end Written

namespace Compilation

/-- The compilation of texts, read from their bytes, if the schema is valid and each document is on
its own. -/
def validatedFromBytes? (schema : String) (sources : List SourceText) : Option Compilation := do
  let definitions ← Written.definitionsFromBytes? schema
  let known := Schema.ofDefinitions definitions
  if Schema.definitionsFit definitions && known.isValid
      && known.directivesFit .schema (Written.schemaDirectives definitions)
  then read? known.withoutUnusedScalars document? sources
  else none
where
  /-- The document that a text defines, if it is valid. -/
  document? (schema : Schema) (text : String) : Option Document := do
    let document ← Document.ofDefinitions? schema (← Written.definitionsFromBytes? text)
    if document.isValid schema then return document else none

theorem validated?_eq_validatedFromBytes? (schema : String) (sources : List SourceText) :
    validated? schema sources = validatedFromBytes? schema sources := by
  have sameDocument : Document.validated? = validatedFromBytes?.document? := by
    funext schema text
    simp only [Document.validated?, Document.assumed?, validatedFromBytes?.document?,
      Written.definitions?_eq_definitionsFromBytes?, Option.bind_eq_bind, Option.bind_assoc]
  simp only [validated?, Schema.validated?, validatedFromBytes?, sameDocument,
    Written.definitions?_eq_definitionsFromBytes?, Option.bind_eq_bind, Option.bind_assoc]
  congr 1
  funext definitions
  split <;> rfl

theorem validated?_eq_some_of_isSome {schema : String} {sources : List SourceText}
    (isValid : (validatedFromBytes? schema sources).isSome = true) :
    validated? schema sources = some ((validatedFromBytes? schema sources).getD default) := by
  rcases Option.isSome_iff_exists.mp isValid with ⟨known, isKnown⟩
  rw [validated?_eq_validatedFromBytes?, isKnown, Option.getD_some]

end Compilation

/-- The valid texts of a project to try statements on. -/
structure Sample where
  schemaText : String
  sources : List SourceText
  isValid : (Compilation.validatedFromBytes? schemaText sources).isSome = true

namespace Sample

variable (sample : Sample)

/-- What the texts stand for. -/
@[irreducible]
def compilation : Compilation :=
  (Compilation.validated? sample.schemaText sample.sources).getD default

theorem compilation_eq : sample.compilation
    = (Compilation.validatedFromBytes? sample.schemaText sample.sources).getD default := by
  unfold compilation
  rw [Compilation.validated?_eq_validatedFromBytes?]

theorem validated?_eq_some :
    Compilation.validated? sample.schemaText sample.sources = some sample.compilation := by
  rw [compilation_eq]
  exact Compilation.validated?_eq_some_of_isSome sample.isValid

/-- The project, built and merged as is usual. -/
def project : Project := ⟨sample.compilation, .standard⟩

theorem project_eq : sample.project
    = ⟨(Compilation.validatedFromBytes? sample.schemaText sample.sources).getD default, .standard⟩
    := by
  rw [project, compilation_eq]

end Sample

end ResponseShape
