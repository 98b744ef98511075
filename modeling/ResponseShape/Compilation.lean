import ResponseShape.Document.Validity

/-!
# Compilations

A schema together with the documents written against it. Names are looked up across all documents,
and the first definition of a name is the one that counts.
-/

namespace ResponseShape

/-- A text and where it comes from. -/
structure SourceText where
  path : String
  text : String
deriving Inhabited

/-- A document and where it comes from. -/
structure DocumentFile where
  path : String
  source : String
  document : Document
deriving Inhabited

/-- What response shapes are built from. -/
structure Compilation where
  schema : Schema
  documents : List DocumentFile
deriving Inhabited

namespace Compilation

/-- Every operation with the document that defines it. -/
def operations (compilation : Compilation) : List (DocumentFile × Operation) :=
  compilation.documents.flatMap fun document =>
    document.document.operations.map (document, ·)

/-- Every fragment definition with its document, repeated names included. -/
def fragmentDefinitions (compilation : Compilation) : List (DocumentFile × Fragment) :=
  compilation.documents.flatMap fun document =>
    document.document.fragments.map (document, ·)

/-- Every fragment, by the first definition of its name. -/
def fragments (compilation : Compilation) : List (DocumentFile × Fragment) :=
  go [] compilation.fragmentDefinitions
where
  /-- The definitions of names not seen before. -/
  go (seen : List Name) : List (DocumentFile × Fragment) → List (DocumentFile × Fragment)
    | [] => []
    | (document, fragment) :: rest =>
        if seen.contains fragment.name then go seen rest
        else (document, fragment) :: go (fragment.name :: seen) rest

/-- The fragment of a name. -/
def fragment? (compilation : Compilation) (name : Name) : Option (DocumentFile × Fragment) :=
  compilation.fragmentDefinitions.find? (·.2.name == name)

/-- The operation of a name, or the first anonymous one. -/
def operation? (compilation : Compilation) (name : Option Name) :
    Option (DocumentFile × Operation) :=
  compilation.operations.find? (·.2.name == name)

/-- The root types that the schema defines. -/
def rootTypes (compilation : Compilation) : List Name := compilation.schema.rootTypes

mutual

/-- The types that a selection on the given type selects on or returns. -/
def typesOfSelection (parent : Name) : Selection → List Name
  | .field field selections =>
      let type := field.type.innerName
      type :: typesOfSelections type selections
  | .inlineFragment typeCondition _ selections =>
      let type := typeCondition.getD parent
      type :: typesOfSelections type selections
  | .fragmentSpread .. => []

/-- The types that selections on the given type select on or return. -/
def typesOfSelections (parent : Name) : List Selection → List Name
  | [] => []
  | selection :: rest => typesOfSelection parent selection ++ typesOfSelections parent rest

end

/-- Every type selected on or returned by a field in any document, in order of first reference. -/
def referencedTypes (compilation : Compilation) : List Name :=
  distinct
    (compilation.operations.flatMap (fun (_, operation) =>
        operation.rootType :: typesOfSelections operation.rootType operation.selections)
      ++ compilation.fragments.flatMap fun (_, fragment) =>
        fragment.typeCondition :: typesOfSelections fragment.typeCondition fragment.selections)

/-- The compilation of a schema and documents, each read by the given function. -/
def read? (schema : Schema) (document? : Schema → String → Option Document)
    (sources : List SourceText) : Option Compilation := do
  let documents ← sources.mapM fun source => do
    return (⟨source.path, source.text, ← document? schema source.text⟩ : DocumentFile)
  return ⟨schema, documents⟩

/-- The compilation of texts taken as valid. -/
def assumed? (schema : String) (sources : List SourceText) : Option Compilation := do
  read? (← Schema.assumed? schema) Document.assumed? sources

/-- The compilation of texts, if the schema is valid and each document is on its own. -/
def validated? (schema : String) (sources : List SourceText) : Option Compilation := do
  read? (← Schema.validated? schema) Document.validated? sources

end Compilation

end ResponseShape
