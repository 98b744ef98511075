import ResponseShape.Written.Token
import ResponseShape.Written.Definition

/-!
# Reading definitions

A reader consumes tokens from the front of a list and answers nothing if they do not fit the
grammar. Sequences take a bound on their length; `definitions?` bounds them by the number of tokens,
which no text exceeds. The nested parts of the grammar (values, types, selections) take the number
of levels that they can go down, at most `Reader.maximalLevels` in all.
-/

namespace ResponseShape.Written

/-- A consumer of tokens. -/
abbrev Reader := StateT (List Token) Option

namespace Reader

variable {α : Type}

/-- Tokens from the first on that is no comma. -/
def withoutCommas (tokens : List Token) : List Token := tokens.dropWhile (· == .comma)

/-- The next token behind any commas, left in place. -/
def peek : Reader (Option Token) := return (withoutCommas (← get)).head?

/-- Consumes commas, if any, and one token. -/
def next : Reader Token := do
  match withoutCommas (← get) with
  | [] => failure
  | token :: rest =>
      set rest
      return token

/-- Whether a comma stands in front of the next token. -/
def hasComma : Reader Bool := return (← get).head? == some .comma

/-- Refuses a comma in front of the next token. -/
def noComma : Reader Unit := do
  if ← hasComma then failure else return ()

/-- Consumes the given token. -/
def token (expected : Token) : Reader Unit := do
  if (← next) == expected then return () else failure

/-- Consumes the given token if it comes next. -/
def accepts (expected : Token) : Reader Bool := do
  if (← peek) == some expected then
    let _ ← next
    return true
  else return false

/-- Consumes a symbol. -/
def symbol (char : Char) : Reader Unit := token (.symbol char)

/-- Consumes a keyword. -/
def keyword (word : Name) : Reader Unit := token (.name word)

/-- Consumes a name. -/
def name : Reader Name := do
  match ← next with
  | .name text => return text
  | _ => failure

/-- Consumes a name that none of the given words is. -/
def nameExcept (words : List Name) : Reader Name := do
  let text ← name
  if words.contains text then failure else return text

/-- Items up to a closing token. -/
def upTo (closing : Token) (item : Reader α) : Nat → Reader (List α)
  | 0 => failure
  | bound + 1 => do
      if ← accepts closing then return []
      else
        let first ← item
        return first :: (← upTo closing item bound)

/-- At least one item up to a closing token. -/
def upToNonEmpty (closing : Token) (item : Reader α) (bound : Nat) : Reader (List α) := do
  match ← upTo closing item bound with
  | [] => failure
  | items => return items

/-- Items for as long as the next token announces one. -/
def whileNext (announces : Token → Bool) (item : Reader α) : Nat → Reader (List α)
  | 0 => failure
  | bound + 1 => do
      if (← peek).any announces then
        let first ← item
        return first :: (← whileNext announces item bound)
      else return []

/-- One or more items with a separator between them and optionally in front. -/
def separated (separator : Token) (item : Reader α) (bound : Nat) : Reader (List α) := do
  let _ ← accepts separator
  let first ← item
  let rest ← whileNext (· == separator) (do token separator; item) bound
  return first :: rest

/-- Items between two symbols, none if the opening one does not come next. -/
def optionalBlock (opening closing : Char) (item : Reader α) (bound : Nat) : Reader (List α) := do
  if ← accepts (.symbol opening) then upToNonEmpty (.symbol closing) item bound
  else return []

/-! ## Values and types -/

/-- How many levels values, types and selections can be nested. -/
def maximalLevels : Nat := 500

/-- A value behind its name, absent if it is left out. -/
def namedValue (value : Reader Value) : Reader (Option (Name × Value)) := do
  let valueName ← name
  if ← accepts (.symbol ':') then return some (valueName, ← value) else return none

/-- A value with the given readers of an item and of a field. Constant values hold no variables, and
a field without value is none. -/
def valueOf (constant : Bool) (item : Reader Value) (field : Reader (Option (Name × Value)))
    (bound : Nat) : Reader Value := do
  match ← next with
  | .int digits => return .int digits
  | .float digits => return .float digits
  | .string text => return .string text
  | .name "true" => return .boolean true
  | .name "false" => return .boolean false
  | .name "null" => return .null
  | .name text => return .enum text
  | .symbol '$' => if constant then failure else return .var (← name)
  | .symbol '[' => return .list (← upTo (.symbol ']') item bound)
  | .symbol '\x7b' => return .object ((← upTo (.symbol '\x7d') field bound).filterMap id)
  | _ => failure

/-- A value, its items and fields some levels down. -/
def value (constant : Bool) (bound : Nat) : Nat → Reader Value
  | 0 => valueOf constant failure failure bound
  | levels + 1 =>
      let nested := value constant bound levels
      valueOf constant nested (namedValue nested) bound

/-- A type reference with the given reader of what a list holds. -/
def typeReferenceOf (item : Reader TypeReference) : Reader TypeReference := do
  match ← next with
  | .name text => return .named text (← accepts (.symbol '!'))
  | .symbol '[' =>
      let item ← item
      symbol ']'
      return .list item (← accepts (.symbol '!'))
  | _ => failure

/-- A type reference, its lists some levels down. -/
def typeReferenceWithin : Nat → Reader TypeReference
  | 0 => typeReferenceOf failure
  | levels + 1 => typeReferenceOf (typeReferenceWithin levels)

/-- A type reference. -/
def typeReference : Reader TypeReference := typeReferenceWithin maximalLevels

/-- Arguments between parentheses, if any. One without value is none. -/
def arguments (constant : Bool) (bound levels : Nat) : Reader (List Argument) := do
  let given ← optionalBlock '(' ')' (namedValue (value constant bound levels)) bound
  return given.filterMap fun argument => argument.map fun (name, value) => ⟨name, value⟩

/-- Directives, if any. -/
def directives (constant : Bool) (bound levels : Nat) : Reader (List Directive) :=
  let directive : Reader Directive := do
    symbol '@'
    let directiveName ← name
    return ⟨directiveName, ← arguments constant bound levels⟩
  whileNext (· == .symbol '@') directive bound

/-- Directives that hold no variables, if any. -/
def constantDirectives (bound : Nat) : Reader (List Directive) :=
  directives true bound maximalLevels

/-- A default value, if any. -/
def defaultValue (bound : Nat) : Reader (Option Value) := do
  if ← accepts (.symbol '=') then return some (← value true bound maximalLevels)
  else return none

/-! ## Operations and fragments -/

/-- What follows the three dots of a selection. -/
def fragmentSelection (nested : Reader (List Selection)) (bound levels : Nat) :
    Reader Selection := do
  noComma
  match ← peek with
  | some (.name "on") =>
      let _ ← next
      let typeCondition ← name
      let applied ← directives false bound levels
      return .inlineFragment (some typeCondition) applied (← nested)
  | some (.name _) =>
      let fragmentName ← name
      return .fragmentSpread fragmentName (← directives false bound levels)
  | _ =>
      let applied ← directives false bound levels
      return .inlineFragment none applied (← nested)

/-- A selected field. -/
def fieldSelection (nested : Reader (List Selection)) (bound levels : Nat) :
    Reader Selection := do
  let first ← name
  let isAlias := !(← hasComma) && (← peek) == some (.symbol ':')
  let (aliasName, fieldName) ←
    if isAlias then do
      symbol ':'
      pure (some first, ← name)
    else pure (none, first)
  let given ← arguments false bound levels
  let applied ← directives false bound levels
  let selections ← if (← peek) == some (.symbol '\x7b') then nested else pure []
  return .field aliasName fieldName given applied selections

/-- Selections between braces, at most so many levels of them. -/
def selectionSetWithin (bound : Nat) : Nat → Reader (List Selection)
  | 0 => failure
  | levels + 1 => do
      symbol '\x7b'
      let nested := selectionSetWithin bound levels
      let selection : Reader Selection := do
        if ← accepts .spread then fragmentSelection nested bound levels
        else fieldSelection nested bound levels
      upToNonEmpty (.symbol '\x7d') selection bound

/-- Selections between braces. -/
def selectionSet (bound : Nat) : Reader (List Selection) := selectionSetWithin bound maximalLevels

/-- A declared variable. -/
def variableDefinition (bound : Nat) : Reader VariableDefinition := do
  symbol '$'
  let variableName ← name
  symbol ':'
  let type ← typeReference
  let given ← defaultValue bound
  return ⟨variableName, type, given, ← constantDirectives bound⟩

/-- An operation behind its keyword. -/
def operation (kind : OperationKind) (bound : Nat) : Reader Definition := do
  let operationName ←
    match ← peek with
    | some (.name text) => do
        let _ ← next
        pure (some text)
    | _ => pure none
  let declared ← optionalBlock '(' ')' (variableDefinition bound) bound
  let applied ← directives false bound maximalLevels
  return .operation ⟨kind, operationName, declared, applied, ← selectionSet bound⟩

/-- A fragment behind its keyword. -/
def fragment (bound : Nat) : Reader Definition := do
  let fragmentName ← nameExcept ["on"]
  keyword "on"
  let typeCondition ← name
  let applied ← directives false bound maximalLevels
  return .fragment ⟨fragmentName, typeCondition, applied, ← selectionSet bound⟩

/-! ## Types, directives and schemas -/

/-- A description, which carries no meaning. -/
def description : Reader Unit := do
  match ← peek with
  | some (.string _) =>
      let _ ← next
      return ()
  | _ => return ()

/-- An argument definition or a field of an input object. -/
def inputValue (bound : Nat) : Reader InputValue := do
  description
  let inputName ← name
  symbol ':'
  let type ← typeReference
  let given ← defaultValue bound
  return ⟨inputName, type, given, ← constantDirectives bound⟩

/-- A field definition. -/
def fieldDefinition (bound : Nat) : Reader FieldDefinition := do
  description
  let fieldName ← name
  let taken ← optionalBlock '(' ')' (inputValue bound) bound
  symbol ':'
  let type ← typeReference
  return ⟨fieldName, taken, type, ← constantDirectives bound⟩

/-- The interfaces that a type declares, if any. -/
def interfaces (bound : Nat) : Reader (List Name) := do
  if ← accepts (.name "implements") then separated (.symbol '&') name bound else return []

/-- The body of a type behind its keyword, whether defined or extended. -/
def typeDefinition (word : Name) (bound : Nat) : Reader TypeDefinition := do
  let typeName ← name
  let fields := optionalBlock '\x7b' '\x7d' (fieldDefinition bound) bound
  match word with
  | "scalar" => return ⟨typeName, ← constantDirectives bound, .scalar⟩
  | "type" =>
      let declared ← interfaces bound
      let applied ← constantDirectives bound
      return ⟨typeName, applied, .object declared (← fields)⟩
  | "interface" =>
      let declared ← interfaces bound
      let applied ← constantDirectives bound
      return ⟨typeName, applied, .interface declared (← fields)⟩
  | "union" =>
      let applied ← constantDirectives bound
      if ← accepts (.symbol '=') then
        return ⟨typeName, applied, .union (← separated (.symbol '|') name bound)⟩
      else return ⟨typeName, applied, .union []⟩
  | "enum" =>
      let applied ← constantDirectives bound
      let enumValue : Reader EnumValue := do
        description
        let valueName ← nameExcept ["true", "false", "null"]
        return ⟨valueName, ← constantDirectives bound⟩
      return ⟨typeName, applied, .enum (← optionalBlock '\x7b' '\x7d' enumValue bound)⟩
  | "input" =>
      let applied ← constantDirectives bound
      return ⟨typeName, applied,
        .inputObject (← optionalBlock '\x7b' '\x7d' (inputValue bound) bound)⟩
  | _ => failure

/-- A type extension behind its keyword. It extends the type by something. -/
def typeExtension (word : Name) (bound : Nat) : Reader TypeDefinition := do
  let extension ← typeDefinition word bound
  if extension.directives.isEmpty && extension.body.isEmpty then failure else return extension

/-- The name of a place that takes directives. -/
def directiveLocation : Reader DirectiveLocation := do
  match DirectiveLocation.ofName? (← name) with
  | some location => return location
  | none => failure

/-- A directive definition behind its keyword. -/
def directiveDefinition (bound : Nat) : Reader Definition := do
  symbol '@'
  let directiveName ← name
  let taken ← optionalBlock '(' ')' (inputValue bound) bound
  let repeatable ← accepts (.name "repeatable")
  keyword "on"
  let locations ← separated (.symbol '|') directiveLocation bound
  return .directive ⟨directiveName, taken, repeatable, locations⟩

/-- A root type of a schema definition. -/
def rootType : Reader (OperationKind × Name) := do
  let kind ←
    match ← name with
    | "query" => pure OperationKind.query
    | "mutation" => pure OperationKind.mutation
    | "subscription" => pure OperationKind.subscription
    | _ => failure
  symbol ':'
  return (kind, ← name)

/-- A schema definition or extension behind its keyword. An extension has to add something. -/
def schemaDefinition (isExtension : Bool) (bound : Nat) : Reader Definition := do
  let applied ← constantDirectives bound
  let roots ← optionalBlock '\x7b' '\x7d' rootType bound
  if isExtension && applied.isEmpty && roots.isEmpty then failure
  else return .schema isExtension applied roots

/-! ## Whole texts -/

/-- One definition. Only definitions of a schema may be described, and no comma separates them from
their descriptions. -/
def definition (bound : Nat) : Reader Definition := do
  let isDescribed := (← peek).any fun | .string _ => true | _ => false
  description
  if isDescribed then noComma
  match ← peek with
  | some (.symbol '\x7b') =>
      if isDescribed then failure
      else return .operation ⟨.query, none, [], [], ← selectionSet bound⟩
  | _ =>
      match ← name with
      | "query" => executable isDescribed (operation .query bound)
      | "mutation" => executable isDescribed (operation .mutation bound)
      | "subscription" => executable isDescribed (operation .subscription bound)
      | "fragment" => executable isDescribed (fragment bound)
      | "schema" => schemaDefinition false bound
      | "directive" => directiveDefinition bound
      | "extend" =>
          if isDescribed then failure
          else
            noComma
            match ← name with
            | "schema" => schemaDefinition true bound
            | word => return .type true (← typeExtension word bound)
      | word => return .type false (← typeDefinition word bound)
where
  /-- Operations and fragments are not described. -/
  executable (isDescribed : Bool) (reader : Reader Definition) : Reader Definition :=
    if isDescribed then failure else reader

end Reader

/-- The definitions of a text, absent if it is no GraphQL text or defines nothing. -/
def definitions? (text : String) : Option (List Definition) := do
  let tokens ← tokens? text
  let bound := tokens.length + 1
  let (definitions, _) ← Reader.whileNext (fun _ => true) (Reader.definition bound) bound tokens
  if definitions.isEmpty then none else return definitions

end ResponseShape.Written
