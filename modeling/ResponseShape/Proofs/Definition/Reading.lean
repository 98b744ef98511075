import ResponseShape.Definition.Build
import ResponseShape.Proofs.Definition.Construction
import ResponseShape.Proofs.Text.Bytes

/-!
# Reading a tree

The response keys that a tree stands for on an object, without a look at the selections it depicts:
those of its fields whose conditions hold, of the branches that the object enters, and of the
fragments spread on a type of the object. They are the keys that execution collects
(`Build.mem_readKeys_selections`).

`DepictsParts.finds` tells where in a tree a collected field is to be found. What is left out of a
tree is no place to find one: a tree is empty only if nothing is selected
(`Depicts.not_isIncluded_of_isEmpty`).
-/

namespace ResponseShape

section Keys

variable {project : Project} {object : Name} {assignment : Assignment}

namespace SelectionTree

mutual

/-- The response keys that a tree stands for on an object. -/
def readKeys (compilation : Compilation) (object : Name) (assignment : Assignment) :
    SelectionTree → List Name
  | .mk fields branches spreads =>
      ((fields.map (·.toField)).filter (·.summary.conditions.all (·.holds assignment))).map
          (·.responseKey)
        ++ readKeysOfBranches compilation object assignment branches
        ++ spreads.flatMap fun spread =>
          match compilation.spreadFragment? spread.name with
          | some fragment =>
              if compilation.schema.isPossible fragment.typeCondition object then
                (Execution.collectFields compilation object assignment fragment.selections).map
                  (·.responseKey)
              else []
          | none => []

/-- The response keys behind the branches that an object enters. -/
def readKeysOfBranches (compilation : Compilation) (object : Name) (assignment : Assignment) :
    List TreeBranch → List Name
  | [] => []
  | .mk key _ selections :: rest =>
      (if key.holds compilation.schema object assignment then
          readKeys compilation object assignment selections
        else [])
        ++ readKeysOfBranches compilation object assignment rest

end

variable {compilation : Compilation} {name : Name}

theorem mem_readKeysOfBranches {branches : List TreeBranch} :
    name ∈ readKeysOfBranches compilation object assignment branches ↔
      ∃ key child tree, .mk key child tree ∈ branches
        ∧ key.holds compilation.schema object assignment = true
        ∧ name ∈ readKeys compilation object assignment tree := by
  induction branches with
  | nil => simp [readKeysOfBranches]
  | cons branch rest ih =>
      rcases branch with ⟨key, child, tree⟩
      simp only [readKeysOfBranches, List.mem_append, List.mem_ite_nil_right, ih, List.mem_cons,
        TreeBranch.mk.injEq]
      constructor
      · rintro (⟨holds, mem⟩ | ⟨_, _, _, branchMem, rest⟩)
        · exact ⟨key, child, tree, Or.inl ⟨rfl, rfl, rfl⟩, holds, mem⟩
        · exact ⟨_, _, _, Or.inr branchMem, rest⟩
      · rintro ⟨_, _, _, ⟨rfl, rfl, rfl⟩ | branchMem, holds, mem⟩
        · exact Or.inl ⟨holds, mem⟩
        · exact Or.inr ⟨_, _, _, branchMem, holds, mem⟩

theorem mem_readKeys {fields : List TreeField} {branches : List TreeBranch}
    {spreads : List Spread} :
    name ∈ readKeys compilation object assignment (.mk fields branches spreads) ↔
      (∃ field ∈ fields, field.toField.summary.conditions.all (·.holds assignment) = true
          ∧ field.toField.responseKey = name)
        ∨ (∃ key child tree, .mk key child tree ∈ branches
          ∧ key.holds compilation.schema object assignment = true
          ∧ name ∈ readKeys compilation object assignment tree)
        ∨ ∃ spread ∈ spreads, ∃ fragment,
          compilation.spreadFragment? spread.name = some fragment
            ∧ compilation.schema.isPossible fragment.typeCondition object = true
            ∧ ∃ collected ∈ Execution.collectFields compilation object assignment
              fragment.selections, collected.responseKey = name := by
  rw [readKeys, List.mem_append, List.mem_append, mem_readKeysOfBranches, or_assoc]
  refine or_congr ?_ (or_congr_right ?_)
  · simp [and_assoc]
  · rw [List.mem_flatMap]
    refine exists_congr fun spread => and_congr_right fun _ => ?_
    cases compilation.spreadFragment? spread.name with
    | none => simp
    | some fragment => simp

end SelectionTree

/-- Execution selects nothing on the objects within a place whose tree is empty. -/
theorem Depicts.not_isIncluded_of_isEmpty {levels : Nat} {place : Place}
    {selections : List Selection} {tree : SelectionTree} {collected : CollectedField}
    (lawful : project.schema.IsLawful)
    (reachable : Scope.Reachable project.schema place.scope)
    (depicts : Depicts project levels place selections tree) (empty : tree.isEmpty = true)
    (within : place.scope.holds project.schema object assignment = true)
    (reached : project.compilation.Reaches object assignment selections collected) :
    collected.field.isIncluded assignment = false := by
  induction levels generalizing place selections tree with
  | zero => cases depicts
  | succ levels ih =>
      rcases tree with ⟨fields, branches, spreads⟩
      rcases depicts with ⟨gathered, parts⟩
      simp only [SelectionTree.isEmpty, Bool.and_eq_true, List.isEmpty_iff] at empty
      rcases empty with ⟨⟨rfl, rfl⟩, rfl⟩
      have sound := Scope.isSound_of_reachable lawful reachable
      cases included : collected.field.isIncluded assignment with
      | false => rfl
      | true =>
          exfalso
          rcases Gathered.covers_gatherAll sound within parts.gathers reached included with
            ⟨known, mem, -⟩ | ⟨branch, mem, holds, innerReached⟩ | ⟨name, mem, -⟩
          · rcases exists_mem_of_forall₂ parts.fields mem with ⟨_, none, -⟩
            cases none
          · rcases parts.exists_branch mem with ⟨outcome, ofBranch, keeps⟩
            cases ofBranch with
            | kept => cases keeps _ rfl
            | dropped narrowed innerDepicts innerEmpty =>
                rcases Place.scope_of_narrowed lawful reachable narrowed with
                  ⟨innerReachable, holdsIff⟩
                have innerWithin := (holdsIff object assignment).mpr ⟨within, holds⟩
                rw [ih innerReachable innerDepicts innerEmpty innerWithin innerReached] at included
                cases included
          · have none := parts.spreads
            rw [eq_comm, List.map_eq_nil_iff] at none
            rw [none] at mem
            cases mem

namespace DepictsParts

variable {levels : Nat} {place : Place} {selections : List Selection} {gathered : Gathered}
  {fields : List TreeField} {branches : List TreeBranch} {spreads : List Spread}
  {collected : CollectedField}

/-- What execution selects on an object within a place is a field of the place's tree, or found
behind a branch or a spread that the object enters. -/
theorem finds (lawful : project.schema.IsLawful)
    (reachable : Scope.Reachable project.schema place.scope)
    (parts : DepictsParts project (Depicts project levels) levels place selections gathered fields
      branches spreads)
    (within : place.scope.holds project.schema object assignment = true)
    (reached : project.compilation.Reaches object assignment selections collected)
    (included : collected.field.isIncluded assignment = true) :
    (∃ known field, field ∈ fields ∧ DepictsField project (Depicts project levels) place known field
        ∧ known.responseKey = collected.responseKey ∧ known.field.type = collected.field.type
        ∧ known.conditions.all (·.holds assignment) = true
        ∧ ∀ selection ∈ collected.selections, selection ∈ known.selections)
      ∨ (∃ key child tree inner, .mk key child tree ∈ branches
        ∧ place.narrowed project.schema key = .ok child
        ∧ Depicts project levels child inner tree
        ∧ key.holds project.schema object assignment = true
        ∧ project.compilation.Reaches object assignment inner collected)
      ∨ ∃ name fragment, place.spread name ∈ spreads
        ∧ project.compilation.spreadFragment? name = some fragment
        ∧ project.schema.isPossible fragment.typeCondition object = true
        ∧ project.compilation.Reaches object assignment fragment.selections collected := by
  have sound := Scope.isSound_of_reachable lawful reachable
  rcases Gathered.covers_gatherAll sound within parts.gathers reached included with
    ⟨known, mem, rest⟩ | ⟨branch, mem, holds, innerReached⟩ | ⟨name, mem, fragment, rest⟩
  · rcases exists_mem_of_forall₂ parts.fields mem with ⟨field, fieldMem, ofField⟩
    exact Or.inl ⟨known, field, fieldMem, ofField, rest⟩
  · rcases parts.exists_branch mem with ⟨outcome, ofBranch, keeps⟩
    cases ofBranch with
    | kept narrowed depicts _ =>
        exact Or.inr (Or.inl ⟨_, _, _, _, keeps _ rfl, narrowed, depicts, holds, innerReached⟩)
    | dropped narrowed depicts empty =>
        rcases Place.scope_of_narrowed lawful reachable narrowed with ⟨innerReachable, holdsIff⟩
        have innerWithin := (holdsIff object assignment).mpr ⟨within, holds⟩
        rw [depicts.not_isIncluded_of_isEmpty lawful innerReachable empty innerWithin
          innerReached] at included
        cases included
  · refine Or.inr (Or.inr ⟨name, fragment, ?_, rest⟩)
    rw [parts.spreads]
    exact List.mem_map_of_mem mem

end DepictsParts

/-- The keys that a tree stands for on an object are those that execution collects. -/
theorem Depicts.mem_readKeys_iff {levels : Nat} {place : Place} {selections : List Selection}
    {tree : SelectionTree} {name : Name} (lawful : project.schema.IsLawful)
    (reachable : Scope.Reachable project.schema place.scope)
    (depicts : Depicts project levels place selections tree)
    (within : place.scope.holds project.schema object assignment = true) :
    name ∈ tree.readKeys project.compilation object assignment ↔
      ∃ collected ∈ Execution.collectFields project.compilation object assignment selections,
        collected.responseKey = name := by
  induction levels generalizing place selections tree with
  | zero => cases depicts
  | succ levels ih =>
      rcases tree with ⟨fields, branches, spreads⟩
      rcases depicts with ⟨gathered, parts⟩
      have inside {key : Narrowing} {child : Place}
          (narrowed : place.narrowed project.schema key = .ok child)
          (holds : key.holds project.schema object assignment = true) :
          Scope.Reachable project.schema child.scope
            ∧ child.scope.holds project.schema object assignment = true := by
        rcases Place.scope_of_narrowed lawful reachable narrowed with ⟨innerReachable, holdsIff⟩
        exact ⟨innerReachable, (holdsIff object assignment).mpr ⟨within, holds⟩⟩
      rw [SelectionTree.mem_readKeys]
      -- One way nothing may be gathered in excess, the other way nothing may be lost.
      constructor
      · have justified := Gathered.isJustified_gatherAll
          (Scope.isSound_of_reachable lawful reachable) within parts.gathers
        rintro (⟨field, mem, holds, rfl⟩ | ⟨key, child, tree, mem, holds, nameMem⟩
          | ⟨spread, mem, fragment, found, possible, collected, collectedMem, rfl⟩)
        · rcases exists_mem_of_forall₂_right parts.fields mem with ⟨known, knownMem, ofField⟩
          have knownHolds : known.conditions.all (·.holds assignment) = true := by
            cases ofField <;> exact holds
          rcases justified.fields known knownMem knownHolds with
            ⟨collected, reached, included, sameKey⟩
          refine ⟨collected, Execution.mem_collectFields_iff.mpr ⟨reached, included⟩, ?_⟩
          rw [sameKey]
          cases ofField <;> rfl
        · rcases parts.exists_gathered_branch mem with ⟨behind, behindMem, ofBranch⟩
          cases ofBranch with
          | kept narrowed depicts _ =>
              rcases inside narrowed holds with ⟨innerReachable, innerWithin⟩
              rcases (ih innerReachable depicts innerWithin).mp nameMem with
                ⟨collected, collectedMem, sameKey⟩
              rcases Execution.mem_collectFields_iff.mp collectedMem with ⟨reached, included⟩
              have outer := justified.branches behind behindMem holds collected reached
              exact ⟨collected, Execution.mem_collectFields_iff.mpr ⟨outer, included⟩, sameKey⟩
        · rw [parts.spreads] at mem
          rcases List.mem_map.mp mem with ⟨name, nameMem, rfl⟩
          rcases Execution.mem_collectFields_iff.mp collectedMem with ⟨reached, included⟩
          have outer := justified.spreads name nameMem fragment found possible collected reached
          exact ⟨collected, Execution.mem_collectFields_iff.mpr ⟨outer, included⟩, rfl⟩
      · rintro ⟨collected, collectedMem, rfl⟩
        rcases Execution.mem_collectFields_iff.mp collectedMem with ⟨reached, included⟩
        rcases parts.finds lawful reachable within reached included with
          ⟨known, field, mem, ofField, sameKey, -, holds, -⟩
            | ⟨key, child, tree, inner, mem, narrowed, depicts, holds, innerReached⟩
            | ⟨name, fragment, mem, found, possible, innerReached⟩
        · refine Or.inl ⟨field, mem, ?_, ?_⟩
          · cases ofField <;> exact holds
          · rw [← sameKey]
            cases ofField <;> rfl
        · rcases inside narrowed holds with ⟨innerReachable, innerWithin⟩
          refine Or.inr (Or.inl ⟨key, child, tree, mem, holds, ?_⟩)
          exact (ih innerReachable depicts innerWithin).mpr
            ⟨collected, Execution.mem_collectFields_iff.mpr ⟨innerReached, included⟩, rfl⟩
        · exact Or.inr (Or.inr ⟨_, mem, fragment, found, possible, collected,
            Execution.mem_collectFields_iff.mpr ⟨innerReached, included⟩, rfl⟩)

namespace Build

/-- Whatever the workspace and the builder of fragments: the tree that is built at a place stands,
on each object within the place, for the response keys that execution collects. -/
theorem mem_readKeys_selections {text : String} {fragment : Name → Build FragmentShape}
    {levels : Nat} {path : List Name} {place : Place} {written : List Selection}
    {workspace : Workspace} {built : Built SelectionTree}
    (valid : Schema.validated? text = some project.schema)
    (reachable : Scope.Reachable project.schema place.scope)
    (run : ((selections project fragment levels path place written).runIn workspace).1 = .ok built)
    (within : place.scope.holds project.schema object assignment = true) (key : Name) :
    key ∈ built.value.readKeys project.compilation object assignment ↔
      key ∈ (Execution.collectFields project.compilation object assignment written).map
        (·.responseKey) := by
  have builds : Ensures .none (fun _ => True)
      (selections project fragment levels path place written)
      fun built _ => Depicts project levels place written built.value
        ∧ built.value.IsGrounded (fun _ _ => True) (fun _ => True) place := by
    apply ensures_selections
    · exact fun _ _ _ _ _ => trivial
    · exact fun _ _ _ _ _ => ⟨trivial, trivial, fun _ _ => trivial⟩
    · exact fun _ _ _ _ => ⟨trivial, trivial, fun _ _ => trivial⟩
  rcases builds workspace trivial trivial with ⟨-, -, ofBuilt⟩
  rw [(ofBuilt built run).1.mem_readKeys_iff (Schema.isLawful_of_validated? valid) reachable within,
    List.mem_map]

end Build

end Keys

/-- A sample with one document, which selects a field three times: twice as written, once of them
under a condition, and once in a fragment. -/
def Heroes : Sample where
  schemaText := "type Query \x7b hero: Hero \x7d type Hero \x7b name: String age: Int \x7d"
  sources :=
    [⟨"d.graphql",
      "query Q($a: Boolean!) \x7b hero \x7b name \x7d hero @include(if: $a) \x7b age \x7d "
        ++ "...F \x7d fragment F on Query \x7b hero \x7b id: name \x7d \x7d"⟩]
  isValid := by decide +kernel

namespace Heroes

/-- What the document selects on queries. -/
@[irreducible]
def selections : List Selection :=
  (Heroes.compilation.operations.map (·.2.selections)).flatten

/-- The root scope of queries. -/
@[irreducible]
def queryScope : Scope := (Scope.forType Heroes.project.schema "Query").toOption.getD default

theorem forType_eq_ok : Scope.forType Heroes.project.schema "Query" = .ok queryScope := by
  have isScope : (Scope.forType Heroes.project.schema "Query").toOption.isSome = true := by
    rewrite [Heroes.project_eq]
    decide +kernel
  rcases Option.isSome_iff_exists.mp isScope with ⟨scope, isRoot⟩
  rw [queryScope, isRoot, Option.getD_some]
  exact Build.eq_ok_of_toOption isRoot

/-- The place of a root set of queries. -/
def queryPlace : Place := ⟨⟨.root (.operation 0 .query (some "Q")), ["Query"]⟩, [], queryScope⟩

end Heroes

theorem Build.mem_readKeys_selections_heroes : ∃ built,
    ((Build.selections Heroes.project (Build.fragment Heroes.project) 2 [] Heroes.queryPlace
      Heroes.selections).runIn .empty).1 = .ok built
      ∧ "hero" ∈ built.value.readKeys Heroes.project.compilation "Query" fun _ => false := by
  have isBuilt : ((Build.selections Heroes.project (Build.fragment Heroes.project) 2 []
      Heroes.queryPlace Heroes.selections).runIn .empty).1.toOption.isSome = true := by
    rewrite [Heroes.queryPlace, Heroes.queryScope, Heroes.selections, Heroes.project_eq,
      Heroes.compilation_eq]
    decide +kernel
  rcases Option.isSome_iff_exists.mp isBuilt with ⟨built, isBuilt⟩
  have run := eq_ok_of_toOption isBuilt
  have valid : Schema.validated? Heroes.schemaText = some Heroes.project.schema :=
    Compilation.validated?_schema Heroes.validated?_eq_some
  have within : Heroes.queryScope.holds Heroes.project.schema "Query" (fun _ => false) = true := by
    rewrite [Heroes.queryScope, Heroes.project_eq]
    decide +kernel
  refine ⟨built, run, ?_⟩
  apply (mem_readKeys_selections valid (.forType Heroes.forType_eq_ok) run within "hero").mpr
  rewrite [Heroes.selections, Heroes.project_eq, Heroes.compilation_eq]
  decide +kernel

end ResponseShape
