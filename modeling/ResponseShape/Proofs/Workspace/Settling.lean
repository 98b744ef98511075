import Mathlib.Data.Finset.Card
import ResponseShape.Proofs.Definition.Drafting
import ResponseShape.Proofs.Document.Acyclic

/-!
# Builds settle

Without cycles of spreads, builds lead from settled workspaces to settled ones, and their outcomes
are the same in all of them (`Build.agree_fragment`, `Build.agree_operation`, `Build.agree_all`).
The induction is on how many fragments the selections of a fragment reach: those that it spreads
reach fewer.
-/

namespace ResponseShape

namespace Compilation

variable {compilation : Compilation} {name : Name} {fragment : Fragment}
  {selections : List Selection}

open Classical in
/-- The defined fragments that selections reach. -/
noncomputable def reached (compilation : Compilation) (selections : List Selection) : Finset Name :=
  (compilation.fragmentDefinitions.map (·.2.name)).toFinset.filter
    (compilation.Spreads · selections)

theorem mem_reached : name ∈ compilation.reached selections ↔
    name ∈ (compilation.fragmentDefinitions.map (·.2.name)).toFinset
      ∧ compilation.Spreads name selections := by
  classical
  exact Finset.mem_filter

theorem mem_names_of_spreadFragment? (found : compilation.spreadFragment? name = some fragment) :
    name ∈ (compilation.fragmentDefinitions.map (·.2.name)).toFinset := by
  rcases exists_fragment?_of_spreadFragment? found with ⟨document, isDefinition⟩
  rw [List.mem_toFinset, ← name_of_fragment? isDefinition]
  exact List.mem_map_of_mem (List.mem_of_find?_eq_some isDefinition)

/-- A fragment reaches fewer fragments than selections that spread it. -/
theorem IsAcyclic.card_reached_lt (acyclic : compilation.IsAcyclic)
    (isSpread : name ∈ Selection.spreadsOfAll selections)
    (found : compilation.spreadFragment? name = some fragment) :
    (compilation.reached fragment.selections).card < (compilation.reached selections).card := by
  apply Finset.card_lt_card
  rw [Finset.ssubset_iff_of_subset]
  · refine ⟨name, mem_reached.mpr ⟨mem_names_of_spreadFragment? found, .written isSpread⟩, ?_⟩
    exact fun mem => acyclic name fragment found (mem_reached.mp mem).2
  · intro other mem
    rcases mem_reached.mp mem with ⟨isDefined, spreads⟩
    exact mem_reached.mpr ⟨isDefined, .fragment isSpread found spreads⟩

/-- No fragment reaches all of them. -/
theorem IsAcyclic.card_reached_lt_length (acyclic : compilation.IsAcyclic)
    (found : compilation.spreadFragment? name = some fragment) :
    (compilation.reached fragment.selections).card < compilation.fragmentDefinitions.length := by
  have names := (compilation.fragmentDefinitions.map (·.2.name)).toFinset_card_le
  rw [List.length_map] at names
  refine lt_of_lt_of_le (Finset.card_lt_card ?_) names
  rw [Finset.ssubset_iff_of_subset fun other mem => (mem_reached.mp mem).1]
  exact ⟨name, mem_names_of_spreadFragment? found,
    fun mem => acyclic name fragment found (mem_reached.mp mem).2⟩

/-- Whether a fragment is the one of a name or reached from it. -/
def ReachedFrom (compilation : Compilation) (name other : Name) : Prop :=
  other = name ∨ ∃ fragment, compilation.spreadFragment? name = some fragment
    ∧ compilation.Spreads other fragment.selections

end Compilation

namespace Workspace

variable {project : Project} {workspace : Workspace} {definition other : DefinitionId}
  {occurrences found : List Occurrence}

/-- A fragment that is stored is found by its name, and all others as before. -/
theorem fragment?_of_stored {later : Workspace} {shape : FragmentShape}
    (stores : later.fragments = workspace.fragments ++ [shape])
    (isUnbuilt : workspace.fragment? shape.name = none) (name : Name) :
    later.fragment? name = if name = shape.name then some shape else workspace.fragment? name := by
  simp only [Workspace.fragment?, stores, List.find?_append] at isUnbuilt ⊢
  by_cases same : name = shape.name
  · subst same
    simp [isUnbuilt]
  · have isOther : (shape.name == name) = false := by simpa using Ne.symm same
    simp [same, isOther]

/-- An operation that is stored is found by its key, and all others as before. -/
theorem operation?_of_stored {later : Workspace} {key : OperationKey} {shape : OperationShape}
    (stores : later.operations = workspace.operations ++ [(key, shape)])
    (isUnbuilt : workspace.operation? key = none) (other : OperationKey) :
    later.operation? other = if other = key then some shape else workspace.operation? other := by
  simp only [Workspace.operation?, stores, List.lookup_append, List.lookup_cons, List.lookup_nil]
    at isUnbuilt ⊢
  by_cases same : other = key
  · subst same
    simp [isUnbuilt]
  · have isOther : (other == key) = false := by simpa using same
    simp [same, isOther]

/-- Registering what was found for one definition leaves all others as they are. -/
theorem occurrences_registerAll_of_isOf (isOther : other ≠ definition) {location : Location}
    (isHere : location.definition = other)
    (isOf : ∀ occurrence ∈ found, occurrence.place.entity.IsOf project definition) :
    (workspace.entities.registerAll found).occurrences location
      = workspace.entities.occurrences location := by
  rw [EntityTable.occurrences_registerAll, List.append_right_eq_self, List.filter_eq_nil_iff]
  intro occurrence mem same
  rw [← isHere, ← beq_iff_eq.mp same, (isOf occurrence mem).definition] at isOther
  exact isOther rfl

theorem IsFilled.registerAll {fragments : List FragmentShape}
    {operations : List (OperationKey × OperationShape)}
    (isFilled : workspace.IsFilled project other occurrences) (isOther : other ≠ definition)
    (isOf : ∀ occurrence ∈ found, occurrence.place.entity.IsOf project definition) :
    Workspace.IsFilled project
      { workspace with
        entities := workspace.entities.registerAll found
        fragments := fragments
        operations := operations } other occurrences := by
  refine ⟨fun location isHere => ?_, isFilled.isOf⟩
  rw [occurrences_registerAll_of_isOf isOther isHere isOf]
  exact isFilled.registers location isHere

/-- A definition for which nothing is registered is filled by registering what was found for it. -/
theorem isFilled_registerAll {fragments : List FragmentShape}
    {operations : List (OperationKey × OperationShape)}
    (isEmpty : ∀ steps, workspace.entities.occurrences ⟨definition, steps⟩ = [])
    (isOf : ∀ occurrence ∈ found, occurrence.place.entity.IsOf project definition) :
    Workspace.IsFilled project
      { workspace with
        entities := workspace.entities.registerAll found
        fragments := fragments
        operations := operations } definition found := by
  refine ⟨?_, isOf⟩
  rintro ⟨_, steps⟩ rfl
  rw [EntityTable.occurrences_registerAll, isEmpty, List.nil_append]

/-- Registering allocates entities with the types on the way to them. -/
theorem IsSettled.entity?_registerAll (settled : workspace.IsSettled project)
    (isOf : ∀ occurrence ∈ found, occurrence.place.entity.IsOf project definition)
    {location : Location} {entity : Entity}
    (isEntity : (workspace.entities.registerAll found).entity? location = some entity) :
    entity = project.entityAt location := by
  rcases EntityTable.entity?_registerAll isEntity with
    isOld | ⟨occurrence, mem, rfl, rfl⟩
  · exact settled.entities location entity isOld
  · exact (isOf occurrence mem).isEntity

end Workspace

namespace Build

variable {project : Project}

section Fragments

variable {name : Name} {document : DocumentFile} {definition : Fragment} {height : Nat}
  {workspace : Workspace}

/-- What comes of building a fragment in an empty workspace. -/
def fragmentOutcome (project : Project) (document : DocumentFile) (definition : Fragment) :
    Except BuildError FragmentShape :=
  ((fragmentDraft project (Build.fragment project) definition).runIn .empty).1.map
    (definition.shape document)

/-- A fragment that is not built yet is drafted, registered and stored. -/
theorem runIn_fragmentWithin
    (found : project.compilation.fragment? name = some (document, definition))
    (isUnbuilt : workspace.fragment? name = none) :
    (fragmentWithin project (height + 1) name).runIn workspace =
      match (fragmentDraft project (fragmentWithin project height) definition).runIn workspace with
      | (.ok draft, later) => (.ok (definition.shape document draft),
          { later with
            entities := later.entities.registerAll draft.2
            fragments := later.fragments ++ [definition.shape document draft] })
      | (.error error, later) => (.error error, later) := by
  unfold fragmentWithin
  simp only [found, runIn_bind, runIn_get, isUnbuilt, fragmentDefinition, fragmentDraft, draft,
    register]
  rcases (root project (fragmentWithin project height) (.fragment definition.name) definition.name
    definition.typeCondition definition.selections).runIn workspace with ⟨_ | built, afterRoot⟩
  · rfl
  · dsimp only
    rcases (occurrences project built.value.place built.value.selections).runIn afterRoot with
      ⟨_ | found, afterPlacing⟩ <;> rfl

/-- Storing a fragment that was found as in an empty workspace keeps a workspace settled. -/
theorem isSettled_storeFragment {draft : Built RootField × List Occurrence}
    (settled : workspace.IsSettled project)
    (found : project.compilation.fragment? name = some (document, definition))
    (isUnbuilt : workspace.fragment? name = none)
    (drafts : ((fragmentDraft project (Build.fragment project) definition).runIn .empty).1
      = .ok draft)
    (isOf : ∀ occurrence ∈ draft.2,
      occurrence.place.entity.IsOf project (.fragment definition.name))
    {later : Workspace} (sound : later.IsSound project)
    (isLater : later = { workspace with
      entities := workspace.entities.registerAll draft.2
      fragments := workspace.fragments ++ [definition.shape document draft] }) :
    later.IsSettled project
      ∧ Workspace.Reaches (project.compilation.ReachedFrom name) workspace later := by
  have sameName : definition.name = name := Compilation.name_of_fragment? found
  rw [sameName] at isOf
  have lookup (other : Name) : later.fragment? other
      = if other = name then some (definition.shape document draft)
        else workspace.fragment? other := by
    have stores : later.fragments = workspace.fragments ++ [definition.shape document draft] := by
      rw [isLater]
    rw [← sameName] at isUnbuilt ⊢
    exact Workspace.fragment?_of_stored stores isUnbuilt other
  subst isLater
  refine ⟨⟨sound, ?_, ?_, ?_, ?_⟩, ⟨⟨List.prefix_append _ _, rfl, ?_⟩, ?_, rfl⟩⟩
  · exact fun location entity isEntity => settled.entity?_registerAll isOf isEntity
  · intro other shape isShape
    rw [lookup] at isShape
    split at isShape
    next same =>
      subst same
      exact ⟨document, definition, draft, found, drafts, (Option.some.inj isShape).symm,
        Workspace.isFilled_registerAll (fun steps => settled.unbuilt _ steps isUnbuilt) isOf⟩
    next isOther =>
      rcases settled.fragments other shape isShape with
        ⟨otherDocument, otherDefinition, otherDraft, isDefined, otherDrafts, rfl, isFilled⟩
      exact ⟨otherDocument, otherDefinition, otherDraft, isDefined, otherDrafts, rfl,
        isFilled.registerAll (by simpa using isOther) isOf⟩
  · intro other steps otherUnbuilt
    rw [lookup] at otherUnbuilt
    split at otherUnbuilt
    next => cases otherUnbuilt
    next isOther =>
      rw [Workspace.occurrences_registerAll_of_isOf (by simpa using isOther) rfl isOf]
      exact settled.unbuilt other steps otherUnbuilt
  · intro key shape isShape
    rcases settled.operations key shape isShape with
      ⟨otherDocument, operation, otherDraft, isDocument, isDefined, otherDrafts, rfl, isFilled⟩
    exact ⟨otherDocument, operation, otherDraft, isDocument, isDefined, otherDrafts, rfl,
      isFilled.registerAll (by simp) isOf⟩
  · intro location isOperation
    refine Workspace.occurrences_registerAll_of_isOf ?_ rfl isOf
    intro same
    rw [same] at isOperation
    cases isOperation
  · intro other isOther
    rw [lookup, if_neg fun same => isOther (Or.inl same)]

/-- What is drafted as in an empty workspace is built as in an empty workspace. -/
theorem settles_fragmentWithin
    (found : project.compilation.fragment? name = some (document, definition))
    (isAcyclic : ¬project.compilation.Spreads name definition.selections)
    (agree : Agree
      (Workspace.settling project (project.compilation.Spreads · definition.selections))
      (fun _ => True) (fragmentDraft project (fragmentWithin project height) definition)
      (fragmentDraft project (Build.fragment project) definition)
      fun draft _ => ∀ occurrence ∈ draft.2,
        occurrence.place.entity.IsOf project (.fragment definition.name))
    (settled : workspace.IsSettled project) :
    ((fragmentWithin project (height + 1) name).runIn workspace).1
        = fragmentOutcome project document definition
      ∧ ((fragmentWithin project (height + 1) name).runIn workspace).2.IsSettled project
      ∧ Workspace.Reaches (project.compilation.ReachedFrom name) workspace
        ((fragmentWithin project (height + 1) name).runIn workspace).2 := by
  cases isBuilt : workspace.fragment? name with
  | some shape =>
      rcases settled.fragments name shape isBuilt with
        ⟨_, _, draft, isDefined, drafts, rfl, -⟩
      rcases Prod.mk.inj (Option.some.inj (found.symm.trans isDefined)) with ⟨rfl, rfl⟩
      rw [runIn_fragmentWithin_of_stored found isBuilt, fragmentOutcome, drafts]
      exact ⟨rfl, settled, .refl _, fun _ _ => rfl, rfl⟩
  | none =>
      have isFragment := Compilation.spreadFragment?_of_fragment? found
      have sound := (ensures_fragmentWithin (height + 1) name workspace settled.sound trivial).1
      have same := agree.same workspace .empty settled Workspace.isSettled_empty trivial trivial
      rcases agree.left workspace settled trivial with ⟨afterDraft, reaches, isOf⟩
      have further := Workspace.Reaches.mono reaches
        fun other spreads => (Or.inr ⟨definition, isFragment, spreads⟩ :
          project.compilation.ReachedFrom name other)
      rw [runIn_fragmentWithin found isBuilt] at sound ⊢
      rcases ran : (fragmentDraft project (fragmentWithin project height) definition).runIn
        workspace with ⟨error | draft, later⟩
      · rw [ran] at same afterDraft further
        rw [fragmentOutcome, ← same]
        exact ⟨rfl, afterDraft, further⟩
      · rw [ran] at same afterDraft reaches further isOf sound
        have isUnbuilt : later.fragment? name = none :=
          (reaches.others name isAcyclic).trans isBuilt
        rw [fragmentOutcome, ← same]
        rcases isSettled_storeFragment afterDraft found isUnbuilt same.symm (isOf draft rfl)
          sound rfl with ⟨isSettled, stores⟩
        exact ⟨rfl, isSettled,
          (Workspace.settling project (project.compilation.ReachedFrom name)).trans further stores⟩

theorem rootType?_of_fragment
    (isFragment : project.compilation.spreadFragment? name = some definition) :
    project.rootType? (.fragment definition.name) = some definition.typeCondition := by
  rw [Project.rootType?, Compilation.name_of_spreadFragment? isFragment, isFragment,
    Option.map_some]

/-- Fragments are drafted alike if those that they spread are built alike. -/
theorem agree_fragmentDraft
    (isFragment : project.compilation.spreadFragment? name = some definition)
    (ofFragments : ∀ other ∈ Selection.spreadsOfAll definition.selections,
      Agree (Workspace.settling project (project.compilation.ReachedFrom other)) (fun _ => True)
        (fragmentWithin project height other) (Build.fragment project other) fun _ _ => True) :
    Agree (Workspace.settling project (project.compilation.Spreads · definition.selections))
      (fun _ => True) (fragmentDraft project (fragmentWithin project height) definition)
      (fragmentDraft project (Build.fragment project) definition)
      fun draft _ => ∀ occurrence ∈ draft.2,
        occurrence.place.entity.IsOf project (.fragment definition.name) := by
  refine agree_draft definition.name (rootType?_of_fragment isFragment)
    (ensures_fragmentWithin height) ensures_fragment ?_
  intro other isSpread
  refine (ofFragments other isSpread).mono ?_
  rintro further (rfl | ⟨condition, isOther, spreads⟩)
  · exact .written isSpread
  · exact .fragment isSpread isOther spreads

/-- Fragments are built alike everywhere, if enough of them can nest. -/
theorem agree_fragmentWithin (acyclic : project.compilation.IsAcyclic)
    (enough : ∀ fragment, project.compilation.spreadFragment? name = some fragment →
      (project.compilation.reached fragment.selections).card < height) :
    Agree (Workspace.settling project (project.compilation.ReachedFrom name)) (fun _ => True)
      (fragmentWithin project height name) (Build.fragment project name) fun _ _ => True := by
  cases found : project.compilation.fragment? name with
  | none =>
      rw [Build.fragment, fragmentWithin_of_undefined found, fragmentWithin_of_undefined found]
      exact .throw _
  | some pair =>
      rcases pair with ⟨document, definition⟩
      have isFragment := Compilation.spreadFragment?_of_fragment? found
      replace enough := enough definition isFragment
      -- The fragments that the definition spreads reach fewer fragments.
      induction rank : (project.compilation.reached definition.selections).card
          using Nat.strongRecOn generalizing name document definition height with
      | ind count ih =>
          subst rank
          have settles {height : Nat}
              (enough : (project.compilation.reached definition.selections).card < height)
              (workspace : Workspace) (settled : workspace.IsSettled project) :
              ((fragmentWithin project height name).runIn workspace).1
                  = fragmentOutcome project document definition
                ∧ ((fragmentWithin project height name).runIn workspace).2.IsSettled project
                ∧ Workspace.Reaches (project.compilation.ReachedFrom name) workspace
                  ((fragmentWithin project height name).runIn workspace).2 := by
            rcases height with _ | height
            · omega
            · refine settles_fragmentWithin found (acyclic name definition isFragment)
                (agree_fragmentDraft isFragment fun other isSpread => ?_) settled
              cases isOther : project.compilation.fragment? other with
              | none =>
                  rw [Build.fragment, fragmentWithin_of_undefined isOther,
                    fragmentWithin_of_undefined isOther]
                  exact .throw _
              | some pair =>
                  have isSpreadOf := Compilation.spreadFragment?_of_fragment? isOther
                  have fewer := acyclic.card_reached_lt isSpread isSpreadOf
                  exact ih _ fewer pair.1 pair.2 isOther isSpreadOf (by omega) rfl
          have ensures {height : Nat}
              (enough : (project.compilation.reached definition.selections).card < height) :
              Ensures (Workspace.settling project (project.compilation.ReachedFrom name))
                (fun _ => True) (fragmentWithin project height name) fun _ _ => True := by
            intro workspace settled _
            rcases settles enough workspace settled with ⟨-, later, reaches⟩
            exact ⟨later, reaches, fun _ _ => trivial⟩
          have whole := acyclic.card_reached_lt_length isFragment
          refine ⟨ensures enough, ensures whole, ?_⟩
          intro workspace twin settled twinSettled _ _
          exact (settles enough workspace settled).1.trans (settles whole twin twinSettled).1.symm

/-- A fragment is built alike everywhere. -/
theorem agree_fragment (acyclic : project.compilation.IsAcyclic) (name : Name) :
    Agree (Workspace.settling project (project.compilation.ReachedFrom name)) (fun _ => True)
      (Build.fragment project name) (Build.fragment project name) fun _ _ => True :=
  agree_fragmentWithin acyclic fun _ isFragment => acyclic.card_reached_lt_length isFragment

end Fragments

section Operations

variable {index : Nat} {document : DocumentFile} {definition first : Operation}
  {workspace : Workspace}

/-- What comes of building an operation in an empty workspace. -/
def operationOutcome (project : Project) (index : Nat) (document : DocumentFile)
    (definition : Operation) : Except BuildError OperationShape :=
  ((operationDraft project index definition).runIn .empty).1.map (definition.shape document)

/-- An operation that is not built yet is drafted, registered and stored. -/
theorem runIn_operationIn (isUnbuilt : workspace.operation? ⟨index, definition.name⟩ = none) :
    (operationIn project index document definition).runIn workspace =
      match (operationDraft project index definition).runIn workspace with
      | (.ok draft, later) => (.ok (definition.shape document draft),
          { later with
            entities := later.entities.registerAll draft.2
            operations := later.operations
              ++ [(⟨index, definition.name⟩, definition.shape document draft)] })
      | (.error error, later) => (.error error, later) := by
  simp only [operationIn, runIn_bind, runIn_get, isUnbuilt, operationDefinition, operationDraft,
    draft, register]
  rcases (root project (Build.fragment project) (.operation index definition.kind definition.name)
    "data" definition.rootType definition.selections).runIn workspace with ⟨_ | built, afterRoot⟩
  · rfl
  · dsimp only
    rcases (occurrences project built.value.place built.value.selections).runIn afterRoot with
      ⟨_ | found, afterPlacing⟩ <;> rfl

/-- Storing an operation that was found as in an empty workspace keeps a workspace settled. -/
theorem isSettled_storeOperation {draft : Built RootField × List Occurrence}
    (settled : workspace.IsSettled project)
    (isDocument : project.compilation.documents[index]? = some document)
    (isDefined : document.document.operation? definition.name = some definition)
    (isUnbuilt : workspace.operation? ⟨index, definition.name⟩ = none)
    (drafts : ((operationDraft project index definition).runIn .empty).1 = .ok draft)
    (isOf : ∀ occurrence ∈ draft.2, occurrence.place.entity.IsOf project
      (.operation index definition.kind definition.name))
    {later : Workspace} (sound : later.IsSound project)
    (isLater : later = { workspace with
      entities := workspace.entities.registerAll draft.2
      operations := workspace.operations
        ++ [(⟨index, definition.name⟩, definition.shape document draft)] }) :
    later.IsSettled project ∧ workspace.Keeps later := by
  have lookup (key : OperationKey) : later.operation? key
      = if key = ⟨index, definition.name⟩ then some (definition.shape document draft)
        else workspace.operation? key :=
    Workspace.operation?_of_stored (by rw [isLater]) isUnbuilt key
  subst isLater
  refine ⟨⟨sound, ?_, ?_, ?_, ?_⟩, fun _ _ => id, ?_, rfl⟩
  · exact fun location entity isEntity => settled.entity?_registerAll isOf isEntity
  · intro name shape isShape
    rcases settled.fragments name shape isShape with
      ⟨otherDocument, fragment, otherDraft, isFragment, otherDrafts, rfl, isFilled⟩
    exact ⟨otherDocument, fragment, otherDraft, isFragment, otherDrafts, rfl,
      isFilled.registerAll (by simp) isOf⟩
  · intro name steps isUnbuilt
    rw [Workspace.occurrences_registerAll_of_isOf (by simp) rfl isOf]
    exact settled.unbuilt name steps isUnbuilt
  · intro key shape isShape
    rw [lookup] at isShape
    split at isShape
    next same =>
      subst same
      exact ⟨document, definition, draft, isDocument, isDefined, drafts,
        (Option.some.inj isShape).symm, Workspace.isFilled_registerAll
          (fun steps => settled.sound.unbuilt _ _ _ steps isUnbuilt) isOf⟩
    next isOther =>
      rcases settled.operations key shape isShape with
        ⟨otherDocument, operation, otherDraft, isOtherDocument, isOperation, otherDrafts, rfl,
          isFilled⟩
      refine ⟨otherDocument, operation, otherDraft, isOtherDocument, isOperation, otherDrafts, rfl,
        isFilled.registerAll ?_ isOf⟩
      intro same
      rcases key with ⟨_, _⟩
      rw [DefinitionId.operation.injEq] at same
      exact isOther (OperationKey.mk.injEq .. ▸ ⟨same.1, same.2.2⟩)
  · intro key shape isShape
    rw [lookup, if_neg, isShape]
    rintro rfl
    rw [isUnbuilt] at isShape
    cases isShape

/-- What is found for an operation is the same everywhere. -/
theorem agree_operationDraft (acyclic : project.compilation.IsAcyclic)
    (isDocument : project.compilation.documents[index]? = some document)
    (isDefined : document.document.operation? definition.name = some definition) :
    Agree (Workspace.settling project (project.compilation.Spreads · definition.selections))
      (fun _ => True) (operationDraft project index definition)
      (operationDraft project index definition)
      fun draft _ => ∀ occurrence ∈ draft.2, occurrence.place.entity.IsOf project
        (.operation index definition.kind definition.name) := by
  have isRoot : project.rootType? (.operation index definition.kind definition.name)
      = some definition.rootType := by
    rw [Project.rootType?, isDocument, Option.bind_some, isDefined, Option.map_some]
  refine agree_draft "data" isRoot ensures_fragment ensures_fragment ?_
  intro name isSpread
  refine (agree_fragment acyclic name).mono ?_
  rintro further (rfl | ⟨condition, isFragment, spreads⟩)
  · exact .written isSpread
  · exact .fragment isSpread isFragment spreads

/-- Of operations of one name in a document, only the first is ever built. -/
theorem settles_operationIn (acyclic : project.compilation.IsAcyclic)
    (settled : workspace.IsSettled project)
    (isDocument : project.compilation.documents[index]? = some document)
    (isDefined : document.document.operation? definition.name = some first)
    (isFirst : workspace.operation? ⟨index, definition.name⟩ = none → definition = first) :
    ((operationIn project index document definition).runIn workspace).1
        = operationOutcome project index document first
      ∧ ((operationIn project index document definition).runIn workspace).2.IsSettled project
      ∧ workspace.Keeps ((operationIn project index document definition).runIn workspace).2
      ∧ ∀ shape, ((operationIn project index document definition).runIn workspace).1 = .ok shape →
        ((operationIn project index document definition).runIn workspace).2.operation?
          ⟨index, definition.name⟩ ≠ none := by
  cases isBuilt : workspace.operation? ⟨index, definition.name⟩ with
  | some shape =>
      rcases settled.operations _ shape isBuilt with
        ⟨_, _, draft, isOther, isOperation, drafts, rfl, -⟩
      rcases Option.some.inj (isDocument.symm.trans isOther) with rfl
      rcases Option.some.inj (isDefined.symm.trans isOperation) with rfl
      rw [runIn_operationIn_of_stored isBuilt, operationOutcome, drafts]
      refine ⟨rfl, settled, (Workspace.answering project).refl _, ?_⟩
      intro _ _
      rw [isBuilt]
      exact Option.some_ne_none _
  -- Nothing is stored under the operation's key, so that it is drafted as in an empty workspace.
  | none =>
      rcases isFirst isBuilt with rfl
      have isOperation := List.mem_of_find?_eq_some isDefined
      have sound := (isSound_operationIn settled.sound isDocument isOperation).1
      have agree := agree_operationDraft acyclic isDocument isDefined
      have same := agree.same workspace .empty settled Workspace.isSettled_empty trivial trivial
      rcases agree.left workspace settled trivial with ⟨afterDraft, reaches, isOf⟩
      rw [runIn_operationIn isBuilt] at sound ⊢
      rcases ran : (operationDraft project index definition).runIn workspace
        with ⟨error | draft, later⟩
      · rw [ran] at same afterDraft reaches
        rw [operationOutcome, ← same]
        exact ⟨rfl, afterDraft, Workspace.Reaches.keeps reaches, fun _ same => by cases same⟩
      · rw [ran] at same afterDraft reaches isOf sound
        have isUnbuilt : later.operation? ⟨index, definition.name⟩ = none := by
          rw [Workspace.operation?, reaches.operations]
          exact isBuilt
        rw [operationOutcome, ← same]
        rcases isSettled_storeOperation afterDraft isDocument isDefined isUnbuilt same.symm
          (isOf draft rfl) sound rfl with ⟨isSettled, stores⟩
        refine ⟨rfl, isSettled, (Workspace.answering project).trans
          (Workspace.Reaches.keeps reaches) stores, fun shape _ => ?_⟩
        simp only [Workspace.operation?, List.lookup_append] at isUnbuilt ⊢
        simp [isUnbuilt]

/-- Whether operations of a document are built. -/
def AreOperationsBuilt (index : Nat) (operations : List Operation) (workspace : Workspace) : Prop :=
  ∀ operation ∈ operations, workspace.operation? ⟨index, operation.name⟩ ≠ none

theorem exists_first_of_name {before after : List Operation}
    (split : document.document.operations = before ++ definition :: after) :
    ∃ first, document.document.operation? definition.name = some first := by
  rcases isDefined : document.document.operation? definition.name with _ | first
  · have none := List.find?_eq_none.mp isDefined definition (by simp [split])
    simp at none
  · exact ⟨first, rfl⟩

namespace AreOperationsBuilt

variable {before after : List Operation} (areBuilt : AreOperationsBuilt index before workspace)

include areBuilt

/-- If all operations before one are built, but none of its name, it is the first of its name. -/
theorem eq_first (split : document.document.operations = before ++ definition :: after)
    (isDefined : document.document.operation? definition.name = some first)
    (isUnbuilt : workspace.operation? ⟨index, definition.name⟩ = none) : definition = first := by
  rw [Document.operation?, split, List.find?_append] at isDefined
  cases isEarlier : before.find? (·.name == definition.name) with
  | none => simpa [isEarlier] using isDefined
  | some earlier =>
      have sameName : earlier.name = definition.name := by
        simpa using List.find?_some isEarlier
      have isStored := areBuilt earlier (List.mem_of_find?_eq_some isEarlier)
      rw [sameName] at isStored
      exact absurd isUnbuilt isStored

theorem append {later : Workspace}
    (keeps : ∀ key shape, workspace.operation? key = some shape →
      later.operation? key = some shape)
    (isBuilt : later.operation? ⟨index, definition.name⟩ ≠ none) :
    AreOperationsBuilt index (before ++ [definition]) later := by
  refine List.forall_mem_append.mpr ⟨?_, ?_⟩
  · intro operation mem
    rcases Option.ne_none_iff_exists'.mp (areBuilt operation mem) with ⟨known, found⟩
    rw [keeps _ known found]
    exact Option.some_ne_none _
  · rw [List.forall_mem_singleton]
    exact isBuilt

end AreOperationsBuilt

/-- An operation is built alike everywhere where those before it in its document are built. -/
theorem agree_operationIn (acyclic : project.compilation.IsAcyclic)
    (isDocument : project.compilation.documents[index]? = some document)
    {before after : List Operation}
    (split : document.document.operations = before ++ definition :: after) :
    Agree (Workspace.answering project) (AreOperationsBuilt index before)
      (operationIn project index document definition)
      (operationIn project index document definition)
      fun _ workspace => AreOperationsBuilt index (before ++ [definition]) workspace := by
  rcases exists_first_of_name split with ⟨first, isDefined⟩
  have settles (workspace : Workspace) (settled : workspace.IsSettled project)
      (areBuilt : AreOperationsBuilt index before workspace) :=
    settles_operationIn acyclic settled isDocument isDefined (areBuilt.eq_first split isDefined)
  have ensures : Ensures (Workspace.answering project) (AreOperationsBuilt index before)
      (operationIn project index document definition)
      fun _ workspace => AreOperationsBuilt index (before ++ [definition]) workspace := by
    intro workspace settled areBuilt
    rcases settles workspace settled areBuilt with ⟨-, later, keeps, isBuilt⟩
    exact ⟨later, keeps, fun shape isShape => areBuilt.append keeps.operations
      (isBuilt shape isShape)⟩
  refine ⟨ensures, ensures, ?_⟩
  intro workspace twin settled twinSettled areBuilt twinBuilt
  exact (settles workspace settled areBuilt).1.trans (settles twin twinSettled twinBuilt).1.symm

/-- The operations of a document are built alike everywhere. -/
theorem agree_operations (acyclic : project.compilation.IsAcyclic)
    (isDocument : project.compilation.documents[index]? = some document)
    (before rest : List Operation) (split : document.document.operations = before ++ rest) :
    Agree (Workspace.answering project) (AreOperationsBuilt index before)
      (rest.mapM (operationIn project index document))
      (rest.mapM (operationIn project index document)) fun _ _ => True := by
  induction rest generalizing before with
  | nil =>
      rw [List.mapM_nil]
      exact Agree.pure fun _ _ => trivial
  | cons definition rest ih =>
      rw [List.mapM_cons]
      apply Agree.bind (agree_operationIn acyclic isDocument split)
      intro shape
      apply Agree.bind (ih (before ++ [definition]) (by simp [split]))
      intro shapes
      exact Agree.pure fun _ _ => trivial

/-- Asking for an operation gives the same everywhere. -/
theorem agree_operation (acyclic : project.compilation.IsAcyclic) (name : Option Name) :
    Agree (Workspace.answering project) (fun _ => True) (operation project name)
      (operation project name) fun _ _ => True := by
  simp only [operation]
  split
  next => exact .throw _
  next index document definition rest candidates =>
    have mem : (index, document, definition) ∈ (index, document, definition) :: rest :=
      List.mem_cons_self
    rw [← candidates] at mem
    simp only [List.mem_filterMap, Option.map_eq_some_iff, Prod.mk.injEq, Prod.exists] at mem
    rcases mem with ⟨file, position, isFile, found, isFound, rfl, rfl, rfl⟩
    have isDocument := List.mem_zipIdx_iff_getElem?.mp isFile
    have isDefined := isFound
    rw [← show found.name = name by simpa using List.find?_some isFound] at isDefined
    have settles (workspace : Workspace) (settled : workspace.IsSettled project) :=
      settles_operationIn acyclic settled isDocument isDefined fun _ => rfl
    have ensures : Ensures (Workspace.answering project) (fun _ => True)
        (operationIn project position file found) fun _ _ => True := by
      intro workspace settled _
      rcases settles workspace settled with ⟨-, later, keeps, -⟩
      exact ⟨later, keeps, fun _ _ => trivial⟩
    refine ⟨ensures, ensures, ?_⟩
    intro workspace twin settled twinSettled _ _
    exact (settles workspace settled).1.trans (settles twin twinSettled).1.symm

end Operations

theorem agree_all (acyclic : project.compilation.IsAcyclic) :
    Agree (Workspace.answering project) (fun _ => True) (all project) (all project)
      fun _ _ => True := by
  simp only [all]
  apply Agree.bind (.forEach ?_)
  · intro operations
    apply Agree.bind (.forEach ?_)
    · intro fragments
      exact Agree.pure fun _ _ => trivial
    · intro member _
      exact (agree_fragment acyclic member.2.name).answering
  · rintro ⟨document, index⟩ mem
    exact (agree_operations acyclic (List.mem_zipIdx_iff_getElem?.mp mem) [] _ rfl).strengthen
      fun _ _ operation isOperation => by cases isOperation

end Build

end ResponseShape
