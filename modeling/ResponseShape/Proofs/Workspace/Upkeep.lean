import ResponseShape.Proofs.Workspace.Alignment
import ResponseShape.Proofs.Workspace.Histories

/-!
# Calls keep workspaces aligned

What is found for a definition is registered once it is complete, and only for a definition that was
not built when the build began. So whatever is asked for keeps a workspace aligned, leaves alone
what is registered for definitions that are built, and reports no broken invariant
(`Build.aligns_fragment`, `Build.aligns_operation`, `Build.aligns_all`). Of operations that share a
name in a document only the first is built, and its type is the one that their name stands for.
-/

namespace ResponseShape

namespace Workspace

variable {project : Project} {workspace later final : Workspace} {found : List Occurrence}

/-- Registering what was found for a definition keeps a workspace aligned, if it is sound then and
all that is built with it is aligned, too. -/
theorem IsAligned.registerAll {definition : DefinitionId} {type : Name}
    {selections : List Selection} {root : RootField} (aligned : workspace.IsAligned project)
    (sound : final.IsSound project)
    (isFinal : final.entities = workspace.entities.registerAll found)
    (fragments : ∀ name shape, workspace.fragment? name = some shape →
      final.fragment? name = some shape)
    (built : root.IsBuilt project workspace.fragment? definition type selections found)
    (ofFound : ∀ occurrence ∈ found, ∀ place ∈ occurrence.places, place.IsAligned project)
    (roots : ∀ root, final.HasRoot root → workspace.HasRoot root
      ∨ ∀ place ∈ root.places, place.IsAligned project) : final.IsAligned project := by
  have cases (location : Location) (occurrence : Occurrence)
      (mem : occurrence ∈ final.entities.occurrences location) :
      occurrence ∈ workspace.entities.occurrences location ∨ occurrence ∈ found := by
    rw [isFinal, EntityTable.occurrences_registerAll] at mem
    exact (List.mem_append.mp mem).imp_right fun isNew => (List.mem_filter.mp isNew).1
  have keeps (location : Location) (occurrence : Occurrence)
      (mem : occurrence ∈ workspace.entities.occurrences location) :
      occurrence ∈ final.entities.occurrences location := by
    rw [isFinal, EntityTable.occurrences_registerAll]
    exact List.mem_append_left _ mem
  have holds : final.HoldsAll found := by
    intro occurrence mem
    rw [isFinal]
    exact (Build.holdsAll_registerAll workspace found).1 occurrence mem
  refine ⟨sound, ?_, ?_, ?_, fun root hasRoot => (roots root hasRoot).elim (aligned.roots root) id⟩
  · intro location entity isEntity
    rw [isFinal] at isEntity
    rcases EntityTable.entity?_registerAll isEntity with isOld | ⟨occurrence, mem, rfl, rfl⟩
    · exact aligned.entities location entity isOld
    · exact (ofFound occurrence mem _ (SelectionTree.self_mem_places _ _)).entity_eq
  · intro location occurrence mem
    rcases cases location occurrence mem with isOld | isNew
    · exact (aligned.found location occurrence isOld).mono fragments keeps
    · exact ⟨definition, type, selections, root, found, built.mono fragments, holds, isNew⟩
  · intro location occurrence mem
    rcases cases location occurrence mem with isOld | isNew
    · exact aligned.registered location occurrence isOld
    · exact ofFound occurrence isNew

/-- Registering what was found for a definition that is not built preserves what is. -/
theorem Preserves.registerAll {definition : DefinitionId} (preserves : workspace.Preserves later)
    (isFinal : final.entities = later.entities.registerAll found)
    (fragments : ∀ name shape, later.fragment? name = some shape →
      final.fragment? name = some shape)
    (operations : ∀ key shape, later.operation? key = some shape →
      final.operation? key = some shape)
    (isNew : ∀ root, workspace.Offers root → root.definition ≠ definition)
    (isOf : ∀ occurrence ∈ found, occurrence.place.entity.location.definition = definition) :
    workspace.Preserves final where
  fragments name shape isShape := fragments name shape (preserves.fragments name shape isShape)
  operations key shape isShape := operations key shape (preserves.operations key shape isShape)
  entities location entity isEntity := by
    rw [isFinal]
    exact EntityTable.entity?_registerAll_of_some (preserves.entities location entity isEntity)
  occurrences root location offers isHere := by
    rw [isFinal, EntityTable.occurrences_registerAll,
      preserves.occurrences root location offers isHere, List.append_right_eq_self,
      List.filter_eq_nil_iff]
    intro occurrence mem same
    rw [beq_iff_eq] at same
    exact isNew root offers (by rw [← isHere, ← same, isOf occurrence mem])

theorem IsAligned.withCache (aligned : workspace.IsAligned project) (cache : ViewCache) :
    IsAligned project { workspace with cache } :=
  ⟨aligned.sound.withCache cache, aligned.entities, aligned.found, aligned.registered,
    aligned.roots⟩

theorem Preserves.withCache (workspace : Workspace) (cache : ViewCache) :
    workspace.Preserves { workspace with cache } :=
  ⟨fun _ _ => id, fun _ _ => id, fun _ _ => id, fun _ _ _ _ => rfl⟩

end Workspace

namespace Build

variable {project : Project}

section Fragments

variable {name : Name} {document : DocumentFile} {definition : Fragment} {workspace : Workspace}

/-- Storing what was found for a fragment that was not built before. -/
theorem isAligned_storeFragment {later : Workspace} {draft : Built RootField × List Occurrence}
    (aligned : workspace.IsAligned project)
    (isUnbuilt : workspace.fragment? definition.name = none)
    (laterAligned : later.IsAligned project) (preserves : workspace.Preserves later)
    (ofRoot : ∀ place ∈ draft.1.value.places, place.IsAligned project)
    (ofFound : ∀ occurrence ∈ draft.2, ∀ place ∈ occurrence.places, place.IsAligned project)
    (built : draft.1.value.IsBuilt project later.fragment? (.fragment definition.name)
      definition.typeCondition definition.selections draft.2)
    {final : Workspace} (sound : final.IsSound project)
    (isFinal : final = { later with
      entities := later.entities.registerAll draft.2
      fragments := later.fragments ++ [definition.shape document draft] }) :
    final.IsAligned project ∧ workspace.Preserves final := by
  have fragments (other : Name) (shape : FragmentShape)
      (isShape : later.fragment? other = some shape) : final.fragment? other = some shape := by
    rw [isFinal]
    simp only [Workspace.fragment?] at isShape ⊢
    rw [List.find?_append, isShape, Option.some_or]
  subst isFinal
  refine ⟨laterAligned.registerAll sound rfl fragments built ofFound ?_,
    preserves.registerAll rfl fragments (fun _ _ => id) ?_
      fun occurrence mem => (built.rooted occurrence mem).definition⟩
  · rintro root (isOperation | ⟨shape, mem, rfl⟩)
    · exact Or.inl (Or.inl isOperation)
    · rcases List.mem_append.mp mem with isOld | isNew
      · exact Or.inl (Or.inr ⟨shape, isOld, rfl⟩)
      · rw [List.mem_singleton.mp isNew]
        exact Or.inr ofRoot
  -- what was built of this definition would have been found when the build began
  · intro root offers same
    rcases aligned.sound.definition_of_offers offers with
      ⟨_, _, _, -, -, isOther⟩ | ⟨other, shape, isShape, -, isOther⟩
    · rw [same] at isOther
      cases isOther
    · rw [same, DefinitionId.fragment.injEq] at isOther
      rw [← isOther, isUnbuilt] at isShape
      cases isShape

/-- Fragments are built within aligned workspaces, however deep they nest. -/
theorem aligns_fragmentWithin (height : Nat) (name : Name) :
    Aligns project (fragmentWithin project height name) fun _ => True := by
  induction height generalizing name with
  | zero =>
      unfold fragmentWithin
      split
      next => exact .throw rfl
      next =>
        refine Abides.bind .get fun workspace _ => ?_
        split
        next => exact .pure trivial
        next => exact .throw rfl
  | succ height ih =>
      cases found : project.compilation.fragment? name with
      | none =>
          rw [fragmentWithin_of_undefined found]
          exact .throw rfl
      | some pair =>
          rcases pair with ⟨document, definition⟩
          intro workspace aligned
          cases isBuilt : workspace.fragment? name with
          | some shape =>
              rw [runIn_fragmentWithin_of_stored found isBuilt]
              exact ⟨aligned, (Workspace.aligning project).refl workspace, trivial⟩
          | none =>
              have sameName : definition.name = name := Compilation.name_of_fragment? found
              have isFragment := Compilation.spreadFragment?_of_fragment? found
              have sound := (ensures_fragmentWithin (height + 1) name workspace aligned.sound
                trivial).1
              have drafts : Aligns project
                  (fragmentDraft project (fragmentWithin project height) definition) _ :=
                aligns_draft ih (rootType?_of_fragment isFragment) _ _
              have builds : Ensures (Workspace.law project) (fun _ => True)
                  (fragmentDraft project (fragmentWithin project height) definition) _ :=
                ensures_draft (ensures_fragmentWithin height) _ _ _ _
              have ofDraft := drafts workspace aligned
              have ofBuilt := builds workspace aligned.sound trivial
              rw [runIn_fragmentWithin found isBuilt] at sound ⊢
              rcases ran : (fragmentDraft project (fragmentWithin project height)
                definition).runIn workspace with ⟨error | draft, later⟩
              · rw [ran] at ofDraft
                exact ofDraft
              · rw [ran] at ofDraft ofBuilt sound
                rcases ofDraft with ⟨laterAligned, ⟨preserves, cache⟩, ofRoot, ofFound⟩
                rcases isAligned_storeFragment aligned (by rw [sameName, isBuilt]) laterAligned
                  preserves ofRoot ofFound (ofBuilt.2.2 draft rfl) sound rfl
                  with ⟨isAligned, stores⟩
                exact ⟨isAligned, ⟨stores, cache⟩, trivial⟩

theorem aligns_fragment (name : Name) :
    Aligns project (Build.fragment project name) fun _ => True :=
  aligns_fragmentWithin _ name

end Fragments

section Operations

variable {index : Nat} {document : DocumentFile} {definition first : Operation}
  {workspace : Workspace}

/-- Storing what was found for an operation that was not built before. -/
theorem isAligned_storeOperation {later : Workspace} {draft : Built RootField × List Occurrence}
    (aligned : workspace.IsAligned project)
    (isUnbuilt : workspace.operation? ⟨index, definition.name⟩ = none)
    (laterAligned : later.IsAligned project) (preserves : workspace.Preserves later)
    (ofRoot : ∀ place ∈ draft.1.value.places, place.IsAligned project)
    (ofFound : ∀ occurrence ∈ draft.2, ∀ place ∈ occurrence.places, place.IsAligned project)
    (built : draft.1.value.IsBuilt project later.fragment?
      (.operation index definition.kind definition.name) definition.rootType definition.selections
      draft.2)
    {final : Workspace} (sound : final.IsSound project)
    (isFinal : final = { later with
      entities := later.entities.registerAll draft.2
      operations := later.operations
        ++ [(⟨index, definition.name⟩, definition.shape document draft)] }) :
    final.IsAligned project ∧ workspace.Preserves final := by
  subst isFinal
  refine ⟨laterAligned.registerAll sound rfl (fun _ _ => id) built ofFound ?_,
    preserves.registerAll rfl (fun _ _ => id) ?_ ?_
      fun occurrence mem => (built.rooted occurrence mem).definition⟩
  · rintro root (⟨key, shape, mem, rfl⟩ | isFragment)
    · rcases List.mem_append.mp mem with isOld | isNew
      · exact Or.inl (Or.inl ⟨key, shape, isOld, rfl⟩)
      · rw [(Prod.mk.inj (List.mem_singleton.mp isNew)).2]
        exact Or.inr ofRoot
    · exact Or.inl (Or.inr isFragment)
  · intro key shape isShape
    simp only [Workspace.operation?] at isShape ⊢
    rw [List.lookup_append, isShape, Option.some_or]
  · intro root offers same
    rcases aligned.sound.definition_of_offers offers with
      ⟨key, _, shape, isShape, -, isOther⟩ | ⟨_, _, -, -, isOther⟩
    · rw [same, DefinitionId.operation.injEq] at isOther
      rcases key with ⟨_, _⟩
      rcases isOther with ⟨rfl, -, rfl⟩
      rw [isUnbuilt] at isShape
      cases isShape
    · rw [same] at isOther
      cases isOther

/-- An operation is built within aligned workspaces, if it is the first of its name in its document
or the first is built already. -/
theorem aligns_operationIn
    (isDocument : project.compilation.documents[index]? = some document)
    (isDefined : document.document.operation? definition.name = some first)
    (aligned : workspace.IsAligned project)
    (isFirst : workspace.operation? ⟨index, definition.name⟩ = none → definition = first) :
    ((operationIn project index document definition).runIn workspace).2.IsAligned project
      ∧ (Workspace.aligning project).grows workspace
        ((operationIn project index document definition).runIn workspace).2
      ∧ Yields (fun error => error.isInternal = false)
        (fun _ => ((operationIn project index document definition).runIn workspace).2.operation?
          ⟨index, definition.name⟩ ≠ none)
        ((operationIn project index document definition).runIn workspace).1 := by
  cases isBuilt : workspace.operation? ⟨index, definition.name⟩ with
  | some shape =>
      rw [runIn_operationIn_of_stored isBuilt]
      refine ⟨aligned, (Workspace.aligning project).refl workspace, ?_⟩
      rw [isBuilt]
      exact Option.some_ne_none _
  | none =>
      rcases isFirst isBuilt with rfl
      have isRoot : project.rootType? (.operation index definition.kind definition.name)
          = some definition.rootType := by
        rw [Project.rootType?, isDocument, Option.bind_some, isDefined, Option.map_some]
      have sound := (isSound_operationIn aligned.sound isDocument
        (List.mem_of_find?_eq_some isDefined)).1
      have drafts : Aligns project (operationDraft project index definition) _ :=
        aligns_draft aligns_fragment isRoot _ _
      have builds : Ensures (Workspace.law project) (fun _ => True)
          (operationDraft project index definition) _ :=
        ensures_draft ensures_fragment _ _ _ _
      have ofDraft := drafts workspace aligned
      have ofBuilt := builds workspace aligned.sound trivial
      rw [runIn_operationIn isBuilt] at sound ⊢
      rcases ran : (operationDraft project index definition).runIn workspace
        with ⟨error | draft, later⟩
      · rw [ran] at ofDraft
        exact ofDraft
      · rw [ran] at ofDraft ofBuilt sound
        rcases ofDraft with ⟨laterAligned, ⟨preserves, cache⟩, ofRoot, ofFound⟩
        rcases isAligned_storeOperation aligned isBuilt laterAligned preserves ofRoot ofFound
          (ofBuilt.2.2 draft rfl) sound rfl with ⟨isAligned, stores⟩
        refine ⟨isAligned, ⟨stores, cache⟩, ?_⟩
        simp only [Yields, Workspace.operation?, List.lookup_append]
        cases later.operations.lookup ⟨index, definition.name⟩ <;> simp

theorem aligns_operations
    (isDocument : project.compilation.documents[index]? = some document)
    (before rest : List Operation) (split : document.document.operations = before ++ rest)
    (aligned : workspace.IsAligned project) (areBuilt : AreOperationsBuilt index before workspace) :
    ((rest.mapM (operationIn project index document)).runIn workspace).2.IsAligned project
      ∧ (Workspace.aligning project).grows workspace
        ((rest.mapM (operationIn project index document)).runIn workspace).2
      ∧ Yields (fun error => error.isInternal = false) (fun _ => True)
        ((rest.mapM (operationIn project index document)).runIn workspace).1 := by
  induction rest generalizing before workspace with
  | nil => exact ⟨aligned, (Workspace.aligning project).refl workspace, trivial⟩
  | cons definition rest ih =>
      rcases exists_first_of_name split with ⟨first, isDefined⟩
      have once := aligns_operationIn isDocument isDefined aligned
        (areBuilt.eq_first split isDefined)
      rw [List.mapM_cons]
      simp only [runIn_bind, runIn_pure]
      rcases ran : (operationIn project index document definition).runIn workspace with
        ⟨error | shape, between⟩
      · rw [ran] at once
        exact once
      · rw [ran] at once
        rcases once with ⟨betweenAligned, grows, isBuilt⟩
        have others := ih (before ++ [definition]) (by simp [split]) betweenAligned
          (areBuilt.append grows.1.operations isBuilt)
        dsimp only at others ⊢
        rcases again : (rest.mapM (operationIn project index document)).runIn between with
          ⟨error | shapes, last⟩
        all_goals
          rw [again] at others
          exact ⟨others.1, (Workspace.aligning project).trans grows others.2.1, others.2.2⟩

theorem aligns_operation (name : Option Name) :
    Aligns project (operation project name) fun _ => True := by
  simp only [operation]
  split
  next => exact .throw rfl
  next index document definition rest candidates =>
    have mem : (index, document, definition) ∈ (index, document, definition) :: rest :=
      List.mem_cons_self
    rw [← candidates] at mem
    simp only [List.mem_filterMap, Option.map_eq_some_iff, Prod.mk.injEq, Prod.exists] at mem
    rcases mem with ⟨file, position, isFile, found, isFound, rfl, rfl, rfl⟩
    have isDefined := isFound
    rw [← show found.name = name by simpa using List.find?_some isFound] at isDefined
    intro workspace aligned
    rcases aligns_operationIn (List.mem_zipIdx_iff_getElem?.mp isFile) isDefined aligned
      fun _ => rfl with ⟨later, grows, yields⟩
    exact ⟨later, grows, yields.mono (fun _ => id) fun _ _ => trivial⟩

end Operations

theorem aligns_all : Aligns project (all project) fun _ => True := by
  simp only [all]
  refine Abides.bind (.forEach ?_) fun operations _ => ?_
  · rintro ⟨document, index⟩ mem workspace aligned
    exact aligns_operations (List.mem_zipIdx_iff_getElem?.mp mem) [] _ rfl aligned
      fun operation isOperation => by cases isOperation
  · exact Abides.bind (.forEach fun member _ => aligns_fragment member.2.name) fun _ _ =>
      .pure trivial

end Build

end ResponseShape
