import ResponseShape.Proofs.Workspace.Invariant
import ResponseShape.Proofs.Workspace.Lookups

/-!
# Building in sound workspaces

Building a definition keeps a workspace sound, whether it succeeds or not. If it does, the shape it
gives is as the invariant says (`Build.ensures_fragment`, `Build.isSound_operationIn`).
-/

namespace ResponseShape

variable {project : Project} {definition : DefinitionId} {type : Name} {selections : List Selection}
  {root : RootField} {workspace : Workspace} {occurrences : List Occurrence}

/-- The occurrences of a spread fragment are sound, and within the definition that spreads it. -/
theorem Occurrence.IsPlacement.isSound {spread : Spread} {inside outside : Occurrence}
    (reachable : Scope.Reachable project.schema spread.place.scope)
    (rooted : spread.place.IsRooted definition type) {inner : Name} {innerId : DefinitionId}
    (sound : inside.IsSound project) (insideRooted : inside.place.IsRooted innerId inner)
    (placement : inside.IsPlacement project.schema spread inner outside) :
    outside.IsSound project ∧ outside.place.IsRooted definition type := by
  rcases placement.place with ⟨scope, spreads, isPlace⟩
  rcases insideRooted.type with ⟨rest, path⟩
  rcases Scope.prefix_spreadInto? reachable spreads with ⟨ofScope, further⟩
  constructor
  · rcases sound.depicts with ⟨levels, written, selections, depicts, ofWritten, known⟩
    rw [← placement.selections] at depicts
    cases enclosing : inside.place.enclosing with
    | nil =>
        have isRoot : inside.place.rootScope = inside.place.scope := by
          simp [Place.rootScope, enclosing]
        have isScope : outside.place.scope = scope := by
          rw [isPlace]
          simp only [Build.placeAt, enclosing]
        rw [isRoot] at spreads path
        refine ⟨isScope ▸ ofScope, levels, written, selections, depicts, ofWritten, ?_⟩
        rw [isScope]
        exact fun test isKnown => Scope.isKnownIn_spreadInto? reachable sound.scope path spreads
          test (known test isKnown)
    | cons first nested =>
        have isScope : outside.place.scope = inside.place.scope := by
          rw [isPlace]
          simp only [Build.placeAt, enclosing]
        refine ⟨isScope ▸ sound.scope, levels, written, selections, depicts, ofWritten, ?_⟩
        rw [isScope]
        exact known
  · constructor
    · rw [placement.location]
      exact rooted.definition
    · rw [isPlace, Build.rootScope_placeAt]
      exact Place.exists_path_of_further rooted.type further

/-- What occurs in a definition is sound, and within the definition. -/
theorem RootField.IsDepiction.isBuilt (sound : workspace.IsSound project)
    (depiction : root.IsDepiction project definition type selections)
    (occurs : OccurrencesOf project workspace.fragment? root.writtenSets occurrences) :
    root.IsBuilt project workspace.fragment? definition type selections occurrences := by
  have all (occurrence : Occurrence) (mem : occurrence ∈ occurrences) :
      occurrence.IsSound project ∧ occurrence.place.IsRooted definition type := by
    rcases occurs.origin occurrence mem with ⟨member, memberMem, origin⟩
    rcases depiction.forall_writtenSets member memberMem with
      ⟨⟨levels, written, depicts⟩, reachable, rooted⟩
    rcases origin with rfl | ⟨spread, spreadMem, shape, fragment, isShape, isFragment, inside,
      insideMem, placement⟩
    · exact ⟨⟨reachable, levels, _, written, depicts, reachable, fun _ known => known⟩, rooted⟩
    · have atPlace : spread.place = member.1 := by
        rw [(depicts.of_mem_spreads spreadMem).1]
        rfl
      rcases sound.isBuilt_of_fragment? isShape with
        ⟨before, after, -, sameName, document, other, isOther, built⟩
      rw [sameName] at isOther
      rcases Option.some.inj (isFragment.symm.trans
        (Compilation.spreadFragment?_of_fragment? isOther)) with rfl
      rw [← atPlace] at reachable rooted
      exact placement.isSound reachable rooted (built.sound inside insideMem)
        (built.rooted inside insideMem)
  exact ⟨depiction, occurs, fun o mem => (all o mem).1, fun o mem => (all o mem).2⟩

namespace Build

theorem ensures_entityAt (location : Location) (typePath : List Name) :
    Ensures (Workspace.law project) (fun _ => True) (entityAt location typePath)
      fun entity _ => entity.location = location := by
  intro workspace sound _
  have interned : (workspace.entities.intern location typePath).1.location = location
      ∧ (workspace.entities.intern location typePath).2.IsSound := sound.entities.intern
  rcases interned with ⟨isLocated, ofEntities⟩
  have run : (entityAt location typePath).runIn workspace
      = (.ok (workspace.entities.intern location typePath).1,
          { workspace with entities := (workspace.entities.intern location typePath).2 }) := rfl
  rw [run]
  refine ⟨⟨ofEntities, ?_, sound.fragments, ?_, ?_, ?_, ?_⟩, ⟨List.prefix_rfl, rfl, ?_⟩, ?_⟩
  · intro other occurrence mem
    rw [EntityTable.occurrences_intern] at mem
    exact sound.registered other occurrence mem
  · intro key shape mem
    rcases sound.operations key shape mem with
      ⟨document, definition, occurrences, isDocument, mem, sameName, built, registered⟩
    refine ⟨document, definition, occurrences, isDocument, mem, sameName, built, ?_⟩
    intro other ofOperation
    rw [EntityTable.occurrences_intern]
    exact registered other ofOperation
  · intro index kind name steps isUnbuilt
    rw [EntityTable.occurrences_intern]
    exact sound.unbuilt index kind name steps isUnbuilt
  · intro shape mem occurrence occurrenceMem
    rw [EntityTable.occurrences_intern]
    exact sound.stored shape mem occurrence occurrenceMem
  · intro name steps occurrence mem
    rw [EntityTable.occurrences_intern] at mem
    refine (sound.attempts name steps occurrence mem).mono (fun _ _ found => found) ?_
    intro other found foundMem
    rw [EntityTable.occurrences_intern]
    exact foundMem
  · intro other _
    exact EntityTable.occurrences_intern
  · intro value same
    rcases Except.ok.inj same with rfl
    exact isLocated

section Root

variable {fragment : Name → Build FragmentShape}
  (ofFragment : ∀ name, Ensures (Workspace.law project) (fun _ => True) (fragment name)
    fun _ workspace => ∃ shape, workspace.fragment? name = some shape)

include ofFragment

/-- The root field of a definition depicts its selections, and all that it spreads is built. -/
theorem ensures_root (definition : DefinitionId) (name type : Name) (written : List Selection) :
    Ensures (Workspace.law project) (fun _ => True)
      (Build.root project fragment definition name type written)
      fun built workspace => built.value.IsDepiction project definition type written
        ∧ AreResolved project workspace.fragment? built.value.writtenSets := by
  simp only [Build.root]
  apply Ensures.bind (ensures_entityAt _ _)
  intro entity
  apply Ensures.given
  intro isLocated
  apply Ensures.bind (.ofExcept _)
  intro scope
  apply Ensures.given
  intro isRoot
  apply Ensures.bind (ensures_selections ?_ ensures_entityAt ofFragment _ _ _ _)
  · intro built
    apply Ensures.pure
    rintro workspace ⟨depicts, grounded⟩
    have depiction : RootField.IsDepiction project definition type written
        ⟨RootField.summaryOf name type, ⟨entity, [], scope⟩, built.value⟩ :=
      ⟨isLocated, rfl, isRoot, ⟨_, depicts⟩, grounded.located⟩
    refine ⟨depiction, ?_⟩
    intro member mem spread spreadMem
    refine ⟨grounded.known member mem spread spreadMem, ?_⟩
    rcases depiction.forall_writtenSets member mem with ⟨⟨_, _, depicts⟩, reachable, -⟩
    exact (depicts.of_mem_spreads spreadMem).2
  · rintro name first second grows ⟨shape, found⟩
    exact ⟨shape, grows.fragment?_eq_some found⟩

end Root

/-- What occurs in a definition, once all that it spreads is built. -/
theorem ensures_isBuilt
    (depiction : root.IsDepiction project definition type selections) :
    Ensures (Workspace.law project)
      (fun workspace => AreResolved project workspace.fragment? root.writtenSets)
      (Build.occurrences project root.place root.selections)
      fun found workspace =>
        root.IsBuilt project workspace.fragment? definition type selections found := by
  intro workspace sound resolved
  have locates : LocatesEntities (Workspace.law project) :=
    ⟨ensures_entityAt, fun grows name shape => Workspace.Grows.fragment?_eq_some grows⟩
  rcases ensures_occurrences locates root.place root.selections workspace sound resolved with
    ⟨later, grows, ofFound⟩
  exact ⟨later, grows, fun found same => depiction.isBuilt later (ofFound found same)⟩

theorem holdsAll_registerAll (workspace : Workspace) (occurrences : List Occurrence) :
    Workspace.HoldsAll { workspace with entities := workspace.entities.registerAll occurrences }
        occurrences
      ∧ ∀ location, ∀ occurrence ∈ workspace.entities.occurrences location,
        occurrence ∈ (workspace.entities.registerAll occurrences).occurrences location := by
  constructor
  · intro occurrence mem
    rw [EntityTable.occurrences_registerAll]
    exact List.mem_append_right _ (List.mem_filter.mpr ⟨mem, beq_self_eq_true _⟩)
  · intro location occurrence mem
    rw [EntityTable.occurrences_registerAll]
    exact List.mem_append_left _ mem

/-- Registering what occurs in a fragment leaves operations as they are. -/
theorem isSound_registerAll {name : Name} {fragment : Fragment}
    (sound : workspace.IsSound project)
    (isFragment : project.compilation.spreadFragment? name = some fragment)
    (built : root.IsBuilt project workspace.fragment? (.fragment name) fragment.typeCondition
      fragment.selections occurrences) :
    Workspace.IsSound project
        { workspace with entities := workspace.entities.registerAll occurrences }
      ∧ workspace.Grows
        { workspace with entities := workspace.entities.registerAll occurrences } := by
  have elsewhere {location : Location} (isOther : location.definition ≠ .fragment name) :
      (workspace.entities.registerAll occurrences).occurrences location
        = workspace.entities.occurrences location := by
    rw [EntityTable.occurrences_registerAll, List.append_right_eq_self, List.filter_eq_nil_iff]
    intro occurrence mem isHere
    rw [← beq_iff_eq.mp isHere, (built.rooted occurrence mem).definition] at isOther
    exact isOther rfl
  have ofOperation {location : Location} (isOperation : location.definition.isOperation = true) :
      (workspace.entities.registerAll occurrences).occurrences location
        = workspace.entities.occurrences location := by
    apply elsewhere
    intro isName
    rw [isName] at isOperation
    cases isOperation
  rcases holdsAll_registerAll workspace occurrences with ⟨all, more⟩
  refine ⟨⟨sound.entities.registerAll occurrences, ?_, sound.fragments, ?_, ?_, ?_, ?_⟩,
    ⟨List.prefix_rfl, rfl, fun _ => ofOperation⟩⟩
  · intro location occurrence mem
    rw [EntityTable.occurrences_registerAll, List.mem_append, List.mem_filter, beq_iff_eq] at mem
    rcases mem with old | ⟨isNew, isHere⟩
    · exact sound.registered location occurrence old
    · exact ⟨built.sound occurrence isNew, isHere⟩
  · intro key shape mem
    rcases sound.operations key shape mem with
      ⟨document, operation, others, isDocument, isOperation, sameName, ofShape, registered⟩
    refine ⟨document, operation, others, isDocument, isOperation, sameName, ofShape, ?_⟩
    intro location isLocated
    rw [ofOperation (by rw [isLocated]; rfl)]
    exact registered location isLocated
  · intro index kind name steps isUnbuilt
    rw [ofOperation rfl]
    exact sound.unbuilt index kind name steps isUnbuilt
  · intro shape mem occurrence occurrenceMem
    exact more _ _ (sound.stored shape mem occurrence occurrenceMem)
  · intro other steps occurrence mem
    rw [EntityTable.occurrences_registerAll, List.mem_append, List.mem_filter, beq_iff_eq] at mem
    rcases mem with old | ⟨isNew, isHere⟩
    · exact (sound.attempts other steps occurrence old).mono (fun _ _ found => found) more
    · have isName := congrArg Location.definition isHere
      rw [(built.rooted occurrence isNew).definition, DefinitionId.fragment.injEq] at isName
      subst isName
      exact ⟨fragment, root, occurrences, isFragment, built, all, isNew⟩

theorem isSound_storeFragment {shape : FragmentShape} (sound : workspace.IsSound project)
    (built : shape.IsBuilt project workspace.fragments)
    (registered : workspace.HoldsAll shape.occurrences) :
    Workspace.IsSound project { workspace with fragments := workspace.fragments ++ [shape] }
      ∧ workspace.Grows { workspace with fragments := workspace.fragments ++ [shape] } := by
  have grows : workspace.Grows { workspace with fragments := workspace.fragments ++ [shape] } :=
    ⟨List.prefix_append _ _, rfl, fun _ _ => rfl⟩
  refine ⟨⟨sound.entities, sound.registered, ?_, ?_, sound.unbuilt, ?_, ?_⟩, grows⟩
  · intro before other after split
    rcases List.eq_nil_or_concat after with rfl | ⟨earlier, last, rfl⟩
    · rcases List.append_inj' split rfl with ⟨rfl, isLast⟩
      rw [← (List.cons.inj isLast).1]
      exact built
    · rw [List.concat_eq_append, ← List.cons_append, ← List.append_assoc] at split
      exact sound.fragments before other earlier (List.append_inj' split rfl).1
  · intro key other mem
    rcases sound.operations key other mem with
      ⟨document, operation, others, isDocument, isOperation, sameName, ofOther, registered⟩
    exact ⟨document, operation, others, isDocument, isOperation, sameName,
      ofOther.mono fun _ _ => grows.fragment?_eq_some, registered⟩
  · intro other mem
    rcases List.mem_append.mp mem with old | isLast
    · exact sound.stored other old
    · rw [List.mem_singleton.mp isLast]
      exact registered
  · intro name steps occurrence mem
    exact (sound.attempts name steps occurrence mem).mono (fun _ _ => grows.fragment?_eq_some)
      fun _ _ mem => mem

/-- Registering a fragment gives, and registers, all that occurs in it. -/
theorem ensures_register {name : Name} {fragment : Fragment}
    (isFragment : project.compilation.spreadFragment? name = some fragment)
    (depiction : root.IsDepiction project (.fragment name) fragment.typeCondition
      fragment.selections) :
    Ensures (Workspace.law project)
      (fun workspace => AreResolved project workspace.fragment? root.writtenSets)
      (register project root)
      fun found workspace => root.IsBuilt project workspace.fragment? (.fragment name)
          fragment.typeCondition fragment.selections found
        ∧ workspace.HoldsAll found := by
  simp only [register]
  apply Ensures.bind (ensures_isBuilt depiction)
  intro found
  apply Ensures.bind (.modify ?_)
  · intro _
    apply Ensures.pure
    rintro _ ⟨workspace, -, built, rfl⟩
    exact ⟨built, (holdsAll_registerAll workspace found).1⟩
  · intro workspace sound built
    exact isSound_registerAll sound isFragment built

section Fragments

variable {fragment : Name → Build FragmentShape}

theorem ensures_fragmentDefinition
    (ofFragment : ∀ name, Ensures (Workspace.law project) (fun _ => True) (fragment name)
      fun _ workspace => ∃ shape, workspace.fragment? name = some shape)
    {name : Name} {document : DocumentFile} {definition : Fragment}
    (found : project.compilation.fragment? name = some (document, definition)) :
    Ensures (Workspace.law project) (fun _ => True)
      (fragmentDefinition project fragment document definition)
      fun shape workspace => shape.name = name ∧ shape.IsBuilt project workspace.fragments
        ∧ workspace.HoldsAll shape.occurrences := by
  have sameName : definition.name = name := Compilation.name_of_fragment? found
  have isFragment : project.compilation.spreadFragment? definition.name = some definition := by
    rw [sameName]
    exact Compilation.spreadFragment?_of_fragment? found
  simp only [fragmentDefinition]
  apply Ensures.bind (ensures_root ofFragment _ _ _ _)
  intro built
  apply Ensures.assuming
  intro depiction
  apply Ensures.bind (ensures_register isFragment depiction)
  intro occurrences
  apply Ensures.pure
  rintro workspace ⟨ofRoot, registered⟩
  exact ⟨sameName, ⟨document, definition, by rw [sameName, found], ofRoot⟩, registered⟩

/-- Whichever fragment is asked for is built afterwards, unless building fails. -/
theorem ensures_fragmentWithin (height : Nat) (name : Name) :
    Ensures (Workspace.law project) (fun _ => True) (fragmentWithin project height name)
      fun _ workspace => ∃ shape, workspace.fragment? name = some shape := by
  apply @ensures_fragmentWithin_of project (fun _ => Workspace.law project)
    fun name _ workspace => ∃ shape, workspace.fragment? name = some shape
  · exact fun _ _ shape _ found => ⟨shape, found⟩
  · intro fragment name document definition found ofFragment
    apply Ensures.anywhere
    apply Ensures.bind (ensures_fragmentDefinition ofFragment found)
    intro shape
    apply Ensures.assuming
    intro sameName
    apply Ensures.bind (.modify fun workspace sound built =>
      isSound_storeFragment sound built.1 built.2)
    intro _
    apply Ensures.pure
    rintro _ ⟨workspace, -, -, rfl⟩
    simp only [Workspace.fragment?, List.find?_append]
    cases workspace.fragments.find? (·.name == name) with
    | none => exact ⟨shape, by simp [sameName]⟩
    | some earlier => exact ⟨earlier, rfl⟩

theorem ensures_fragment (name : Name) :
    Ensures (Workspace.law project) (fun _ => True) (Build.fragment project name)
      fun _ workspace => ∃ shape, workspace.fragment? name = some shape :=
  ensures_fragmentWithin _ name

end Fragments

section Operations

variable {index : Nat} {document : DocumentFile} {operation : Operation}

/-- Registering what occurs in an operation, and storing the operation, keeps a workspace sound in
which the operation was not built. -/
theorem isSound_storeOperation {shape : OperationShape} (sound : workspace.IsSound project)
    (isDocument : project.compilation.documents[index]? = some document)
    (isOperation : operation ∈ document.document.operations)
    (isUnbuilt : workspace.operation? ⟨index, operation.name⟩ = none)
    (built : shape.root.IsBuilt project workspace.fragment?
      (.operation index operation.kind operation.name) operation.rootType operation.selections
      occurrences) :
    Workspace.IsSound project
      { workspace with
        entities := workspace.entities.registerAll occurrences
        operations := workspace.operations ++ [(⟨index, operation.name⟩, shape)] } := by
  -- All that is registered is at locations of the operation itself.
  have elsewhere {location : Location}
      (isOther : location.definition ≠ .operation index operation.kind operation.name) :
      (workspace.entities.registerAll occurrences).occurrences location
        = workspace.entities.occurrences location := by
    rw [EntityTable.occurrences_registerAll, List.append_right_eq_self, List.filter_eq_nil_iff]
    intro occurrence mem isHere
    rw [← beq_iff_eq.mp isHere, (built.rooted occurrence mem).definition] at isOther
    exact isOther rfl
  rcases holdsAll_registerAll workspace occurrences with ⟨-, more⟩
  refine ⟨sound.entities.registerAll occurrences, ?_, sound.fragments, ?_, ?_, ?_, ?_⟩
  · intro location occurrence mem
    rw [EntityTable.occurrences_registerAll, List.mem_append, List.mem_filter, beq_iff_eq] at mem
    rcases mem with old | ⟨isNew, isHere⟩
    · exact sound.registered location occurrence old
    · exact ⟨built.sound occurrence isNew, isHere⟩
  · intro key other mem
    rcases List.mem_append.mp mem with old | isNew
    · rcases sound.operations key other old with
        ⟨file, definition, others, isFile, isDefinition, sameName, ofOther, registered⟩
      refine ⟨file, definition, others, isFile, isDefinition, sameName, ofOther, ?_⟩
      intro location ofOperation
      rw [elsewhere ?_]
      · exact registered location ofOperation
      · rw [ofOperation]
        intro same
        simp only [DefinitionId.operation.injEq] at same
        have isKey : key = ⟨index, operation.name⟩ := by
          rcases key with ⟨_, _⟩
          simp only [OperationKey.mk.injEq]
          exact ⟨same.1, same.2.2⟩
        rw [isKey] at old
        have found := List.lookup_eq_none_iff.mp isUnbuilt _ old
        simp at found
    · rcases Prod.mk.inj (List.mem_singleton.mp isNew) with ⟨rfl, rfl⟩
      refine ⟨document, operation, occurrences, isDocument, isOperation, rfl, built, ?_⟩
      rintro ⟨_, steps⟩ rfl
      rw [EntityTable.occurrences_registerAll, sound.unbuilt _ _ _ _ isUnbuilt, List.nil_append]
  · intro other kind name steps notStored
    simp only [Workspace.operation?, List.lookup_append, Option.or_eq_none_iff] at notStored
    rw [elsewhere ?_]
    · exact sound.unbuilt other kind name steps notStored.1
    · intro same
      simp only [DefinitionId.operation.injEq] at same
      rcases same with ⟨rfl, -, rfl⟩
      simp at notStored
  · intro fragment mem occurrence occurrenceMem
    exact more _ _ (sound.stored fragment mem occurrence occurrenceMem)
  · intro name steps occurrence mem
    rw [elsewhere (by simp)] at mem
    exact (sound.attempts name steps occurrence mem).mono (fun _ _ found => found) more

/-- Building an operation of a document keeps a workspace sound whatever comes of it, and an
operation that is built is stored. -/
theorem isSound_operationIn (sound : workspace.IsSound project)
    (isDocument : project.compilation.documents[index]? = some document)
    (isOperation : operation ∈ document.document.operations) :
    ((operationIn project index document operation).runIn workspace).2.IsSound project
      ∧ ∀ shape, ((operationIn project index document operation).runIn workspace).1 = .ok shape →
        (⟨index, operation.name⟩, shape)
          ∈ ((operationIn project index document operation).runIn workspace).2.operations := by
  simp only [operationIn, runIn_bind, runIn_get]
  cases stored : workspace.operation? ⟨index, operation.name⟩ with
  | some shape =>
      refine ⟨sound, ?_⟩
      intro other same
      rcases Except.ok.inj same with rfl
      rcases List.lookup_eq_some_iff.mp stored with ⟨before, after, split, -⟩
      rw [runIn_pure, split]
      simp
  | none =>
      simp only [operationDefinition, register, runIn_bind]
      have ofRoot := ensures_root ensures_fragment
        (.operation index operation.kind operation.name) "data" operation.rootType
        operation.selections workspace sound trivial
      rcases ran : (Build.root project (Build.fragment project)
        (.operation index operation.kind operation.name) "data" operation.rootType
        operation.selections).runIn workspace with ⟨_ | built, afterRoot⟩
      · rw [ran] at ofRoot
        exact ⟨ofRoot.1, fun shape same => by cases same⟩
      · rw [ran] at ofRoot
        rcases ofRoot with ⟨soundRoot, growsRoot, ofRoot⟩
        rcases ofRoot built rfl with ⟨depiction, resolved⟩
        have ofPlacing := ensures_isBuilt depiction afterRoot soundRoot resolved
        simp only
        rcases placed : (Build.occurrences project built.value.place
          built.value.selections).runIn afterRoot with ⟨_ | found, afterPlacing⟩
        · rw [placed] at ofPlacing
          exact ⟨ofPlacing.1, fun shape same => by cases same⟩
        · rw [placed] at ofPlacing
          rcases ofPlacing with ⟨soundPlacing, growsPlacing, ofPlacing⟩
          have unbuilt : afterPlacing.operation? ⟨index, operation.name⟩ = none := by
            rw [Workspace.operation?, growsPlacing.operations, growsRoot.operations]
            exact stored
          refine ⟨isSound_storeOperation soundPlacing isDocument isOperation unbuilt
            (ofPlacing found rfl), ?_⟩
          intro shape same
          rcases Except.ok.inj same with rfl
          exact List.mem_append_right _ (List.mem_singleton_self _)

end Operations

end Build

end ResponseShape
