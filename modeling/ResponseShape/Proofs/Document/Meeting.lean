import ResponseShape.Proofs.Document.Making

/-!
# Fields that meet

Validation compares fields level by level: all that selections make on one object, entering each
fragment once, grouped by what has to agree. It forgets nothing that it has once started to look at,
so at its end every group was compared with its first field, and what lies below every group was
looked at, too (`Document.exists_checked_of_agrees`).

Two fields meet in validation whenever the fields around them meet, level by level
(`Document.exists_common_of_agrees`). So in a valid document fields have types of one shape if they
have the same response keys around them (`Document.haveSameShape_of_isValid`), and select the same
if some object may have all of them (`Document.exists_selectSame_of_isValid`).
-/

namespace ResponseShape

deriving instance ReflBEq, LawfulBEq for SelectedField

namespace Document

variable {document : Document} {selected : SelectedField}

/-- Expanding a queue meets every field that its selections make. -/
theorem mem_expand_of_makes {unexpanded : List Fragment} {queue : List TypedSelections}
    {typed : TypedSelections} (nodup : (unexpanded.map (·.name)).Nodup) (mem : typed ∈ queue)
    (makes : Selection.Makes (fun name => unexpanded.find? (·.name == name)) typed.1 typed.2
      selected) : selected ∈ expand unexpanded queue := by
  fun_induction expand unexpanded queue generalizing typed with
  | case1 => cases mem
  | case2 unexpanded type queue ih =>
      rcases List.mem_cons.mp mem with rfl | later
      · exact absurd makes Selection.Makes.not_nil
      · exact ih nodup later makes
  | case3 unexpanded type field below rest queue ih =>
      rcases List.mem_cons.mp mem with rfl | later
      · rcases Selection.Makes.cons_iff.mp makes with first | others
        · exact List.mem_cons.mpr (Or.inl (Selection.Makes.field_iff.mp first))
        · exact List.mem_cons_of_mem _ (ih nodup List.mem_cons_self others)
      · exact List.mem_cons_of_mem _ (ih nodup (List.mem_cons_of_mem _ later) makes)
  | case4 unexpanded type typeCondition directives inner rest queue ih =>
      rcases List.mem_cons.mp mem with rfl | later
      · rcases Selection.Makes.cons_iff.mp makes with first | others
        · have queued : (typeCondition.getD type, inner)
              ∈ (type, rest) :: queue ++ [(typeCondition.getD type, inner)] := by simp
          exact ih nodup queued (Selection.Makes.inlineFragment_iff.mp first)
        · exact ih nodup List.mem_cons_self others
      · exact ih nodup (by simp [later]) makes
  -- The fragment is expanded here, and never again. Whatever was to be met through it elsewhere
  -- is met below this spread.
  | case5 unexpanded type name directives rest queue fragment found ih =>
      have lookup := Execution.find?_eraseP nodup name
      have fewer : ((unexpanded.eraseP (·.name == name)).map (·.name)).Nodup :=
        nodup.sublist (List.eraseP_sublist.map _)
      simp only [lookup] at ih
      rcases makes.enter_once found with outside | inside
      · rcases List.mem_cons.mp mem with rfl | later
        · rcases Selection.Makes.cons_iff.mp outside with first | others
          · rcases Selection.Makes.fragmentSpread_iff.mp first with ⟨_, again, -⟩
            simp at again
          · exact ih fewer List.mem_cons_self others
        · exact ih fewer (by simp [later]) outside
      · have queued : (fragment.typeCondition, fragment.selections)
            ∈ (type, rest) :: queue ++ [(fragment.typeCondition, fragment.selections)] := by simp
        exact ih fewer queued inside
  | case6 unexpanded type name directives rest queue unknown ih =>
      rcases List.mem_cons.mp mem with rfl | later
      · rcases Selection.Makes.cons_iff.mp makes with first | others
        · rcases Selection.Makes.fragmentSpread_iff.mp first with ⟨_, found, -⟩
          simp [unknown] at found
        · exact ih nodup List.mem_cons_self others
      · exact ih nodup (List.mem_cons_of_mem _ later) makes

section Checks

variable {schema : Schema} {agreement : Agreement} {checked more result : List (List SelectedField)}
  {fields : List SelectedField}

/-- Whether a group of fields agrees, and what lies below it was looked at. -/
def IsCompared (document : Document) (agreement : Agreement) (checked : List (List SelectedField))
    (group : List SelectedField) : Prop :=
  agreement.holdsFor group = true
    ∧ (group.all (·.selections.isEmpty) = true ∨ document.fieldsBelow group ∈ checked)

/-- Whether all has been asked of fields that meet. -/
def IsAsked (document : Document) (agreement : Agreement) (checked : List (List SelectedField))
    (fields : List SelectedField) : Prop :=
  ∀ group ∈ agreement.groups fields, document.IsCompared agreement checked group

theorem IsCompared.mono {group : List SelectedField}
    (compared : document.IsCompared agreement checked group) (subset : checked ⊆ more) :
    document.IsCompared agreement more group :=
  compared.imp_right (Or.imp_right (subset ·))

/-- Checking fields forgets nothing that was looked at before, looks at the fields, and asks all of
whatever else it comes to look at. -/
theorem check_eq_some {levels : Nat}
    (run : document.check agreement levels checked fields = some result) :
    checked ⊆ result ∧ fields ∈ result
      ∧ ∀ other ∈ result, other ∈ checked ∨ document.IsAsked agreement result other := by
  induction levels generalizing checked fields result with
  | zero => cases run
  | succ levels ih =>
      rw [check] at run
      split at run
      next known =>
        rcases Option.some.inj run with rfl
        exact ⟨List.Subset.refl _, List.contains_iff_mem.mp known, fun _ mem => Or.inl mem⟩
      next =>
        have finishes := foldlM_finishes (document.IsCompared agreement)
          (document.IsAsked agreement)
          (fun _ _ _ subset compared => compared.mono subset)
          (fun _ _ _ subset asked group mem => (asked group mem).mono subset) ?_ run
        · rcases finishes with ⟨subset, compared, asked⟩
          refine ⟨fun _ mem => subset (List.mem_cons_of_mem _ mem),
            subset List.mem_cons_self, ?_⟩
          intro other mem
          rcases asked other mem with earlier | isAsked
          · rcases List.mem_cons.mp earlier with rfl | before
            · exact Or.inr compared
            · exact Or.inl before
          · exact Or.inr isAsked
        · intro before group after step
          split at step
          next => cases step
          next holds =>
            simp only [Bool.not_eq_true, Bool.not_eq_false'] at holds
            split at step
            next areLeaves =>
              rcases Option.some.inj step with rfl
              exact ⟨List.Subset.refl _, ⟨holds, Or.inl areLeaves⟩, fun _ mem => Or.inl mem⟩
            next =>
              rcases ih step with ⟨subset, mem, asked⟩
              exact ⟨subset, ⟨holds, Or.inr mem⟩, asked⟩

/-- Where the fields of all operations agree, all has been asked of them and of all that lies below
them. -/
theorem exists_checked_of_agrees (agrees : document.agrees agreement = true) :
    ∃ checked, (∀ operation ∈ document.operations,
        document.selectedFields [(operation.rootType, operation.selections)] ∈ checked)
      ∧ ∀ fields ∈ checked, document.IsAsked agreement checked fields := by
  rw [Document.agrees, Option.isSome_iff_exists] at agrees
  rcases agrees with ⟨checked, run⟩
  have finishes := foldlM_finishes (fun after fields => fields ∈ after)
    (document.IsAsked agreement) (fun _ _ _ subset mem => subset mem)
    (fun _ _ _ subset asked group mem => (asked group mem).mono subset)
    (fun _ _ _ step => check_eq_some step) run
  rcases finishes with ⟨-, roots, asked⟩
  refine ⟨checked, fun operation mem => roots _ (List.mem_map_of_mem mem), fun fields mem => ?_⟩
  exact (asked fields mem).resolve_left (List.not_mem_nil)

end Checks

end Document

/-- Whether a field is selected on an object type. -/
def SelectedField.isOnObject (schema : Schema) (selected : SelectedField) : Bool :=
  (schema.type? selected.parentType).any (·.kind == .object)

/-- Whether some object may have both fields under one response key: they are not selected on two
different object types. -/
structure SelectedField.CanCoincide (schema : Schema) (first second : SelectedField) : Prop where
  key : first.field.responseKey = second.field.responseKey
  type : first.isOnObject schema = true → second.isOnObject schema = true →
    first.parentType = second.parentType

namespace Agreement

variable {schema : Schema} {agreement : Agreement} {first second : SelectedField}

/-- Whether an agreement puts any two related fields that meet into one group. -/
def Compares (agreement : Agreement) (related : SelectedField → SelectedField → Prop) : Prop :=
  ∀ fields, ∀ first ∈ fields, ∀ second ∈ fields, related first second →
    ∃ group ∈ agreement.groups fields, first ∈ group ∧ second ∈ group

theorem exists_common {group : List SelectedField} (holds : agreement.holdsFor group = true)
    (nonempty : group ≠ []) : ∃ common ∈ group, ∀ member ∈ group,
      member = common ∨ agreement.relates common member = true := by
  cases group with
  | nil => exact absurd rfl nonempty
  | cons common rest =>
      refine ⟨common, List.mem_cons_self, fun member mem => ?_⟩
      rw [holdsFor, List.all_eq_true] at holds
      exact (List.mem_cons.mp mem).imp_right (holds member)

theorem exists_group_byResponseKey {fields : List SelectedField} (firstMem : first ∈ fields)
    (secondMem : second ∈ fields) (same : first.field.responseKey = second.field.responseKey) :
    ∃ group ∈ Document.byResponseKey fields, first ∈ group ∧ second ∈ group := by
  refine ⟨_, List.mem_map_of_mem (mem_distinct.mpr (List.mem_map_of_mem firstMem)), ?_, ?_⟩
  · exact List.mem_filter.mpr ⟨firstMem, beq_self_eq_true _⟩
  · exact List.mem_filter.mpr ⟨secondMem, by simp [same]⟩

theorem compares_inShape : (inShape schema).Compares fun first second =>
    first.field.responseKey = second.field.responseKey :=
  fun _ _ firstMem _ secondMem same => exists_group_byResponseKey firstMem secondMem same

/-- Fields on one object type are put into one group, together with those on abstract types. -/
theorem exists_group_byCommonParent {fields : List SelectedField} (firstMem : first ∈ fields)
    (secondMem : second ∈ fields) (coincide : first.CanCoincide schema second) :
    ∃ group ∈ Document.byCommonParent schema fields, first ∈ group ∧ second ∈ group := by
  have isParent {field : SelectedField} (mem : field ∈ fields)
      (isOnObject : field.isOnObject schema = true) : field.parentType
        ∈ distinct ((fields.filter (·.isOnObject schema)).map (·.parentType)) :=
    mem_distinct.mpr (List.mem_map_of_mem (List.mem_filter.mpr ⟨mem, isOnObject⟩))
  have isAbstract {field : SelectedField} (mem : field ∈ fields)
      (isAbstract : field.isOnObject schema = false) :
      field ∈ fields.filter fun other => !other.isOnObject schema :=
    List.mem_filter.mpr ⟨mem, by simp [isAbstract]⟩
  have isIn {field : SelectedField} {type : Name} (mem : field ∈ fields)
      (onType : field.isOnObject schema = true → field.parentType = type) :
      field ∈ (fields.filter (·.isOnObject schema)).filter (·.parentType == type)
        ++ fields.filter fun other => !other.isOnObject schema := by
    cases isOnObject : field.isOnObject schema with
    | true => simp [mem, isOnObject, onType isOnObject]
    | false => simp [mem, isOnObject]
  simp only [Document.byCommonParent, List.partition_eq_filter_filter]
  split
  next none =>
    have notOnObject {field : SelectedField} (mem : field ∈ fields) :
        field.isOnObject schema = false :=
      Bool.eq_false_iff.mpr fun onObject => absurd (none ▸ isParent mem onObject) List.not_mem_nil
    exact ⟨_, List.mem_singleton_self _, isAbstract firstMem (notOnObject firstMem),
      isAbstract secondMem (notOnObject secondMem)⟩
  next nonempty =>
    -- Fields on objects decide which group it is; if both are on abstract types, any group will do.
    have exists_type : ∃ type ∈ distinct ((fields.filter (·.isOnObject schema)).map (·.parentType)),
        (first.isOnObject schema = true → first.parentType = type)
          ∧ (second.isOnObject schema = true → second.parentType = type) := by
      cases isOnObject : first.isOnObject schema with
      | true =>
          exact ⟨_, isParent firstMem isOnObject, fun _ => rfl,
            fun onOther => (coincide.type isOnObject onOther).symm⟩
      | false =>
          cases onOther : second.isOnObject schema with
          | true => exact ⟨_, isParent secondMem onOther, by simp, fun _ => rfl⟩
          | false =>
              rcases List.exists_mem_of_ne_nil _ nonempty with ⟨type, mem⟩
              exact ⟨type, mem, by simp, by simp⟩
    rcases exists_type with ⟨type, mem, ofFirst, ofSecond⟩
    exact ⟨_, List.mem_map_of_mem mem, isIn firstMem ofFirst, isIn secondMem ofSecond⟩

theorem compares_inField : (inField schema).Compares (SelectedField.CanCoincide schema) := by
  intro fields first firstMem second secondMem coincide
  rcases exists_group_byResponseKey firstMem secondMem coincide.key with
    ⟨group, isGroup, firstMem, secondMem⟩
  rcases exists_group_byCommonParent firstMem secondMem coincide with ⟨inner, isInner, both⟩
  exact ⟨inner, List.mem_flatMap.mpr ⟨group, isGroup, isInner⟩, both⟩

end Agreement

namespace Document

section Levels

variable {document : Document} {schema : Schema} {agreement : Agreement}
  {related : SelectedField → SelectedField → Prop} {root : TypedSelections}
  {around others : List SelectedField} {first second : SelectedField}

/-- Fields below an operation meet if those around them meet and are compared, level by level. -/
theorem exists_level_of_makesBelow {checked : List (List SelectedField)}
    (nodup : (document.fragments.map (·.name)).Nodup) (compares : agreement.Compares related)
    (isRoot : document.selectedFields [root] ∈ checked)
    (asked : ∀ fields ∈ checked, document.IsAsked agreement checked fields)
    (below : Selection.MakesBelow document.fragment? root around first)
    (other : Selection.MakesBelow document.fragment? root others second)
    (relates : List.Forall₂ related around others) :
    ∃ level ∈ checked, first ∈ level ∧ second ∈ level := by
  induction below generalizing others second with
  | here makes =>
      cases other with
      | here makesOther =>
          exact ⟨_, isRoot, mem_expand_of_makes nodup (List.mem_singleton_self _) makes,
            mem_expand_of_makes nodup (List.mem_singleton_self _) makesOther⟩
      | nested => simpa using relates.length_eq
  | nested _ makes ih =>
      cases other with
      | here => simpa using relates.length_eq
      | nested otherOuter makesOther =>
          rcases forall₂_append_singleton_iff.mp relates with ⟨relates, outerRelated⟩
          rcases ih otherOuter relates with ⟨level, isLevel, outerMem, otherMem⟩
          rcases compares level _ outerMem _ otherMem outerRelated with
            ⟨group, isGroup, outerMem, otherMem⟩
          have isIn {outer selected : SelectedField} (mem : outer ∈ group)
              (makes : Selection.Makes document.fragment? outer.field.type.innerName
                outer.selections selected) : selected ∈ document.fieldsBelow group :=
            mem_expand_of_makes nodup (List.mem_map_of_mem mem) makes
          rcases (asked level isLevel group isGroup).2 with areLeaves | isBelow
          · have isLeaf := List.isEmpty_iff.mp (List.all_eq_true.mp areLeaves _ outerMem)
            rw [isLeaf] at makes
            exact absurd makes Selection.Makes.not_nil
          · exact ⟨_, isBelow, isIn outerMem makes, isIn otherMem makesOther⟩

/-- Whatever meets below an operation was compared with one field in common. -/
theorem exists_common_of_agrees (nodup : (document.fragments.map (·.name)).Nodup)
    (compares : agreement.Compares related) (agrees : document.agrees agreement = true)
    {operation : Operation} (isOperation : operation ∈ document.operations)
    (below : Selection.MakesBelow document.fragment? (operation.rootType, operation.selections)
      around first)
    (other : Selection.MakesBelow document.fragment? (operation.rootType, operation.selections)
      others second)
    (relates : List.Forall₂ related (around ++ [first]) (others ++ [second])) :
    ∃ common, (first = common ∨ agreement.relates common first = true)
      ∧ (second = common ∨ agreement.relates common second = true) := by
  rcases exists_checked_of_agrees agrees with ⟨checked, roots, asked⟩
  rcases forall₂_append_singleton_iff.mp relates with ⟨outer, meet⟩
  rcases exists_level_of_makesBelow nodup compares (roots operation isOperation) asked below other
    outer with ⟨level, isLevel, firstMem, secondMem⟩
  rcases compares level first firstMem second secondMem meet with
    ⟨group, isGroup, firstMem, secondMem⟩
  rcases Agreement.exists_common (asked level isLevel group isGroup).1
    (List.ne_nil_of_mem firstMem) with ⟨common, -, agree⟩
  exact ⟨common, agree first firstMem, agree second secondMem⟩

end Levels

section Shapes

variable {schema : Schema} {type other third : TypeReference}

theorem haveSameShape_refl (type : TypeReference) : haveSameShape schema type type = true := by
  induction type with
  | named => simp [haveSameShape]
  | list item nonNull ih => simp [haveSameShape, ih]

theorem haveSameShape_named_iff {name otherName : Name} {nonNull otherNonNull : Bool} :
    haveSameShape schema (.named name nonNull) (.named otherName otherNonNull) = true ↔
      nonNull = otherNonNull ∧ (name = otherName
        ∨ schema.isCompositeName name = true ∧ schema.isCompositeName otherName = true) := by
  simp [haveSameShape]

theorem haveSameShape_list_iff {nonNull otherNonNull : Bool} :
    haveSameShape schema (.list type nonNull) (.list other otherNonNull) = true ↔
      nonNull = otherNonNull ∧ haveSameShape schema type other = true := by
  simp [haveSameShape]

theorem haveSameShape_symm (same : haveSameShape schema type other = true) :
    haveSameShape schema other type = true := by
  induction type generalizing other with
  | named name nonNull =>
      cases other with
      | named =>
          rw [haveSameShape_named_iff] at same ⊢
          exact ⟨same.1.symm, same.2.imp Eq.symm And.symm⟩
      | list => cases same
  | list item nonNull ih =>
      cases other with
      | named => cases same
      | list =>
          rw [haveSameShape_list_iff] at same ⊢
          exact ⟨same.1.symm, ih same.2⟩

theorem haveSameShape_trans (same : haveSameShape schema type other = true)
    (further : haveSameShape schema other third = true) :
    haveSameShape schema type third = true := by
  induction type generalizing other third with
  | named name nonNull =>
      cases other with
      | list => cases same
      | named =>
          cases third with
          | list => cases further
          | named =>
              rw [haveSameShape_named_iff] at same further ⊢
              refine ⟨same.1.trans further.1, ?_⟩
              rcases same.2 with rfl | ⟨isComposite, -⟩
              · exact further.2
              · rcases further.2 with rfl | ⟨-, alsoComposite⟩
                · exact same.2
                · exact Or.inr ⟨isComposite, alsoComposite⟩
  | list item nonNull ih =>
      cases other with
      | named => cases same
      | list =>
          cases third with
          | named => cases further
          | list =>
              rw [haveSameShape_list_iff] at same further ⊢
              exact ⟨same.1.trans further.1, ih same.2 further.2⟩

/-- Different types of one shape are lists of the same form around different composite types. -/
theorem innerName_of_haveSameShape (same : haveSameShape schema type other = true)
    (differ : type ≠ other) : type.innerName ≠ other.innerName
      ∧ schema.isCompositeName type.innerName = true
      ∧ schema.isCompositeName other.innerName = true := by
  induction type generalizing other with
  | named name nonNull =>
      cases other with
      | list => cases same
      | named otherName =>
          rcases haveSameShape_named_iff.mp same with ⟨rfl, rfl | composite⟩
          · exact absurd rfl differ
          · refine ⟨fun isSame => differ ?_, composite⟩
            rw [show name = otherName from isSame]
  | list item nonNull ih =>
      cases other with
      | named => cases same
      | list otherItem =>
          rcases haveSameShape_list_iff.mp same with ⟨rfl, sameItem⟩
          have ofItems := ih sameItem fun isSame => differ (by rw [isSame])
          exact ofItems

end Shapes

section Meetings

variable {document : Document} {schema : Schema} {root : TypedSelections}
  {around others : List SelectedField} {first second : SelectedField}

/-- Fields of a definition under the same response keys, level by level, return the same shape. -/
theorem haveSameShape_of_isValid (valid : document.isValid schema = true)
    (isRoot : root ∈ document.roots)
    (below : Selection.MakesBelow document.fragment? root around first)
    (other : Selection.MakesBelow document.fragment? root others second)
    (keys : (around ++ [first]).map (·.field.responseKey)
      = (others ++ [second]).map (·.field.responseKey)) :
    haveSameShape schema first.field.type second.field.type = true := by
  rcases exists_operation_of_mem_roots valid isRoot with ⟨operation, isOperation, before, stands⟩
  have nodup := nodup_names_of_isValid valid
  have agrees : document.agrees (.inShape schema) = true := by
    simp only [isValid, fieldsCanMerge, Bool.and_eq_true] at valid
    exact valid.2.1
  have relates : List.Forall₂ (fun first second : SelectedField =>
      first.field.responseKey = second.field.responseKey) (before ++ around ++ [first])
        (before ++ others ++ [second]) := by
    have same : List.Forall₂ Eq ((before ++ around ++ [first]).map (·.field.responseKey))
        ((before ++ others ++ [second]).map (·.field.responseKey)) := by
      rw [List.forall₂_eq_eq_eq]
      simpa using keys
    simpa only [List.forall₂_map_left_iff, List.forall₂_map_right_iff] using same
  rcases exists_common_of_agrees nodup Agreement.compares_inShape agrees isOperation
    (below.within stands) (other.within stands) relates with ⟨common, ofFirst, ofSecond⟩
  have isLike {selected : SelectedField}
      (agrees : selected = common ∨ (Agreement.inShape schema).relates common selected = true) :
      haveSameShape schema common.field.type selected.field.type = true := by
    rcases agrees with rfl | related
    · exact haveSameShape_refl _
    · exact related
  exact haveSameShape_trans (haveSameShape_symm (isLike ofFirst)) (isLike ofSecond)

/-- Fields of a definition that some object may have under the same response key, and the fields
around them, too, level by level, were compared with one field in common. -/
theorem exists_selectSame_of_isValid (valid : document.isValid schema = true)
    (isRoot : root ∈ document.roots)
    (below : Selection.MakesBelow document.fragment? root around first)
    (other : Selection.MakesBelow document.fragment? root others second)
    (coincide : List.Forall₂ (SelectedField.CanCoincide schema) (around ++ [first])
      (others ++ [second])) :
    ∃ common : SelectedField, (first = common ∨ selectSame common.field first.field = true)
      ∧ (second = common ∨ selectSame common.field second.field = true) := by
  rcases exists_operation_of_mem_roots valid isRoot with ⟨operation, isOperation, before, stands⟩
  have nodup := nodup_names_of_isValid valid
  have agrees : document.agrees (.inField schema) = true := by
    simp only [isValid, fieldsCanMerge, Bool.and_eq_true] at valid
    exact valid.2.2
  have relates : List.Forall₂ (SelectedField.CanCoincide schema) (before ++ around ++ [first])
      (before ++ others ++ [second]) := by
    rw [List.append_assoc, List.append_assoc]
    exact List.rel_append (List.forall₂_same.mpr fun _ _ => ⟨rfl, fun _ _ => rfl⟩) coincide
  exact exists_common_of_agrees nodup Agreement.compares_inField agrees isOperation
    (below.within stands) (other.within stands) relates

end Meetings

end Document

end ResponseShape
