import ResponseShape.Proofs.Document.Acyclic
import ResponseShape.Proofs.Workspace.Conflicts

/-!
# Fragments being built

No fragment spreads itself if each document is self-contained. Hence building never comes back to
a fragment that is being built: it does what it would do if it kept in mind which these are and
refused to enter them (`Build.fragmentBesides`), and reports no fragment that is missing where it is
spread (`Build.isAcyclic_and_entersOnce`).
-/

namespace ResponseShape

namespace Compilation

variable {compilation : Compilation} {name : Name}

/-- The defined fragments apart from some. -/
def outside (compilation : Compilation) (names : List Name) : Finset Name :=
  (compilation.fragmentDefinitions.map (·.2.name)).toFinset \ names.toFinset

theorem card_outside_lt {names : List Name} {definition : DocumentFile × Fragment}
    (found : compilation.fragment? name = some definition) (isOutside : name ∉ names) :
    (compilation.outside (name :: names)).card < (compilation.outside names).card := by
  have isFragment := spreadFragment?_of_fragment? found
  apply Finset.card_lt_card
  rw [Finset.ssubset_iff_of_subset]
  · exact ⟨name, Finset.mem_sdiff.mpr ⟨mem_names_of_spreadFragment? isFragment,
      by simpa using isOutside⟩, by simp [outside]⟩
  · intro other mem
    rw [outside, Finset.mem_sdiff, List.toFinset_cons, Finset.mem_insert, not_or] at mem
    exact Finset.mem_sdiff.mpr ⟨mem.1, mem.2.2⟩

end Compilation

namespace Build

section Congruence

variable {α β : Type} {project : Project} {fragment other : Name → Build FragmentShape}

theorem ofExcept_bind_congr {outcome : Except BuildError α} {next twin : α → Build β}
    (same : ∀ value, outcome = .ok value → next value = twin value) :
    ofExcept outcome >>= next = ofExcept outcome >>= twin := by
  cases outcome with
  | ok value => simp only [ofExcept, pure_bind, same value rfl]
  | error error => rfl

theorem mapM_congr {step twin : α → Build β} {members : List α}
    (same : ∀ member ∈ members, step member = twin member) :
    members.mapM step = members.mapM twin := by
  induction members with
  | nil => rw [List.mapM_nil, List.mapM_nil]
  | cons member rest ih =>
      rw [List.mapM_cons, List.mapM_cons, same member List.mem_cons_self,
        ih fun other mem => same other (List.mem_cons_of_mem _ mem)]

theorem selections_congr (levels : Nat) (path : List Name) (place : Place)
    {written : List Selection}
    (same : ∀ name ∈ Selection.spreadsOfAll written, fragment name = other name) :
    selections project fragment levels path place written
      = selections project other levels path place written := by
  induction levels generalizing path place written with
  | zero => rfl
  | succ levels ih =>
      simp only [selections]
      apply ofExcept_bind_congr
      intro gathered run
      have among := Gathered.spreads_of_gatherAll run
      have sameFields : gathered.fields.mapM
            (field project (selections project fragment levels) path place)
          = gathered.fields.mapM (field project (selections project other levels) path place) := by
        apply mapM_congr
        intro known mem
        have sameNested (path : List Name) (place : Place) :=
          ih path place fun name isSpread => same name (among.fields known mem name isSpread)
        simp only [field, sameNested]
      have sameBranches : gathered.branches.mapM
            (branch project (selections project fragment levels) path place)
          = gathered.branches.mapM
            (branch project (selections project other levels) path place) := by
        apply mapM_congr
        rintro ⟨key, behind⟩ mem
        have sameNested (path : List Name) (place : Place) :=
          ih path place fun name isSpread => same name (among.branches _ mem name isSpread)
        simp only [branch, sameNested]
      have sameSpreads : gathered.spreads.mapM (spread fragment path place)
          = gathered.spreads.mapM (spread other path place) := by
        apply mapM_congr
        intro name mem
        simp only [spread, same name (among.spreads name mem)]
      rw [sameFields, sameBranches, sameSpreads]

theorem fragmentDefinition_congr {document : DocumentFile} {definition : Fragment}
    (same : ∀ name ∈ Selection.spreadsOfAll definition.selections, fragment name = other name) :
    fragmentDefinition project fragment document definition
      = fragmentDefinition project other document definition := by
  simp only [fragmentDefinition, root, selections_congr _ _ _ same]

end Congruence

/-- The fragment of a name, built if it is not yet. One that is being built is refused. -/
def fragmentBesides (project : Project) (building : List Name) (name : Name) :
    Build FragmentShape := do
  match _found : project.compilation.fragment? name with
  | none => throw (.unknownFragment name)
  | some (document, definition) =>
      match (← get).fragment? name with
      | some shape => return shape
      | none =>
          if _isBuilding : name ∈ building then throw (.cyclicFragment name)
          else
            let shape ← fragmentDefinition project
              (fun other => fragmentBesides project (name :: building) other) document definition
            storeFragment shape
            return shape
termination_by (project.compilation.outside building).card
decreasing_by exact Compilation.card_outside_lt _found _isBuilding

section Acyclic

variable {project : Project} (acyclic : project.compilation.IsAcyclic)

include acyclic

/-- Counting how deep fragments nest comes to the same as keeping in mind which are being built. -/
theorem fragmentWithin_eq_fragmentBesides {height : Nat} {building : List Name} {name : Name}
    (apart : ∀ other ∈ building, ¬project.compilation.ReachedFrom name other)
    (enough : ∀ fragment, project.compilation.spreadFragment? name = some fragment →
      (project.compilation.reached fragment.selections).card < height) :
    fragmentWithin project height name = fragmentBesides project building name := by
  induction height generalizing building name with
  | zero =>
      unfold fragmentWithin fragmentBesides
      cases found : project.compilation.fragment? name with
      | none => rfl
      | some definition =>
          exact absurd (enough definition.2 (Compilation.spreadFragment?_of_fragment? found))
            (Nat.not_lt_zero _)
  | succ height ih =>
      unfold fragmentWithin fragmentBesides
      cases found : project.compilation.fragment? name with
      | none => rfl
      | some definition =>
          rcases definition with ⟨document, definition⟩
          have isFragment := Compilation.spreadFragment?_of_fragment? found
          have isApart : name ∉ building := fun mem => apart name mem (Or.inl rfl)
          have sameBelow : fragmentDefinition project (fragmentWithin project height) document
                definition
              = fragmentDefinition project (fragmentBesides project (name :: building)) document
                definition := by
            apply fragmentDefinition_congr
            intro other isSpread
            apply ih
            -- A fragment below that reaches one being built closes a cycle.
            · intro outer mem reaches
              have further : project.compilation.Spreads outer definition.selections := by
                rcases reaches with rfl | ⟨fragment, isOther, spreads⟩
                · exact .written isSpread
                · exact .fragment isSpread isOther spreads
              rcases List.mem_cons.mp mem with rfl | isOuter
              · exact acyclic outer definition isFragment further
              · exact apart outer isOuter (Or.inr ⟨definition, isFragment, further⟩)
            · intro fragment isOther
              exact Nat.lt_of_lt_of_le (acyclic.card_reached_lt isSpread isOther)
                (Nat.lt_succ_iff.mp (enough definition isFragment))
          simp only [sameBelow, isApart]
          rfl

/-- No fragment is entered while it is being built. -/
theorem fragment_eq_fragmentBesides : Build.fragment project = fragmentBesides project [] := by
  funext name
  exact fragmentWithin_eq_fragmentBesides acyclic (fun _ mem => absurd mem List.not_mem_nil)
    fun _ isFragment => acyclic.card_reached_lt_length isFragment

end Acyclic

section Failures

variable {project : Project} {definition : DocumentFile × Fragment} {name : Name}

/-- Whether a step reports no fragment that is not defined or spreads itself. -/
abbrev SparesFragments {α : Type} (build : Build α) : Prop :=
  Abides Law.none (fun error => error.isFragmentError = false) build fun _ => True

theorem upholds_sparesFragments :
    Upholds project Law.none fun error => error.isFragmentError = false where
  entityAt _ _ _ _ := ⟨trivial, trivial, trivial⟩
  registerAll _ _ _ := ⟨trivial, trivial⟩
  text _ := BuildError.isFragmentError_of_isTextError
  internal _ := rfl
  limit := rfl

/-- Building a root from selections that spread only defined fragments misses none. -/
theorem sparesFragments_root {fragment : Name → Build FragmentShape} {written : List Selection}
    (areDefined : ∀ name ∈ Selection.spreadsOfAll written,
      (project.compilation.fragment? name).isSome = true)
    (ofFragment : ∀ name ∈ Selection.spreadsOfAll written, SparesFragments (fragment name))
    (owner : DefinitionId) (name type : Name) :
    SparesFragments (root project fragment owner name type written) :=
  abides_root upholds_sparesFragments
    (fun _ _ _ (areWritten : ∀ other ∈ _, other ∈ Selection.spreadsOfAll written) =>
      Gathered.yields_gatherAll_defined fun name isSpread =>
        areDefined name (areWritten name isSpread))
    ofFragment owner name type fun _ => id

variable (selfContained : ∀ file ∈ project.compilation.documents, file.document.IsSelfContained)

include selfContained

/-- A fragment that is defined is built without missing another one. -/
theorem sparesFragments_fragmentWithin {height : Nat}
    (found : project.compilation.fragment? name = some definition)
    (enough : (project.compilation.reached definition.2.selections).card < height) :
    SparesFragments (fragmentWithin project height name) := by
  have acyclic := Compilation.isAcyclic_of_isSelfContained selfContained
  induction height generalizing name definition with
  | zero => exact absurd enough (Nat.not_lt_zero _)
  | succ height ih =>
      have isFragment := Compilation.spreadFragment?_of_fragment? found
      have areDefined (other : Name)
          (isSpread : other ∈ Selection.spreadsOfAll definition.2.selections) :
          (project.compilation.fragment? other).isSome = true :=
        Compilation.isSome_of_spreads selfContained isFragment isSpread
      unfold fragmentWithin
      simp only [found]
      refine Abides.bind .get fun workspace _ => ?_
      split
      next => exact .pure trivial
      next =>
        have builds : SparesFragments (fragmentDefinition project (fragmentWithin project height)
            definition.1 definition.2) := by
          refine (sparesFragments_root areDefined (fun other isSpread => ?_) _ _ _).bind
            fun _ _ => (abides_register upholds_sparesFragments _).bind fun _ _ => .pure trivial
          rcases Option.isSome_iff_exists.mp (areDefined other isSpread) with ⟨further, isOther⟩
          have isSpreadOf := Compilation.spreadFragment?_of_fragment? isOther
          exact ih isOther ((acyclic.card_reached_lt isSpread isSpreadOf).trans_le
            (Nat.lt_succ_iff.mp enough))
        exact builds.bind fun shape _ => Abides.bind (.modify fun _ _ => ⟨trivial, trivial⟩)
          fun _ _ => .pure trivial

theorem sparesFragments_fragment (isDefined : (project.compilation.fragment? name).isSome = true) :
    SparesFragments (Build.fragment project name) := by
  rcases Option.isSome_iff_exists.mp isDefined with ⟨definition, found⟩
  refine sparesFragments_fragmentWithin selfContained found ?_
  have acyclic := Compilation.isAcyclic_of_isSelfContained selfContained
  exact acyclic.card_reached_lt_length (Compilation.spreadFragment?_of_fragment? found)

theorem sparesFragments_operationIn {index : Nat} {file : DocumentFile} {operation : Operation}
    (isFile : file ∈ project.compilation.documents)
    (isOperation : operation ∈ file.document.operations) :
    SparesFragments (operationIn project index file operation) := by
  have areDefined (name : Name) (isSpread : name ∈ Selection.spreadsOfAll operation.selections) :
      (project.compilation.fragment? name).isSome = true :=
    Compilation.isSome_fragment?_of_mem isFile
      ((selfContained file isFile).operations operation isOperation name isSpread)
  simp only [operationIn]
  refine Abides.bind .get fun workspace _ => ?_
  split
  next => exact .pure trivial
  next =>
    have builds : SparesFragments (operationDefinition project index file operation) := by
      refine (sparesFragments_root areDefined (fun name isSpread => ?_) _ _ _).bind
        fun _ _ => (abides_register upholds_sparesFragments _).bind fun _ _ => .pure trivial
      exact sparesFragments_fragment selfContained (areDefined name isSpread)
    exact builds.bind fun shape _ => Abides.bind (.modify fun _ _ => ⟨trivial, trivial⟩)
      fun _ _ => .pure trivial

omit selfContained in
theorem runIn_fragmentWithin_of_undefined {height : Nat} {workspace : Workspace}
    (isUndefined : project.compilation.fragment? name = none) :
    (fragmentWithin project height name).runIn workspace
      = (.error (.unknownFragment name), workspace) := by
  rw [fragmentWithin_of_undefined isUndefined]
  rfl

/-- A call misses no fragment but one that it asks for. -/
theorem sparesFragments_call {call : Call} (builds : call.Builds)
    (asksForDefined : ∀ name, call = .fragment name →
      (project.compilation.fragment? name).isSome = true) :
    SparesFragments (call.run project) := by
  cases call with
  | operation name =>
      have spares : SparesFragments (operation project name) := by
        simp only [operation]
        split
        next => exact .throw rfl
        next index document definition rest candidates =>
          have mem : (index, document, definition) ∈ (index, document, definition) :: rest :=
            List.mem_cons_self
          rw [← candidates] at mem
          simp only [List.mem_filterMap, Option.map_eq_some_iff, Prod.mk.injEq, Prod.exists] at mem
          rcases mem with ⟨file, position, isFile, found, isFound, rfl, rfl, rfl⟩
          exact sparesFragments_operationIn selfContained
            (List.mem_of_getElem? (List.mem_zipIdx_iff_getElem?.mp isFile))
            (List.mem_of_find?_eq_some isFound)
      exact spares.bind fun _ _ => .pure trivial
  | fragment name =>
      exact (sparesFragments_fragment selfContained (asksForDefined name rfl)).bind
        fun _ _ => .pure trivial
  | all =>
      have spares : SparesFragments (all project) := by
        simp only [all]
        refine Abides.bind (.forEach ?_) fun _ _ => ?_
        · rintro ⟨file, index⟩ isFile
          exact .forEach fun operation isOperation => sparesFragments_operationIn selfContained
            (List.mem_of_getElem? (List.mem_zipIdx_iff_getElem?.mp isFile)) isOperation
        · refine Abides.bind (.forEach fun definition mem => ?_) fun _ _ => .pure trivial
          apply sparesFragments_fragment selfContained
          have isFirst := Compilation.find?_fragments_go [] project.compilation.fragmentDefinitions
            definition.2.name
          rw [if_neg List.not_mem_nil] at isFirst
          rw [Compilation.fragment?, ← isFirst, List.find?_isSome]
          exact ⟨definition, mem, beq_self_eq_true _⟩
      exact spares.bind fun _ _ => .pure trivial
  | view => cases builds
  | viewUnder => cases builds

end Failures

/-- Where each document spreads only fragments of its own and none of them reaches itself, the first
definitions of all fragments form no cycle either. So no fragment is entered while it is being
built, and no build misses a fragment but one that it is asked for by name. -/
theorem isAcyclic_and_entersOnce {project : Project}
    (selfContained : ∀ file ∈ project.compilation.documents, file.document.IsSelfContained) :
    project.compilation.IsAcyclic
    ∧ Build.fragment project = fragmentBesides project []
    ∧ ∀ workspace call error, Call.Builds call →
      ((call.run project).runIn workspace).1 = .error error →
        (∀ name, error ≠ .cyclicFragment name)
        ∧ ∀ name, error = .unknownFragment name →
          call = .fragment name ∧ project.compilation.fragment? name = none := by
  have acyclic := Compilation.isAcyclic_of_isSelfContained selfContained
  refine ⟨acyclic, fragment_eq_fragmentBesides acyclic, ?_⟩
  intro workspace call error builds fails
  by_cases undefined : ∃ name, call = .fragment name ∧ project.compilation.fragment? name = none
  · rcases undefined with ⟨name, rfl, isUndefined⟩
    have isError : error = .unknownFragment name := by
      rw [Call.run, runIn_return, Build.fragment, runIn_fragmentWithin_of_undefined isUndefined]
        at fails
      exact (Except.error.inj fails).symm
    subst isError
    constructor
    · intro other same
      cases same
    · intro other same
      rcases BuildError.unknownFragment.inj same with rfl
      exact ⟨rfl, isUndefined⟩
  · have spares := (sparesFragments_call selfContained builds (fun name isCall => ?_)
      workspace trivial).2.2
    · rw [fails] at spares
      refine ⟨fun name same => ?_, fun name same => ?_⟩ <;>
        · subst same
          cases spares
    · rw [Option.isSome_iff_ne_none]
      exact fun isUndefined => undefined ⟨name, isCall, isUndefined⟩

/-- A sample of two documents that each define both of two fragments. In the first one spreads the
other, in the second the other spreads the one. -/
def Rivals : Sample where
  schemaText :=
    "type Query \x7b hero: Hero id: ID \x7d type Hero \x7b name: String age: Int \x7d"
  sources :=
    [⟨"a.graphql",
      "query A \x7b ...F \x7d fragment F on Query \x7b id ...G \x7d "
        ++ "fragment G on Query \x7b hero \x7b name \x7d \x7d"⟩,
    ⟨"b.graphql",
      "query B \x7b ...G \x7d fragment G on Query \x7b id ...F \x7d "
        ++ "fragment F on Query \x7b hero \x7b age \x7d \x7d"⟩]
  isValid := by decide +kernel

/-- Taken together the documents spread in a circle, but the first definitions do not. -/
theorem isAcyclic_and_entersOnce_rivals :
    (Rivals.project.compilation.documents.map fun file =>
        (file.document.spreadsOf "F", file.document.spreadsOf "G")) = [(["G"], []), ([], ["F"])]
    ∧ (∀ file ∈ Rivals.project.compilation.documents, file.document.IsSelfContained)
    ∧ Rivals.project.compilation.IsAcyclic
    ∧ Build.fragment Rivals.project = fragmentBesides Rivals.project []
    ∧ ((operation Rivals.project (some "B")).runIn .empty).1.toOption.isSome = true := by
  rcases isAcyclic_and_entersOnce Rivals.areSelfContained with ⟨acyclic, entersOnce, -⟩
  refine ⟨?_, Rivals.areSelfContained, acyclic, entersOnce, ?_⟩
  · rewrite [Rivals.project_eq]
    decide +kernel
  · rewrite [Rivals.project_eq]
    decide +kernel

end Build

end ResponseShape
