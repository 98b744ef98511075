import ResponseShape.Proofs.Definition.Placing

/-!
# Scopes of fragments at other places

A fragment is read once, in the scope of its own type. Where it is spread, the steps on the paths
inside it are taken again from the scope of the place. They are what the fragment's own scope left
of the narrowings as written, so each narrowing is reduced twice. Nothing is lost that way: the
scope of the place knows all that the fragment's scope knew
(`Scope.IsFullyKnownIn.narrow_unknownPart`), in each step (`Scope.Reachable.exists_steps`). So
spreading leads where the narrowings as written lead (`Scope.Reachable.narrowAll_applied`).
-/

namespace ResponseShape

namespace Scope

variable {schema : Schema} {scope site next inside root fragment : Scope} {narrowing : Narrowing}
  {narrowings : List Narrowing} {type : Name}

/-- A scope that knows more is narrowed alike by a narrowing and by what is left of it. -/
theorem IsFullyKnownIn.narrow_unknownPart (known : scope.IsFullyKnownIn site)
    (narrowing : Narrowing) :
    site.narrow schema (scope.unknownPart narrowing) = site.narrow schema narrowing :=
  narrow_congr (by simp only [effective?, known.unknownPart_unknownPart])

/-- One narrowing keeps a site within the scope that is narrowed alike. -/
theorem Reachable.isWithin_of_narrow {siteNext : Scope} (reachable : Reachable schema site)
    (isWithin : site.isWithin scope = true) (narrowed : scope.narrow schema narrowing = .ok next)
    (siteNarrowed : site.narrow schema narrowing = .ok siteNext) :
    siteNext.isWithin next = true := by
  have ofNext := Reachable.narrow reachable siteNarrowed
  have within := isWithin_of_extends ofNext (path_prefix_of_narrow siteNarrowed)
  exact isWithin_narrow narrowed (reachable.isWithin_trans ofNext within isWithin)
    (implies_of_narrow reachable siteNarrowed)

/-- Narrowing a scope takes steps on its path which, taken from anywhere within the scope, lead
where the narrowings lead. -/
theorem Reachable.exists_steps (reachable : Reachable schema scope)
    (narrowed : scope.narrowAll schema narrowings = .ok inside) :
    ∃ steps, inside.path = scope.path ++ steps
      ∧ ∀ site, Reachable schema site → site.isWithin scope = true →
        site.narrowAll schema steps = site.narrowAll schema narrowings := by
  induction narrowings generalizing scope with
  | nil =>
      rcases Except.ok.inj narrowed with rfl
      exact ⟨[], by simp, fun _ _ _ => rfl⟩
  | cons narrowing rest ih =>
      rcases narrowAll_cons_eq_ok narrowed with ⟨next, once, further⟩
      rcases ih (.narrow reachable once) further with ⟨steps, path, alike⟩
      rcases narrow_cases once with ⟨isNone, rfl⟩ | ⟨effective, _, _, isEffective, -, -, isNext⟩
      · -- The scope implies the narrowing, and so does the site.
        refine ⟨steps, path, fun site ofSite isWithin => ?_⟩
        have implied := (reachable.isFullyKnownIn ofSite isWithin).implies
          (effective?_eq_none_iff.mp isNone)
        rw [alike site ofSite isWithin, narrowAll_cons, narrow_of_implies implied]
        rfl
      · refine ⟨effective :: steps, by rw [path, isNext]; simp, fun site ofSite isWithin => ?_⟩
        have known := reachable.isFullyKnownIn ofSite isWithin
        rw [narrowAll_cons, narrowAll_cons, (effective?_eq_some isEffective).1,
          known.narrow_unknownPart]
        cases siteOnce : site.narrow schema narrowing with
        | error error => rfl
        | ok siteNext =>
            exact alike siteNext (.narrow ofSite siteOnce)
              (ofSite.isWithin_of_narrow isWithin once siteOnce)

/-- Asking each time whether a scope admits the next narrowing finds all contradictions, and nothing
else fails. -/
theorem narrowAll?_eq_toOption (defined : ∀ narrowing ∈ narrowings, narrowing.IsDefinedIn schema) :
    Build.narrowAll? schema scope narrowings
      = .ok (scope.narrowAll schema narrowings).toOption := by
  induction narrowings generalizing scope with
  | nil => rfl
  | cons narrowing rest ih =>
      rw [List.forall_mem_cons] at defined
      rw [narrowAll_cons, Build.narrowAll?]
      cases admits : scope.admits narrowing with
      | false =>
          rcases narrow_of_refused defined.1 admits with ⟨details, once⟩
          rw [once]
          rfl
      | true =>
          rcases exists_narrow defined.1 admits with ⟨next, once⟩
          rw [if_pos rfl, once]
          exact ih defined.2

theorem Reachable.isDefinedIn_of_narrowAll (reachable : Reachable schema scope)
    (narrowed : scope.narrowAll schema narrowings = .ok inside) :
    ∀ narrowing ∈ narrowings, narrowing.IsDefinedIn schema := fun narrowing mem =>
  (reachable.of_narrowAll narrowed).isDefinedIn_of_implies
    ((reachable.isMeet_narrowAll narrowed).implies narrowing mem)

section Fragment

variable (isRoot : Scope.forType schema type = .ok root)
  (narrowed : root.narrowAll schema narrowings = .ok fragment)

include isRoot

/-- Every site can be narrowed to the type of a fragment, which leads into the fragment's first
scope. -/
theorem Reachable.exists_onType (reachable : Reachable schema site) :
    ∃ onType, site.narrow schema (.onType type) = .ok onType ∧ Reachable schema onType
      ∧ onType.isWithin root = true := by
  rcases forType_eq_ok isRoot with ⟨supertypes, known, rfl⟩
  have defined : (Narrowing.onType type).IsDefinedIn schema := by
    rintro _ ⟨⟩
    exact Schema.hasDefinedSupertypes_iff.mpr ⟨supertypes, known⟩
  have admits : site.admits (.onType type) = true := rfl
  rcases exists_narrow defined admits with ⟨onType, once⟩
  refine ⟨onType, once, .narrow reachable once, ?_⟩
  simpa [isWithin] using implies_of_narrow reachable once

include narrowed

/-- What has to hold within a fragment are the conditions that narrow it. -/
theorem permits_fragment_iff {assignment : Assignment} :
    fragment.permits assignment = true ↔ ∀ narrowing ∈ Narrowing.onType type :: narrowings,
      narrowing.conditions.all (·.holds assignment) = true := by
  rw [(Reachable.forType isRoot).permits_narrowAll narrowed, List.forall_mem_cons]
  rcases forType_eq_ok isRoot with ⟨_, -, rfl⟩
  simp [permits, Narrowing.onType]

/-- The path inside a fragment narrows a site as the narrowings as written do. -/
theorem Reachable.narrowAll_path_tail (reachable : Reachable schema site)
    (isWithin : site.isWithin root = true) :
    site.narrowAll schema fragment.applied = site.narrowAll schema narrowings := by
  rcases (Reachable.forType isRoot).exists_steps narrowed with ⟨steps, path, alike⟩
  rcases forType_eq_ok isRoot with ⟨_, -, rfl⟩
  rw [← alike site reachable isWithin]
  simp [applied, path]

/-- A fragment's scope can be entered from a place exactly if the conditions of both can hold
together. What is on its path then narrows the place as the narrowings as written do, and that is
the scope at which the fragment's selections are placed. -/
theorem Reachable.narrowAll_applied (reachable : Reachable schema site) :
    site.narrowAll schema (.onType type :: fragment.applied)
        = site.narrowAll schema (.onType type :: narrowings)
    ∧ (∀ error, site.narrowAll schema (.onType type :: narrowings) = .error error →
      error.isInternal = true)
    ∧ ((∃ result, site.narrowAll schema (.onType type :: narrowings) = .ok result) ↔
      ∃ assignment, site.permits assignment = true ∧ fragment.permits assignment = true)
    ∧ ∃ onType, site.narrow schema (.onType type) = .ok onType
      ∧ Build.narrowAll? schema onType fragment.applied
        = .ok (site.narrowAll schema (.onType type :: narrowings)).toOption := by
  have ofRoot := Reachable.forType isRoot
  rcases reachable.exists_onType isRoot with ⟨onType, once, ofOnType, isWithin⟩
  have alike := ofOnType.narrowAll_path_tail isRoot narrowed isWithin
  have asWritten : site.narrowAll schema (.onType type :: narrowings)
      = onType.narrowAll schema narrowings := by rw [narrowAll_cons, once]; rfl
  have asReduced : site.narrowAll schema (.onType type :: fragment.applied)
      = onType.narrowAll schema fragment.applied := by rw [narrowAll_cons, once]; rfl
  have ofFragment := ofRoot.of_narrowAll narrowed
  have typeDefined := ofOnType.isDefinedIn_of_implies (implies_of_narrow reachable once)
  have defined := ofRoot.isDefinedIn_of_narrowAll narrowed
  refine ⟨by rw [asReduced, asWritten, alike], ?_, ?_, onType, once, ?_⟩
  · intro error failed
    rw [asWritten] at failed
    exact isInternal_of_narrowAll defined failed
  · simp only [permits_fragment_iff isRoot narrowed]
    exact reachable.exists_narrowAll_iff (List.forall_mem_cons.mpr ⟨typeDefined, defined⟩)
  · rw [asWritten, ← alike]
    exact narrowAll?_eq_toOption fun step mem =>
      ofFragment.isDefinedIn_of_implies (implies_of_mem_path ofFragment (List.mem_of_mem_tail mem))

end Fragment

end Scope

namespace Animals

/-- What narrows a fragment on pets to dogs, step by step. -/
def narrowings : List Narrowing :=
  [.onType "Animal", .onConditions (.single ⟨"b", false⟩), ontoDogs]

/-- The scope of a fragment on pets. -/
def petsInFragment : Scope := ⟨"Pet", [.onType "Pet"], ["Pet", "Animal"], none, []⟩

/-- The scope of dogs in it, where the first narrowing and a part of the last one are dropped. -/
def dogsInFragment : Scope where
  type := "Dog"
  path := [.onType "Pet", .onConditions (.single ⟨"b", false⟩),
    ⟨some "Dog", some (.single ⟨"a", false⟩), none⟩]
  knownTypes := ["Pet", "Animal", "Dog"]
  knownConditions := some secondAndFirst
  knownDefers := []

/-- The scope of dogs among pets, where the rest of the last narrowing is dropped but the type. -/
def dogsAmongPets : Scope where
  type := "Dog"
  path := [.onType "Animal", ontoPets, .onConditions (.single ⟨"b", false⟩), .onType "Dog"]
  knownTypes := ["Animal", "Pet", "Dog"]
  knownConditions := some firstAndSecond
  knownDefers := []

/-- The scope of animals if a variable is false. -/
def animalsWithout : Scope where
  type := "Animal"
  path := [.onType "Animal", .onConditions (.single ⟨"a", true⟩)]
  knownTypes := ["Animal"]
  knownConditions := some (.single ⟨"a", true⟩)
  knownDefers := []

end Animals

/-- Among pets, the fragment leads to dogs in as many steps as are left. Among animals without the
variable it does not apply, as its last narrowing does not. -/
theorem Scope.Reachable.narrowAll_applied_dogs :
    Animals.pets.narrowAll Animals.schema (.onType "Pet" :: Animals.dogsInFragment.applied)
        = Animals.pets.narrowAll Animals.schema (.onType "Pet" :: Animals.narrowings)
    ∧ (∃ onType, Animals.pets.narrow Animals.schema (.onType "Pet") = .ok onType
      ∧ Build.narrowAll? Animals.schema onType Animals.dogsInFragment.applied
        = .ok (some Animals.dogsAmongPets))
    ∧ ¬∃ result, Animals.animalsWithout.narrowAll Animals.schema
      (.onType "Pet" :: Animals.narrowings) = .ok result := by
  have isRoot : Scope.forType Animals.schema "Pet" = .ok Animals.petsInFragment := by
    decide +kernel
  have narrowed : Animals.petsInFragment.narrowAll Animals.schema Animals.narrowings
      = .ok Animals.dogsInFragment := by decide +kernel
  have isAnimals : Scope.forType Animals.schema "Animal" = .ok Animals.animals := by
    decide +kernel
  have without : Animals.animals.narrow Animals.schema (.onConditions (.single ⟨"a", true⟩))
      = .ok Animals.animalsWithout := by decide +kernel
  rcases narrowAll_applied isRoot narrowed Animals.reachable with ⟨same, -, -, onType, once, placed⟩
  rcases narrowAll_applied isRoot narrowed (.narrow (.forType isAnimals) without) with
    ⟨-, -, compatible, -⟩
  refine ⟨same, ⟨onType, once, placed.trans (by decide +kernel)⟩, ?_⟩
  rw [compatible]
  rintro ⟨assignment, outer, inner⟩
  simp_all [Scope.permits, Animals.animalsWithout, Animals.dogsInFragment, Narrowing.onConditions,
    Narrowing.onType, ConditionGroup.holds, ConditionGroup.single, VariableTest.holds]

end ResponseShape
