import ResponseShape.Definition.Build
import ResponseShape.Proofs.Definition.Composition
import ResponseShape.Proofs.Definition.Resemblance

/-!
# Defer boundaries of a tree

A walk of a tree crosses the defer boundaries of its branches: first those below the fields, then
those behind the branches, each before what is behind it, then those of the spread fragments. What a
build mentions lists just these, in this order (`Build.ensures_boundaries?`); a branch that is
dropped leaves nothing, since what is built behind it mentions nothing
(`Build.exists_mentions_eq_empty_of_dropped`). Trees that depict the same selections in one scope
have the same boundaries (`Depicts.boundaries?_eq`).
-/

namespace ResponseShape

section Lists

variable {α β γ : Type}

/-- The lists of several members, one after the other, if every member has one. -/
def concatMap? (list? : α → Option (List β)) : List α → Option (List β)
  | [] => some []
  | member :: rest => do
      return (← list? member) ++ (← concatMap? list? rest)

variable {list? other? : α → Option (List β)} {members : List α}

theorem concatMap?_eq_some_iff {found : List β} : concatMap? list? members = some found ↔
    ∃ lists, List.Forall₂ (fun member list => list? member = some list) members lists
      ∧ found = lists.flatten := by
  induction members generalizing found with
  | nil => simp [concatMap?, eq_comm]
  | cons member rest ih =>
      simp only [concatMap?, Option.bind_eq_bind, Option.bind_eq_some_iff, Option.pure_def,
        Option.some.injEq]
      constructor
      · rintro ⟨first, isFirst, others, isOthers, rfl⟩
        rcases ih.mp isOthers with ⟨lists, pairs, rfl⟩
        exact ⟨first :: lists, .cons isFirst pairs, rfl⟩
      · rintro ⟨_, _ | ⟨isFirst, pairs⟩, rfl⟩
        exact ⟨_, isFirst, _, ih.mpr ⟨_, pairs, rfl⟩, rfl⟩

theorem exists_of_mem_concatMap? {found : List β} {entry : β}
    (isFound : concatMap? list? members = some found) (mem : entry ∈ found) :
    ∃ member ∈ members, ∃ list, list? member = some list ∧ entry ∈ list := by
  rcases concatMap?_eq_some_iff.mp isFound with ⟨lists, pairs, rfl⟩
  rcases List.mem_flatten.mp mem with ⟨list, listMem, inList⟩
  rcases exists_mem_of_forall₂_right pairs listMem with ⟨member, memberMem, isList⟩
  exact ⟨member, memberMem, list, isList, inList⟩

theorem concatMap?_congr {partners : List γ} {twin? : γ → Option (List β)}
    (pairs : List.Forall₂ (fun member partner => list? member = twin? partner) members partners) :
    concatMap? list? members = concatMap? twin? partners := by
  induction pairs with
  | nil => rfl
  | cons same _ ih => simp only [concatMap?, same, ih]

theorem concatMap?_mono (grows : ∀ member ∈ members, ∀ list, list? member = some list →
    other? member = some list) {found : List β} (isFound : concatMap? list? members = some found) :
    concatMap? other? members = some found := by
  rcases concatMap?_eq_some_iff.mp isFound with ⟨lists, pairs, rfl⟩
  refine concatMap?_eq_some_iff.mpr ⟨lists, ?_, rfl⟩
  clear isFound
  induction pairs with
  | nil => exact .nil
  | cons isFirst _ ih =>
      exact .cons (grows _ List.mem_cons_self _ isFirst)
        (ih fun member mem => grows member (List.mem_cons_of_mem _ mem))

end Lists

/-- What goes over to a tree from the trees below its fields and behind its branches holds for all
trees. -/
theorem SelectionTree.of_parts {motive : SelectionTree → Prop}
    (step : ∀ fields branches spreads,
      (∀ summary place selections, .entity summary place selections ∈ fields → motive selections) →
      (∀ key place selections, .mk key place selections ∈ branches → motive selections) →
      motive (.mk fields branches spreads))
    (tree : SelectionTree) : motive tree := by
  refine @SelectionTree.rec motive
    (fun field => ∀ summary place selections, field = .entity summary place selections →
      motive selections)
    (fun branch => ∀ key place selections, branch = .mk key place selections → motive selections)
    (fun fields => ∀ summary place selections, .entity summary place selections ∈ fields →
      motive selections)
    (fun branches => ∀ key place selections, .mk key place selections ∈ branches →
      motive selections)
    ?parts ?scalar ?entity ?branch ?noFields ?moreFields ?noBranches ?moreBranches tree
  case parts => exact fun fields branches spreads => step fields branches spreads
  case scalar => exact fun summary _ _ _ same => nomatch same
  case entity =>
    rintro summary place selections ofTree _ _ _ same
    rwa [← (TreeField.entity.inj same).2.2]
  case branch =>
    rintro key place selections ofTree _ _ _ same
    rwa [← (TreeBranch.mk.inj same).2.2]
  case noFields => exact fun _ _ _ mem => absurd mem List.not_mem_nil
  case moreFields =>
    intro field rest ofField ofRest summary place selections mem
    rcases List.mem_cons.mp mem with here | later
    · exact ofField _ _ _ here.symm
    · exact ofRest _ _ _ later
  case noBranches => exact fun _ _ _ mem => absurd mem List.not_mem_nil
  case moreBranches =>
    intro branch rest ofBranch ofRest key place selections mem
    rcases List.mem_cons.mp mem with here | later
    · exact ofBranch _ _ _ here.symm
    · exact ofRest _ _ _ later

section Walk

variable (own : Name → Option (List DeferBoundary))

/-- The boundary that a branch crosses at a path, if it is deferred. -/
def TreeBranch.boundary? (path : List Name) : TreeBranch → Option DeferBoundary
  | .mk key place _ => key.defer.map fun defer =>
      ⟨defer.label, defer.variableName, path, place.type⟩

/-- The boundaries of a spread fragment as seen from a path. -/
def Spread.boundaries? (path : List Name) (spread : Spread) : Option (List DeferBoundary) :=
  (own spread.name).map fun boundaries => boundaries.map (·.rebased path)

mutual

/-- The boundaries of a tree at a path, in the order in which they are crossed, where fragments have
boundaries of their own. -/
def SelectionTree.boundaries? (path : List Name) : SelectionTree → Option (List DeferBoundary)
  | .mk fields branches spreads => do
      let belowFields ← TreeField.boundariesOfAll? path fields
      let behindBranches ← TreeBranch.boundariesOfAll? path branches
      let ofSpreads ← concatMap? (·.boundaries? own path) spreads
      return belowFields ++ behindBranches ++ ofSpreads

/-- The boundaries below a field. -/
def TreeField.boundaries? (path : List Name) : TreeField → Option (List DeferBoundary)
  | .scalar _ => some []
  | .entity summary _ selections => selections.boundaries? (path ++ [summary.responseKey])

/-- The boundary of a branch, and those behind it. -/
def TreeBranch.boundaries? (path : List Name) : TreeBranch → Option (List DeferBoundary)
  | .mk key place selections => do
      let behind ← selections.boundaries? path
      return ((TreeBranch.mk key place selections).boundary? path).toList ++ behind

/-- The boundaries below several fields. -/
def TreeField.boundariesOfAll? (path : List Name) : List TreeField → Option (List DeferBoundary)
  | [] => some []
  | field :: rest => do
      return (← field.boundaries? path) ++ (← TreeField.boundariesOfAll? path rest)

/-- The boundaries of several branches, and those behind them. -/
def TreeBranch.boundariesOfAll? (path : List Name) :
    List TreeBranch → Option (List DeferBoundary)
  | [] => some []
  | branch :: rest => do
      return (← branch.boundaries? path) ++ (← TreeBranch.boundariesOfAll? path rest)

end

variable {own} {other : Name → Option (List DeferBoundary)} {path : List Name}

theorem TreeField.boundariesOfAll?_eq (fields : List TreeField) :
    TreeField.boundariesOfAll? own path fields
      = concatMap? (TreeField.boundaries? own path) fields := by
  induction fields with
  | nil => rfl
  | cons field rest ih => rw [TreeField.boundariesOfAll?, ih, concatMap?]

theorem TreeBranch.boundariesOfAll?_eq (branches : List TreeBranch) :
    TreeBranch.boundariesOfAll? own path branches
      = concatMap? (TreeBranch.boundaries? own path) branches := by
  induction branches with
  | nil => rfl
  | cons branch rest ih => rw [TreeBranch.boundariesOfAll?, ih, concatMap?]

theorem SelectionTree.boundaries?_eq_some_iff {fields : List TreeField}
    {branches : List TreeBranch} {spreads : List Spread} {found : List DeferBoundary} :
    SelectionTree.boundaries? own path (.mk fields branches spreads) = some found ↔
      ∃ belowFields behindBranches ofSpreads,
        concatMap? (TreeField.boundaries? own path) fields = some belowFields
          ∧ concatMap? (TreeBranch.boundaries? own path) branches = some behindBranches
          ∧ concatMap? (Spread.boundaries? own path) spreads = some ofSpreads
          ∧ found = belowFields ++ behindBranches ++ ofSpreads := by
  simp only [SelectionTree.boundaries?, TreeField.boundariesOfAll?_eq,
    TreeBranch.boundariesOfAll?_eq, Option.bind_eq_bind, Option.bind_eq_some_iff, Option.pure_def,
    Option.some.injEq]
  constructor
  · rintro ⟨belowFields, isFields, behindBranches, isBranches, ofSpreads, isSpreads, rfl⟩
    exact ⟨belowFields, behindBranches, ofSpreads, isFields, isBranches, isSpreads, rfl⟩
  · rintro ⟨belowFields, behindBranches, ofSpreads, isFields, isBranches, isSpreads, rfl⟩
    exact ⟨belowFields, isFields, behindBranches, isBranches, ofSpreads, isSpreads, rfl⟩

theorem TreeBranch.boundaries?_eq_some_iff {key : Narrowing} {place : Place}
    {selections : SelectionTree} {found : List DeferBoundary} :
    TreeBranch.boundaries? own path (.mk key place selections) = some found ↔
      ∃ behind, selections.boundaries? own path = some behind
        ∧ found = ((TreeBranch.mk key place selections).boundary? path).toList ++ behind := by
  simp only [TreeBranch.boundaries?, Option.bind_eq_bind, Option.bind_eq_some_iff,
    Option.pure_def, Option.some.injEq, eq_comm (a := found)]

/-- Where on a walk of a tree a boundary is crossed. -/
theorem SelectionTree.cases_of_mem_boundaries? {fields : List TreeField}
    {branches : List TreeBranch} {spreads : List Spread} {found : List DeferBoundary}
    {boundary : DeferBoundary}
    (walk : SelectionTree.boundaries? own path (.mk fields branches spreads) = some found)
    (mem : boundary ∈ found) :
    (∃ summary place selections, .entity summary place selections ∈ fields
        ∧ ∃ below, selections.boundaries? own (path ++ [summary.responseKey]) = some below
          ∧ boundary ∈ below)
      ∨ (∃ key place selections, .mk key place selections ∈ branches
        ∧ ((TreeBranch.mk key place selections).boundary? path = some boundary
          ∨ ∃ behind, selections.boundaries? own path = some behind ∧ boundary ∈ behind))
      ∨ ∃ spread ∈ spreads, ∃ boundaries, own spread.name = some boundaries
        ∧ ∃ inner ∈ boundaries, inner.rebased path = boundary := by
  rcases boundaries?_eq_some_iff.mp walk with
    ⟨belowFields, behindBranches, ofSpreads, isFields, isBranches, isSpreads, rfl⟩
  simp only [List.mem_append] at mem
  rcases mem with (isBelow | isBehind) | isSpread
  · rcases exists_of_mem_concatMap? isFields isBelow with ⟨field, fieldMem, list, isList, inList⟩
    cases field with
    | scalar summary =>
        rcases Option.some.inj isList with rfl
        cases inList
    | entity summary place selections =>
        exact Or.inl ⟨summary, place, selections, fieldMem, list, isList, inList⟩
  · rcases exists_of_mem_concatMap? isBranches isBehind with
      ⟨⟨key, place, selections⟩, branchMem, list, isList, inList⟩
    rcases TreeBranch.boundaries?_eq_some_iff.mp isList with ⟨behind, isBehind, rfl⟩
    refine Or.inr (Or.inl ⟨key, place, selections, branchMem, ?_⟩)
    rcases List.mem_append.mp inList with isSet | isDeeper
    · exact Or.inl (Option.mem_toList.mp isSet)
    · exact Or.inr ⟨behind, isBehind, isDeeper⟩
  · rcases exists_of_mem_concatMap? isSpreads isSpread with
      ⟨spread, spreadMem, list, isList, inList⟩
    rcases Option.map_eq_some_iff.mp isList with ⟨boundaries, isOwn, rfl⟩
    exact Or.inr (Or.inr ⟨spread, spreadMem, boundaries, isOwn, List.mem_map.mp inList⟩)

section Growth

variable (grows : ∀ name boundaries, own name = some boundaries → other name = some boundaries)

include grows

theorem Spread.boundaries?_mono {spread : Spread} {found : List DeferBoundary}
    (isFound : spread.boundaries? own path = some found) :
    spread.boundaries? other path = some found := by
  rcases Option.map_eq_some_iff.mp isFound with ⟨boundaries, isOwn, rfl⟩
  exact Option.map_eq_some_iff.mpr ⟨boundaries, grows _ _ isOwn, rfl⟩

theorem SelectionTree.boundaries?_mono (tree : SelectionTree) : ∀ path found,
    tree.boundaries? own path = some found → tree.boundaries? other path = some found := by
  induction tree using SelectionTree.of_parts with
  | step fields branches spreads ofFields ofBranches =>
      intro path found isFound
      rcases boundaries?_eq_some_iff.mp isFound with
        ⟨belowFields, behindBranches, ofSpreads, isFields, isBranches, isSpreads, rfl⟩
      refine boundaries?_eq_some_iff.mpr ⟨belowFields, behindBranches, ofSpreads,
        concatMap?_mono ?_ isFields, concatMap?_mono ?_ isBranches,
        concatMap?_mono (fun _ _ _ => Spread.boundaries?_mono grows) isSpreads, rfl⟩
      · intro field mem list isList
        cases field with
        | scalar => exact isList
        | entity summary place selections => exact ofFields _ _ _ mem _ _ isList
      · rintro ⟨key, place, selections⟩ mem list isList
        rcases TreeBranch.boundaries?_eq_some_iff.mp isList with ⟨behind, isBehind, rfl⟩
        exact TreeBranch.boundaries?_eq_some_iff.mpr
          ⟨behind, ofBranches _ _ _ mem _ _ isBehind, rfl⟩

theorem TreeField.boundaries?_mono {field : TreeField} {found : List DeferBoundary}
    (isFound : field.boundaries? own path = some found) :
    field.boundaries? other path = some found := by
  cases field with
  | scalar => exact isFound
  | entity summary place selections => exact selections.boundaries?_mono grows _ _ isFound

theorem TreeBranch.boundaries?_mono {branch : TreeBranch} {found : List DeferBoundary}
    (isFound : branch.boundaries? own path = some found) :
    branch.boundaries? other path = some found := by
  rcases branch with ⟨key, place, selections⟩
  rcases TreeBranch.boundaries?_eq_some_iff.mp isFound with ⟨behind, isBehind, rfl⟩
  exact TreeBranch.boundaries?_eq_some_iff.mpr
    ⟨behind, selections.boundaries?_mono grows _ _ isBehind, rfl⟩

end Growth

end Walk

section Depictions

variable {project : Project} {own : Name → Option (List DeferBoundary)}

/-- Trees that depict the same selections in one scope have the same boundaries. -/
theorem Depicts.boundaries?_eq {levels otherLevels : Nat} {place other : Place}
    {selections : List Selection} {tree otherTree : SelectionTree}
    (depicts : Depicts project levels place selections tree)
    (otherDepicts : Depicts project otherLevels other selections otherTree)
    (sameScope : other.scope = place.scope) (path : List Name) :
    tree.boundaries? own path = otherTree.boundaries? own path := by
  induction levels generalizing otherLevels place other selections tree otherTree path with
  | zero => cases depicts
  | succ levels ih =>
      cases otherLevels with
      | zero => cases otherDepicts
      | succ otherLevels =>
          rcases depicts.isTwin otherDepicts sameScope with ⟨ofFields, ofBranches, ofSpreads⟩
          simp only [SelectionTree.boundaries?, TreeField.boundariesOfAll?_eq,
            TreeBranch.boundariesOfAll?_eq]
          rw [concatMap?_congr (ofFields.imp ?fields), concatMap?_congr (ofBranches.imp ?branches),
            concatMap?_congr (ofSpreads.imp ?spreads)]
          case fields =>
            rintro _ _ (_ | below)
            · rfl
            · rcases below.depict with ⟨_, inner, twin⟩
              exact ih inner twin below.scope _
          case branches =>
            rintro _ _ ⟨-, -, behind⟩
            rcases behind.depict with ⟨_, inner, twin⟩
            simp only [TreeBranch.boundaries?, TreeBranch.boundary?, Place.type, behind.scope,
              ih inner twin behind.scope]
          case spreads =>
            intro spread twin same
            rw [Spread.boundaries?, Spread.boundaries?, same]

end Depictions

namespace Mentions

@[simp]
theorem boundaries_append (mentions later : Mentions) :
    (mentions ++ later).boundaries = mentions.boundaries ++ later.boundaries := rfl

@[simp]
theorem boundaries_concat (mentions : List Mentions) :
    (concat mentions).boundaries = mentions.flatMap (·.boundaries) := by
  have ofFold (start : Mentions) : (mentions.foldl append start).boundaries
      = start.boundaries ++ mentions.flatMap (·.boundaries) := by
    induction mentions generalizing start with
    | nil => simp
    | cons first rest ih => simp [ih, append]
  exact ofFold empty

end Mentions

namespace Build

variable {project : Project} {law : Law} {own : Name → Workspace → Option (List DeferBoundary)}
  {fragment : Name → Build FragmentShape}

/-- Whether a built part mentions the boundaries that a walk of it crosses. -/
def Lists {α : Type} (boundaries? : α → Option (List DeferBoundary)) (built : Built α) : Prop :=
  boundaries? built.value = some built.mentions.boundaries

/-- Parts that list their boundaries do so together. -/
theorem Lists.sequence {α : Type} {boundaries? : α → Option (List DeferBoundary)}
    {parts : List (Built α)} (each : ∀ part ∈ parts, Lists boundaries? part) :
    Lists (concatMap? boundaries?) (Built.sequence parts) := by
  refine concatMap?_eq_some_iff.mpr ⟨parts.map (·.mentions.boundaries), ?_, ?_⟩
  · rw [Built.sequence, List.forall₂_map_left_iff, List.forall₂_map_right_iff, List.forall₂_same]
    exact each
  · simp [Built.sequence, List.flatMap_def, Function.comp_def]

/-- Whether built parts mention the boundaries that walks of them cross, where fragments have
boundaries of their own. -/
def listed (own : Name → Workspace → Option (List DeferBoundary)) : PartProperty where
  ofTree path built workspace := Lists (SelectionTree.boundaries? (own · workspace) path) built
  ofField path built workspace := Lists (TreeField.boundaries? (own · workspace) path) built
  ofBranch path built workspace := Lists (TreeBranch.boundaries? (own · workspace) path) built
  ofSpread path built workspace := Lists (Spread.boundaries? (own · workspace) path) built

/-- Boundaries are listed part by part. -/
theorem composes_listed (stable : ∀ first second, law.grows first second → ∀ name boundaries,
      own name first = some boundaries → own name second = some boundaries) :
    (listed own).Composes law fun name shape workspace =>
      own name workspace = some shape.mentions.boundaries where
  scalar _ _ _ := rfl
  entity _ _ _ _ _ lists := lists
  branch path key place built workspace lists := by
    simp only [listed, Lists] at lists
    simp only [listed, Lists, TreeBranch.boundaries?, lists, crossed, Mentions.boundaries_append,
      TreeBranch.boundary?]
    cases key.defer <;> rfl
  spread path name place conditions shape workspace isOwn := by
    simp only [listed, Lists, Spread.boundaries?, isOwn, Option.map_some]
  tree path fields branches spreads workspace ofFields ofBranches ofSpreads :=
    SelectionTree.boundaries?_eq_some_iff.mpr ⟨_, _, _, Lists.sequence ofFields,
      Lists.sequence ofBranches, Lists.sequence ofSpreads, rfl⟩
  field_stays _ _ _ _ growth := TreeField.boundaries?_mono (stable _ _ growth)
  branch_stays _ _ _ _ growth := TreeBranch.boundaries?_mono (stable _ _ growth)
  spread_stays _ _ _ _ growth := Spread.boundaries?_mono (stable _ _ growth)

theorem ensures_boundaries?
    (stable : ∀ name boundaries first second, law.grows first second →
      own name first = some boundaries → own name second = some boundaries)
    (ofEntity : ∀ location typePath,
      Ensures law (fun _ => True) (entityAt location typePath) fun _ _ => True)
    (ofFragment : ∀ name, Ensures law (fun _ => True) (fragment name) fun shape workspace =>
      own name workspace = some shape.mentions.boundaries)
    (levels : Nat) (path : List Name) (place : Place) (written : List Selection) :
    Ensures law (fun _ => True) (selections project fragment levels path place written)
      fun built workspace => Lists (SelectionTree.boundaries? (own · workspace) path) built :=
  (composes_listed fun first second growth name boundaries =>
    stable name boundaries first second growth).ensures_selections ofEntity ofFragment levels path
      place written

end Build

end ResponseShape
