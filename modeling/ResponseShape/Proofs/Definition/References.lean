import ResponseShape.Proofs.Definition.Composition

/-!
# Referenced fragments

A definition references the fragments that its tree spreads, and those that they reference in turn.
What is mentioned is gathered on the way: a spread adds its fragment and whatever the fragment
mentions by then, a part adds what its own parts mention, and a branch that is dropped adds nothing.
So a tree mentions just what it spreads and what the spread fragments mention (`CoversSpreads`),
whatever it was built from (`Build.composes_covering`). If the fragments mention what they
reference, so does the tree, and nothing else (`IsClosure.mem_iff`).
-/

namespace ResponseShape

/-- Whether a fragment is spread in a tree: at its root, below a field or behind a branch. -/
inductive SelectionTree.Spreads (name : Name) : SelectionTree → Prop where
  | ofRoot {fields : List TreeField} {branches : List TreeBranch} {spreads : List Spread}
      {spread : Spread} (mem : spread ∈ spreads) (isNamed : spread.name = name) :
      Spreads name (.mk fields branches spreads)
  | ofField {fields : List TreeField} {branches : List TreeBranch} {spreads : List Spread}
      {summary : FieldSummary} {place : Place} {selections : SelectionTree}
      (mem : .entity summary place selections ∈ fields) (isSpread : Spreads name selections) :
      Spreads name (.mk fields branches spreads)
  | ofBranch {fields : List TreeField} {branches : List TreeBranch} {spreads : List Spread}
      {key : Narrowing} {place : Place} {selections : SelectionTree}
      (mem : .mk key place selections ∈ branches) (isSpread : Spreads name selections) :
      Spreads name (.mk fields branches spreads)

/-- Whether a tree leads to a fragment: by a spread, or by one of another fragment whose tree leads
to it. Spreads hold the shapes of their fragments. -/
inductive SelectionTree.References (shape? : Name → Option FragmentShape) (name : Name) :
    SelectionTree → Prop where
  | spread {tree : SelectionTree} (isSpread : tree.Spreads name) : References shape? name tree
  | further {tree : SelectionTree} {other : Name} {shape : FragmentShape}
      (isSpread : tree.Spreads other) (isShape : shape? other = some shape)
      (references : References shape? name shape.root.selections) : References shape? name tree

def TreeField.Spreads (name : Name) : TreeField → Prop
  | .scalar _ => False
  | .entity _ _ selections => selections.Spreads name

def TreeBranch.Spreads (name : Name) : TreeBranch → Prop
  | .mk _ _ selections => selections.Spreads name

theorem SelectionTree.spreads_mk_iff {fields : List TreeField} {branches : List TreeBranch}
    {spreads : List Spread} {name : Name} :
    (SelectionTree.mk fields branches spreads).Spreads name ↔
      ((∃ field ∈ fields, field.Spreads name) ∨ ∃ branch ∈ branches, branch.Spreads name)
        ∨ ∃ spread ∈ spreads, spread.name = name := by
  constructor
  · rintro (⟨mem, isNamed⟩ | ⟨mem, isSpread⟩ | ⟨mem, isSpread⟩)
    · exact .inr ⟨_, mem, isNamed⟩
    · exact .inl (.inl ⟨_, mem, isSpread⟩)
    · exact .inl (.inr ⟨_, mem, isSpread⟩)
  · rintro ((⟨field, mem, isSpread⟩ | ⟨⟨key, place, selections⟩, mem, isSpread⟩)
      | ⟨spread, mem, isNamed⟩)
    · cases field with
      | scalar => cases isSpread
      | entity => exact .ofField mem isSpread
    · exact .ofBranch mem isSpread
    · exact .ofRoot mem isNamed

theorem SelectionTree.References.mono {shape? other? : Name → Option FragmentShape} {name : Name}
    {tree : SelectionTree} (references : tree.References shape? name)
    (grows : ∀ name shape, shape? name = some shape → other? name = some shape) :
    tree.References other? name := by
  induction references with
  | spread isSpread => exact .spread isSpread
  | further isSpread isShape _ ih => exact .further isSpread (grows _ _ isShape) ih

/-- Whether names are, each once, those of fragments that are spread, which are known, and of those
that these mention. -/
structure CoversSpreads (shape? : Name → Option FragmentShape) (isSpread : Name → Prop)
    (names : List Name) : Prop where
  nodup : names.Nodup
  known : ∀ spread, isSpread spread → ∃ shape, shape? spread = some shape
  mem_iff : ∀ name, name ∈ names ↔ isSpread name ∨ ∃ spread shape,
    isSpread spread ∧ shape? spread = some shape ∧ name ∈ shape.mentions.fragments

namespace CoversSpreads

variable {shape? other? : Name → Option FragmentShape} {isSpread other : Name → Prop}
  {names more : List Name}

theorem mono (covers : CoversSpreads shape? isSpread names)
    (grows : ∀ name shape, shape? name = some shape → other? name = some shape) :
    CoversSpreads other? isSpread names where
  nodup := covers.nodup
  known spread made := (covers.known spread made).imp fun shape => grows spread shape
  mem_iff name := by
    rw [covers.mem_iff]
    apply or_congr_right
    constructor
    · rintro ⟨spread, shape, made, isShape, mem⟩
      exact ⟨spread, shape, made, grows spread shape isShape, mem⟩
    · rintro ⟨spread, shape, made, isShape, mem⟩
      rcases covers.known spread made with ⟨known, isKnown⟩
      rcases Option.some.inj ((grows spread known isKnown).symm.trans isShape) with rfl
      exact ⟨spread, known, made, isKnown, mem⟩

theorem congr (covers : CoversSpreads shape? isSpread names)
    (same : ∀ name, isSpread name ↔ other name) : CoversSpreads shape? other names := by
  rwa [show other = isSpread from funext fun name => propext (same name).symm]

theorem empty : CoversSpreads shape? (fun _ => False) [] where
  nodup := List.nodup_nil
  known _ made := made.elim
  mem_iff := by simp

theorem spread {name : Name} {shape : FragmentShape} (isShape : shape? name = some shape) :
    CoversSpreads shape? (name = ·) (appendAllNew [name] shape.mentions.fragments) where
  nodup := nodup_appendAllNew (by simp) _
  known := by
    rintro _ rfl
    exact ⟨shape, isShape⟩
  mem_iff other := by
    simp only [mem_appendAllNew, List.mem_singleton]
    constructor
    · rintro (rfl | mem)
      · exact .inl rfl
      · exact .inr ⟨name, shape, rfl, isShape, mem⟩
    · rintro (rfl | ⟨_, found, rfl, isFound, mem⟩)
      · exact .inl rfl
      · rcases Option.some.inj (isShape.symm.trans isFound) with rfl
        exact .inr mem

theorem append (covers : CoversSpreads shape? isSpread names)
    (others : CoversSpreads shape? other more) :
    CoversSpreads shape? (fun name => isSpread name ∨ other name) (appendAllNew names more) where
  nodup := nodup_appendAllNew covers.nodup more
  known spread made := made.elim (covers.known spread) (others.known spread)
  mem_iff name := by
    rw [mem_appendAllNew, covers.mem_iff, others.mem_iff]
    constructor
    · rintro ((here | ⟨spread, shape, made, rest⟩) | (here | ⟨spread, shape, made, rest⟩))
      · exact .inl (.inl here)
      · exact .inr ⟨spread, shape, .inl made, rest⟩
      · exact .inl (.inr here)
      · exact .inr ⟨spread, shape, .inr made, rest⟩
    · rintro ((here | here) | ⟨spread, shape, made | made, rest⟩)
      · exact .inl (.inl here)
      · exact .inr (.inl here)
      · exact .inl (.inr ⟨spread, shape, made, rest⟩)
      · exact .inr (.inr ⟨spread, shape, made, rest⟩)

/-- Several parts mention together what each of them mentions. -/
theorem sequence {α : Type} {spreads : α → Name → Prop} {parts : List (Built α)}
    (each : ∀ part ∈ parts, CoversSpreads shape? (spreads part.value) part.mentions.fragments) :
    CoversSpreads shape? (fun name => ∃ value ∈ (Built.sequence parts).value, spreads value name)
      (Built.sequence parts).mentions.fragments := by
  have ofFold {isSpread : Name → Prop} (mentions : Mentions)
      (covers : CoversSpreads shape? isSpread mentions.fragments) :
      CoversSpreads shape? (fun name => isSpread name ∨ ∃ part ∈ parts, spreads part.value name)
        ((parts.map (·.mentions)).foldl Mentions.append mentions).fragments := by
    induction parts generalizing isSpread mentions with
    | nil => exact covers.congr fun name => by simp
    | cons part rest ih =>
        rw [List.forall_mem_cons] at each
        apply (ih each.2 _ (covers.append each.1)).congr
        intro name
        simp only [List.exists_mem_cons_iff, or_assoc]
  apply (ofFold .empty empty).congr
  intro name
  simp [Built.sequence]

end CoversSpreads

/-- Whether names are those that a tree references, in that each is referenced and all that are
spread, or mentioned by what is spread, are among them. -/
structure IsClosure (shape? : Name → Option FragmentShape) (tree : SelectionTree)
    (names : List Name) : Prop where
  covers : CoversSpreads shape? (tree.Spreads ·) names
  references : ∀ name ∈ names, tree.References shape? name

namespace IsClosure

variable {shape? other? : Name → Option FragmentShape} {tree : SelectionTree} {names : List Name}
  {name : Name}

theorem mono (closure : IsClosure shape? tree names)
    (grows : ∀ name shape, shape? name = some shape → other? name = some shape) :
    IsClosure other? tree names where
  covers := closure.covers.mono grows
  references name mem := (closure.references name mem).mono grows

section Closed

variable (ofShapes : ∀ name shape, shape? name = some shape →
  IsClosure shape? shape.root.selections shape.mentions.fragments)

include ofShapes

theorem of_covers (covers : CoversSpreads shape? (tree.Spreads ·) names) :
    IsClosure shape? tree names where
  covers := covers
  references name mem := by
    rcases (covers.mem_iff name).mp mem with isSpread | ⟨spread, shape, isSpread, isShape, inner⟩
    · exact .spread isSpread
    · exact .further isSpread isShape ((ofShapes spread shape isShape).references name inner)

/-- A tree mentions what it references, if fragments do. -/
theorem mem_iff (closure : IsClosure shape? tree names) :
    name ∈ names ↔ tree.References shape? name := by
  refine ⟨closure.references name, fun references => ?_⟩
  induction references generalizing names with
  | spread isSpread => exact (closure.covers.mem_iff name).mpr (.inl isSpread)
  | further isSpread isShape _ ih =>
      have inner := ih (ofShapes _ _ isShape)
      exact (closure.covers.mem_iff name).mpr (.inr ⟨_, _, isSpread, isShape, inner⟩)

theorem exists_shape (closure : IsClosure shape? tree names) (mem : name ∈ names) :
    ∃ shape, shape? name = some shape := by
  induction closure.references name mem generalizing names with
  | spread isSpread => exact closure.covers.known name isSpread
  | further _ isShape references ih =>
      have ofShape := ofShapes _ _ isShape
      exact ih ofShape ((ofShape.mem_iff ofShapes).mpr references)

end Closed

end IsClosure

namespace Build

/-- What built parts mention covers their spreads. -/
def covering : PartProperty where
  ofTree _ built workspace :=
    CoversSpreads workspace.fragment? (built.value.Spreads ·) built.mentions.fragments
  ofField _ built workspace :=
    CoversSpreads workspace.fragment? (built.value.Spreads ·) built.mentions.fragments
  ofBranch _ built workspace :=
    CoversSpreads workspace.fragment? (built.value.Spreads ·) built.mentions.fragments
  ofSpread _ built workspace :=
    CoversSpreads workspace.fragment? (built.value.name = ·) built.mentions.fragments

/-- What is built mentions the fragments that it spreads and what they mention. -/
theorem composes_covering {law : Law} (stable : ∀ first second, law.grows first second →
      ∀ name shape, first.fragment? name = some shape → second.fragment? name = some shape) :
    covering.Composes law fun name shape workspace => workspace.fragment? name = some shape where
  scalar _ _ _ := CoversSpreads.empty
  entity _ _ _ _ _ covers := covers
  branch path key place built workspace covers := by
    have same : (crossed path place key ++ built.mentions).fragments = built.mentions.fragments :=
      distinct_eq_self covers.nodup
    simp only [covering, same]
    exact covers
  spread _ _ _ _ _ _ isShape := CoversSpreads.spread isShape
  tree path fields branches spreads workspace ofFields ofBranches ofSpreads :=
    (((CoversSpreads.sequence ofFields).append (CoversSpreads.sequence ofBranches)).append
      (CoversSpreads.sequence ofSpreads)).congr fun _ => SelectionTree.spreads_mk_iff.symm
  field_stays _ _ first second growth covers := covers.mono (stable first second growth)
  branch_stays _ _ first second growth covers := covers.mono (stable first second growth)
  spread_stays _ _ first second growth covers := covers.mono (stable first second growth)

end Build

end ResponseShape
