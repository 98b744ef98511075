import ResponseShape.Proofs.Merging.Steps
import ResponseShape.Proofs.Workspace.Identity

/-!
# Lookups among what is visible

What is visible is kept in several stores: what is written, what of it is widened, and what merging
adds. Lists of fields, branches and spreads are put together from these stores, while lookups ask
one after the other. Both agree (`VisibleSelections.IsConsistent`): no two members of a list have
equal keys, and a lookup finds the member that has the key it is asked for.

Fields and spreads are known by their names. Branches are known by their narrowings, which compare
equal in whatever order their tests are written. What is written keeps its position and whatever it
selects; merging can weaken the conditions of a field, but never strengthens them
(`Additions.AreWeaker`).
-/

namespace ResponseShape

section Lookups

variable {α κ : Type} [BEq κ] [EquivBEq κ] {key other : α → κ} {members : List α}
  {find? : κ → Option α} {wanted : κ} {member : α}

omit [EquivBEq κ] in
/-- Whether a lookup finds just the members of a list by their keys, of which no two are equal. -/
structure LooksUp (key : α → κ) (members : List α) (find? : κ → Option α) : Prop where
  distinct : members.Pairwise fun member later => (key member == key later) = false
  find?_eq_some_iff : ∀ wanted member,
    find? wanted = some member ↔ member ∈ members ∧ (key member == wanted) = true

/-- Where keys are distinct, a member is the first one with its key. -/
theorem find?_eq_some_iff_of_distinct
    (distinct : members.Pairwise fun member later => (key member == key later) = false) :
    members.find? (key · == wanted) = some member
      ↔ member ∈ members ∧ (key member == wanted) = true := by
  refine ⟨fun found => ⟨List.mem_of_find?_eq_some found, by simpa using List.find?_some found⟩, ?_⟩
  rintro ⟨mem, isWanted⟩
  rcases List.append_of_mem mem with ⟨before, after, rfl⟩
  refine List.find?_eq_some_iff_append.mpr
    ⟨isWanted, before, after, rfl, fun earlier isBefore => ?_⟩
  have differs := (List.pairwise_append.mp distinct).2.2 earlier isBefore member List.mem_cons_self
  rw [Bool.not_eq_true', ← differs]
  exact (BEq.congr_right isWanted).symm

theorem looksUp_of_find?
    (distinct : members.Pairwise fun member later => (key member == key later) = false)
    (isFind : ∀ wanted, find? wanted = members.find? (key · == wanted)) :
    LooksUp key members find? := by
  refine ⟨distinct, fun wanted member => ?_⟩
  rw [isFind, find?_eq_some_iff_of_distinct distinct]

omit [EquivBEq κ] in
theorem LooksUp.congr (looksUp : LooksUp key members find?)
    (same : ∀ member ∈ members, other member = key member) : LooksUp other members find? := by
  constructor
  · refine looksUp.distinct.imp_of_mem fun mem laterMem differs => ?_
    rw [same _ mem, same _ laterMem, differs]
  · intro wanted member
    rw [looksUp.find?_eq_some_iff]
    exact and_congr_right fun mem => by rw [same member mem]

theorem distinct_of_nodup {key : α → Name} (nodup : (members.map key).Nodup) :
    members.Pairwise fun member later => (key member == key later) = false :=
  (List.pairwise_map.mp nodup).imp fun differs => beq_eq_false_iff_ne.mpr differs

theorem pairwise_distinct (members : List κ) :
    (distinct members).Pairwise fun member later => (member == later) = false := by
  induction members using List.reverseRecOn with
  | nil => exact .nil
  | append_singleton earlier last ih =>
      rw [distinct_append_singleton, appendNew]
      split
      next => exact ih
      next isNew =>
        refine List.pairwise_append.mpr ⟨ih, List.pairwise_singleton _ _, fun member mem => ?_⟩
        rw [List.contains_eq_any_beq, Bool.not_eq_true, List.any_eq_false] at isNew
        rw [List.forall_mem_singleton, BEq.comm, ← Bool.not_eq_true]
        exact isNew member mem

/-- Keys stay distinct where those are added that are new. -/
theorem distinct_append_added {own added : List α} {candidates : List κ}
    (ownDistinct : own.Pairwise fun member later => (key member == key later) = false)
    (keys : added.map key = distinct candidates)
    (isNew : ∀ candidate ∈ candidates, ∀ member ∈ own, (key member == candidate) = false) :
    (own ++ added).Pairwise fun member later => (key member == key later) = false := by
  refine List.pairwise_append.mpr ⟨ownDistinct, ?_, fun member mem later laterMem => ?_⟩
  · have addedDistinct := pairwise_distinct candidates
    rw [← keys] at addedDistinct
    exact List.pairwise_map.mp addedDistinct
  · have isKey := List.mem_map_of_mem (f := key) laterMem
    rw [keys] at isKey
    exact isNew _ (mem_of_mem_distinct isKey) member mem

/-- What is listed in a tree, if there is one, and what is added under keys that the tree does not
have can be asked for one after the other. -/
theorem looksUp_added {tree? : Option SelectionTree} {own : SelectionTree → List α}
    {added : List α} {candidates : List κ}
    (ownDistinct : ∀ tree, tree? = some tree →
      (own tree).Pairwise fun member later => (key member == key later) = false)
    (keys : added.map key = distinct candidates)
    (isNew : ∀ candidate ∈ candidates,
      tree?.bind (fun tree => (own tree).find? (key · == candidate)) = none) :
    LooksUp key ((tree?.map own).getD [] ++ added) fun wanted =>
      (tree?.bind fun tree => (own tree).find? (key · == wanted)).or
        (added.find? (key · == wanted)) := by
  cases tree? with
  | none =>
      refine looksUp_of_find? (distinct_append_added .nil keys fun _ _ _ mem => ?_) fun _ => rfl
      cases mem
  | some tree =>
      refine looksUp_of_find? (distinct_append_added (ownDistinct tree rfl) keys ?_)
        fun wanted => ?_
      · intro candidate isCandidate member mem
        exact Bool.eq_false_iff.mpr (List.find?_eq_none.mp (isNew candidate isCandidate) member mem)
      · exact List.find?_append.symm

end Lookups

section Weakening

/-- Whether a field is another one under conditions that hold wherever those of the other do. -/
structure Field.WeakensTo (direct field : Field) : Prop where
  isUnder : field = direct.under field.summary.conditions
  holds : ∀ assignment, direct.holds assignment = true → field.holds assignment = true

/-- Whether merging has widened direct fields only, and has only weakened their conditions. -/
def Additions.AreWeaker (target : MergeTarget) (additions : Additions) : Prop :=
  ∀ field ∈ additions.widened, ∃ direct, target.directField? field.responseKey = some direct
    ∧ direct.WeakensTo field

variable {target : MergeTarget} {additions next : Additions} {direct field : Field}
  {incoming : Option Alternatives} {contributed : Bool}

theorem Field.WeakensTo.refl (field : Field) : field.WeakensTo field :=
  ⟨rfl, fun _ => id⟩

theorem Field.WeakensTo.responseKey (weakens : direct.WeakensTo field) :
    field.responseKey = direct.responseKey := by
  rw [weakens.isUnder]
  rfl

theorem Field.WeakensTo.union (weakens : direct.WeakensTo field)
    (incoming : Option Alternatives) :
    direct.WeakensTo (field.under (Alternatives.union field.summary.conditions incoming)) := by
  constructor
  · rw [weakens.isUnder]
    rfl
  · intro assignment holds
    have before := weakens.holds assignment holds
    rw [Field.holds] at before
    simp [Field.holds, Field.under, before]

namespace Additions.AreWeaker

theorem empty : Additions.empty.AreWeaker target :=
  fun _ mem => by cases mem

theorem congr (weaker : additions.AreWeaker target) (same : next.widened = additions.widened) :
    next.AreWeaker target := by
  rwa [AreWeaker, same]

/-- A direct field, as it is now, has become weaker at most. -/
theorem weakensTo_widened? (weaker : additions.AreWeaker target)
    (isDirect : target.directField? direct.responseKey = some direct) :
    direct.WeakensTo ((additions.widened? direct.responseKey).getD direct) := by
  cases found : additions.widened? direct.responseKey with
  | none => exact .refl direct
  | some widened =>
      rcases weaker widened (List.mem_of_find?_eq_some found) with ⟨original, isOriginal, weakens⟩
      have isKey : widened.responseKey = direct.responseKey := by simpa using List.find?_some found
      rw [isKey, isDirect, Option.some.injEq] at isOriginal
      rwa [isOriginal]

theorem widen (weaker : additions.AreWeaker target)
    (isDirect : target.directField? direct.responseKey = some direct) :
    (MergeTarget.widen additions direct incoming).1.AreWeaker target := by
  have current := weaker.weakensTo_widened? isDirect
  simp only [MergeTarget.widen]
  split
  next => exact weaker
  next conditions isConditions =>
    split
    next => exact weaker
    next =>
      have widened := current.union incoming
      rw [isConditions] at widened
      have isWidened := And.intro (widened.responseKey ▸ isDirect) widened
      exact forall_mem_updateOrAppend weaker ⟨direct, isWidened⟩ fun _ _ => ⟨direct, isWidened⟩

theorem mergeField (weaker : additions.AreWeaker target)
    (run : target.mergeField additions field = .ok (next, contributed)) :
    next.AreWeaker target := by
  cases MergeTarget.mergesField_of_mergeField run with
  | refused => exact weaker
  | widened _ isDirect _ =>
      rw [← MergeTarget.responseKey_of_directField? isDirect] at isDirect
      exact weaker.widen isDirect
  | united => exact weaker
  | added => exact weaker

end Additions.AreWeaker

theorem SelectionSet.areWeaker_of_visible {schema : Schema} {entities : EntityTable}
    {set : SelectionSet} {strategy : MergingStrategy} {visible : VisibleSelections}
    (run : set.visible schema entities strategy = .ok visible) :
    visible.additions.AreWeaker (set.mergeTarget schema entities) := by
  refine additions_of_visible .empty ?_ ?_ ?_ run
  · exact fun _ _ _ _ _ weaker step => weaker.mergeField step
  · intro _ _ _ weaker
    simp only [MergeTarget.mergeSpread]
    split <;> exact weaker
  · intro _ _ _ _ weaker step
    exact weaker.congr (by rw [MergeTarget.eq_of_mergeBranch step])

end Weakening

/-- Whether lookups agree with the lists that they look into, and what is written at a set is listed
where it is written, as it is but for weaker conditions. -/
structure VisibleSelections.IsConsistent (set : SelectionSet) (visible : VisibleSelections) :
    Prop where
  fields : LooksUp (·.responseKey) visible.fields visible.field?
  branches : LooksUp (·.narrowing) visible.branches visible.branch?
  spreads : LooksUp (·.name) visible.spreads visible.spread?
  direct : ∀ (position : Nat) (direct : Field), set.directFields[position]? = some direct →
    ∃ field, visible.fields[position]? = some field ∧ direct.WeakensTo field

section Stores

theorem SelectionSet.distinct_directFields {set : SelectionSet} (orderly : set.IsOrderly) :
    set.directFields.Pairwise fun field later =>
      (field.responseKey == later.responseKey) = false := by
  cases isTree : set.direct with
  | none => simp [directFields, isTree]
  | some tree => simpa [directFields, isTree] using distinct_of_nodup (orderly tree isTree).fields

variable {schema : Schema} {entities : EntityTable} {set : SelectionSet}
  {strategy : MergingStrategy} {visible : VisibleSelections} {direct : Field}
  (orderly : set.IsOrderly) (run : set.visible schema entities strategy = .ok visible)

include run

theorem VisibleSelections.fields_eq : visible.fields = set.directFields.map (fun direct =>
    (visible.additions.widened? direct.responseKey).getD direct) ++ visible.additions.fields := by
  rw [fields, (SelectionSet.hasMerged_of_visible run).2.1]
  rfl

include orderly

/-- A direct field is weakened at most. -/
theorem VisibleSelections.weakensTo_of_mem (mem : direct ∈ set.directFields) :
    direct.WeakensTo ((visible.additions.widened? direct.responseKey).getD direct) :=
  (SelectionSet.areWeaker_of_visible run).weakensTo_widened? (orderly.directField? mem)

theorem VisibleSelections.distinct_fields :
    visible.fields.Pairwise fun field later =>
      (field.responseKey == later.responseKey) = false := by
  rcases SelectionSet.hasMerged_of_visible run with ⟨-, -, merged⟩
  have key {direct : Field} (mem : direct ∈ set.directFields) :=
    (weakensTo_of_mem orderly run mem).responseKey
  rw [fields_eq run]
  refine distinct_append_added ?_ merged.fields.keys fun candidate isCandidate field mem => ?_
  · refine List.pairwise_map.mpr ((SelectionSet.distinct_directFields orderly).imp_of_mem ?_)
    intro direct later mem laterMem differs
    rw [key mem, key laterMem, differs]
  · rcases List.mem_map.mp isCandidate with ⟨source, sourceMem, rfl⟩
    rcases List.mem_map.mp mem with ⟨direct, directMem, rfl⟩
    have isNew := (List.mem_filter.mp sourceMem).2
    rw [MergeTarget.isNew, Bool.and_eq_true, Option.isNone_iff_eq_none,
      SelectionSet.directField?_eq_none] at isNew
    rw [key directMem]
    exact beq_eq_false_iff_ne.mpr (isNew.2 direct directMem)

theorem VisibleSelections.looksUp_fields :
    LooksUp (·.responseKey) visible.fields visible.field? := by
  have distinct := distinct_fields orderly run
  refine looksUp_of_find? distinct fun wanted => ?_
  rw [field?, (SelectionSet.hasMerged_of_visible run).2.1]
  cases found : (set.mergeTarget schema entities).directField? wanted with
  | some direct =>
      -- a field that is written is found where it is listed, widened or not
      have isKey := MergeTarget.responseKey_of_directField? found
      have mem := SelectionSet.mem_of_directField? found
      have hasKey := (weakensTo_of_mem orderly run mem).responseKey
      have listed : (visible.additions.widened? wanted).getD direct ∈ visible.fields := by
        rw [fields_eq run, ← isKey]
        exact List.mem_append_left _ (List.mem_map_of_mem mem)
      rw [isKey] at hasKey
      rw [(find?_eq_some_iff_of_distinct distinct).mpr ⟨listed, beq_iff_eq.mpr hasKey⟩,
        show set.direct.bind (·.field? wanted) = some direct from found, Option.or_some,
        Option.some_or]
  | none =>
      have notWidened : visible.additions.widened? wanted = none := by
        refine List.find?_eq_none.mpr fun field mem isWanted => ?_
        rcases SelectionSet.areWeaker_of_visible run field mem with ⟨direct, isDirect, -⟩
        rw [beq_iff_eq.mp isWanted, found] at isDirect
        cases isDirect
      have notListed : (set.directFields.map fun direct =>
          (visible.additions.widened? direct.responseKey).getD direct).find?
            (·.responseKey == wanted) = none := by
        refine List.find?_eq_none.mpr fun field mem isWanted => ?_
        rcases List.mem_map.mp mem with ⟨direct, directMem, rfl⟩
        rw [(weakensTo_of_mem orderly run directMem).responseKey, beq_iff_eq] at isWanted
        exact SelectionSet.directField?_eq_none.mp found direct directMem isWanted
      rw [fields_eq run, List.find?_append, notListed, notWidened,
        show set.direct.bind (·.field? wanted) = none from found]
      rfl

theorem VisibleSelections.looksUp_spreads : LooksUp (·.name) visible.spreads visible.spread? := by
  rcases SelectionSet.hasMerged_of_visible run with ⟨-, isDirect, merged⟩
  refine looksUp_added (fun tree isTree => ?_) merged.spreads.names fun name isCandidate => ?_
  · exact distinct_of_nodup (orderly tree (isDirect ▸ isTree)).spreads
  · rcases List.mem_map.mp isCandidate with ⟨source, mem, rfl⟩
    rw [isDirect]
    exact Option.isNone_iff_eq_none.mp (List.mem_filter.mp mem).2

theorem VisibleSelections.looksUp_branches : LooksUp (·.key) visible.branches visible.branch? := by
  rcases SelectionSet.hasMerged_of_visible run with ⟨-, isDirect, merged⟩
  refine looksUp_added (fun tree isTree => ?_) merged.branches.keys fun key isCandidate => ?_
  · exact List.pairwise_map.mp (orderly tree (isDirect ▸ isTree)).branches
  · rw [isDirect]
    exact Option.isNone_iff_eq_none.mp (List.mem_filter.mp isCandidate).2

/-- What is visible at a set whose branches lead on by their keys is looked up consistently. -/
theorem VisibleSelections.isConsistent_of_visible
    (narrowings : ∀ branch ∈ visible.branches, branch.narrowing = branch.key) :
    visible.IsConsistent set := by
  refine ⟨looksUp_fields orderly run, (looksUp_branches orderly run).congr narrowings,
    looksUp_spreads orderly run, fun position direct found => ?_⟩
  refine ⟨_, ?_, weakensTo_of_mem orderly run (List.mem_of_getElem? found)⟩
  rcases List.getElem?_eq_some_iff.mp found with ⟨bound, -⟩
  rw [fields_eq run, List.getElem?_append_left (by simpa using bound), List.getElem?_map, found,
    Option.map_some]

end Stores

namespace Session

variable {project : Project} {session : Session} {log : List Request} {request : Request}
  {visible : VisibleSelections}

/-- Whatever a request is answered, be it computed or remembered, is consistent with the set that
the request was made for. -/
theorem isConsistent_of_logs (logs : Logs project log session) (mem : request ∈ log)
    (answered : request.answer project = .ok visible) : visible.IsConsistent request.set := by
  have isLogged := logs.isLogged
  rcases isLogged.answers request mem visible answered with ⟨other, otherMem, same, computed⟩
  rcases isLogged.requests request mem with ⟨-, preserves, root, offers, placed⟩
  rcases isLogged.requests other otherMem with
    ⟨otherAligned, otherPreserves, otherRoot, otherOffers, otherPlaced⟩
  rcases otherAligned.sound.hasBuilt otherOffers.hasRoot with ⟨_, _, _, _, hasBuilt⟩
  have depiction := hasBuilt.built.depiction
  rcases ViewKey.beq_iff.mp same with ⟨place, -, isDirect⟩
  rcases isLogged.aligned.sound.eq_of_offers (otherPreserves.offers otherOffers)
    (preserves.offers offers) (otherPlaced.definition_eq placed place) with rfl
  have direct : other.set.direct = request.set.direct :=
    otherPlaced.direct_eq depiction placed place isDirect
  have orderly := (otherPlaced.written.isDepiction depiction).isOrderly
  have leads {branch : Branch} (branchMem : branch ∈ visible.branches) :=
    VisibleSelections.leadsFrom_of_mem depiction otherPlaced.written computed branchMem
  have consistent : visible.IsConsistent other.set :=
    VisibleSelections.isConsistent_of_visible orderly computed fun branch branchMem =>
      (leads branchMem).narrowing
  refine ⟨consistent.fields, consistent.branches, consistent.spreads, ?_⟩
  rw [SelectionSet.directFields, ← direct]
  exact consistent.direct

end Session

/-- A sample whose fragment selects the same as the operation under other conditions, and more. It
has a branch of its own, and one that the operation has, too, but with its tests in the other
order. -/
def Guests : Sample where
  schemaText :=
    "type Query \x7b guest: Guest \x7d type Guest \x7b name: String age: Int id: ID \x7d"
  sources :=
    [⟨"g.graphql",
      "query Q($a: Boolean!, $b: Boolean!) \x7b guest \x7b name @include(if: $a) "
        ++ "... @include(if: $a) @skip(if: $b) \x7b age \x7d \x7d ...F \x7d "
        ++ "fragment F on Query \x7b guest \x7b name @skip(if: $a) id "
        ++ "... @skip(if: $b) @include(if: $a) \x7b id \x7d "
        ++ "... @include(if: $b) \x7b age \x7d \x7d \x7d"⟩]
  isValid := by decide +kernel

/-- What the fragment asks by its first branch, in its own order. -/
def Guests.swapped : Narrowing :=
  .onConditions ⟨[⟨"b", true⟩, ⟨"a", false⟩], by decide, by decide⟩

/-- On the guest a field is widened, another one added, and the branch of the operation found by the
key of the fragment. -/
theorem Session.isConsistent_guests : ∃ (request : Request) (session : Session)
    (visible : VisibleSelections), Logs Guests.project [request] session
      ∧ request.answer Guests.project = .ok visible
      ∧ visible.additions.widened.map (·.responseKey) = ["name"]
      ∧ visible.fields.map (·.responseKey) = ["name", "id"]
      ∧ (visible.branch? Guests.swapped).isSome = true ∧ visible.IsConsistent request.set := by
  have computes : ((Guests.built.workspace.operation? ⟨0, some "Q"⟩).any fun shape =>
      shape.root.writtenSets.any fun member =>
        ((Request.mk Guests.built.workspace ⟨member.1, some member.2⟩ .all).answer
          Guests.project).toOption.any fun visible =>
            visible.additions.widened.map (·.responseKey) == ["name"]
              && visible.fields.map (·.responseKey) == ["name", "id"]
              && (visible.branch? Guests.swapped).isSome) = true := by
    rewrite [Sample.built, Guests.project_eq]
    decide +kernel
  simp only [List.any_eq_true, Option.any_eq_true, Bool.and_eq_true, beq_iff_eq] at computes
  rcases computes with
    ⟨shape, isShape, member, mem, visible, isVisible, ⟨widened, keys⟩, isFound⟩
  have holds : Guests.built.Holds ⟨member.1, some member.2⟩ :=
    .written (Or.inl ⟨_, shape, isShape, rfl⟩) mem
  have unasked : Logs Guests.project [] Guests.built :=
    Logs.start.call (show start.Allows (.operation (some "Q")) from trivial)
  have logs := unasked.call (show Guests.built.Allows (.viewUnder _ .all) from holds)
  have answered := Build.eq_ok_of_toOption isVisible
  exact ⟨_, _, visible, logs, answered, widened, keys, isFound,
    isConsistent_of_logs logs (List.mem_singleton_self _) answered⟩

end ResponseShape
