/-!
# Lists kept in order of first appearance

Everything this library answers keeps the order in which it was written. Collections with unique
members or unique keys are therefore lists, grown at their end by the operations below.
-/

namespace ResponseShape

universe u

variable {α : Type u}

/-- Adds a member at the end of a list, unless the list already holds it. -/
def appendNew [BEq α] (members : List α) (member : α) : List α :=
  if members.contains member then members else members ++ [member]

/-- The members of a list in order of first appearance, added after those already seen. -/
def appendAllNew [BEq α] (members added : List α) : List α :=
  added.foldl appendNew members

/-- The members of a list, each kept at its first appearance only. -/
def distinct [BEq α] (members : List α) : List α :=
  appendAllNew [] members

/-- Whether no member occurs twice. -/
def areDistinct [BEq α] (members : List α) : Bool := (distinct members).length == members.length

/-- Members together with those reached from the newest of them in a number of steps. -/
def closureFrom [BEq α] (successors : α → List α) : Nat → List α → List α → List α
  | 0, _, members => members
  | steps + 1, newest, members =>
      let found := (distinct (newest.flatMap successors)).filter (!members.contains ·)
      closureFrom successors steps found (members ++ found)

/-- Members together with those reached from them in a number of steps. -/
def closure [BEq α] (successors : α → List α) (steps : Nat) (members : List α) : List α :=
  closureFrom successors steps members members

/-- Changes the first entry that `isEntry` selects, or appends `fresh` if there is none. -/
def updateOrAppend (isEntry : α → Bool) (update : α → α) (fresh : α) : List α → List α
  | [] => [fresh]
  | entry :: rest =>
      if isEntry entry then update entry :: rest
      else entry :: updateOrAppend isEntry update fresh rest

/-- Replacing the value of a key changes what is found under this key only. -/
theorem lookup_updateOrAppend {κ : Type u} [BEq κ] [LawfulBEq κ] [DecidableEq κ]
    (entries : List (κ × α)) (key other : κ) (value : α) :
    (updateOrAppend (·.1 == key) (fun _ => (key, value)) (key, value) entries).lookup other
      = if other = key then some value else entries.lookup other := by
  induction entries with
  | nil => simp only [updateOrAppend, List.lookup_cons, List.lookup_nil]; grind
  | cons head rest ih =>
      obtain ⟨known, old⟩ := head
      simp only [updateOrAppend, List.lookup_cons]
      grind

end ResponseShape
