import Mathlib.Data.List.Forall2
import Mathlib.Data.List.Induction
import ResponseShape.Ordered

/-!
# Laws of ordered collections

What is in a list that was grown member by member, and that its members, or the keys of its entries,
stay distinct.
-/

namespace ResponseShape

universe u v

variable {α : Type u} {β : Type v}

section Members

variable [BEq α]

theorem distinct_append (members added : List α) :
    distinct (members ++ added) = appendAllNew (distinct members) added := by
  simp only [distinct, appendAllNew, List.foldl_append]

theorem distinct_append_singleton (members : List α) (member : α) :
    distinct (members ++ [member]) = appendNew (distinct members) member :=
  distinct_append members [member]

theorem mem_of_mem_appendNew {members : List α} {member candidate : α}
    (mem : candidate ∈ appendNew members member) : candidate ∈ members ∨ candidate = member := by
  unfold appendNew at mem
  split at mem
  · exact Or.inl mem
  · simpa using mem

/-- Members that are left out by their keys do not count; the others are added if their keys are
new. -/
theorem distinct_map_filter_append {κ : Type v} [BEq κ] (key : β → κ) (counts : β → Bool)
    (members : List β) (member : β) :
    distinct (((members ++ [member]).filter counts).map key) =
      if counts member then appendNew (distinct ((members.filter counts).map key)) (key member)
      else distinct ((members.filter counts).map key) := by
  cases counted : counts member with
  | false => simp [counted]
  | true =>
      rw [List.filter_append, List.filter_cons_of_pos counted, List.filter_nil, List.map_append,
        List.map_singleton, distinct_append_singleton]
      rfl

/-- Of each member that is added, one that compares equal stays. -/
theorem exists_beq_mem_distinct (refl : ∀ member : α, (member == member) = true)
    {members : List α} {member : α} (mem : member ∈ members) :
    ∃ kept ∈ distinct members, (member == kept) = true := by
  induction members using List.reverseRecOn with
  | nil => cases mem
  | append_singleton earlier last ih =>
      rw [distinct_append_singleton]
      have keeps {kept : α} (keptMem : kept ∈ distinct earlier) :
          kept ∈ appendNew (distinct earlier) last := by
        unfold appendNew
        split
        · exact keptMem
        · exact List.mem_append_left _ keptMem
      rcases List.mem_append.mp mem with isEarlier | isLast
      · rcases ih isEarlier with ⟨kept, keptMem, same⟩
        exact ⟨kept, keeps keptMem, same⟩
      · rw [List.mem_singleton.mp isLast]
        cases known : (distinct earlier).contains last with
        | true =>
            rw [List.contains_eq_any_beq, List.any_eq_true] at known
            rcases known with ⟨kept, keptMem, same⟩
            exact ⟨kept, keeps keptMem, same⟩
        | false =>
            refine ⟨last, ?_, refl last⟩
            simp [appendNew, known]

theorem mem_of_mem_distinct {members : List α} {candidate : α}
    (mem : candidate ∈ distinct members) : candidate ∈ members := by
  induction members using List.reverseRecOn with
  | nil => exact mem
  | append_singleton earlier last ih =>
      rw [distinct_append_singleton] at mem
      rcases mem_of_mem_appendNew mem with isEarlier | rfl
      · exact List.mem_append_left _ (ih isEarlier)
      · exact List.mem_append_right _ (List.mem_singleton_self _)

theorem contains_distinct [EquivBEq α] (members : List α) (member : α) :
    (distinct members).contains member = members.contains member := by
  rw [Bool.eq_iff_iff, List.contains_eq_any_beq, List.contains_eq_any_beq, List.any_eq_true,
    List.any_eq_true]
  constructor
  · rintro ⟨kept, keptMem, same⟩
    exact ⟨kept, mem_of_mem_distinct keptMem, same⟩
  · rintro ⟨other, mem, same⟩
    rcases exists_beq_mem_distinct (fun _ => BEq.rfl) mem with ⟨kept, keptMem, isKept⟩
    exact ⟨kept, keptMem, PartialEquivBEq.trans same isKept⟩

variable [LawfulBEq α]

@[simp]
theorem mem_appendNew {members : List α} {member candidate : α} :
    candidate ∈ appendNew members member ↔ candidate ∈ members ∨ candidate = member := by
  refine ⟨mem_of_mem_appendNew, ?_⟩
  unfold appendNew
  split
  next known =>
    have : member ∈ members := by simpa using known
    rintro (mem | rfl)
    · exact mem
    · exact this
  next => simp

@[simp]
theorem mem_appendAllNew {members added : List α} {candidate : α} :
    candidate ∈ appendAllNew members added ↔ candidate ∈ members ∨ candidate ∈ added := by
  induction added generalizing members with
  | nil => simp [appendAllNew]
  | cons first rest ih =>
      rw [appendAllNew, List.foldl_cons, ← appendAllNew, ih, mem_appendNew, List.mem_cons, or_assoc]

@[simp]
theorem mem_distinct {members : List α} {candidate : α} :
    candidate ∈ distinct members ↔ candidate ∈ members := by
  simp [distinct]

theorem nodup_appendNew {members : List α} (nodup : members.Nodup) (member : α) :
    (appendNew members member).Nodup := by
  unfold appendNew
  split
  next => exact nodup
  next fresh =>
    rw [List.nodup_append]
    refine ⟨nodup, by simp, ?_⟩
    rintro candidate mem _ (_ | ⟨_, ⟨⟩⟩) rfl
    exact fresh (by simpa using mem)

theorem nodup_appendAllNew {members : List α} (nodup : members.Nodup) (added : List α) :
    (appendAllNew members added).Nodup := by
  induction added generalizing members with
  | nil => exact nodup
  | cons first rest ih => exact ih (nodup_appendNew nodup first)

theorem nodup_distinct (members : List α) : (distinct members).Nodup :=
  nodup_appendAllNew List.nodup_nil members

theorem distinct_eq_self {members : List α} (nodup : members.Nodup) :
    distinct members = members := by
  induction members using List.reverseRecOn with
  | nil => rfl
  | append_singleton earlier last ih =>
      rw [List.nodup_append] at nodup
      rw [distinct_append_singleton, ih nodup.1, appendNew, if_neg]
      rw [List.contains_iff_mem]
      exact fun mem => nodup.2.2 last mem last (List.mem_singleton_self _) rfl

omit [LawfulBEq α] in
theorem length_appendAllNew_le (members added : List α) :
    (appendAllNew members added).length ≤ members.length + added.length := by
  induction added generalizing members with
  | nil => simp [appendAllNew]
  | cons first rest ih =>
      rw [appendAllNew, List.foldl_cons, ← appendAllNew]
      have := ih (appendNew members first)
      have : (appendNew members first).length ≤ members.length + 1 := by
        unfold appendNew
        split <;> simp
      simp only [List.length_cons]
      omega

/-- Growing a list by members none of which is lost shows that they were new and distinct. -/
theorem nodup_of_length_appendAllNew (members : List α) {added : List α}
    (nothingLost : (appendAllNew members added).length = members.length + added.length)
    (nodup : members.Nodup) : (members ++ added).Nodup := by
  induction added generalizing members with
  | nil => simpa using nodup
  | cons first rest ih =>
      rw [appendAllNew, List.foldl_cons, ← appendAllNew] at nothingLost
      have bound := length_appendAllNew_le (appendNew members first) rest
      have isNew : appendNew members first = members ++ [first] := by
        by_cases known : members.contains first = true
        · simp only [appendNew, known, if_true, List.length_cons] at bound nothingLost
          omega
        · rw [appendNew, if_neg known]
      have := @ih (appendNew members first)
        (by rw [isNew] at nothingLost ⊢; simp at nothingLost ⊢; omega)
        (nodup_appendNew nodup first)
      rw [isNew] at this
      simpa using this

theorem nodup_of_areDistinct {members : List α} (distinct : areDistinct members = true) :
    members.Nodup := by
  have nothingLost : (ResponseShape.distinct members).length = members.length := by
    simpa [areDistinct] using distinct
  simpa using nodup_of_length_appendAllNew []
    (nothingLost.trans (by simp)) List.nodup_nil

end Members

section Entries

variable {isEntry : α → Bool} {update : α → α} {fresh candidate : α} {entries : List α}

/-- All that changing an entry can do: the first one selected is changed in its place or, if none
is, a fresh one joins the end. -/
theorem updateOrAppend_cases (isEntry : α → Bool) (update : α → α) (fresh : α) (entries : List α) :
    ((∀ entry ∈ entries, isEntry entry = false)
        ∧ updateOrAppend isEntry update fresh entries = entries ++ [fresh])
      ∨ ∃ before entry after, entries = before ++ entry :: after
        ∧ (∀ earlier ∈ before, isEntry earlier = false) ∧ isEntry entry = true
        ∧ updateOrAppend isEntry update fresh entries = before ++ update entry :: after := by
  induction entries with
  | nil => exact Or.inl ⟨by simp, rfl⟩
  | cons head rest ih =>
      cases isHead : isEntry head with
      | true =>
          exact Or.inr ⟨[], head, rest, rfl, by simp, isHead, by simp [updateOrAppend, isHead]⟩
      | false =>
          rcases ih with ⟨none, result⟩ | ⟨before, entry, after, split, none, isFirst, result⟩
          · refine Or.inl ⟨?_, by simp [updateOrAppend, isHead, result]⟩
            simpa [isHead] using none
          · refine Or.inr ⟨head :: before, entry, after, by simp [split], ?_, isFirst,
              by simp [updateOrAppend, isHead, result]⟩
            simpa [isHead] using none

/-- What holds of all entries still holds of them if it holds of the fresh one and stays with the
changed one. -/
theorem forall_mem_updateOrAppend {property : α → Prop} (all : ∀ entry ∈ entries, property entry)
    (ofFresh : property fresh) (stays : ∀ entry, property entry → property (update entry)) :
    ∀ entry ∈ updateOrAppend isEntry update fresh entries, property entry := by
  rcases updateOrAppend_cases isEntry update fresh entries with
    ⟨-, result⟩ | ⟨before, entry, after, rfl, -, -, result⟩
  · rw [result]
    exact List.forall_mem_append.mpr ⟨all, List.forall_mem_singleton.mpr ofFresh⟩
  · rw [List.forall_mem_append, List.forall_mem_cons] at all
    rw [result]
    exact List.forall_mem_append.mpr
      ⟨all.1, List.forall_mem_cons.mpr ⟨stays entry all.2.1, all.2.2⟩⟩

/-- The keys of entries stay as they are, or a fresh one joins them. -/
theorem map_updateOrAppend {key : α → β} (keeps : ∀ entry ∈ entries, isEntry entry = true →
      key (update entry) = key entry) :
    (updateOrAppend isEntry update fresh entries).map key = entries.map key
      ∨ (∀ entry ∈ entries, isEntry entry = false)
        ∧ (updateOrAppend isEntry update fresh entries).map key
          = entries.map key ++ [key fresh] := by
  rcases updateOrAppend_cases isEntry update fresh entries with
    ⟨none, result⟩ | ⟨before, entry, after, rfl, -, isFirst, result⟩
  · exact Or.inr ⟨none, by simp [result]⟩
  · exact Or.inl (by simp [result, keeps entry (by simp) isFirst])

/-- Replacing the entry of a key changes what is found under this key only. -/
theorem find?_updateOrAppend {κ : Type v} [DecidableEq κ] {key : α → κ} {value : α} {wanted : κ}
    (isKey : key value = wanted) (entries : List α) (other : κ) :
    (updateOrAppend (key · == wanted) (fun _ => value) value entries).find? (key · == other)
      = if other = wanted then some value else entries.find? (key · == other) := by
  induction entries with
  | nil =>
      rw [updateOrAppend, List.find?_nil]
      by_cases same : other = wanted
      · rw [if_pos same, List.find?_cons_of_pos (by simp [isKey, same])]
      · rw [if_neg same, List.find?_cons_of_neg (by simpa [isKey] using Ne.symm same),
          List.find?_nil]
  | cons entry rest ih =>
      rw [updateOrAppend]
      by_cases isEntry : key entry = wanted
      · rw [if_pos (by simpa using isEntry)]
        by_cases same : other = wanted
        · rw [if_pos same, List.find?_cons_of_pos (by simp [isKey, same])]
        · rw [if_neg same, List.find?_cons_of_neg (by simpa [isKey] using Ne.symm same),
            List.find?_cons_of_neg (by simpa [isEntry] using Ne.symm same)]
      · rw [if_neg (by simpa using isEntry)]
        by_cases isOther : key entry = other
        · rw [List.find?_cons_of_pos (by simpa using isOther),
            List.find?_cons_of_pos (by simpa using isOther), if_neg (isOther ▸ isEntry)]
        · rw [List.find?_cons_of_neg (by simpa using isOther),
            List.find?_cons_of_neg (by simpa using isOther), ih]

/-- An entry is added by its key just if there is none of that key. -/
theorem appendNew_map_key {κ : Type v} [BEq κ] (comm : ∀ left right : κ, (left == right)
      = (right == left)) (key : α → κ) (entries : List α) (wanted : κ) :
    appendNew (entries.map key) wanted =
      if (entries.find? (key · == wanted)).isSome then entries.map key
      else entries.map key ++ [wanted] := by
  have known : (entries.map key).contains wanted
      = (entries.find? (key · == wanted)).isSome := by
    rw [Bool.eq_iff_iff, List.find?_isSome, List.contains_eq_any_beq, List.any_map,
      List.any_eq_true]
    simp only [Function.comp_apply, comm wanted]
  rw [appendNew, known]

end Entries

section Changes

variable {p : α → Prop} {q : Prop} {entry united : α} {entries before after : List α}

theorem exists_mem_append_singleton_iff : (∃ other ∈ entries ++ [entry], p other)
    ↔ (∃ other ∈ entries, p other) ∨ p entry := by
  simp [or_and_right, exists_or]

theorem exists_mem_united_iff (unites : p united ↔ p entry ∨ q) :
    (∃ other ∈ before ++ united :: after, p other)
      ↔ (∃ other ∈ before ++ entry :: after, p other) ∨ q := by
  simp only [List.mem_append, List.mem_cons, or_and_right, exists_or, exists_eq_left, unites]
  rw [← or_assoc, ← or_assoc, ← or_assoc, or_right_comm]

end Changes

section Folds

variable {σ ε : Type v} {step : σ → α → Except ε σ} {motive : List α → σ → Prop}
  {start result : σ} {members : List α}

/-- Induction along a fold that may fail, by the members folded so far. -/
theorem foldlM_induction (begins : motive [] start)
    (steps : ∀ done member before after, motive done before → step before member = .ok after →
      motive (done ++ [member]) after)
    (run : members.foldlM step start = .ok result) : motive members result := by
  have all (rest done : List α) (before : σ) (reached : motive done before)
      (restRun : rest.foldlM step before = .ok result) : motive (done ++ rest) result := by
    induction rest generalizing done before with
    | nil =>
        rw [List.foldlM_nil] at restRun
        rcases Except.ok.inj restRun with rfl
        simpa using reached
    | cons member rest ih =>
        rw [List.foldlM_cons] at restRun
        cases once : step before member with
        | error error => simp [once, bind, Except.bind] at restRun
        | ok next =>
            simp only [once, bind, Except.bind] at restRun
            have stepped := steps done member before next reached once
            simpa using ih (done ++ [member]) next stepped restRun
  exact all members [] start begins run

theorem foldl_induction {step : σ → α → σ} (begins : motive [] start)
    (steps : ∀ done member before, motive done before →
      motive (done ++ [member]) (step before member)) :
    motive members (members.foldl step start) := by
  have all (rest done : List α) (before : σ) (reached : motive done before) :
      motive (done ++ rest) (rest.foldl step before) := by
    induction rest generalizing done before with
    | nil => simpa using reached
    | cons member rest ih => simpa using ih (done ++ [member]) _ (steps done member before reached)
  exact all members [] start begins

/-- A fold whose steps forget nothing and finish what they begin does so, too. -/
theorem foldlM_finishes (done : List α → β → Prop) (finished : List α → α → Prop)
    {step : List α → β → Option (List α)} {members : List β} {start result : List α}
    (keeps : ∀ before after member, before ⊆ after → done before member → done after member)
    (stays : ∀ before after other, before ⊆ after → finished before other → finished after other)
    (steps : ∀ before member after, step before member = some after →
      before ⊆ after ∧ done after member
        ∧ ∀ other ∈ after, other ∈ before ∨ finished after other)
    (run : members.foldlM step start = some result) :
    start ⊆ result ∧ (∀ member ∈ members, done result member)
      ∧ ∀ other ∈ result, other ∈ start ∨ finished result other := by
  induction members generalizing start with
  | nil =>
      rw [List.foldlM_nil] at run
      rcases Option.some.inj run with rfl
      exact ⟨List.Subset.refl _, by simp, fun _ mem => Or.inl mem⟩
  | cons member rest ih =>
      rw [List.foldlM_cons, Option.bind_eq_bind, Option.bind_eq_some_iff] at run
      rcases run with ⟨between, first, run⟩
      rcases steps start member between first with ⟨subset, isDone, finishes⟩
      rcases ih run with ⟨later, others, finishesLater⟩
      refine ⟨List.Subset.trans subset later, ?_, ?_⟩
      · rintro other (_ | ⟨_, mem⟩)
        · exact keeps _ _ _ later isDone
        · exact others other mem
      · intro other mem
        rcases finishesLater other mem with earlier | isFinished
        · exact (finishes other earlier).imp_right (stays _ _ _ later)
        · exact Or.inr isFinished

end Folds

/-- What holds of members and goes over to successors holds of all that is reached. -/
theorem forall_mem_closure [BEq α] [LawfulBEq α] {motive : α → Prop} {successors : α → List α}
    {steps : Nat} {members : List α} (begins : ∀ member ∈ members, motive member)
    (goesOver : ∀ member, motive member → ∀ next ∈ successors member, motive next) :
    ∀ member ∈ closure successors steps members, motive member := by
  have all (steps : Nat) (newest members : List α) (newestBegin : ∀ member ∈ newest, motive member)
      (begins : ∀ member ∈ members, motive member) :
      ∀ member ∈ closureFrom successors steps newest members, motive member := by
    induction steps generalizing newest members with
    | zero => exact begins
    | succ steps ih =>
        have found : ∀ member ∈ (distinct (newest.flatMap successors)).filter
            (!members.contains ·), motive member := by
          intro member mem
          rcases List.mem_flatMap.mp (mem_distinct.mp (List.mem_filter.mp mem).1) with
            ⟨before, beforeMem, isNext⟩
          exact goesOver before (newestBegin before beforeMem) member isNext
        refine ih _ _ found fun member mem => ?_
        exact (List.mem_append.mp mem).elim (begins member) (found member)
  exact all steps members members begins begins

section Pairs

variable {relation : α → β → Prop} {left : List α} {right : List β}

theorem forall₂_of_mapM {map : α → Option β} (run : left.mapM map = some right) :
    List.Forall₂ (fun member result => map member = some result) left right := by
  induction left generalizing right with
  | nil =>
      rw [List.mapM_nil] at run
      rcases Option.some.inj run with rfl
      exact .nil
  | cons member rest ih =>
      simp only [List.mapM_cons, Option.bind_eq_bind, Option.bind_eq_some_iff] at run
      rcases run with ⟨result, once, results, restRun, same⟩
      rcases Option.some.inj same with rfl
      exact .cons once (ih restRun)

theorem exists_mem_of_forall₂ (pairs : List.Forall₂ relation left right) {member : α}
    (mem : member ∈ left) : ∃ partner ∈ right, relation member partner := by
  induction pairs with
  | nil => cases mem
  | cons related _ ih =>
      rcases List.mem_cons.mp mem with rfl | later
      · exact ⟨_, List.mem_cons_self, related⟩
      · rcases ih later with ⟨partner, partnerMem, relates⟩
        exact ⟨partner, List.mem_cons_of_mem _ partnerMem, relates⟩

theorem exists_mem_of_forall₂_right (pairs : List.Forall₂ relation left right) {partner : β}
    (mem : partner ∈ right) : ∃ member ∈ left, relation member partner :=
  exists_mem_of_forall₂ pairs.flip mem

theorem map_eq_of_forall₂ {γ : Type v} {image : α → γ} {other : β → γ}
    (pairs : List.Forall₂ (fun member partner => image member = other partner) left right) :
    left.map image = right.map other := by
  induction pairs with
  | nil => rfl
  | cons same _ ih => rw [List.map_cons, List.map_cons, same, ih]

theorem filterMap_eq_of_forall₂ {γ : Type v} {image : α → Option γ} {other : β → Option γ}
    (pairs : List.Forall₂ (fun member partner => image member = other partner) left right) :
    left.filterMap image = right.filterMap other := by
  induction pairs with
  | nil => rfl
  | cons same _ ih => rw [List.filterMap_cons, List.filterMap_cons, same, ih]

theorem getLastD_of_forall₂ {member : α} {partner : β}
    (pairs : List.Forall₂ relation left right) (begins : relation member partner) :
    relation (left.getLastD member) (right.getLastD partner) := by
  induction pairs generalizing member partner with
  | nil => exact begins
  | cons here _ ih => simpa only [List.getLastD_cons] using ih here

/-- What the same members are related to pairwise is related, too. -/
theorem forall₂_of_common {γ : Type v} {first : γ → α → Prop} {second : γ → β → Prop}
    {members : List γ} (pairs : List.Forall₂ first members left)
    (partners : List.Forall₂ second members right)
    (relates : ∀ member one other, first member one → second member other → relation one other) :
    List.Forall₂ relation left right := by
  induction pairs generalizing right with
  | nil => cases partners; exact .nil
  | cons here _ ih =>
      rcases partners with _ | ⟨partner, rest⟩
      exact .cons (relates _ _ _ here partner) (ih rest)

/-- Lists that leave out the same members stay related. -/
theorem forall₂_filterMap {outcomes : List (Option α)} {others : List (Option β)}
    (pairs : List.Forall₂ (Option.Rel relation) outcomes others) :
    List.Forall₂ relation (outcomes.filterMap id) (others.filterMap id) := by
  induction pairs with
  | nil => exact .nil
  | cons related _ ih =>
      cases related with
      | none => exact ih
      | some related => exact .cons related ih

theorem forall₂_of_beq {members others : List α} [BEq α] (same : (members == others) = true) :
    List.Forall₂ (fun member other => (member == other) = true) members others := by
  induction members generalizing others with
  | nil =>
      cases others with
      | nil => exact .nil
      | cons other rest => simp at same
  | cons member rest ih =>
      cases others with
      | nil => simp at same
      | cons other others =>
          rw [List.cons_beq_cons, Bool.and_eq_true] at same
          exact .cons same.1 (ih same.2)

theorem beq_of_forall₂ {members others : List α} [BEq α]
    (pairs : List.Forall₂ (fun member other => (member == other) = true) members others) :
    (members == others) = true := by
  induction pairs with
  | nil => rfl
  | cons here _ ih => rw [List.cons_beq_cons, here, ih, Bool.and_self]

/-- Lists compare by an equivalence if their members do. -/
instance equivBEq_list [BEq α] [EquivBEq α] : EquivBEq (List α) where
  rfl := ReflBEq.rfl
  symm same := beq_of_forall₂ ((forall₂_of_beq same).imp fun _ _ => PartialEquivBEq.symm).flip
  trans {first second third} same further := by
    induction first generalizing second third with
    | nil => cases second <;> simp_all
    | cons member rest ih =>
        rcases second with _ | ⟨partner, others⟩
        · simp at same
        · rcases third with _ | ⟨last, more⟩
          · simp at further
          · rw [List.cons_beq_cons, Bool.and_eq_true] at same further ⊢
            exact ⟨PartialEquivBEq.trans same.1 further.1, ih same.2 further.2⟩

/-- Replacing the value of a key changes what is found under the keys that compare equal to it. -/
theorem lookup_updateOrAppend_of_equiv {κ : Type v} [BEq κ] [EquivBEq κ] (entries : List (κ × α))
    (key other : κ) (value : α) :
    (updateOrAppend (·.1 == key) (fun (known, _) => (known, value)) (key, value) entries).lookup
      other = if other == key then some value else entries.lookup other := by
  induction entries with
  | nil =>
      rw [updateOrAppend, List.lookup_cons, List.lookup_nil]
      cases other == key <;> rfl
  | cons head rest ih =>
      rcases head with ⟨known, old⟩
      rw [updateOrAppend, List.lookup_cons]
      cases isKey : known == key with
      | true =>
          rw [if_pos rfl, List.lookup_cons, BEq.congr_right isKey]
          cases other == key <;> rfl
      | false =>
          rw [if_neg (by simp), List.lookup_cons, ih]
          cases isKnown : other == known with
          | false => rfl
          | true =>
              rw [BEq.congr_left isKnown, isKey]
              rfl

/-- Options compare by an equivalence if their members do. -/
instance equivBEq_option [BEq α] [EquivBEq α] : EquivBEq (Option α) where
  rfl := ReflBEq.rfl
  symm {value other} same := by
    cases value <;> cases other <;> simp_all [BEq.comm]
  trans {first second third} same more := by
    cases first <;> cases second <;> cases third <;> simp_all
    exact PartialEquivBEq.trans same more

theorem isPrefixOf_congr [BEq α] [EquivBEq α] {members others : List α}
    (pairs : List.Forall₂ (fun member other => (member == other) = true) members others)
    (list : List α) : members.isPrefixOf list = others.isPrefixOf list
      ∧ list.isPrefixOf members = list.isPrefixOf others := by
  induction pairs generalizing list with
  | nil => exact ⟨rfl, rfl⟩
  | cons here _ ih =>
      cases list with
      | nil => exact ⟨rfl, rfl⟩
      | cons head tail =>
          simp only [List.isPrefixOf_cons_cons, BEq.congr_left here, BEq.congr_right here,
            (ih tail).1, (ih tail).2, and_self]

theorem exists_beq_mem_of_isPrefixOf [BEq α] {members others : List α} {member : α}
    (starts : members.isPrefixOf others = true) (mem : member ∈ members) :
    ∃ other ∈ others, (member == other) = true := by
  induction members generalizing others with
  | nil => cases mem
  | cons first rest ih =>
      cases others with
      | nil => cases starts
      | cons head tail =>
          rw [List.isPrefixOf_cons_cons, Bool.and_eq_true] at starts
          rcases List.mem_cons.mp mem with rfl | later
          · exact ⟨head, List.mem_cons_self, starts.1⟩
          · rcases ih starts.2 later with ⟨other, otherMem, same⟩
            exact ⟨other, List.mem_cons_of_mem _ otherMem, same⟩

/-- A test of pairs has one outcome for lists whose members it does not tell apart. -/
theorem all_zip_congr {γ : Type*} {left : List α} {right : List β} {test : α × γ → Bool}
    {other : β × γ → Bool}
    (pairs : List.Forall₂ (fun member partner =>
      ∀ mate, test (member, mate) = other (partner, mate)) left right) (mates : List γ) :
    (left.zip mates).all test = (right.zip mates).all other := by
  induction pairs generalizing mates with
  | nil => rfl
  | cons here _ ih =>
      cases mates with
      | nil => rfl
      | cons mate rest => rw [List.zip_cons_cons, List.zip_cons_cons, List.all_cons, List.all_cons,
          here, ih]

/-- Pairs of lists that are put together from parts of equal length are pairs of the parts. -/
theorem forall₂_of_append {members others : List α} {partners more : List β}
    (pairs : List.Forall₂ relation (members ++ others) (partners ++ more))
    (length : members.length = partners.length) :
    List.Forall₂ relation members partners ∧ List.Forall₂ relation others more := by
  constructor
  · simpa [length] using List.forall₂_take members.length pairs
  · simpa [length] using List.forall₂_drop members.length pairs

theorem forall₂_append_singleton_iff {members : List α} {partners : List β} {member : α}
    {partner : β} :
    List.Forall₂ relation (members ++ [member]) (partners ++ [partner]) ↔
      List.Forall₂ relation members partners ∧ relation member partner := by
  constructor
  · intro pairs
    have length := pairs.length_eq
    simp only [List.length_append, List.length_singleton, Nat.add_right_cancel_iff] at length
    rcases forall₂_of_append pairs length with ⟨before, last⟩
    cases last with
    | cons here _ => exact ⟨before, here⟩
  · rintro ⟨before, here⟩
    exact List.rel_append before (.cons here .nil)

/-- The last of several members can be another that all its partners go with as well. -/
theorem forall₂_append_last {members : List α} {partners : List β} {last other : α}
    (pairs : List.Forall₂ relation (members ++ [last]) partners)
    (goes : ∀ partner, relation last partner → relation other partner) :
    List.Forall₂ relation (members ++ [other]) partners := by
  induction members generalizing partners with
  | nil =>
      cases pairs with
      | cons first rest =>
          cases rest
          exact .cons (goes _ first) .nil
  | cons member rest ih =>
      cases pairs with
      | cons first others => exact .cons first (ih others)

/-- What pairs with a list in two parts is in two parts. -/
theorem exists_split_of_forall₂ {members : List α} {partners more : List β}
    (pairs : List.Forall₂ relation members (partners ++ more)) :
    ∃ before after, members = before ++ after ∧ List.Forall₂ relation before partners
      ∧ List.Forall₂ relation after more :=
  ⟨_, _, (List.take_append_drop partners.length members).symm,
    List.forall₂_take_append _ _ _ pairs, List.forall₂_drop_append _ _ _ pairs⟩

theorem forall₂_behind {relation : α → α → Prop} {start members others : List α}
    (pairs : List.Forall₂ relation (start ++ members) (start ++ others)) :
    List.Forall₂ relation members others :=
  (forall₂_of_append pairs rfl).2

section Search

variable {members : List α} {partners : List β}

theorem find?_of_forall₂ (isWanted : α → Bool) (isMate : β → Bool)
    (pairs : List.Forall₂ relation members partners)
    (agree : ∀ member partner, relation member partner → isWanted member = isMate partner) :
    (members.find? isWanted = none ∧ partners.find? isMate = none)
      ∨ ∃ member partner, members.find? isWanted = some member
        ∧ partners.find? isMate = some partner ∧ relation member partner := by
  induction pairs with
  | nil => exact Or.inl ⟨rfl, rfl⟩
  | @cons member partner rest others related pairs ih =>
      have same := agree member partner related
      cases wanted : isWanted member with
      | true =>
          exact Or.inr ⟨member, partner, List.find?_cons_of_pos wanted,
            List.find?_cons_of_pos (same ▸ wanted), related⟩
      | false =>
          rw [List.find?_cons_of_neg (by simp [wanted]),
            List.find?_cons_of_neg (by simp [← same, wanted])]
          exact ih

/-- Related lists stay related if related entries change alike. -/
theorem forall₂_updateOrAppend {isEntry : α → Bool} {isMate : β → Bool} {update : α → α}
    {change : β → β} {fresh : α} {other : β} (pairs : List.Forall₂ relation members partners)
    (agree : ∀ member partner, relation member partner → isEntry member = isMate partner)
    (keeps : ∀ member partner, relation member partner → isEntry member = true →
      relation (update member) (change partner))
    (ofFresh : relation fresh other) :
    List.Forall₂ relation (updateOrAppend isEntry update fresh members)
      (updateOrAppend isMate change other partners) := by
  induction pairs with
  | nil => exact .cons ofFresh .nil
  | @cons member partner rest others related pairs ih =>
      have same := agree member partner related
      rw [updateOrAppend, updateOrAppend, ← same]
      cases found : isEntry member with
      | true => exact .cons (keeps member partner related found) pairs
      | false => exact .cons related ih

end Search

end Pairs

end ResponseShape
