import ResponseShape.Proofs.Ordered
import ResponseShape.Proofs.Workspace.Views

/-!
# What the cache remembers

The cache keeps no record of what it was asked, yet what it holds and counts can be told from such a
record (`ViewCache.Accounts`): it has a slot for each key that it was asked for, in each slot the
answer that was first given for it without an error, and has run one computation for each key that
succeeded and for each answer that was an error. Asking once more keeps it so
(`ViewCache.Accounts.ask`).
-/

namespace ResponseShape

/-- What a cache was asked for, and its answer. -/
structure Exchange where
  key : ViewKey
  answer : Except BuildError VisibleSelections

/-- Whether the answer is no error. -/
def Exchange.succeeds (exchange : Exchange) : Bool := exchange.answer.isOk

/-- Whether what a cache holds and counts has come of the given exchanges. -/
structure ViewCache.Accounts (log : List Exchange) (cache : ViewCache) : Prop where
  keys : cache.slots.map (·.1) = distinct (log.map (·.key))
  results : ∀ exchange ∈ log, ∀ visible, exchange.answer = .ok visible →
    cache.result? exchange.key = some visible
  origin : ∀ key visible, cache.result? key = some visible →
    ∃ exchange ∈ log, (exchange.key == key) = true ∧ exchange.answer = .ok visible
  computations : cache.computations
    = (distinct ((log.filter (·.succeeds)).map (·.key))).length
      + (log.filter (!·.succeeds)).length

namespace ViewCache

variable {cache : ViewCache} {key other : ViewKey} {log : List Exchange}
  {visible : VisibleSelections} {error : BuildError}

theorem accounts_empty : empty.Accounts [] where
  keys := rfl
  results exchange mem := by cases mem
  origin key visible found := by cases found
  computations := rfl

theorem result?_congr (cache : ViewCache) (same : (key == other) = true) :
    cache.result? key = cache.result? other := by
  have lookups (slots : List (ViewKey × Option VisibleSelections)) :
      slots.lookup key = slots.lookup other := by
    induction slots with
    | nil => rfl
    | cons slot rest ih => rw [List.lookup_cons, List.lookup_cons, ih, BEq.congr_left same]
  rw [result?, result?, lookups]

theorem keys_setSlot (cache : ViewCache) (key : ViewKey) (content : Option VisibleSelections) :
    (cache.setSlot key content).slots.map (·.1) = appendNew (cache.slots.map (·.1)) key := by
  rw [appendNew_map_key (fun left right => BEq.comm) Prod.fst cache.slots key]
  change (updateOrAppend (·.1 == key) (fun slot => (slot.1, content)) (key, content)
    cache.slots).map (·.1) = _
  rcases updateOrAppend_cases (·.1 == key) (fun slot => (slot.1, content)) (key, content)
    cache.slots with ⟨none, result⟩ | ⟨before, slot, after, split, -, isSlot, result⟩
  · rw [result, if_neg (by simpa using none), List.map_append, List.map_singleton]
  · have isSome : (cache.slots.find? (·.1 == key)).isSome = true :=
      List.find?_isSome.mpr ⟨slot, by simp [split], isSlot⟩
    rw [result, if_pos isSome, split, List.map_append, List.map_append]
    rfl

namespace Accounts

variable (accounts : cache.Accounts log)

include accounts

theorem contains_succeeded (key : ViewKey) :
    ((log.filter (·.succeeds)).map (·.key)).contains key = (cache.result? key).isSome := by
  rw [Bool.eq_iff_iff, List.contains_eq_any_beq, List.any_eq_true, Option.isSome_iff_exists]
  constructor
  · rintro ⟨_, isKey, same⟩
    rcases List.mem_map.mp isKey with ⟨exchange, isSucceeded, rfl⟩
    rcases List.mem_filter.mp isSucceeded with ⟨mem, succeeds⟩
    cases isAnswer : exchange.answer with
    | error error => simp [Exchange.succeeds, isAnswer, Except.isOk, Except.toBool] at succeeds
    | ok visible =>
        rw [cache.result?_congr same]
        exact ⟨visible, accounts.results exchange mem visible isAnswer⟩
  · rintro ⟨visible, found⟩
    rcases accounts.origin key visible found with ⟨exchange, mem, same, isAnswer⟩
    have succeeds : exchange.succeeds = true := by rw [Exchange.succeeds, isAnswer]; rfl
    exact ⟨_, List.mem_map_of_mem (List.mem_filter.mpr ⟨mem, succeeds⟩), BEq.symm same⟩

theorem hit (found : cache.result? key = some visible) :
    cache.Accounts (log ++ [⟨key, .ok visible⟩]) := by
  have succeeds : (Exchange.mk key (.ok visible)).succeeds = true := rfl
  have isSucceeded := accounts.contains_succeeded key
  rw [found, Option.isSome_some] at isSucceeded
  constructor
  · rcases accounts.origin key visible found with ⟨exchange, mem, same, -⟩
    have isKnown : (distinct (log.map (·.key))).contains key = true := by
      rw [contains_distinct, List.contains_eq_any_beq, List.any_eq_true]
      exact ⟨_, List.mem_map_of_mem mem, BEq.symm same⟩
    rw [List.map_append, List.map_singleton, distinct_append_singleton, appendNew, if_pos isKnown]
    exact accounts.keys
  · intro exchange mem other isAnswer
    rcases List.mem_append.mp mem with isOld | isNew
    · exact accounts.results exchange isOld other isAnswer
    · rw [List.mem_singleton.mp isNew] at isAnswer ⊢
      rwa [← Except.ok.inj isAnswer]
  · intro other result isResult
    rcases accounts.origin other result isResult with ⟨exchange, mem, rest⟩
    exact ⟨exchange, List.mem_append_left _ mem, rest⟩
  · rw [distinct_map_filter_append, if_pos succeeds, appendNew, contains_distinct,
      if_pos isSucceeded, accounts.computations]
    simp [succeeds]

/-- What is computed for a key without a result is counted, and its slot is set. -/
theorem miss (none : cache.result? key = none) (computed : Except BuildError VisibleSelections) :
    (ViewCache.setSlot { cache with computations := cache.computations + 1 } key
      computed.toOption).Accounts (log ++ [⟨key, computed⟩]) := by
  have isUnsucceeded := accounts.contains_succeeded key
  rw [none, Option.isSome_none] at isUnsucceeded
  have isOther {exchange : Exchange} (mem : exchange ∈ log) {visible : VisibleSelections}
      (isAnswer : exchange.answer = .ok visible) : (exchange.key == key) = false := by
    cases same : exchange.key == key with
    | false => rfl
    | true =>
        have found := accounts.results exchange mem visible isAnswer
        rw [cache.result?_congr same, none] at found
        cases found
  constructor
  · rw [keys_setSlot, accounts.keys, List.map_append, List.map_singleton,
      distinct_append_singleton]
  · intro exchange mem visible isAnswer
    rw [result?_setSlot]
    rcases List.mem_append.mp mem with isOld | isNew
    · rw [isOther isOld isAnswer]
      exact accounts.results exchange isOld visible isAnswer
    · rw [List.mem_singleton.mp isNew] at isAnswer ⊢
      dsimp only at isAnswer ⊢
      rw [BEq.rfl, if_pos rfl, isAnswer]
      rfl
  · intro other visible found
    rw [result?_setSlot] at found
    split at found
    next same =>
      exact ⟨_, List.mem_append_right _ (List.mem_singleton_self _), BEq.symm same,
        Build.eq_ok_of_toOption found⟩
    next =>
      rcases accounts.origin other visible found with ⟨exchange, mem, rest⟩
      exact ⟨exchange, List.mem_append_left _ mem, rest⟩
  · rw [distinct_map_filter_append, appendNew, contains_distinct, isUnsucceeded]
    change cache.computations + 1 = _
    rw [accounts.computations]
    cases computed with
    | error error => simp [Exchange.succeeds, Except.isOk, Except.toBool]; omega
    | ok visible => simp [Exchange.succeeds, Except.isOk, Except.toBool]; omega

theorem ask (key : ViewKey) (computation : Unit → Except BuildError VisibleSelections) :
    (cache.getOrCompute key computation).2.Accounts
      (log ++ [⟨key, (cache.getOrCompute key computation).1⟩]) := by
  simp only [getOrCompute]
  split
  next visible found => exact accounts.hit found
  next none =>
    have ofMiss := accounts.miss none (computation ())
    split
    next visible computed =>
      rw [computed] at ofMiss
      exact ofMiss
    next error failed =>
      rw [failed] at ofMiss
      exact ofMiss

end Accounts

end ViewCache

end ResponseShape
