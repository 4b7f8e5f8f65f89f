import NotVK.ObjectStore.CalculateChanges
import NotVK.ObjectStore.ChangeSetMerge

/-!
# The notifier of a query

A worker thread runs the query on each new version and merges what changed into
every registered callback.  The thread of the collection packages what has been
merged, advances to the version of the package, and calls the callbacks one by
one; while it does, callbacks are added and removed, and the worker goes on.

Rows are written with what they hold, so that what a callback has been told can
be compared with what there is; the notifier itself only sees their keys.
-/

namespace NotVK
namespace ObjectStore

open Runs

universe u

namespace Notifier

section State

/-- A query, as its notifier knows it. -/
structure Query (α : Type u) where
  key : α → Int
  byKey : KeySort
  /-- `m_target_is_in_table_order`. -/
  inTableOrder : Bool

structure Callback (α : Type u) where
  token : Nat
  accumulatedChanges : CollectionChangeBuilder
  changesToDeliver : CollectionChangeSet
  initialDelivered : Bool
  skipNext : Bool
  /-- `ignoreChangesInInitialNotification` of the block's wrapper. -/
  ignoreChanges : Bool
  /-- History: the callback was in a package. -/
  packaged : Bool
  /-- History: the rows of its last package. -/
  since : List α
  /-- History: the rows that its block was last called with. -/
  shown : List α

/-- The loops over the callbacks. -/
inductive Pass where
  | before
  | after
  | error
deriving DecidableEq

/-- How far the thread of the collection is with a package. -/
inductive Delivery where
  | idle
  | packaged
  | looping (pass : Pass)
  /-- The block of a callback was called with an error; the callback goes next. -/
  | failing (token : Nat)
deriving DecidableEq

/-- What the block of a callback is called with. -/
inductive Event (α : Type u) where
  | initial (token : Nat) (rows : List α)
  | update (token : Nat) (old new : List α) (changes : CollectionChangeSet)
  | error (token : Nat)
  /-- The owner of the callback made the change, and left the callback out. -/
  | suppressed (token : Nat) (rows : List α)

structure State (α : Type u) where
  /-- `m_previous_rows`, with what the rows hold. -/
  rows : List α
  /-- `m_change`. -/
  change : CollectionChangeBuilder
  hasRun : Bool
  haveCallbacks : Bool
  hasError : Bool
  callbacks : List (Callback α)
  /-- `m_callback_index`, none for `npos`. -/
  callbackIndex : Option Nat
  callbackCount : Nat
  nextToken : Nat
  delivery : Delivery
  /-- History: the rows at the last handover. -/
  handed : List α
  /--
  History: the query was run after the last handover, and whether `m_change` says
  what that changed.
  -/
  ran : Option Bool
  log : List (Event α)

/-- What happens to a notifier. -/
inductive Action (α : Type u) where
  | addCallback
  | removeCallback (token : Nat)
  | suppressNext (token : Nat)
  /--
  The query was run on a version with the rows `next`.  History: the modifications
  that `keyDidChange` knows go back to the last run.
  -/
  | run (next : List α) (keyDidChange : Int → Bool) (complete : Bool)
  | tableDeleted
  | prepareHandover
  | packageForDelivery
  /-- The package is out of date and not delivered. -/
  | discard
  | start (pass : Pass)
  /-- The loop goes on. -/
  | next

end State

section Step

variable {α : Type u}

/-- The state of a new notifier. -/
def start : State α where
  rows := []
  change := .empty
  hasRun := false
  haveCallbacks := false
  hasError := false
  callbacks := []
  callbackIndex := none
  callbackCount := npos
  nextToken := 0
  delivery := .idle
  handed := []
  ran := none
  log := []

/-- `add_callback(callback)`. -/
def addCallback (s : State α) : State α :=
  { s with
    callbacks := s.callbacks ++
      [⟨s.nextToken, .empty, .empty, false, false, true, false, [], []⟩]
    nextToken := s.nextToken + 1
    haveCallbacks := if s.callbackIndex = none then true else s.haveCallbacks }

def findCallback (s : State α) (token : Nat) : Option Nat :=
  s.callbacks.findIdx? (fun c => c.token = token)

/-- `--m_callback_index` when the callback at `idx` goes. -/
def indexAfterErase (idx : Nat) : Option Nat → Option Nat
  | none => none
  | some i => if idx ≤ i then (if i = 0 then none else some (i - 1)) else some i

/-- The callback at `idx` is erased. -/
def eraseCallback (s : State α) (idx : Nat) : State α :=
  { s with
    callbackIndex := indexAfterErase idx s.callbackIndex
    callbackCount := if s.callbackCount = 0 then npos else s.callbackCount - 1
    callbacks := s.callbacks.eraseIdx idx
    haveCallbacks := !(s.callbacks.eraseIdx idx).isEmpty }

/-- `remove_callback(token)`; an unknown token is an assertion without an error. -/
def removeCallback (s : State α) (token : Nat) : Option (State α) :=
  match findCallback s token with
  | none => if s.hasError then some s else none
  | some idx => some (eraseCallback s idx)

/-- `suppress_next_notification(token)`. -/
def suppressNext (s : State α) (token : Nat) : Option (State α) :=
  match findCallback s token with
  | none => if s.hasError then some s else none
  | some idx =>
      some { s with
        callbacks := s.callbacks.modify idx (fun c => { c with skipNext := true }) }

/-- `ResultsNotifier::run()` and `calculate_changes()`, when the query has to run. -/
def runQuery
    (q : Query α) (s : State α) (next : List α) (keyDidChange : Int → Bool)
    (complete : Bool) :
    State α :=
  if s.hasRun && s.haveCallbacks then
    { s with
      change := calculate q.byKey (s.rows.map q.key) (next.map q.key) keyDidChange
        q.inTableOrder
      rows := next
      ran := some complete }
  else { s with rows := next, ran := some false }

/-- `run()` when the table was deleted: all rows are reported as deleted. -/
def runDeleted (s : State α) : State α :=
  { s with
    change := { CollectionChangeSet.empty with deletions := .set s.rows.length }
    rows := []
    ran := some true }

/-- What `add_changes` does to one callback. -/
def addChanges (change : CollectionChangeBuilder) (rows : List α) (c : Callback α) :
    Callback α :=
  if c.skipNext then { c with skipNext := false, since := rows, shown := rows }
  else { c with accumulatedChanges := c.accumulatedChanges.merge change }

/-- The owners of the callbacks that are left out. -/
def suppressedEvents (s : State α) : List (Event α) :=
  (s.callbacks.filter Callback.skipNext).map (fun c => .suppressed c.token s.rows)

/-- `prepare_handover()`. -/
def prepareHandover (s : State α) : State α :=
  { s with
    callbacks := s.callbacks.map (addChanges s.change s.rows)
    change := .empty
    hasRun := true
    handed := s.rows
    ran := none
    log := s.log ++ suppressedEvents s }

/-- What `package_for_delivery` does to one callback. -/
def package (handed : List α) (c : Callback α) : Callback α :=
  { c with
    changesToDeliver := c.accumulatedChanges.finalize
    accumulatedChanges := .empty
    packaged := true
    since := handed }

/-- `package_for_delivery()`. -/
def packageForDelivery (s : State α) : State α :=
  { s with
    callbacks := s.callbacks.map (package s.handed)
    callbackCount := s.callbacks.length
    delivery := .packaged }

/-- The wrapper of a block, called with the changes of a package. -/
def notify (c : Callback α) : Event α :=
  if c.ignoreChanges then .initial c.token c.since
  else if c.changesToDeliver.isEmpty then .initial c.token c.since
  else .update c.token c.shown c.since c.changesToDeliver

/-- The callback after it was called. -/
def delivered (c : Callback α) : Callback α :=
  { c with
    initialDelivered := true
    changesToDeliver := .empty
    ignoreChanges := false
    shown := c.since }

/-- The loop's body for the callback at `i`. -/
def visit (s : State α) (pass : Pass) (i : Nat) (c : Callback α) : State α :=
  match pass with
  -- blocks are called after the change only
  | .before => { s with callbackIndex := some i }
  | .after =>
      if c.initialDelivered && c.changesToDeliver.isEmpty then
        { s with callbackIndex := some i }
      else
        { s with
          callbackIndex := some i
          callbacks := s.callbacks.set i (delivered c)
          log := s.log ++ [notify c] }
  | .error =>
      { s with
        callbackIndex := some i
        log := s.log ++ [.error c.token]
        delivery := .failing c.token }

/-- `++m_callback_index`, from `npos` to 0. -/
def nextIndex (s : State α) : Nat :=
  match s.callbackIndex with
  | none => 0
  | some i => i + 1

/-- The loop is left. -/
def finish (s : State α) (pass : Pass) : State α :=
  { s with
    callbackIndex := none
    delivery :=
      match pass with
      | .before => .packaged
      | .after => .idle
      | .error => .idle }

/-- One round of `for_each_callback`; past the callbacks its result is undefined. -/
def loop (s : State α) (pass : Pass) : Option (State α) :=
  if nextIndex s < s.callbackCount then
    (s.callbacks[nextIndex s]?).map (visit s pass (nextIndex s))
  else some (finish s pass)

/-- The coordinator and the users of the notifier. -/
def step (q : Query α) (s : State α) : Action α → Option (State α)
  | .addCallback => some (addCallback s)
  | .removeCallback token => removeCallback s token
  | .suppressNext token => suppressNext s token
  | .run next keyDidChange complete =>
      if s.ran = none then some (runQuery q s next keyDidChange complete) else none
  | .tableDeleted => if s.ran = none then some (runDeleted s) else none
  | .prepareHandover => some (prepareHandover s)
  | .packageForDelivery =>
      if s.delivery = .idle ∧ s.hasRun = true then some (packageForDelivery s) else none
  | .discard =>
      if s.delivery = .packaged then some { s with delivery := .idle } else none
  | .start .error =>
      if s.delivery = .idle then
        some { s with
          hasError := true
          callbackCount := s.callbacks.length
          delivery := .looping .error }
      else none
  | .start pass =>
      if s.delivery = .packaged then some { s with delivery := .looping pass } else none
  | .next =>
      match s.delivery with
      | .looping pass => loop s pass
      | .failing token =>
          (removeCallback s token).map (fun t => { t with delivery := .looping .error })
      | .idle => none
      | .packaged => none

end Step

section Conditions

variable {α : Type u}

/--
What the notifier relies on:

* a callback that is removed during a delivery was there when it was packaged;
* the rows come in the order of the table when the query says so; with modifications
  that go back to the last run, rows whose key did not change are the same; and the
  modifications do go back when a callback was packaged before;
* a callback that leaves out its own change had been told of everything before;
* a callback is not packaged for the first time between a run that did not find
  out what changed and its handover;
* every package is delivered.
-/
def Orderly (q : Query α) (s : State α) (a : Action α) (_ : State α) : Prop :=
  match a with
  | .removeCallback token =>
      s.delivery ≠ .idle → ∀ idx, findCallback s token = some idx → idx < s.callbackCount
  | .run next keyDidChange complete =>
      (q.inTableOrder = true → (next.map q.key).Pairwise (· ≤ ·)) ∧
      (complete = true → ∀ x ∈ s.rows, ∀ y ∈ next,
        q.key x = q.key y → keyDidChange (q.key y) = false → x = y) ∧
      ((∃ c ∈ s.callbacks, c.packaged = true) → complete = true)
  | .prepareHandover =>
      ∀ c ∈ s.callbacks, c.skipNext = true →
        c.accumulatedChanges.isEmpty = true ∧ c.changesToDeliver.isEmpty = true
  | .packageForDelivery => s.ran = some false → s.callbacks = []
  | .discard => False
  | _ => True

end Conditions

section Loop

variable {α : Type u}

/-- A loop over the callbacks is going on. -/
def Delivery.inLoop : Delivery → Bool
  | .idle => false
  | .packaged => false
  | .looping _ => true
  | .failing _ => true

/-- The loop is the one that calls with an error. -/
def Delivery.failed : Delivery → Bool
  | .looping .error => true
  | .failing _ => true
  | _ => false

theorem Delivery.ne_idle_of_inLoop
    {d : Delivery}
    (h : d.inLoop = true) :
    d ≠ .idle := by
  rintro rfl
  cases h

/-- Invariant: the loop stays within the callbacks that were packaged. -/
structure LoopInv (s : State α) : Prop where
  index_lt : ∀ i, s.callbackIndex = some i → i < s.callbackCount
  index_inLoop : ∀ i, s.callbackIndex = some i → s.delivery.inLoop = true
  count_le : s.delivery ≠ .idle → s.callbackCount ≤ s.callbacks.length
  haveCallbacks : s.haveCallbacks = !s.callbacks.isEmpty
  nodup : (s.callbacks.map Callback.token).Nodup
  token_lt : ∀ c ∈ s.callbacks, c.token < s.nextToken
  /-- The callback that failed is one of those that are counted, if it still is there. -/
  failing_lt : ∀ token, s.delivery = .failing token →
    token < s.nextToken ∧
    ∀ (i : Nat) (c : Callback α),
      s.callbacks[i]? = some c → c.token = token → i < s.callbackCount
  hasError : s.delivery.failed = true → s.hasError = true

theorem LoopInv.index_lt_length
    {s : State α} {i : Nat}
    (h : LoopInv s)
    (hi : s.callbackIndex = some i) :
    i < s.callbacks.length := by
  have hlt := h.index_lt i hi
  have hle := h.count_le (Delivery.ne_idle_of_inLoop (h.index_inLoop i hi))
  omega

theorem LoopInv.index_none
    {s : State α}
    (h : LoopInv s)
    (hdelivery : s.delivery.inLoop = false) :
    s.callbackIndex = none := by
  cases hindex : s.callbackIndex with
  | none => rfl
  | some i =>
      rw [h.index_inLoop i hindex] at hdelivery
      cases hdelivery

/-- A step that changes neither the loop nor which callbacks there are. -/
theorem LoopInv.congr
    {s t : State α}
    (h : LoopInv s)
    (hindex : t.callbackIndex = s.callbackIndex)
    (hcount : t.callbackCount = s.callbackCount)
    (hdelivery : t.delivery = s.delivery)
    (herror : t.hasError = s.hasError)
    (hhave : t.haveCallbacks = s.haveCallbacks)
    (hnext : t.nextToken = s.nextToken)
    (htokens : t.callbacks.map Callback.token = s.callbacks.map Callback.token) :
    LoopInv t := by
  have hlength := congrArg List.length htokens
  rw [List.length_map, List.length_map] at hlength
  have hat : ∀ (i : Nat) (c : Callback α), t.callbacks[i]? = some c →
      ∃ c', s.callbacks[i]? = some c' ∧ c'.token = c.token := by
    intro i c hc
    have hmap := congrArg (fun l => l[i]?) htokens
    simp only [List.getElem?_map, hc, Option.map_some] at hmap
    exact Option.map_eq_some_iff.mp hmap.symm
  refine ⟨?_, ?_, ?_, ?_, ?_, ?_, ?_, ?_⟩
  · rw [hindex, hcount]
    exact h.index_lt
  · rw [hindex, hdelivery]
    exact h.index_inLoop
  · rw [hdelivery, hcount, hlength]
    exact h.count_le
  · rw [hhave, h.haveCallbacks, ← List.isEmpty_map (f := Callback.token), ← htokens,
      List.isEmpty_map]
  · rw [htokens]
    exact h.nodup
  · intro c hc
    obtain ⟨i, hi⟩ := List.mem_iff_getElem?.mp hc
    obtain ⟨c', hc', heq⟩ := hat i c hi
    rw [hnext, ← heq]
    exact h.token_lt c' (List.mem_of_getElem? hc')
  · intro token htoken
    rw [hdelivery] at htoken
    obtain ⟨hlt, hcounted⟩ := h.failing_lt token htoken
    rw [hnext, hcount]
    refine ⟨hlt, ?_⟩
    intro i c hc hctoken
    obtain ⟨c', hc', heq⟩ := hat i c hc
    exact hcounted i c' hc' (heq.trans hctoken)
  · rw [hdelivery, herror]
    exact h.hasError

theorem loopInv_start :
    LoopInv (start : State α) :=
  ⟨by simp [start], by simp [start], by simp [start], rfl, List.nodup_nil,
    by simp [start], by simp [start], by simp [start, Delivery.failed]⟩

theorem loopInv_addCallback
    {s : State α}
    (h : LoopInv s) :
    LoopInv (addCallback s) := by
  refine ⟨h.index_lt, h.index_inLoop, ?_, ?_, ?_, ?_, ?_, h.hasError⟩
  · intro hdelivery
    have hle := h.count_le hdelivery
    simp only [addCallback, List.length_append]
    omega
  · simp only [addCallback]
    split
    next => simp
    next hindex =>
      obtain ⟨i, hi⟩ := Option.ne_none_iff_exists'.mp hindex
      have hlt := h.index_lt_length hi
      rw [h.haveCallbacks]
      cases hcallbacks : s.callbacks with
      | nil => simp [hcallbacks] at hlt
      | cons c rest => simp
  · simp only [addCallback, List.map_append]
    refine List.nodup_append.mpr ⟨h.nodup, by simp, ?_⟩
    intro token htoken new hnew heq
    obtain ⟨c, hc, rfl⟩ := List.mem_map.mp htoken
    have hlt := h.token_lt c hc
    have hnew : new = s.nextToken := by simpa using hnew
    omega
  · intro c hc
    rcases List.mem_append.mp hc with hc | hc
    · exact Nat.lt_succ_of_lt (h.token_lt c hc)
    · rw [List.mem_singleton.mp hc]
      exact Nat.lt_succ_self _
  · intro token htoken
    obtain ⟨hlt, hcounted⟩ := h.failing_lt token htoken
    refine ⟨Nat.lt_succ_of_lt hlt, ?_⟩
    intro i c hc hctoken
    rcases Nat.lt_or_ge i s.callbacks.length with hi | hi
    · rw [addCallback, List.getElem?_append_left hi] at hc
      exact hcounted i c hc hctoken
    · rw [addCallback, List.getElem?_append_right hi] at hc
      have hnew := List.mem_singleton.mp (List.mem_of_getElem? hc)
      rw [hnew] at hctoken
      simp only at hctoken
      omega

theorem findCallback_some
    {s : State α} {token idx : Nat}
    (h : findCallback s token = some idx) :
    ∃ c, s.callbacks[idx]? = some c ∧ c.token = token := by
  rw [findCallback, List.findIdx?_eq_some_iff_getElem] at h
  obtain ⟨hlt, htoken, _⟩ := h
  exact ⟨s.callbacks[idx], List.getElem?_eq_getElem hlt, by simpa using htoken⟩

/-- What a callback that stays was before another one was erased. -/
theorem getElem?_eraseCallback
    {s : State α} {idx i : Nat} {c : Callback α}
    (hc : (eraseCallback s idx).callbacks[i]? = some c) :
    s.callbacks[if i < idx then i else i + 1]? = some c := by
  simp only [eraseCallback, List.getElem?_eraseIdx] at hc
  split
  next hi => simpa [hi] using hc
  next hi => simpa [hi] using hc

theorem loopInv_eraseCallback
    {s : State α} {idx : Nat}
    (h : LoopInv s)
    (hidx : idx < s.callbacks.length)
    (hcount : s.delivery ≠ .idle → idx < s.callbackCount) :
    LoopInv (eraseCallback s idx) := by
  have hlength := List.length_eraseIdx_of_lt hidx
  have hindex : ∀ i, indexAfterErase idx s.callbackIndex = some i →
      ∃ j, s.callbackIndex = some j ∧ idx < s.callbackCount ∧
        i < s.callbackCount - 1 := by
    intro i hi
    cases hj : s.callbackIndex with
    | none => simp [hj, indexAfterErase] at hi
    | some j =>
        have hj_lt := h.index_lt j hj
        have hidx_lt := hcount (Delivery.ne_idle_of_inLoop (h.index_inLoop j hj))
        rw [hj, indexAfterErase] at hi
        split_ifs at hi with hle hzero <;> simp only [Option.some.injEq] at hi
        · exact ⟨j, rfl, hidx_lt, by omega⟩
        · exact ⟨j, rfl, hidx_lt, by omega⟩
  refine ⟨?_, ?_, ?_, rfl, ?_, ?_, ?_, h.hasError⟩
  · intro i hi
    obtain ⟨j, _, hidx_lt, hlt⟩ := hindex i hi
    simp only [eraseCallback]
    rw [if_neg (by omega)]
    exact hlt
  · intro i hi
    obtain ⟨j, hj, _⟩ := hindex i hi
    exact h.index_inLoop j hj
  · intro hdelivery
    have hle := h.count_le hdelivery
    have hidx_lt := hcount hdelivery
    simp only [eraseCallback, hlength]
    rw [if_neg (by omega)]
    omega
  · refine h.nodup.sublist ?_
    exact (List.eraseIdx_sublist s.callbacks idx).map Callback.token
  · intro c hc
    exact h.token_lt c ((List.eraseIdx_sublist s.callbacks idx).subset hc)
  · intro token htoken
    obtain ⟨hlt, hcounted⟩ := h.failing_lt token htoken
    refine ⟨hlt, ?_⟩
    intro i c hc hctoken
    have hi := hcounted _ c (getElem?_eraseCallback hc) hctoken
    have hdelivery : s.delivery = .failing token := htoken
    have hidx_lt := hcount (by rw [hdelivery]; simp)
    simp only [eraseCallback]
    split at hi <;> split <;> omega

theorem removeCallback_delivery
    {s t : State α} {token : Nat}
    (ht : removeCallback s token = some t) :
    t.delivery = s.delivery := by
  rw [removeCallback] at ht
  split at ht
  · split at ht <;> cases ht
    rfl
  · cases ht
    rfl

theorem loopInv_removeCallback
    {s t : State α} {token : Nat}
    (h : LoopInv s)
    (hcount : s.delivery ≠ .idle →
      ∀ idx, findCallback s token = some idx → idx < s.callbackCount)
    (ht : removeCallback s token = some t) :
    LoopInv t := by
  rw [removeCallback] at ht
  split at ht
  · split at ht
    · cases ht
      exact h
    · cases ht
  next idx hidx =>
    cases ht
    obtain ⟨c, hc, _⟩ := findCallback_some hidx
    exact loopInv_eraseCallback h (List.getElem?_eq_some_iff.mp hc).1
      (fun hdelivery => hcount hdelivery idx hidx)

theorem map_token_addChanges
    {change : CollectionChangeBuilder} {rows : List α} {callbacks : List (Callback α)} :
    (callbacks.map (addChanges change rows)).map Callback.token =
      callbacks.map Callback.token := by
  rw [List.map_map]
  apply List.map_congr_left
  intro c _
  simp only [Function.comp_apply, addChanges]
  split <;> rfl

/-- The block of a callback is called, and the callback is as it was but for that. -/
theorem map_token_set
    {callbacks : List (Callback α)} {i : Nat} {c c' : Callback α}
    (hc : callbacks[i]? = some c)
    (htoken : c'.token = c.token) :
    (callbacks.set i c').map Callback.token = callbacks.map Callback.token := by
  obtain ⟨hlt, rfl⟩ := List.getElem?_eq_some_iff.mp hc
  rw [List.map_set, htoken, ← List.getElem_map Callback.token
    (h := by rwa [List.length_map])]
  exact List.set_getElem_self _

/-- The loop's body for a callback within the count. -/
theorem loopInv_visit
    {s : State α} {pass : Pass} {i : Nat} {c : Callback α}
    (h : LoopInv s)
    (hdelivery : s.delivery = .looping pass)
    (hi : i < s.callbackCount)
    (hc : s.callbacks[i]? = some c) :
    LoopInv (visit s pass i c) := by
  have hindex : LoopInv { s with callbackIndex := some i } :=
    ⟨by rintro _ ⟨⟩; exact hi, fun _ _ => by rw [hdelivery]; rfl, h.count_le,
      h.haveCallbacks, h.nodup, h.token_lt, h.failing_lt, h.hasError⟩
  cases pass with
  | before =>
      exact hindex
  | after =>
      rw [visit]
      split
      · exact hindex
      · exact hindex.congr rfl rfl rfl rfl rfl rfl (map_token_set hc rfl)
  | error =>
      have hcount := h.count_le (by rw [hdelivery]; simp)
      refine ⟨hindex.index_lt, fun _ _ => rfl, fun _ => hcount, h.haveCallbacks,
        h.nodup, h.token_lt, ?_, fun _ => h.hasError (by rw [hdelivery]; rfl)⟩
      rintro token ⟨⟩
      refine ⟨h.token_lt c (List.mem_of_getElem? hc), ?_⟩
      intro j c' hc' htoken
      have hj : (s.callbacks.map Callback.token)[j]? = some c.token := by
        have hc' : s.callbacks[j]? = some c' := hc'
        rw [List.getElem?_map, hc', Option.map_some, htoken]
      have hi' : (s.callbacks.map Callback.token)[i]? = some c.token := by
        rw [List.getElem?_map, hc]
        rfl
      have hlt := (List.getElem?_eq_some_iff.mp hj).1
      rwa [(List.getElem?_inj hlt h.nodup).mp (hj.trans hi'.symm)]

theorem loopInv_finish
    {s : State α} {pass : Pass}
    (h : LoopInv s)
    (hdelivery : s.delivery = .looping pass) :
    LoopInv (finish s pass) := by
  refine ⟨by simp [finish], by simp [finish], ?_, h.haveCallbacks, h.nodup, h.token_lt,
    ?_, ?_⟩
  · intro _
    exact h.count_le (by rw [hdelivery]; simp)
  · intro token htoken
    cases pass <;> cases htoken
  · intro hfailed
    cases pass <;> cases hfailed

/-- The loop never reads past the callbacks. -/
theorem LoopInv.next_enabled
    {s : State α}
    (h : LoopInv s)
    (q : Query α)
    (hloop : s.delivery.inLoop = true) :
    ∃ t, step q s .next = some t := by
  cases hdelivery : s.delivery with
  | idle =>
      rw [hdelivery] at hloop
      cases hloop
  | packaged =>
      rw [hdelivery] at hloop
      cases hloop
  | looping pass =>
      have hle := h.count_le (by rw [hdelivery]; simp)
      simp only [step, hdelivery, loop]
      split
      next hlt =>
        have hc := List.getElem?_eq_getElem (l := s.callbacks) (i := nextIndex s) (by omega)
        exact ⟨_, by rw [hc, Option.map_some]⟩
      next => exact ⟨_, rfl⟩
  | failing token =>
      have herror := h.hasError (by rw [hdelivery]; rfl)
      simp only [step, hdelivery, removeCallback]
      split
      · rw [if_pos herror]
        exact ⟨_, rfl⟩
      · exact ⟨_, rfl⟩

theorem loopInv_step
    {q : Query α} {s t : State α} {a : Action α}
    (h : LoopInv s)
    (ha : Orderly q s a t)
    (hstep : step q s a = some t) :
    LoopInv t := by
  cases a with
  | addCallback =>
      cases hstep
      exact loopInv_addCallback h
  | removeCallback token =>
      exact loopInv_removeCallback h ha hstep
  | suppressNext token =>
      simp only [step, suppressNext] at hstep
      split at hstep
      · split at hstep
        · cases hstep
          exact h
        · cases hstep
      next idx hidx =>
        cases hstep
        refine h.congr rfl rfl rfl rfl rfl rfl ?_
        apply List.ext_getElem?
        intro i
        simp only [List.getElem?_map, List.getElem?_modify]
        split
        · cases s.callbacks[i]? <;> rfl
        · simp
  | run next keyDidChange complete =>
      simp only [step, Option.ite_none_right_eq_some, Option.some.injEq] at hstep
      obtain ⟨_, rfl⟩ := hstep
      rw [runQuery]
      split
      · exact h.congr rfl rfl rfl rfl rfl rfl rfl
      · exact h.congr rfl rfl rfl rfl rfl rfl rfl
  | tableDeleted =>
      simp only [step, Option.ite_none_right_eq_some, Option.some.injEq] at hstep
      obtain ⟨_, rfl⟩ := hstep
      exact h.congr rfl rfl rfl rfl rfl rfl rfl
  | prepareHandover =>
      cases hstep
      exact h.congr rfl rfl rfl rfl rfl rfl map_token_addChanges
  | packageForDelivery =>
      simp only [step, Option.ite_none_right_eq_some, Option.some.injEq] at hstep
      obtain ⟨⟨hidle, _⟩, rfl⟩ := hstep
      have hnone := h.index_none (by rw [hidle]; rfl)
      have htokens : (s.callbacks.map (package s.handed)).map Callback.token =
          s.callbacks.map Callback.token := by
        rw [List.map_map]
        rfl
      refine ⟨by simp [packageForDelivery, hnone], by simp [packageForDelivery, hnone],
        by simp [packageForDelivery], ?_, ?_, ?_, by simp [packageForDelivery],
        by simp [packageForDelivery, Delivery.failed]⟩
      · simp only [packageForDelivery, List.isEmpty_map]
        exact h.haveCallbacks
      · simp only [packageForDelivery, htokens]
        exact h.nodup
      · intro c hc
        obtain ⟨c', hc', rfl⟩ := List.mem_map.mp hc
        exact h.token_lt c' hc'
  | discard =>
      exact ha.elim
  | start pass =>
      cases pass with
      | error =>
          simp only [step, Option.ite_none_right_eq_some, Option.some.injEq] at hstep
          obtain ⟨hidle, rfl⟩ := hstep
          have hnone := h.index_none (by rw [hidle]; rfl)
          exact ⟨by simp [hnone], by simp [hnone], by simp, h.haveCallbacks, h.nodup,
            h.token_lt, by simp, fun _ => rfl⟩
      | before | after =>
          simp only [step, Option.ite_none_right_eq_some, Option.some.injEq] at hstep
          obtain ⟨hpackaged, rfl⟩ := hstep
          have hnone := h.index_none (by rw [hpackaged]; rfl)
          have hle := h.count_le (by rw [hpackaged]; simp)
          exact ⟨by simp [hnone], by simp [hnone], fun _ => hle, h.haveCallbacks, h.nodup,
            h.token_lt, by simp, by simp [Delivery.failed]⟩
  | next =>
      simp only [step] at hstep
      split at hstep
      next pass hdelivery =>
        rw [loop] at hstep
        split at hstep
        next hlt =>
          obtain ⟨c, hc, rfl⟩ := Option.map_eq_some_iff.mp hstep
          exact loopInv_visit h hdelivery hlt hc
        next =>
          cases hstep
          exact loopInv_finish h hdelivery
      next token hdelivery =>
        obtain ⟨u, hu, rfl⟩ := Option.map_eq_some_iff.mp hstep
        have hcounted := (h.failing_lt token hdelivery).2
        have hu_inv := loopInv_removeCallback h (fun _ idx hidx => by
          obtain ⟨c, hc, htoken⟩ := findCallback_some hidx
          exact hcounted idx c hc htoken) hu
        have hkept := removeCallback_delivery hu
        rw [hdelivery] at hkept
        have hcount := hu_inv.count_le (by rw [hkept]; simp)
        exact ⟨hu_inv.index_lt, fun _ _ => rfl, fun _ => hcount, hu_inv.haveCallbacks,
          hu_inv.nodup, hu_inv.token_lt, by simp,
          fun _ => hu_inv.hasError (by rw [hkept]; rfl)⟩
      next => cases hstep
      next => cases hstep

end Loop

end Notifier

end ObjectStore
end NotVK
