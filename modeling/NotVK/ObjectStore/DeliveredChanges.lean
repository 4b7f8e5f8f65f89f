import NotVK.ObjectStore.ChunkedChanges
import NotVK.ObjectStore.CollectionNotifier

/-!
# What the blocks of a notifier are told

A block is told of the rows once, and then of changes.  Along an orderly run each
change that a block is called with starts from what the block was told before, and
between two deliveries nothing is lost: what has been merged for a callback since
tells how the rows of its last package became those of the last handover.
-/

namespace NotVK
namespace ObjectStore

open Indices Runs

universe u

namespace Notifier

section Log

variable {α : Type u}

def Event.token : Event α → Nat
  | .initial token _ => token
  | .update token _ _ _ => token
  | .error token => token
  | .suppressed token _ => token

/-- The rows that the owner of a block knows after the event. -/
def Event.rows : Event α → Option (List α)
  | .initial _ rows => some rows
  | .update _ _ new _ => some new
  | .error _ => none
  | .suppressed _ rows => some rows

/-- The rows that the owner of the block of `token` knows. -/
def told (token : Nat) (log : List (Event α)) : Option (List α) :=
  ((log.filter (fun e => e.token = token)).filterMap Event.rows).getLast?

theorem told_append (token : Nat) (log events : List (Event α)) :
    told token (log ++ events) = (told token events).or (told token log) := by
  rw [told, List.filter_append, List.filterMap_append, List.getLast?_append]
  rfl

theorem told_of_other
    {token : Nat} {log events : List (Event α)}
    (h : ∀ e ∈ events, e.token ≠ token) :
    told token (log ++ events) = told token log := by
  have hnone : events.filter (fun e => decide (e.token = token)) = [] := by
    simpa [List.filter_eq_nil_iff] using h
  rw [told_append, told, hnone]
  rfl

/-- The event is right, after what the blocks were called with before. -/
def Event.Sound (key : α → Int) (before : List (Event α)) : Event α → Prop
  | .initial token _ =>
      (∀ rows, .initial token rows ∉ before) ∧ .error token ∉ before
  | .update token old new changes =>
      told token before = some old ∧
      (∃ rows, .initial token rows ∈ before) ∧
      changes.isEmpty = false ∧
      changes.Tells key old new ∧
      .error token ∉ before
  | .error token => .error token ∉ before
  | .suppressed _ _ => True

/-- Every event of the log is right after the events before it. -/
def SoundLog (key : α → Int) (log : List (Event α)) : Prop :=
  ∀ before e after, log = before ++ e :: after → e.Sound key before

theorem SoundLog.nil
    {key : α → Int} :
    SoundLog key ([] : List (Event α)) := by
  intro before e after h
  simp at h

theorem SoundLog.concat
    {key : α → Int} {log : List (Event α)} {e : Event α}
    (h : SoundLog key log)
    (he : e.Sound key log) :
    SoundLog key (log ++ [e]) := by
  intro before e' after hsplit
  rcases List.eq_nil_or_concat after with rfl | ⟨after, last, rfl⟩
  · obtain ⟨rfl, rfl⟩ := List.append_inj' hsplit rfl |>.imp id List.singleton_inj.mp
    exact he
  · have hsplit : log ++ [e] = (before ++ e' :: after) ++ [last] := by
      simpa using hsplit
    exact h before e' after (List.append_inj' hsplit rfl).1

/-- The owners that leave their callbacks out are not called. -/
theorem SoundLog.append_suppressed
    {key : α → Int} {log events : List (Event α)}
    (h : SoundLog key log)
    (hevents : ∀ e ∈ events, ∃ token rows, e = .suppressed token rows) :
    SoundLog key (log ++ events) := by
  induction events generalizing log with
  | nil =>
      rwa [List.append_nil]
  | cons e events ih =>
      obtain ⟨token, rows, rfl⟩ := hevents e List.mem_cons_self
      have hlog : SoundLog key (log ++ [.suppressed token rows]) := h.concat trivial
      rw [List.append_cons]
      exact ih hlog (fun e he => hevents e (List.mem_cons_of_mem _ he))

end Log

section Invariant

variable {α : Type u}

/-- The package has not come to the callback at `i` yet. -/
def Waiting (s : State α) (i : Nat) : Prop :=
  i < s.callbackCount ∧
  match s.delivery with
  | .packaged => True
  | .looping .before => True
  | .looping .after => nextIndex s ≤ i
  | _ => False

/--
Invariant of a callback, with the rows of the last handover, the log, whether it
waits for its turn, and whether its block was called with an error just now.
-/
structure CallbackInv
    (q : Query α) (handed : List α) (log : List (Event α)) (waiting failing : Prop)
    (c : Callback α) : Prop where
  ignore : c.ignoreChanges = !c.initialDelivered
  packaged : c.initialDelivered = true → c.packaged = true
  accumulated : c.packaged = true → Tracks q.key c.accumulatedChanges c.since handed
  deliver : c.initialDelivered = true → c.changesToDeliver.Tells q.key c.shown c.since
  settled : c.packaged = true → ¬ waiting →
    c.initialDelivered = true ∧ c.changesToDeliver.isEmpty = true
  waits : waiting → c.packaged = true
  shown : c.initialDelivered = true → told c.token log = some c.shown
  initial : c.initialDelivered = true ↔ ∃ rows, .initial c.token rows ∈ log
  noError : .error c.token ∈ log → failing

/-- Invariant: what every callback is owed, and what the worker knows. -/
structure DeliveryInv (q : Query α) (s : State α) : Prop where
  callbacks : ∀ i c, s.callbacks[i]? = some c →
    CallbackInv q s.handed s.log (Waiting s i) (s.delivery = .failing c.token) c
  token_lt : ∀ e ∈ s.log, e.token < s.nextToken
  log : SoundLog q.key s.log
  unrun : s.hasRun = false → ∀ c ∈ s.callbacks, c.packaged = false
  handed : s.ran = none → s.change = .empty ∧ s.handed = s.rows
  tracked : s.ran = some true → Tracks q.key s.change s.handed s.rows
  unknown : s.ran = some false → ∀ c ∈ s.callbacks, c.packaged = false
  order : q.inTableOrder = true → (s.rows.map q.key).Pairwise (· ≤ ·)

namespace CallbackInv

variable {q : Query α} {handed : List α} {log : List (Event α)}
variable {waiting failing : Prop} {c : Callback α}

/-- The callback stays, and what it depends on does. -/
theorem congr
    (h : CallbackInv q handed log waiting failing c)
    {waiting' failing' : Prop}
    (hwaiting : waiting' ↔ waiting)
    (hfailing : failing → failing') :
    CallbackInv q handed log waiting' failing' c :=
  ⟨h.ignore, h.packaged, h.accumulated, h.deliver,
    fun hpackaged hnot => h.settled hpackaged (fun hw => hnot (hwaiting.mpr hw)),
    fun hw => h.waits (hwaiting.mp hw), h.shown, h.initial,
    fun herror => hfailing (h.noError herror)⟩

/-- The blocks of others are called. -/
theorem append_other
    (h : CallbackInv q handed log waiting failing c)
    {events : List (Event α)}
    (hevents : ∀ e ∈ events, e.token ≠ c.token) :
    CallbackInv q handed (log ++ events) waiting failing c := by
  have hnot : ∀ e, e.token = c.token → (e ∈ log ++ events ↔ e ∈ log) := by
    intro e he
    rw [List.mem_append]
    exact or_iff_left (fun hmem => hevents e hmem he)
  refine ⟨h.ignore, h.packaged, h.accumulated, h.deliver, h.settled, h.waits, ?_, ?_, ?_⟩
  · intro hinitial
    rw [told_of_other hevents]
    exact h.shown hinitial
  · rw [h.initial]
    exact exists_congr (fun rows => (hnot (.initial c.token rows) rfl).symm)
  · intro herror
    exact h.noError ((hnot (.error c.token) rfl).mp herror)

end CallbackInv

theorem waiting_congr
    {s t : State α}
    (hindex : t.callbackIndex = s.callbackIndex)
    (hcount : t.callbackCount = s.callbackCount)
    (hdelivery : t.delivery = s.delivery)
    (i : Nat) :
    Waiting t i ↔ Waiting s i := by
  rw [Waiting, Waiting, nextIndex, nextIndex, hindex, hcount, hdelivery]

theorem not_waiting_of_idle
    {s : State α}
    (h : s.delivery = .idle)
    (i : Nat) :
    ¬ Waiting s i := by
  rw [Waiting, h]
  exact fun hw => hw.2

theorem deliveryInv_start
    (q : Query α) :
    DeliveryInv q start := by
  refine ⟨by simp [start], by simp [start], SoundLog.nil, by simp [start], ?_,
    by simp [start], by simp [start], by simp [start]⟩
  intro _
  exact ⟨rfl, rfl⟩

/-- The parts of the invariant that do not concern the callbacks one by one. -/
theorem DeliveryInv.of_worker
    {q : Query α} {s t : State α}
    (h : DeliveryInv q s)
    (hcallbacks : ∀ i c, t.callbacks[i]? = some c →
      CallbackInv q t.handed t.log (Waiting t i) (t.delivery = .failing c.token) c)
    (htoken : ∀ e ∈ t.log, e.token < t.nextToken)
    (hlog : SoundLog q.key t.log)
    (hpackaged : ∀ c ∈ t.callbacks, c.packaged = true →
      ∃ c' ∈ s.callbacks, c'.packaged = true)
    (hrun : t.hasRun = s.hasRun)
    (hran : t.ran = s.ran)
    (hchange : t.change = s.change)
    (hhanded : t.handed = s.handed)
    (hrows : t.rows = s.rows) :
    DeliveryInv q t := by
  have hnone : (∀ c ∈ s.callbacks, c.packaged = false) →
      ∀ c ∈ t.callbacks, c.packaged = false := by
    intro hs c hc
    cases hp : c.packaged with
    | false => rfl
    | true =>
        obtain ⟨c', hc', hp'⟩ := hpackaged c hc hp
        rw [hs c' hc'] at hp'
        cases hp'
  refine ⟨hcallbacks, htoken, hlog, ?_, ?_, ?_, ?_, ?_⟩
  · rw [hrun]
    exact fun hr => hnone (h.unrun hr)
  · rw [hran, hchange, hhanded, hrows]
    exact h.handed
  · rw [hran, hchange, hhanded, hrows]
    exact h.tracked
  · rw [hran]
    exact fun hr => hnone (h.unknown hr)
  · rw [hrows]
    exact h.order

end Invariant

section Callbacks

variable {α : Type u}
variable {q : Query α} {s t : State α}

theorem deliveryInv_addCallback
    (hloop : LoopInv s)
    (h : DeliveryInv q s) :
    DeliveryInv q (addCallback s) := by
  have hwaiting := waiting_congr (s := s) (t := addCallback s) rfl rfl rfl
  refine h.of_worker ?_ ?_ h.log ?_ rfl rfl rfl rfl rfl
  · intro i c hc
    rcases Nat.lt_or_ge i s.callbacks.length with hi | hi
    · rw [addCallback, List.getElem?_append_left hi] at hc
      exact (h.callbacks i c hc).congr (hwaiting i) id
    · rw [addCallback, List.getElem?_append_right hi] at hc
      have hnew := List.mem_singleton.mp (List.mem_of_getElem? hc)
      have hfresh : ∀ e ∈ s.log, e.token ≠ s.nextToken :=
        fun e he heq => absurd (h.token_lt e he) (by omega)
      have hnot : ¬ Waiting (addCallback s) i := by
        rw [hwaiting]
        intro hw
        have hdelivery : s.delivery ≠ .idle :=
          fun hidle => not_waiting_of_idle hidle i hw
        have hle := hloop.count_le hdelivery
        have hlt := hw.1
        omega
      rw [hnew]
      refine ⟨rfl, by simp, by simp, by simp, by simp, fun hw => absurd hw hnot, by simp,
        ?_, ?_⟩
      · refine ⟨by simp, ?_⟩
        rintro ⟨rows, hmem⟩
        exact absurd rfl (hfresh _ hmem)
      · intro hmem
        exact absurd rfl (hfresh _ hmem)
  · exact fun e he => Nat.lt_succ_of_lt (h.token_lt e he)
  · intro c hc hp
    rcases List.mem_append.mp hc with hc | hc
    · exact ⟨c, hc, hp⟩
    · rw [List.mem_singleton.mp hc] at hp
      cases hp

theorem nextIndex_of_none
    (h : s.callbackIndex = none) :
    nextIndex s = 0 := by
  rw [nextIndex, h]

theorem nextIndex_of_some
    {i : Nat}
    (h : s.callbackIndex = some i) :
    nextIndex s = i + 1 := by
  rw [nextIndex, h]

theorem nextIndex_eraseCallback
    {idx : Nat} :
    nextIndex (eraseCallback s idx) =
      if idx < nextIndex s then nextIndex s - 1 else nextIndex s := by
  have hindex : (eraseCallback s idx).callbackIndex =
      indexAfterErase idx s.callbackIndex := rfl
  cases hs : s.callbackIndex with
  | none =>
      rw [hs] at hindex
      rw [nextIndex_of_none hindex, nextIndex_of_none hs, if_neg (Nat.not_lt_zero idx)]
  | some j =>
      rw [hs, indexAfterErase] at hindex
      rw [nextIndex_of_some hs]
      split_ifs at hindex with hj hzero
      · rw [nextIndex_of_none hindex, if_pos (by omega), hzero]
      · rw [nextIndex_of_some hindex, if_pos (by omega)]
        omega
      · rw [nextIndex_of_some hindex, if_neg (by omega)]

/-- Whose turn it is does not change when another callback goes. -/
theorem waiting_eraseCallback
    {idx : Nat}
    (hcount : s.delivery ≠ .idle → idx < s.callbackCount)
    (i : Nat) :
    Waiting (eraseCallback s idx) i ↔ Waiting s (if i < idx then i else i + 1) := by
  generalize hk : (if i < idx then i else i + 1) = k
  have hk : (i < idx ∧ k = i) ∨ (idx ≤ i ∧ k = i + 1) := by
    split at hk <;> omega
  have hdelivery : (eraseCallback s idx).delivery = s.delivery := rfl
  have hless : s.delivery ≠ .idle →
      (eraseCallback s idx).callbackCount + 1 = s.callbackCount ∧
        idx < s.callbackCount := by
    intro hne
    have hlt := hcount hne
    simp only [eraseCallback]
    split <;> omega
  rw [Waiting, Waiting, hdelivery, nextIndex_eraseCallback]
  cases hs : s.delivery with
  | idle => simp
  | failing token => simp
  | packaged =>
      have hless := hless (by rw [hs]; simp)
      simp only [and_true]
      omega
  | looping pass =>
      have hless := hless (by rw [hs]; simp)
      cases pass with
      | before =>
          simp only [and_true]
          omega
      | error => simp
      | after =>
          simp only
          split <;> omega

theorem deliveryInv_eraseCallback
    {idx : Nat}
    (h : DeliveryInv q s)
    (hcount : s.delivery ≠ .idle → idx < s.callbackCount) :
    DeliveryInv q (eraseCallback s idx) := by
  refine h.of_worker ?_ h.token_lt h.log ?_ rfl rfl rfl rfl rfl
  · intro i c hc
    have hcallback := h.callbacks _ c (getElem?_eraseCallback hc)
    exact hcallback.congr (waiting_eraseCallback hcount i) id
  · intro c hc hp
    exact ⟨c, (List.eraseIdx_sublist s.callbacks idx).subset hc, hp⟩

theorem deliveryInv_removeCallback
    {token : Nat}
    (h : DeliveryInv q s)
    (hcount : s.delivery ≠ .idle →
      ∀ idx, findCallback s token = some idx → idx < s.callbackCount)
    (ht : removeCallback s token = some t) :
    DeliveryInv q t := by
  rw [removeCallback] at ht
  split at ht
  · split at ht <;> cases ht
    exact h
  next idx hidx =>
    cases ht
    exact deliveryInv_eraseCallback h (fun hdelivery => hcount hdelivery idx hidx)

theorem deliveryInv_suppressNext
    {token : Nat}
    (h : DeliveryInv q s)
    (ht : suppressNext s token = some t) :
    DeliveryInv q t := by
  rw [suppressNext] at ht
  split at ht
  · split at ht <;> cases ht
    exact h
  next idx hidx =>
    cases ht
    have hat : ∀ (i : Nat) (c : Callback α),
        (s.callbacks.modify idx (fun c => { c with skipNext := true }))[i]? = some c →
        ∃ c' : Callback α, s.callbacks[i]? = some c' ∧
          (c = c' ∨ c = { c' with skipNext := true }) := by
      intro i c hc
      rw [List.getElem?_modify] at hc
      obtain ⟨c', hc', rfl⟩ := Option.map_eq_some_iff.mp hc
      refine ⟨c', hc', ?_⟩
      split
      · exact .inr rfl
      · exact .inl rfl
    refine h.of_worker ?_ h.token_lt h.log ?_ rfl rfl rfl rfl rfl
    · intro i c hc
      obtain ⟨c', hc', rfl | rfl⟩ := hat i c hc
      · exact h.callbacks i c hc'
      · have hcallback := h.callbacks i c' hc'
        exact ⟨hcallback.ignore, hcallback.packaged, hcallback.accumulated,
          hcallback.deliver, hcallback.settled, hcallback.waits, hcallback.shown,
          hcallback.initial, hcallback.noError⟩
    · intro c hc hp
      obtain ⟨i, hi⟩ := List.mem_iff_getElem?.mp hc
      obtain ⟨c', hc', rfl | rfl⟩ := hat i c hi
      · exact ⟨c, List.mem_of_getElem? hc', hp⟩
      · exact ⟨c', List.mem_of_getElem? hc', hp⟩

end Callbacks

section Worker

variable {α : Type u}
variable {q : Query α} {s t : State α}

theorem deliveryInv_runQuery
    {next : List α} {keyDidChange : Int → Bool} {complete : Bool}
    (hloop : LoopInv s)
    (h : DeliveryInv q s)
    (ha : Orderly q s (.run next keyDidChange complete) t)
    (hran : s.ran = none) :
    DeliveryInv q (runQuery q s next keyDidChange complete) := by
  obtain ⟨horder, hcontent, hcomplete⟩ := ha
  have hnone : complete = false → ∀ c ∈ s.callbacks, c.packaged = false := by
    intro hc c hmem
    cases hp : c.packaged with
    | false => rfl
    | true =>
        rw [hcomplete ⟨c, hmem, hp⟩] at hc
        cases hc
  have hidle : (s.hasRun && s.haveCallbacks) ≠ true →
      ∀ c ∈ s.callbacks, c.packaged = false := by
    intro hskip c hc
    cases hrun : s.hasRun with
    | false => exact h.unrun hrun c hc
    | true =>
        rw [hrun, hloop.haveCallbacks] at hskip
        cases hcallbacks : s.callbacks with
        | nil => simp [hcallbacks] at hc
        | cons d rest => simp [hcallbacks] at hskip
  rw [runQuery]
  split
  next =>
    refine ⟨h.callbacks, h.token_lt, h.log, h.unrun, by simp, ?_, ?_, horder⟩
    · intro hr
      have hc : complete = true := by simpa using hr
      rw [(h.handed hran).2]
      exact tracks_calculate (hcontent hc) (fun ho => ⟨h.order ho, horder ho⟩)
    · intro hr
      exact hnone (by simpa using hr)
  next hskip =>
    exact ⟨h.callbacks, h.token_lt, h.log, h.unrun, by simp, by simp,
      fun _ => hidle hskip, horder⟩

theorem deliveryInv_runDeleted
    (h : DeliveryInv q s)
    (hran : s.ran = none) :
    DeliveryInv q (runDeleted s) := by
  refine ⟨h.callbacks, h.token_lt, h.log, h.unrun, by simp [runDeleted], ?_,
    by simp [runDeleted], by simp [runDeleted]⟩
  intro _
  have hchange : CollectionChangeSet.change
      { CollectionChangeSet.empty with deletions := .set s.rows.length } =
      ⟨Finset.range s.rows.length, ∅, ∅⟩ := by
    simp [CollectionChangeSet.change, CollectionChangeSet.empty]
  have hhanded : (runDeleted s).handed = s.rows := (h.handed hran).2
  rw [hhanded]
  exact ⟨hchange ▸ Change.Describes.clear s.rows, Move.AllSound.nil⟩

theorem mem_suppressedEvents
    {e : Event α}
    (he : e ∈ suppressedEvents s) :
    ∃ c ∈ s.callbacks, c.skipNext = true ∧ e = .suppressed c.token s.rows := by
  obtain ⟨c, hc, rfl⟩ := List.mem_map.mp he
  obtain ⟨hmem, hskip⟩ := List.mem_filter.mp hc
  exact ⟨c, hmem, hskip, rfl⟩

/-- The owner of a callback that is left out knows the rows. -/
theorem told_suppressedEvents
    {c : Callback α}
    (hc : c ∈ s.callbacks)
    (hskip : c.skipNext = true) :
    told c.token (suppressedEvents s) = some s.rows := by
  have hevent : Event.suppressed c.token s.rows ∈ suppressedEvents s :=
    List.mem_map.mpr ⟨c, List.mem_filter.mpr ⟨hc, hskip⟩, rfl⟩
  have hmem : s.rows ∈
      ((suppressedEvents s).filter (fun e => e.token = c.token)).filterMap Event.rows :=
    List.mem_filterMap.mpr ⟨_, List.mem_filter.mpr ⟨hevent, by simp [Event.token]⟩, rfl⟩
  cases hlast : told c.token (suppressedEvents s) with
  | none =>
      rw [told, List.getLast?_eq_none_iff] at hlast
      rw [hlast] at hmem
      cases hmem
  | some rows =>
      obtain ⟨e, he, hrows⟩ := List.mem_filterMap.mp (List.mem_of_getLast? hlast)
      obtain ⟨_, _, _, rfl⟩ := mem_suppressedEvents (List.mem_filter.mp he).1
      rw [← hrows]
      rfl

theorem callbackInv_addChanges
    {i : Nat} {c : Callback α}
    (hloop : LoopInv s)
    (h : DeliveryInv q s)
    (ha : Orderly q s .prepareHandover t)
    (hc : s.callbacks[i]? = some c) :
    CallbackInv q s.rows (s.log ++ suppressedEvents s) (Waiting s i)
      (s.delivery = .failing c.token) (addChanges s.change s.rows c) := by
  have hmem := List.mem_of_getElem? hc
  have hcallback := h.callbacks i c hc
  have hevent : ∀ e ∈ suppressedEvents s, ∃ token rows, e = .suppressed token rows := by
    intro e he
    obtain ⟨d, _, _, rfl⟩ := mem_suppressedEvents he
    exact ⟨_, _, rfl⟩
  rw [addChanges]
  split
  next hskip =>
    obtain ⟨haccumulated, hdeliver⟩ := ha c hmem hskip
    refine ⟨hcallback.ignore, hcallback.packaged,
      fun _ => tracks_of_isEmpty haccumulated _, fun _ => tells_of_isEmpty hdeliver _,
      hcallback.settled, hcallback.waits, ?_, ?_, ?_⟩
    · intro _
      rw [told_append]
      change (told c.token (suppressedEvents s)).or _ = _
      rw [told_suppressedEvents hmem hskip]
      rfl
    · rw [hcallback.initial]
      refine exists_congr (fun rows => ?_)
      rw [List.mem_append]
      refine (or_iff_left ?_).symm
      intro he
      obtain ⟨_, _, heq⟩ := hevent _ he
      cases heq
    · intro herror
      rcases List.mem_append.mp herror with he | he
      · exact hcallback.noError he
      · obtain ⟨_, _, heq⟩ := hevent _ he
        cases heq
  next hskip =>
    have hother : ∀ e ∈ suppressedEvents s, e.token ≠ c.token := by
      intro e he htoken
      obtain ⟨d, hd, hdskip, rfl⟩ := mem_suppressedEvents he
      have heq := List.inj_on_of_nodup_map hloop.nodup hd hmem htoken
      exact hskip (heq ▸ hdskip)
    have happend := hcallback.append_other hother
    refine ⟨happend.ignore, happend.packaged, ?_, happend.deliver, happend.settled,
      happend.waits, happend.shown, happend.initial, happend.noError⟩
    intro hpackaged
    have hchange : Tracks q.key s.change s.handed s.rows := by
      cases hran : s.ran with
      | none =>
          obtain ⟨hempty, hhanded⟩ := h.handed hran
          rw [hempty, hhanded]
          exact tracks_empty s.rows
      | some known =>
          cases known with
          | true => exact h.tracked hran
          | false =>
              rw [h.unknown hran c hmem] at hpackaged
              cases hpackaged
    exact CollectionChangeBuilder.tracks_merge (hcallback.accumulated hpackaged) hchange

theorem deliveryInv_prepareHandover
    (hloop : LoopInv s)
    (h : DeliveryInv q s)
    (ha : Orderly q s .prepareHandover t) :
    DeliveryInv q (prepareHandover s) := by
  have hwaiting := waiting_congr (s := s) (t := prepareHandover s) rfl rfl rfl
  refine ⟨?_, ?_, ?_, by simp [prepareHandover], fun _ => ⟨rfl, rfl⟩,
    by simp [prepareHandover], by simp [prepareHandover], h.order⟩
  · intro i c hc
    rw [prepareHandover, List.getElem?_map] at hc
    obtain ⟨c', hc', rfl⟩ := Option.map_eq_some_iff.mp hc
    have hcallback := callbackInv_addChanges hloop h ha hc'
    refine hcallback.congr (hwaiting i) (fun hfailing => ?_)
    rw [addChanges]
    split <;> exact hfailing
  · intro e he
    rcases List.mem_append.mp he with he | he
    · exact h.token_lt e he
    · obtain ⟨c, hc, _, rfl⟩ := mem_suppressedEvents he
      exact hloop.token_lt c hc
  · refine h.log.append_suppressed ?_
    intro e he
    obtain ⟨c, _, _, rfl⟩ := mem_suppressedEvents he
    exact ⟨_, _, rfl⟩

end Worker

section Packages

variable {α : Type u}
variable {q : Query α} {s t : State α}

theorem deliveryInv_packageForDelivery
    (h : DeliveryInv q s)
    (ha : Orderly q s .packageForDelivery t)
    (hidle : s.delivery = .idle)
    (hrun : s.hasRun = true) :
    DeliveryInv q (packageForDelivery s) := by
  refine ⟨?_, h.token_lt, h.log, ?_, h.handed, h.tracked, ?_, h.order⟩
  · intro i c hc
    rw [packageForDelivery, List.getElem?_map] at hc
    obtain ⟨c', hc', rfl⟩ := Option.map_eq_some_iff.mp hc
    have hcallback := h.callbacks i c' hc'
    have hwaiting : Waiting (packageForDelivery s) i :=
      ⟨(List.getElem?_eq_some_iff.mp hc').1, trivial⟩
    refine ⟨hcallback.ignore, fun _ => rfl, fun _ => tracks_empty _, ?_,
      fun _ hnot => absurd hwaiting hnot, fun _ => rfl, hcallback.shown,
      hcallback.initial, ?_⟩
    · intro hinitial
      have hpackaged := hcallback.packaged hinitial
      have hempty := (hcallback.settled hpackaged (not_waiting_of_idle hidle i)).2
      have hshown := (hcallback.deliver hinitial).eq_of_isEmpty hempty
      have htracks := hcallback.accumulated hpackaged
      rw [← hshown] at htracks
      exact CollectionChangeBuilder.tells_finalize htracks
    · intro herror
      have hfailing := hcallback.noError herror
      rw [hidle] at hfailing
      cases hfailing
  · intro hr
    have hr : s.hasRun = false := hr
    rw [hrun] at hr
    cases hr
  · intro hr
    have hnone := ha hr
    intro c hc
    simp [packageForDelivery, hnone] at hc

/-- The callbacks stay, and so does whose turn it is. -/
theorem DeliveryInv.of_delivery
    (h : DeliveryInv q s)
    (index : Option Nat) (count : Nat) (error : Bool) (delivery : Delivery)
    (hwaiting : ∀ i, Waiting
      { s with
        callbackIndex := index, callbackCount := count, hasError := error,
        delivery := delivery } i ↔ Waiting s i)
    (hfailing : ∀ c ∈ s.callbacks, .error c.token ∈ s.log → delivery = .failing c.token) :
    DeliveryInv q { s with
      callbackIndex := index, callbackCount := count, hasError := error,
      delivery := delivery } := by
  refine h.of_worker ?_ h.token_lt h.log (fun c hc hp => ⟨c, hc, hp⟩)
    rfl rfl rfl rfl rfl
  intro i c hc
  have hcallback := h.callbacks i c hc
  exact ⟨hcallback.ignore, hcallback.packaged, hcallback.accumulated, hcallback.deliver,
    fun hpackaged hnot => hcallback.settled hpackaged (fun hw => hnot ((hwaiting i).mpr hw)),
    fun hw => hcallback.waits ((hwaiting i).mp hw), hcallback.shown, hcallback.initial,
    hfailing c (List.mem_of_getElem? hc)⟩

/-- Unless it failed just now, a callback that is there did not fail. -/
theorem DeliveryInv.no_error
    (h : DeliveryInv q s)
    (hdelivery : ∀ token, s.delivery ≠ .failing token)
    {c : Callback α}
    (hc : c ∈ s.callbacks) :
    .error c.token ∉ s.log := by
  intro herror
  obtain ⟨i, hi⟩ := List.mem_iff_getElem?.mp hc
  exact hdelivery _ ((h.callbacks i c hi).noError herror)

theorem deliveryInv_start_pass
    {pass : Pass}
    (hloop : LoopInv s)
    (h : DeliveryInv q s)
    (hstep : step q s (.start pass) = some t) :
    DeliveryInv q t := by
  cases pass with
  | error =>
      simp only [step, Option.ite_none_right_eq_some, Option.some.injEq] at hstep
      obtain ⟨hidle, rfl⟩ := hstep
      refine h.of_delivery _ _ _ _ ?_ ?_
      · intro i
        refine ⟨fun hw => hw.2.elim, fun hw => absurd hw (not_waiting_of_idle hidle i)⟩
      · intro c hc herror
        exact absurd herror (h.no_error (by rw [hidle]; simp) hc)
  | before =>
      simp only [step, Option.ite_none_right_eq_some, Option.some.injEq] at hstep
      obtain ⟨hpackaged, rfl⟩ := hstep
      refine h.of_delivery _ _ _ _ ?_ ?_
      · intro i
        rw [Waiting, Waiting, hpackaged]
      · intro c hc herror
        exact absurd herror (h.no_error (by rw [hpackaged]; simp) hc)
  | after =>
      simp only [step, Option.ite_none_right_eq_some, Option.some.injEq] at hstep
      obtain ⟨hpackaged, rfl⟩ := hstep
      refine h.of_delivery _ _ _ _ ?_ ?_
      · intro i
        have hnone := hloop.index_none (by rw [hpackaged]; rfl)
        simp [Waiting, hpackaged, nextIndex, hnone]
      · intro c hc herror
        exact absurd herror (h.no_error (by rw [hpackaged]; simp) hc)

theorem deliveryInv_finish
    {pass : Pass}
    (h : DeliveryInv q s)
    (hdelivery : s.delivery = .looping pass)
    (hend : ¬ nextIndex s < s.callbackCount) :
    DeliveryInv q (finish s pass) := by
  refine h.of_delivery none s.callbackCount s.hasError _ ?_ ?_
  · intro i
    rw [Waiting, Waiting, hdelivery]
    cases pass with
    | before => exact Iff.rfl
    | after =>
        refine ⟨fun hw => hw.2.elim, fun hw => ?_⟩
        have hlt := hw.1
        have hle := hw.2
        simp only at hle
        omega
    | error => exact ⟨fun hw => hw.2.elim, fun hw => hw.2.elim⟩
  · intro c hc herror
    exact absurd herror (h.no_error (by rw [hdelivery]; simp) hc)

end Packages

section Calls

variable {α : Type u}
variable {q : Query α} {s t : State α}

/-- Where the loop is after the callback at `i`. -/
theorem waiting_next
    {i : Nat}
    (hdelivery : s.delivery = .looping .after)
    (hi : nextIndex s = i)
    (j : Nat) :
    Waiting { s with callbackIndex := some i } j ↔ Waiting s j ∧ j ≠ i := by
  have hold : Waiting s j ↔ j < s.callbackCount ∧ i ≤ j := by
    rw [Waiting, hdelivery, hi]
  have hnew : Waiting { s with callbackIndex := some i } j ↔
      j < s.callbackCount ∧ i + 1 ≤ j := by
    simp only [Waiting, hdelivery]
    exact Iff.rfl
  rw [hold, hnew]
  omega

/-- A callback that has nothing to be called with is passed over. -/
theorem deliveryInv_pass
    {i : Nat} {c : Callback α}
    (h : DeliveryInv q s)
    (hdelivery : s.delivery = .looping .after)
    (hi : nextIndex s = i)
    (hc : s.callbacks[i]? = some c)
    (hnothing : c.initialDelivered = true ∧ c.changesToDeliver.isEmpty = true) :
    DeliveryInv q { s with callbackIndex := some i } := by
  refine h.of_worker ?_ h.token_lt h.log (fun c hc hp => ⟨c, hc, hp⟩)
    rfl rfl rfl rfl rfl
  intro j d hd
  have hcallback := h.callbacks j d hd
  refine ⟨hcallback.ignore, hcallback.packaged, hcallback.accumulated, hcallback.deliver,
    ?_, fun hw => hcallback.waits ((waiting_next hdelivery hi j).mp hw).1,
    hcallback.shown, hcallback.initial, hcallback.noError⟩
  intro hpackaged hnot
  rcases Nat.decEq j i with hne | rfl
  · exact hcallback.settled hpackaged
      (fun hw => hnot ((waiting_next hdelivery hi j).mpr ⟨hw, hne⟩))
  · have hd : s.callbacks[j]? = some d := hd
    rw [hc] at hd
    cases hd
    exact hnothing

/-- What a block is called with is right. -/
theorem sound_notify
    {i : Nat} {c : Callback α}
    (h : DeliveryInv q s)
    (hdelivery : s.delivery = .looping .after)
    (hc : s.callbacks[i]? = some c)
    (hcalled : ¬ (c.initialDelivered = true ∧ c.changesToDeliver.isEmpty = true)) :
    (notify c).Sound q.key s.log := by
  have hcallback := h.callbacks i c hc
  have herror := h.no_error (by rw [hdelivery]; simp) (List.mem_of_getElem? hc)
  cases hinitial : c.initialDelivered with
  | false =>
      have hignore := hcallback.ignore
      rw [hinitial] at hignore
      rw [notify, hignore, Bool.not_false, if_pos rfl]
      refine ⟨fun rows hmem => ?_, herror⟩
      rw [hcallback.initial.mpr ⟨rows, hmem⟩] at hinitial
      cases hinitial
  | true =>
      have hignore := hcallback.ignore
      rw [hinitial] at hignore
      have hchanges : c.changesToDeliver.isEmpty = false := by
        simpa [hinitial] using hcalled
      rw [notify, hignore, hchanges]
      simp only [Bool.not_true, Bool.false_eq_true, if_false]
      exact ⟨hcallback.shown hinitial, hcallback.initial.mp hinitial, hchanges,
        hcallback.deliver hinitial, herror⟩

theorem token_notify (c : Callback α) :
    (notify c).token = c.token := by
  rw [notify]
  split
  · rfl
  · split <;> rfl

theorem told_notify (c : Callback α) (log : List (Event α)) :
    told c.token (log ++ [notify c]) = some c.since := by
  rw [told_append, told]
  rw [List.filter_singleton, token_notify]
  simp only [decide_true]
  rw [notify]
  split
  · rfl
  · split <;> rfl

theorem notify_ne_error (c : Callback α) (token : Nat) :
    notify c ≠ .error token := by
  rw [notify]
  split
  · simp
  · split <;> simp

/-- The callback whose block was called. -/
theorem callbackInv_delivered
    {i : Nat} {c : Callback α}
    (h : DeliveryInv q s)
    (hdelivery : s.delivery = .looping .after)
    (hi : nextIndex s = i)
    (hcount : i < s.callbackCount)
    (hc : s.callbacks[i]? = some c) :
    CallbackInv q s.handed (s.log ++ [notify c])
      (Waiting { s with callbackIndex := some i } i)
      (s.delivery = .failing c.token) (delivered c) := by
  have hcallback := h.callbacks i c hc
  have hwaiting : Waiting s i := by
    simp only [Waiting, hdelivery]
    omega
  have hpackaged := hcallback.waits hwaiting
  refine ⟨rfl, fun _ => hpackaged, hcallback.accumulated,
    fun _ => tells_of_isEmpty rfl _, fun _ _ => ⟨rfl, rfl⟩, fun _ => hpackaged,
    fun _ => told_notify c s.log, ?_, ?_⟩
  · refine ⟨fun _ => ?_, fun _ => rfl⟩
    cases hinitial : c.initialDelivered with
    | true =>
        obtain ⟨rows, hmem⟩ := hcallback.initial.mp hinitial
        exact ⟨rows, List.mem_append_left _ hmem⟩
    | false =>
        have hignore := hcallback.ignore
        rw [hinitial] at hignore
        refine ⟨c.since, List.mem_append_right _ ?_⟩
        rw [notify, hignore, Bool.not_false, if_pos rfl]
        exact List.mem_singleton.mpr rfl
  · intro herror
    rcases List.mem_append.mp herror with he | he
    · exact hcallback.noError he
    · exact absurd (List.mem_singleton.mp he).symm (notify_ne_error c _)

/-- A block is called with what is to be delivered. -/
theorem deliveryInv_call
    {i : Nat} {c : Callback α}
    (hloop : LoopInv s)
    (h : DeliveryInv q s)
    (hdelivery : s.delivery = .looping .after)
    (hi : nextIndex s = i)
    (hcount : i < s.callbackCount)
    (hc : s.callbacks[i]? = some c)
    (hcalled : ¬ (c.initialDelivered = true ∧ c.changesToDeliver.isEmpty = true)) :
    DeliveryInv q { s with
      callbackIndex := some i
      callbacks := s.callbacks.set i (delivered c)
      log := s.log ++ [notify c] } := by
  have hmem := List.mem_of_getElem? hc
  refine h.of_worker ?_ ?_ (h.log.concat (sound_notify h hdelivery hc hcalled)) ?_
    rfl rfl rfl rfl rfl
  · intro j d hd
    have hlt := (List.getElem?_eq_some_iff.mp hc).1
    simp only [List.getElem?_set] at hd
    split at hd
    next heq =>
      subst heq
      obtain ⟨_, rfl⟩ : i < s.callbacks.length ∧ delivered c = d := by
        simpa [hlt] using hd
      exact callbackInv_delivered h hdelivery hi hcount hc
    next hne =>
      have hother : (notify c).token ≠ d.token := by
        rw [token_notify]
        intro htoken
        have heq := List.inj_on_of_nodup_map hloop.nodup hmem (List.mem_of_getElem? hd) htoken
        rw [← heq] at hd
        exact hne ((List.getElem?_inj hlt (List.Nodup.of_map _ hloop.nodup)).mp
          (hc.trans hd.symm))
      have hevents : ∀ e ∈ [notify c], e.token ≠ d.token := by
        simpa using hother
      have happend := (h.callbacks j d hd).append_other hevents
      refine happend.congr ?_ id
      refine (waiting_next hdelivery hi j).trans (and_iff_left (Ne.symm hne))
  · intro e he
    rcases List.mem_append.mp he with he | he
    · exact h.token_lt e he
    · rw [List.mem_singleton.mp he, token_notify]
      exact hloop.token_lt c hmem
  · intro d hd hp
    rcases List.mem_or_eq_of_mem_set hd with hd | rfl
    · exact ⟨d, hd, hp⟩
    · exact ⟨c, hmem, hp⟩

end Calls

section Runs

variable {α : Type u}
variable {q : Query α} {s t : State α}

/-- A block is called with an error. -/
theorem deliveryInv_fail
    {i : Nat} {c : Callback α}
    (hloop : LoopInv s)
    (h : DeliveryInv q s)
    (hdelivery : s.delivery = .looping .error)
    (hc : s.callbacks[i]? = some c) :
    DeliveryInv q (visit s .error i c) := by
  have hmem := List.mem_of_getElem? hc
  have hnone : ∀ d ∈ s.callbacks, .error d.token ∉ s.log :=
    fun d hd => h.no_error (by rw [hdelivery]; simp) hd
  refine h.of_worker ?_ ?_ (h.log.concat (hnone c hmem)) (fun c hc hp => ⟨c, hc, hp⟩)
    rfl rfl rfl rfl rfl
  · intro j d hd
    have hd : s.callbacks[j]? = some d := hd
    have hdmem := List.mem_of_getElem? hd
    have hcallback := h.callbacks j d hd
    have hold : ¬ Waiting s j := by
      rw [Waiting, hdelivery]
      exact fun hw => hw.2
    have htold : told d.token (s.log ++ [.error c.token]) = told d.token s.log := by
      rw [told_append, told, List.filter_singleton]
      cases decide ((Event.error c.token : Event α).token = d.token) <;> rfl
    refine ⟨hcallback.ignore, hcallback.packaged, hcallback.accumulated,
      hcallback.deliver, fun hp _ => hcallback.settled hp hold, fun hw => hw.2.elim, ?_, ?_,
      ?_⟩
    · intro hinitial
      exact htold.trans (hcallback.shown hinitial)
    · rw [hcallback.initial]
      exact exists_congr (fun rows => by simp [visit])
    · intro herror
      rcases List.mem_append.mp herror with he | he
      · exact absurd he (hnone d hdmem)
      · have heq : Event.error d.token = .error c.token := List.mem_singleton.mp he
        have htoken : d.token = c.token := by simpa using heq
        rw [htoken]
        rfl
  · intro e he
    rcases List.mem_append.mp he with he | he
    · exact h.token_lt e he
    · rw [List.mem_singleton.mp he]
      exact hloop.token_lt c hmem

/-- The callback that failed is gone. -/
theorem removeCallback_not_mem
    {token : Nat}
    (hloop : LoopInv s)
    (ht : removeCallback s token = some t) :
    ∀ c ∈ t.callbacks, c.token ≠ token := by
  rw [removeCallback] at ht
  split at ht
  next hnone =>
    split at ht <;> cases ht
    rw [findCallback, List.findIdx?_eq_none_iff] at hnone
    intro c hc
    simpa using hnone c hc
  next idx hidx =>
    cases ht
    obtain ⟨c', hc', htoken⟩ := findCallback_some hidx
    intro c hc heq
    obtain ⟨j, hj⟩ := List.mem_iff_getElem?.mp hc
    have hj' := getElem?_eraseCallback hj
    have hinj := List.inj_on_of_nodup_map hloop.nodup (List.mem_of_getElem? hj')
      (List.mem_of_getElem? hc') (heq.trans htoken.symm)
    rw [hinj] at hj'
    have hindex := (List.getElem?_inj (List.getElem?_eq_some_iff.mp hc').1
      (List.Nodup.of_map _ hloop.nodup)).mp (hc'.trans hj'.symm)
    split at hindex <;> omega

theorem deliveryInv_next
    (hloop : LoopInv s)
    (h : DeliveryInv q s)
    (hstep : step q s .next = some t) :
    DeliveryInv q t := by
  simp only [step] at hstep
  split at hstep
  next pass hdelivery =>
    rw [loop] at hstep
    split at hstep
    next hlt =>
      obtain ⟨c, hc, rfl⟩ := Option.map_eq_some_iff.mp hstep
      cases pass with
      | before =>
          refine h.of_delivery (some (nextIndex s)) s.callbackCount s.hasError s.delivery
            ?_ ?_
          · intro i
            rw [Waiting, Waiting, hdelivery]
          · intro c hc herror
            exact absurd herror (h.no_error (by rw [hdelivery]; simp) hc)
      | after =>
          rw [visit]
          split
          next hnothing =>
            rw [Bool.and_eq_true] at hnothing
            exact deliveryInv_pass h hdelivery rfl hc hnothing
          next hcalled =>
            rw [Bool.and_eq_true] at hcalled
            exact deliveryInv_call hloop h hdelivery rfl hlt hc hcalled
      | error =>
          exact deliveryInv_fail hloop h hdelivery hc
    next hend =>
      cases hstep
      exact deliveryInv_finish h hdelivery hend
  next token hdelivery =>
    obtain ⟨u, hu, rfl⟩ := Option.map_eq_some_iff.mp hstep
    have hcounted := (hloop.failing_lt token hdelivery).2
    have hu_inv := deliveryInv_removeCallback h (fun _ idx hidx => by
      obtain ⟨c, hc, htoken⟩ := findCallback_some hidx
      exact hcounted idx c hc htoken) hu
    have hkept := removeCallback_delivery hu
    rw [hdelivery] at hkept
    refine hu_inv.of_delivery u.callbackIndex u.callbackCount u.hasError _ ?_ ?_
    · intro i
      rw [Waiting, Waiting, hkept]
    · intro c hc herror
      obtain ⟨i, hi⟩ := List.mem_iff_getElem?.mp hc
      have hfailing := (hu_inv.callbacks i c hi).noError herror
      rw [hkept] at hfailing
      cases hfailing
      exact absurd rfl (removeCallback_not_mem hloop hu c hc)
  next => cases hstep
  next => cases hstep

theorem deliveryInv_step
    {a : Action α}
    (hloop : LoopInv s)
    (h : DeliveryInv q s)
    (ha : Orderly q s a t)
    (hstep : step q s a = some t) :
    DeliveryInv q t := by
  cases a with
  | addCallback =>
      cases hstep
      exact deliveryInv_addCallback hloop h
  | removeCallback token =>
      exact deliveryInv_removeCallback h ha hstep
  | suppressNext token =>
      exact deliveryInv_suppressNext h hstep
  | run next keyDidChange complete =>
      simp only [step, Option.ite_none_right_eq_some, Option.some.injEq] at hstep
      obtain ⟨hran, rfl⟩ := hstep
      exact deliveryInv_runQuery hloop h ha hran
  | tableDeleted =>
      simp only [step, Option.ite_none_right_eq_some, Option.some.injEq] at hstep
      obtain ⟨hran, rfl⟩ := hstep
      exact deliveryInv_runDeleted h hran
  | prepareHandover =>
      cases hstep
      exact deliveryInv_prepareHandover hloop h ha
  | packageForDelivery =>
      simp only [step, Option.ite_none_right_eq_some, Option.some.injEq] at hstep
      obtain ⟨⟨hidle, hrun⟩, rfl⟩ := hstep
      exact deliveryInv_packageForDelivery h ha hidle hrun
  | discard =>
      exact ha.elim
  | start pass =>
      exact deliveryInv_start_pass hloop h hstep
  | next =>
      exact deliveryInv_next hloop h hstep

/-- Invariant of the whole notifier. -/
def NotifierInv (q : Query α) (s : State α) : Prop :=
  LoopInv s ∧ DeliveryInv q s

theorem run_notifierInv
    {as : List (Action α)}
    (horderly : EveryStep (step q) (Orderly q) start as)
    (hrun : run (step q) start as = some t) :
    NotifierInv q t := by
  have hstart : NotifierInv q start := ⟨loopInv_start, deliveryInv_start q⟩
  refine run_invariant_of_everyStep ?_ hstart horderly hrun
  intro _ _ _ h ha hstep
  exact ⟨loopInv_step h.1 ha hstep, deliveryInv_step h.1 h.2 ha hstep⟩

/-- A callback is told of two rows, and then that their table was deleted. -/
def deletedRun : List (Action (Int × String)) :=
  [.addCallback, .run [(1, "a"), (2, "b")] (fun _ => false) true, .prepareHandover,
    .packageForDelivery, .start .after, .next, .next, .tableDeleted, .prepareHandover,
    .packageForDelivery, .start .after, .next, .next]

def rowsQuery : Query (Int × String) where
  key := Prod.fst
  byKey := .stable
  inTableOrder := true

theorem orderly_deletedRun :
    EveryStep (step rowsQuery) (Orderly rowsQuery) start deletedRun := by
  rintro _ ⟨⟩
  refine ⟨trivial, ?_⟩
  rintro _ ⟨⟩
  refine ⟨⟨fun _ => by decide, fun _ x hx => absurd hx (List.not_mem_nil),
    fun _ => rfl⟩, ?_⟩
  rintro _ ⟨⟩
  refine ⟨by rintro _ (_ | ⟨_, ⟨⟩⟩) ⟨⟩, ?_⟩
  rintro _ ⟨⟩
  refine ⟨by rintro ⟨⟩, ?_⟩
  rintro _ ⟨⟩
  refine ⟨trivial, ?_⟩
  rintro _ ⟨⟩
  refine ⟨trivial, ?_⟩
  rintro _ ⟨⟩
  refine ⟨trivial, ?_⟩
  rintro _ ⟨⟩
  refine ⟨trivial, ?_⟩
  rintro _ ⟨⟩
  refine ⟨by rintro _ (_ | ⟨_, ⟨⟩⟩) ⟨⟩, ?_⟩
  rintro _ ⟨⟩
  refine ⟨by rintro ⟨⟩, ?_⟩
  rintro _ ⟨⟩
  refine ⟨trivial, ?_⟩
  rintro _ ⟨⟩
  refine ⟨trivial, ?_⟩
  rintro _ ⟨⟩
  exact ⟨trivial, trivial⟩

/--
**Nothing is lost between two deliveries: what is kept for a callback tells how
the rows that its block was told of became those of the last handover.**
-/
theorem idle_accumulated
    {as : List (Action α)}
    (horderly : EveryStep (step q) (Orderly q) start as)
    (hrun : run (step q) start as = some t)
    (hidle : t.delivery = .idle)
    {c : Callback α}
    (hc : c ∈ t.callbacks)
    (hpackaged : c.packaged = true) :
    ∃ rows,
      told c.token t.log = some rows ∧
      Tracks q.key c.accumulatedChanges rows t.handed := by
  have h := (run_notifierInv horderly hrun).2
  obtain ⟨i, hi⟩ := List.mem_iff_getElem?.mp hc
  have hcallback := h.callbacks i c hi
  obtain ⟨hinitial, hempty⟩ := hcallback.settled hpackaged (not_waiting_of_idle hidle i)
  refine ⟨c.shown, hcallback.shown hinitial, ?_⟩
  rw [(hcallback.deliver hinitial).eq_of_isEmpty hempty]
  exact hcallback.accumulated hpackaged

theorem idle_accumulated_deletedRun :
    ∃ t, run (step rowsQuery) start deletedRun = some t ∧
      ∃ c ∈ t.callbacks, ∃ rows, told c.token t.log = some rows ∧
        Tracks rowsQuery.key c.accumulatedChanges rows t.handed :=
  ⟨_, rfl, _, List.mem_cons_self,
    idle_accumulated orderly_deletedRun rfl rfl List.mem_cons_self rfl⟩

/-- The callbacks that were there when they were packaged and are there still. -/
def counted (s : State α) : List (Callback α) :=
  s.callbacks.take s.callbackCount

/-- A token is that of one callback at most. -/
theorem token_mem_counted_iff
    {idx : Nat} {c : Callback α}
    (hnodup : (s.callbacks.map Callback.token).Nodup)
    (hc : s.callbacks[idx]? = some c) :
    c.token ∈ (counted s).map Callback.token ↔ idx < s.callbackCount := by
  rw [counted, List.map_take, List.mem_take_iff_getElem]
  have hat : (s.callbacks.map Callback.token)[idx]? = some c.token := by
    rw [List.getElem?_map, hc]
    rfl
  obtain ⟨hlt, hget⟩ := List.getElem?_eq_some_iff.mp hat
  constructor
  · rintro ⟨j, hj, heq⟩
    obtain rfl : j = idx := by
      rw [← hget] at heq
      exact (List.Nodup.getElem_inj_iff hnodup).mp heq
    omega
  · intro hidx
    exact ⟨idx, by omega, hget⟩

theorem length_counted_filter
    {idx : Nat} {c : Callback α}
    (hnodup : (s.callbacks.map Callback.token).Nodup)
    (hc : s.callbacks[idx]? = some c) :
    ((counted s).filter (fun d => d.token ≠ c.token)).length =
      (counted s).length - if idx < s.callbackCount then 1 else 0 := by
  have hsplit : (counted s).length =
      ((counted s).map Callback.token).count c.token +
        ((counted s).filter (fun d => d.token ≠ c.token)).length := by
    rw [List.count, List.countP_map, ← List.countP_eq_length_filter,
      List.length_eq_countP_add_countP (fun d : Callback α => d.token == c.token)]
    simp [Function.comp_def]
  have hsub : ((counted s).map Callback.token).Nodup := by
    rw [counted, List.map_take]
    exact hnodup.sublist (List.take_sublist _ _)
  split
  next hidx =>
    rw [List.count_eq_one_of_mem hsub ((token_mem_counted_iff hnodup hc).mpr hidx)] at hsplit
    omega
  next hidx =>
    rw [List.count_eq_zero_of_not_mem
      (fun hmem => hidx ((token_mem_counted_iff hnodup hc).mp hmem))] at hsplit
    omega

end Runs

section Chunks

variable {α : Type u}
variable {q : Query α} {s t : State α}

/-- No change set that is merged has moves. -/
structure NoMoves (s : State α) : Prop where
  change : s.change.moves = []
  accumulated : ∀ c ∈ s.callbacks, c.accumulatedChanges.moves = []

theorem NoMoves.of_sublist
    (h : NoMoves s)
    (hchange : t.change = s.change)
    (hcallbacks : ∀ c ∈ t.callbacks, c ∈ s.callbacks) :
    NoMoves t where
  change := hchange ▸ h.change
  accumulated c hc := h.accumulated c (hcallbacks c hc)

theorem noMoves_removeCallback
    {token : Nat}
    (h : NoMoves s)
    (hstep : removeCallback s token = some t) :
    NoMoves t := by
  rw [removeCallback] at hstep
  split at hstep
  · split at hstep
    · cases hstep
      exact h
    · cases hstep
  · cases hstep
    exact h.of_sublist rfl (fun c hc => List.mem_of_mem_eraseIdx hc)

/-- What a callback has accumulated is changed at a handover only. -/
theorem noMoves_loop
    {pass : Pass}
    (h : NoMoves s)
    (hstep : loop s pass = some t) :
    NoMoves t := by
  rw [loop] at hstep
  split at hstep
  · obtain ⟨c, hc, rfl⟩ := Option.map_eq_some_iff.mp hstep
    cases pass with
    | before => exact ⟨h.change, h.accumulated⟩
    | error => exact ⟨h.change, h.accumulated⟩
    | after =>
        simp only [visit]
        split
        · exact ⟨h.change, h.accumulated⟩
        · refine ⟨h.change, fun d hd => ?_⟩
          rcases List.mem_or_eq_of_mem_set hd with hd | rfl
          · exact h.accumulated d hd
          · exact h.accumulated c (List.mem_of_getElem? hc)
  · cases hstep
    exact ⟨h.change, h.accumulated⟩

theorem noMoves_suppressNext
    {token : Nat}
    (h : NoMoves s)
    (hstep : suppressNext s token = some t) :
    NoMoves t := by
  rw [suppressNext] at hstep
  split at hstep
  · split at hstep
    · cases hstep
      exact h
    · cases hstep
  · cases hstep
    refine ⟨h.change, fun c hc => ?_⟩
    obtain ⟨i, hi⟩ := List.mem_iff_getElem?.mp hc
    simp only [List.getElem?_modify] at hi
    obtain ⟨d, hd, rfl⟩ := Option.map_eq_some_iff.mp hi
    have haccumulated := h.accumulated d (List.mem_of_getElem? hd)
    split
    · exact haccumulated
    · exact haccumulated

theorem noMoves_prepareHandover
    (h : NoMoves s) :
    NoMoves (prepareHandover s) := by
  refine ⟨rfl, fun c hc => ?_⟩
  obtain ⟨d, hd, rfl⟩ := List.mem_map.mp hc
  rw [addChanges]
  split
  · exact h.accumulated d hd
  · exact CollectionChangeBuilder.moves_merge_of_no_moves (h.accumulated d hd) h.change

theorem noMoves_step
    {a : Action α}
    (h : NoMoves s)
    (hstep : step q s a = some t) :
    NoMoves t := by
  cases a with
  | addCallback =>
      cases hstep
      refine ⟨h.change, fun c hc => ?_⟩
      rcases List.mem_append.mp hc with hc | hc
      · exact h.accumulated c hc
      · rw [List.mem_singleton.mp hc]
        rfl
  | removeCallback token =>
      exact noMoves_removeCallback h hstep
  | suppressNext token =>
      exact noMoves_suppressNext h hstep
  | run next keyDidChange complete =>
      simp only [step, Option.ite_none_right_eq_some, Option.some.injEq] at hstep
      obtain ⟨_, rfl⟩ := hstep
      rw [runQuery]
      split
      · exact ⟨moves_calculate _ _ _ _ _, h.accumulated⟩
      · exact ⟨h.change, h.accumulated⟩
  | tableDeleted =>
      simp only [step, Option.ite_none_right_eq_some, Option.some.injEq] at hstep
      obtain ⟨_, rfl⟩ := hstep
      exact ⟨rfl, h.accumulated⟩
  | prepareHandover =>
      cases hstep
      exact noMoves_prepareHandover h
  | packageForDelivery =>
      simp only [step, Option.ite_none_right_eq_some, Option.some.injEq] at hstep
      obtain ⟨_, rfl⟩ := hstep
      refine ⟨h.change, fun c hc => ?_⟩
      obtain ⟨d, hd, rfl⟩ := List.mem_map.mp hc
      rfl
  | discard =>
      simp only [step, Option.ite_none_right_eq_some, Option.some.injEq] at hstep
      obtain ⟨_, rfl⟩ := hstep
      exact ⟨h.change, h.accumulated⟩
  | start pass =>
      cases pass <;>
      · simp only [step, Option.ite_none_right_eq_some, Option.some.injEq] at hstep
        obtain ⟨_, rfl⟩ := hstep
        exact ⟨h.change, h.accumulated⟩
  | next =>
      simp only [step] at hstep
      split at hstep
      · exact noMoves_loop h hstep
      · obtain ⟨u, hu, rfl⟩ := Option.map_eq_some_iff.mp hstep
        have hu := noMoves_removeCallback h hu
        exact ⟨hu.change, hu.accumulated⟩
      · cases hstep
      · cases hstep

/-- **However the change sets of a notifier are cut into chunks, and whatever their
counts, they are merged as here.** -/
theorem merge_chunked
    {as : List (Action α)}
    (hrun : run (step q) start as = some t)
    {c : Callback α}
    (hc : c ∈ t.callbacks)
    {accumulated change : ChunkedChangeBuilder}
    (haccumulated : accumulated.changes = c.accumulatedChanges)
    (hchange : change.changes = t.change) :
    (accumulated.merge change).changes = c.accumulatedChanges.merge t.change := by
  have hstart : NoMoves (start : State α) := ⟨rfl, by simp [start]⟩
  have h := run_invariant (fun _ _ _ => noMoves_step) hstart hrun
  rw [← haccumulated, ← hchange]
  refine ChunkedChangeBuilder.changes_merge_of_no_moves ?_ ?_
  · exact (congrArg CollectionChangeSet.moves haccumulated).trans (h.accumulated c hc)
  · exact (congrArg CollectionChangeSet.moves hchange).trans h.change

end Chunks

end Notifier

end ObjectStore
end NotVK
