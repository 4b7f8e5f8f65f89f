import NotVK.App.FetchedFriends

/-!
# SaveDataOperation.main

`main()` deletes all friends and adds the parsed ones in one transaction.  The
deletion takes care of clashes with old objects.  Two friends of the new list
with one id still clash, and the exception that `add` raises is an Objective-C
one, which `do`/`catch` lets pass.

`mainActions` lists the steps of `main()` for each way that `Realm()` and
`commitWrite()` can end.
-/

namespace NotVK
namespace Fetching

open Json News Networking Runs Transactions

section Main

variable {ChainId : Type} [DecidableEq ChainId]

/-- How `try Realm()` and `try realm.commitWrite()` end. -/
inductive Outcome where
  | openThrows
  | commitThrows
  | commits
deriving DecidableEq

/-- The steps of `main()` before the additions. -/
def upToDelete (i : ChainId) : List (ChainId × ChainAction) :=
  [(i, .saveReadsOutput), (i, .openRealm true), (i, .beginWrite),
    (i, .deleteOld)]

/-- The steps of `main()` after the additions. -/
def afterAdd (i : ChainId) (success : Bool) : List (ChainId × ChainAction) :=
  (i, .commitWrite success) :: if success then [] else [(i, .closeRealm)]

/-- The steps of `main()`. -/
def mainActions (i : ChainId) : Outcome → List (ChainId × ChainAction)
  | .openThrows => [(i, .saveReadsOutput), (i, .openRealm false)]
  | .commitThrows => upToDelete i ++ (i, .addNew) :: afterAdd i false
  | .commits => upToDelete i ++ (i, .addNew) :: afterAdd i true

/--
The body `data` was decoded to `items`, and the save operation of chain `i` is
about to run; the store may hold anything.
-/
structure ReadyToSave
    (parse : Data → Option JSON) (data : Data) (items : List FriendItem)
    (s : System ChainId) (i : ChainId) : Prop where
  decoded : decodeItems parse FriendItem.decode data = some items
  parsed : (s.chains i).parse =
    .finished (parseMain parse FriendItem.decode (some data))
  waiting : (s.chains i).save = .waiting
  free : s.store.transaction = none
  running : s.crashed = false

/-- `main()` runs to its end, and a commit leaves one friend for each id. -/
structure SavesAll
    (parse : Data → Option JSON) (items : List FriendItem)
    (s : System ChainId) (i : ChainId) : Prop where
  ends : ∀ outcome, ∃ t saved,
    run (step parse) s (mainActions i outcome) = some t ∧
    t.crashed = false ∧ (t.chains i).save = .finished saved
  unique : ∀ t, run (step parse) s (mainActions i .commits) = some t →
    ∀ id ∈ items.map FriendItem.id,
      ∃! x, x ∈ t.store.committed .friendItem ∧ FriendItem.id x = id
  nothingElse : ∀ t,
    run (step parse) s (mainActions i .commits) = some t →
    ∀ x ∈ t.store.committed .friendItem, x ∈ items

end Main

section Steps

variable {ChainId : Type} [DecidableEq ChainId]
variable {parse : Data → Option JSON}

/-- The system when `main()` of chain `i` has come to a point. -/
def System.saving
    (s : System ChainId) (i : ChainId) (save : SavePoint)
    (store : Store ChainId RealmType.Object) : System ChainId :=
  s.after i { s.chains i with save := save } store

@[simp] theorem saving_chains_self
    (s : System ChainId) (i : ChainId) (save : SavePoint)
    (store : Store ChainId RealmType.Object) :
    (s.saving i save store).chains i = { s.chains i with save := save } :=
  after_chains_self s i _ store

@[simp] theorem saving_store
    (s : System ChainId) (i : ChainId) (save : SavePoint)
    (store : Store ChainId RealmType.Object) :
    (s.saving i save store).store = store := by
  rfl

@[simp] theorem saving_crashed
    (s : System ChainId) (i : ChainId) (save : SavePoint)
    (store : Store ChainId RealmType.Object) :
    (s.saving i save store).crashed = s.crashed := by
  rfl

/-- The next point overwrites the one before. -/
theorem saving_setChain
    (s : System ChainId) (i : ChainId) (save next : SavePoint)
    (store store' : Store ChainId RealmType.Object) :
    { (s.saving i save store).setChain i { s.chains i with save := next } with
      store := store' } = s.saving i next store' := by
  simp [System.saving, System.after, System.setChain]

omit [DecidableEq ChainId] in
theorem outputData_of_ready
    {data : Data} {items : List FriendItem} {s : System ChainId} {i : ChainId}
    (h : ReadyToSave parse data items s i) :
    (s.chains i).outputData = some items := by
  rw [Chain.outputData, h.parsed]
  exact h.decoded

theorem step_saveReadsOutput
    {data : Data} {items : List FriendItem} {s : System ChainId} {i : ChainId}
    (h : ReadyToSave parse data items s i) :
    step parse s (i, .saveReadsOutput) =
      some (s.saving i .readOutput s.store) := by
  have hfinished : (s.chains i).parseIsFinished = true := by
    rw [Chain.parseIsFinished, h.parsed]
  simp only [step, h.running, saveStep, h.waiting, hfinished,
    outputData_of_ready h]
  rfl

theorem step_openRealm
    {s : System ChainId} {i : ChainId}
    {store : Store ChainId RealmType.Object}
    (hrunning : s.crashed = false) (success : Bool) :
    step parse (s.saving i .readOutput store) (i, .openRealm success) =
      some (s.saving i (if success then .openedRealm else .finished false)
        store) := by
  simp only [step, saving_crashed, hrunning, saveStep, saving_chains_self]
  cases success with
  | true =>
      exact congrArg some
        (saving_setChain s i .readOutput .openedRealm store store)
  | false =>
      exact congrArg some
        (saving_setChain s i .readOutput (.finished false) store store)

theorem step_beginWrite
    {s : System ChainId} {i : ChainId}
    {store : Store ChainId RealmType.Object}
    (hrunning : s.crashed = false)
    (hfree : store.transaction = none) :
    step parse (s.saving i .openedRealm store) (i, .beginWrite) =
      some (s.saving i .begunWrite
        { store with transaction := some (i, store.committed) }) := by
  simp only [step, saving_crashed, hrunning, saveStep, saving_chains_self,
    saving_store, Store.beginWrite, hfree]
  simpa using saving_setChain s i .openedRealm .begunWrite store _

theorem step_deleteOld
    {s : System ChainId} {i : ChainId} {v w : RealmVersion}
    (hrunning : s.crashed = false) :
    step parse (s.saving i .begunWrite ⟨v, some (i, w)⟩) (i, .deleteOld) =
      some (s.saving i .deletedOld
        ⟨v, some (i, deleteAll w .friendItem)⟩) := by
  simp only [step, saving_crashed, hrunning, saveStep, saving_chains_self,
    saving_store, Store.write]
  simpa using saving_setChain s i .begunWrite .deletedOld ⟨v, some (i, w)⟩ _

/-- The additions go through when no id repeats; else the program ends. -/
theorem step_addNew
    {s : System ChainId} {i : ChainId} {v w : RealmVersion}
    {items : List FriendItem}
    (hrunning : s.crashed = false)
    (hout : (s.chains i).outputData = some items) :
    step parse (s.saving i .deletedOld ⟨v, some (i, w)⟩) (i, .addNew) =
      match addAll primaryKey w .friendItem items with
      | some added => some (s.saving i .addedNew ⟨v, some (i, added)⟩)
      | none => some { s.saving i .deletedOld ⟨v, some (i, w)⟩ with
          crashed := true } := by
  have hout' : ({ s.chains i with save := .deletedOld } : Chain).outputData =
      some items := hout
  simp only [step, saving_crashed, hrunning, saveStep, saving_chains_self,
    saving_store, Store.write, hout']
  cases addAll primaryKey w .friendItem items with
  | none =>
      rfl
  | some added =>
      exact congrArg some (saving_setChain s i .deletedOld .addedNew
        ⟨v, some (i, w)⟩ ⟨v, some (i, added)⟩)

theorem step_commitWrite
    {s : System ChainId} {i : ChainId} {v w : RealmVersion}
    (hrunning : s.crashed = false) (success : Bool) :
    step parse (s.saving i .addedNew ⟨v, some (i, w)⟩)
        (i, .commitWrite success) =
      some (if success then s.saving i (.finished true) ⟨w, none⟩
        else s.saving i .commitFailed ⟨v, some (i, w)⟩) := by
  simp only [step, saving_crashed, hrunning, saveStep, saving_chains_self,
    saving_store, Store.commit]
  cases success with
  | true =>
      simpa using saving_setChain s i .addedNew (.finished true)
        ⟨v, some (i, w)⟩ ⟨w, none⟩
  | false =>
      exact congrArg some (saving_setChain s i .addedNew .commitFailed
        ⟨v, some (i, w)⟩ ⟨v, some (i, w)⟩)

theorem step_closeRealm
    {s : System ChainId} {i : ChainId} {v w : RealmVersion}
    (hrunning : s.crashed = false) :
    step parse (s.saving i .commitFailed ⟨v, some (i, w)⟩) (i, .closeRealm) =
      some (s.saving i (.finished false) ⟨v, none⟩) := by
  simp only [step, saving_crashed, hrunning, saveStep, saving_chains_self]
  exact congrArg some (saving_setChain s i .commitFailed (.finished false)
    ⟨v, some (i, w)⟩ ⟨v, none⟩)

end Steps

section WholeMain

variable {ChainId : Type} [DecidableEq ChainId]
variable {parse : Data → Option JSON}

theorem run_upToDelete
    {data : Data} {items : List FriendItem} {s : System ChainId} {i : ChainId}
    (h : ReadyToSave parse data items s i) :
    run (step parse) s (upToDelete i) =
      some (s.saving i .deletedOld ⟨s.store.committed,
        some (i, deleteAll s.store.committed .friendItem)⟩) := by
  rw [upToDelete, run_cons, step_saveReadsOutput h, Option.bind_some, run_cons,
    step_openRealm h.running, Option.bind_some, run_cons]
  simp only [if_true]
  rw [step_beginWrite h.running h.free, Option.bind_some, run_cons,
    step_deleteOld h.running]
  rfl

/-- `main()` after a transaction that went through. -/
theorem run_afterAdd
    {s : System ChainId} {i : ChainId} {v w : RealmVersion}
    (hrunning : s.crashed = false) (success : Bool) :
    run (step parse) (s.saving i .addedNew ⟨v, some (i, w)⟩)
        (afterAdd i success) =
      some (s.saving i (.finished success)
        ⟨if success then w else v, none⟩) := by
  rw [afterAdd, run_cons, step_commitWrite hrunning, Option.bind_some]
  cases success with
  | true =>
      rfl
  | false =>
      simp [step_closeRealm hrunning]

/-- With distinct ids the new friends replace the old ones. -/
theorem run_transaction
    {data : Data} {items : List FriendItem} {s : System ChainId} {i : ChainId}
    (h : ReadyToSave parse data items s i)
    (hnodup : (items.map FriendItem.id).Nodup) (success : Bool) :
    run (step parse) s (upToDelete i ++ (i, .addNew) :: afterAdd i success) =
      some (s.saving i (.finished success)
        ⟨if success then
            Function.update s.store.committed .friendItem items.toFinset
          else s.store.committed, none⟩) := by
  obtain ⟨w, hw⟩ : ∃ w, addAll primaryKey
      (deleteAll s.store.committed .friendItem) .friendItem items = some w :=
    exists_addAll_deleteAll_iff.mpr hnodup
  rw [run_append, run_upToDelete h, Option.bind_some, run_cons,
    step_addNew h.running (outputData_of_ready h), hw]
  have hadded := addAll_deleteAll_eq_some hw
  subst hadded
  exact run_afterAdd h.running success

/-- A repeated id ends the program inside the transaction. -/
theorem run_crashes
    {data : Data} {items : List FriendItem} {s : System ChainId} {i : ChainId}
    (h : ReadyToSave parse data items s i)
    (hrepeated : ¬ (items.map FriendItem.id).Nodup) :
    ∃ t, run (step parse) s (upToDelete i ++ [(i, .addNew)]) = some t ∧
      t.crashed = true := by
  have hnone : addAll primaryKey (deleteAll s.store.committed .friendItem)
      .friendItem items = none := by
    rw [Option.eq_none_iff_forall_ne_some]
    intro w hw
    exact hrepeated (exists_addAll_deleteAll_iff.mp ⟨w, hw⟩)
  refine ⟨{ s.saving i .deletedOld ⟨s.store.committed,
      some (i, deleteAll s.store.committed .friendItem)⟩ with
    crashed := true }, ?_, rfl⟩
  rw [run_append, run_upToDelete h, Option.bind_some, run_cons,
    step_addNew h.running (outputData_of_ready h), hnone]
  rfl

/-- `main()` can only run to its end when no id repeats. -/
theorem nodup_of_savesAll
    {data : Data} {items : List FriendItem} {s : System ChainId} {i : ChainId}
    (h : ReadyToSave parse data items s i)
    (hsaves : SavesAll parse items s i) :
    (items.map FriendItem.id).Nodup := by
  by_contra hrepeated
  obtain ⟨u, hcrash, hcrashed⟩ := run_crashes h hrepeated
  obtain ⟨t, _, hrun, _, _⟩ := hsaves.ends .commits
  have hsplit : mainActions i .commits =
      (upToDelete i ++ [(i, .addNew)]) ++ [(i, .commitWrite true)] := rfl
  rw [hsplit] at hrun
  obtain ⟨u', hu', hstep⟩ := run_snoc_some.mp hrun
  rw [hcrash] at hu'
  cases hu'
  simp [step, hcrashed] at hstep

/--
**`main()` saves all friends, for every end of `Realm()` and `commitWrite()`, if
and only if no id repeats in the list.**
-/
theorem savesAll_iff
    {data : Data} {items : List FriendItem} {s : System ChainId} {i : ChainId}
    (h : ReadyToSave parse data items s i) :
    SavesAll parse items s i
      ↔
    (items.map FriendItem.id).Nodup := by
  constructor
  · exact nodup_of_savesAll h
  · intro hnodup
    have hfriends : ∀ t,
        run (step parse) s (mainActions i .commits) = some t →
        t.store.committed .friendItem = items.toFinset := by
      intro t hrun
      rw [mainActions, run_transaction h hnodup true] at hrun
      cases hrun
      simp
    constructor
    · intro outcome
      cases outcome with
      | openThrows =>
          refine ⟨s.saving i (.finished false) s.store, false, ?_, h.running,
            by simp⟩
          rw [mainActions, run_cons, step_saveReadsOutput h, Option.bind_some,
            run_cons, step_openRealm h.running]
          rfl
      | commitThrows =>
          exact ⟨_, false, run_transaction h hnodup false, h.running, by simp⟩
      | commits =>
          exact ⟨_, true, run_transaction h hnodup true, h.running, by simp⟩
    · intro t hrun id hid
      obtain ⟨x, hx, rfl⟩ := List.mem_map.mp hid
      rw [hfriends t hrun]
      refine ⟨x, ⟨List.mem_toFinset.mpr hx, rfl⟩, ?_⟩
      rintro y ⟨hy, hkey⟩
      exact List.inj_on_of_nodup_map hnodup (List.mem_toFinset.mp hy) hx hkey
    · intro t hrun x hx
      rw [hfriends t hrun] at hx
      exact List.mem_toFinset.mp hx

/-- A chain whose response has been stored, decoded and put out. -/
def parsedChain (parse : Data → Option JSON) (data : Data) : Chain where
  get :=
    { Operations.Config.initial with
      op :=
        { state := .finished, isCancelled := false, task := some .resumed
          data := some data }
      start := .returned
      block := .done ⟨some data, none⟩ }
  parse := .finished (parseMain parse FriendItem.decode (some data))
  save := .waiting

/-- One chain that is ready to save, and a store with one old friend. -/
def readySystem (parse : Data → Option JSON) (data : Data) : System Unit where
  store :=
    { committed := fun t =>
        match t with
        | .friendItem => {⟨"C", "D", none, 7⟩}
        | .groupItem => ∅
      transaction := none }
  chains := fun _ => parsedChain parse data
  crashed := false

theorem readyToSave_oneFriend :
    ReadyToSave parseOneFriend oneFriendBody [⟨"A", "B", none, 7⟩]
      (readySystem parseOneFriend oneFriendBody) () where
  decoded := rfl
  parsed := rfl
  waiting := rfl
  free := rfl
  running := rfl

theorem savesAll_iff_oneFriend :
    SavesAll parseOneFriend [⟨"A", "B", none, 7⟩]
        (readySystem parseOneFriend oneFriendBody) ()
      ↔
    ([⟨"A", "B", none, 7⟩].map FriendItem.id).Nodup :=
  savesAll_iff readyToSave_oneFriend

/-- Body of a response in which the friend comes twice. -/
def friendTwiceBody : Data :=
  ("\x7b\"response\":\x7b\"items\":[" ++
    "\x7b\"id\":7,\"first_name\":\"A\",\"last_name\":\"B\"\x7d," ++
    "\x7b\"id\":7,\"first_name\":\"A\",\"last_name\":\"B\"\x7d" ++
    "]\x7d\x7d").toList.map fun c => c.toNat.toUInt8

def friendTwiceJSON : JSON :=
  .object [("response", .object [("items", .array
    [.object [("id", .number ⟨7, 0⟩), ("first_name", .string "A"),
        ("last_name", .string "B")],
      .object [("id", .number ⟨7, 0⟩), ("first_name", .string "A"),
        ("last_name", .string "B")]])])]

def parseFriendTwice (data : Data) : Option JSON :=
  if data = friendTwiceBody then some friendTwiceJSON else none

theorem readyToSave_friendTwice :
    ReadyToSave parseFriendTwice friendTwiceBody
      [⟨"A", "B", none, 7⟩, ⟨"A", "B", none, 7⟩]
      (readySystem parseFriendTwice friendTwiceBody) () where
  decoded := by
    rw [decodeItems, parseFriendTwice, if_pos rfl]
    rfl
  parsed := rfl
  waiting := rfl
  free := rfl
  running := rfl

/-- The second friend with the id ends the program. -/
theorem friendTwice_not_saved :
    ReadyToSave parseFriendTwice friendTwiceBody
      [⟨"A", "B", none, 7⟩, ⟨"A", "B", none, 7⟩]
      (readySystem parseFriendTwice friendTwiceBody) () ∧
    ¬ SavesAll parseFriendTwice [⟨"A", "B", none, 7⟩, ⟨"A", "B", none, 7⟩]
        (readySystem parseFriendTwice friendTwiceBody) () := by
  refine ⟨readyToSave_friendTwice, fun hsaves => ?_⟩
  have hnodup := nodup_of_savesAll readyToSave_friendTwice hsaves
  revert hnodup
  decide

end WholeMain

section Interleavings

variable {ChainId : Type} [DecidableEq ChainId]
variable {parse : Data → Option JSON}

/-- Some chain was to save a list in which an id repeats. -/
def SavesRepeatedId (s : System ChainId) : Prop :=
  ∃ i items, (s.chains i).outputData = some items ∧
    ¬ (items.map FriendItem.id).Nodup

theorem not_crashed_of_step
    {s t : System ChainId} {a : ChainId × ChainAction}
    (hstep : step parse s a = some t) :
    s.crashed = false := by
  by_contra hcrash
  rw [Bool.not_eq_false] at hcrash
  simp [step, hcrash] at hstep

/-- Only the additions can raise. -/
theorem addAll_of_crash
    {s t : System ChainId} {i : ChainId} {a : ChainAction}
    (hrunning : s.crashed = false)
    (h : saveStep s i a = some t)
    (hcrashed : t.crashed = true) :
    t.chains = s.chains ∧
    (s.chains i).save = .deletedOld ∧
    ∃ items, (s.chains i).outputData = some items ∧
      s.store.write i (fun v => addAll primaryKey v .friendItem items) =
        none := by
  cases saveStep_moves h with
  | addRaises hsave =>
      simp only [saveStep, hsave, if_true] at h
      split at h
      next => cases h
      next items hout =>
        split at h
        next store hstore =>
          have hcrash := congrArg (Option.map System.crashed) h
          simp [System.setChain, hrunning] at hcrash
        next hnone => exact ⟨rfl, hsave, items, hout, hnone⟩
  | _ =>
      rw [System.after, System.setChain] at hcrashed
      rw [hrunning] at hcrashed
      cases hcrashed

/-- In a reachable state the additions raise only on a repeated id. -/
theorem savesRepeatedId_of_crash
    {version : RealmVersion} {s t : System ChainId}
    {a : ChainId × ChainAction}
    (h : Consistent parse version s)
    (hstep : step parse s a = some t)
    (hcrashed : t.crashed = true) :
    SavesRepeatedId t := by
  have hrunning := not_crashed_of_step hstep
  rcases step_eq_some hstep with ⟨c, hc, rfl⟩ | hsave
  · rw [System.setChain, hrunning] at hcrashed
    cases hcrashed
  · obtain ⟨hchains, hpoint, items, hout, hnone⟩ :=
      addAll_of_crash hrunning hsave hcrashed
    refine ⟨a.1, items, by rw [hchains, hout], fun hnodup => ?_⟩
    have hopen := h.transacting a.1
    rw [Transacting, hpoint] at hopen
    obtain ⟨w, hw⟩ : ∃ w, addAll primaryKey
        (deleteAll s.store.committed .friendItem) .friendItem items = some w :=
      exists_addAll_deleteAll_iff.mpr hnodup
    simp [Store.write, hopen, hw] at hnone

/--
**Over all interleavings of all chains, the program ends only if some chain was
to save a list in which an id repeats.**
-/
theorem savesRepeatedId_of_run
    {version : RealmVersion} {s : System ChainId}
    {as : List (ChainId × ChainAction)}
    (hrun : run (step parse) (System.initial version) as = some s)
    (hcrashed : s.crashed = true) :
    SavesRepeatedId s := by
  induction as using List.reverseRecOn generalizing s with
  | nil =>
      cases hrun
      cases hcrashed
  | append_singleton pre a ih =>
      obtain ⟨u, hpre, hstep⟩ := run_snoc_some.mp hrun
      exact savesRepeatedId_of_crash (consistent_run hpre) hstep hcrashed

end Interleavings

end Fetching
end NotVK
