import NotVK.App.RealmOperations

/-!
# What the fetch chains leave in Realm

The invariant of a run has three parts.  Each chain on its own: what its parse
operation has put out was decoded from the chain's own response.  Each chain
against the store: the copy inside its open transaction is determined by how far
its save operation has come, and a chain outside a transaction holds none.  The
committed version: it is the initial one, or the friends were replaced by the
output of one chain that has saved.

Only a successful commit changes the committed version, and a chain whose save
operation has committed never moves on; so a chain that fails has changed
nothing.
-/

namespace NotVK
namespace Fetching

open Json News Networking Runs Transactions

section FetchStep

variable {parse : Data → Option JSON}

/-- The items decoded from the response of the chain's request. -/
def FromResponse
    (parse : Data → Option JSON) (c : Chain) (items : List FriendItem) : Prop :=
  ∃ result data,
    c.get.response = some result ∧
    Operations.payload result = some data ∧
    decodeItems parse FriendItem.decode data = some items

/-- What holds of one chain, whatever the store looks like. -/
structure ChainOk (parse : Data → Option JSON) (c : Chain) : Prop where
  data : Operations.DataFromResponse c.get
  output : ∀ items, c.outputData = some items → FromResponse parse c items
  saving :
    c.save ≠ .waiting →
    c.save ≠ .finished false →
    ∃ items, c.outputData = some items

theorem chainOk_initial : ChainOk parse Chain.initial where
  data := Operations.dataFromResponse_initial
  output := by
    intro items h
    cases h
  saving h := absurd rfl h

/-- What the get and parse operations can do. -/
inductive FetchMoves (parse : Data → Option JSON) (c : Chain) :
    ChainAction → Chain → Prop
  | get
      (a : Operations.Action) (g : Operations.Config)
      (hget : Operations.step c.get a = some g) :
      FetchMoves parse c (.get a) { c with get := g }
  | parseBecomesReady
      (hparse : c.parse = .waiting)
      (hfinished : c.get.op.isFinished = true) :
      FetchMoves parse c .parseBecomesReady { c with parse := .ready }
  | parseMain
      (hparse : c.parse = .ready) :
      FetchMoves parse c .parseMain
        { c with
          parse := .finished
            (parseMain parse FriendItem.decode c.get.op.data) }

theorem fetchStep_moves
    {c c' : Chain} {a : ChainAction}
    (h : fetchStep parse c a = some c') :
    FetchMoves parse c a c' := by
  cases a with
  | get a =>
      obtain ⟨g, hget, rfl⟩ := Option.map_eq_some_iff.mp h
      exact .get a g hget
  | parseBecomesReady =>
      simp only [fetchStep] at h
      split at h
      · cases h
        exact .parseBecomesReady (by tauto) (by tauto)
      · cases h
  | parseMain =>
      simp only [fetchStep] at h
      split at h
      · cases h
        exact .parseMain ‹_›
      · cases h
  | _ =>
      cases h

theorem outputData_none_of_not_finished
    {c : Chain}
    (h : c.parse = .waiting ∨ c.parse = .ready) :
    c.outputData = none := by
  rcases h with h | h <;> simp [Chain.outputData, h]

/-- The output of a parse operation is final, and fetching does not save. -/
theorem fetchStep_keeps
    {c c' : Chain} {a : ChainAction}
    (h : fetchStep parse c a = some c') :
    c'.save = c.save ∧
    ∀ items, c.outputData = some items → c'.outputData = some items := by
  cases fetchStep_moves h with
  | get a g hget =>
      exact ⟨rfl, fun _ hout => hout⟩
  | parseBecomesReady hparse hfinished =>
      refine ⟨rfl, fun items hout => ?_⟩
      rw [outputData_none_of_not_finished (Or.inl hparse)] at hout
      cases hout
  | parseMain hparse =>
      refine ⟨rfl, fun items hout => ?_⟩
      rw [outputData_none_of_not_finished (Or.inr hparse)] at hout
      cases hout

/-- What the parse operation puts out was decoded from the response. -/
theorem fromResponse_of_parseMain
    {c : Chain} {items : List FriendItem}
    (hdata : Operations.DataFromResponse c.get)
    (hout : parseMain parse FriendItem.decode c.get.op.data = some items) :
    FromResponse parse c items := by
  cases hd : c.get.op.data with
  | none =>
      rw [hd] at hout
      cases hout
  | some data =>
      obtain ⟨result, hresponse, hpayload⟩ := hdata data hd
      rw [hd] at hout
      exact ⟨result, data, hresponse, hpayload, hout⟩

theorem chainOk_fetchStep
    {c c' : Chain} {a : ChainAction}
    (hc : ChainOk parse c)
    (h : fetchStep parse c a = some c') :
    ChainOk parse c' := by
  obtain ⟨hsave, hkeep⟩ := fetchStep_keeps h
  have hsaving :
      c'.save ≠ .waiting → c'.save ≠ .finished false →
        ∃ items, c'.outputData = some items := by
    rw [hsave]
    intro h₁ h₂
    obtain ⟨items, hout⟩ := hc.saving h₁ h₂
    exact ⟨items, hkeep items hout⟩
  cases fetchStep_moves h with
  | get a g hget =>
      refine ⟨Operations.dataFromResponse_step hc.data hget, ?_, hsaving⟩
      intro items hout
      obtain ⟨result, data, hresponse, hpayload, hdecode⟩ := hc.output items hout
      exact ⟨result, data, Operations.response_step hresponse hget,
        hpayload, hdecode⟩
  | parseBecomesReady hparse hfinished =>
      refine ⟨hc.data, ?_, hsaving⟩
      intro items hout
      cases hout
  | parseMain hparse =>
      refine ⟨hc.data, ?_, hsaving⟩
      intro items hout
      exact fromResponse_of_parseMain hc.data hout

end FetchStep

section SaveStep

variable {ChainId : Type} [DecidableEq ChainId]

/-- System after chain `i` became `c` and the store became `store`. -/
def System.after
    (s : System ChainId) (i : ChainId) (c : Chain)
    (store : Store ChainId RealmType.Object) : System ChainId :=
  { s.setChain i c with store := store }

/-- What `SaveDataOperation.main()` of chain `i` can do. -/
inductive SaveMoves (s : System ChainId) (i : ChainId) :
    ChainAction → System ChainId → Prop
  | readNothing
      (hsave : (s.chains i).save = .waiting) :
      SaveMoves s i .saveReadsOutput
        (s.after i { s.chains i with save := .finished false } s.store)
  | readOutput
      (items : List FriendItem)
      (hsave : (s.chains i).save = .waiting)
      (hout : (s.chains i).outputData = some items) :
      SaveMoves s i .saveReadsOutput
        (s.after i { s.chains i with save := .readOutput } s.store)
  | openedRealm
      (hsave : (s.chains i).save = .readOutput) :
      SaveMoves s i (.openRealm true)
        (s.after i { s.chains i with save := .openedRealm } s.store)
  | openFailed
      (hsave : (s.chains i).save = .readOutput) :
      SaveMoves s i (.openRealm false)
        (s.after i { s.chains i with save := .finished false } s.store)
  | beginWrite
      (hsave : (s.chains i).save = .openedRealm)
      (hfree : s.store.transaction = none) :
      SaveMoves s i .beginWrite
        (s.after i { s.chains i with save := .begunWrite }
          { s.store with transaction := some (i, s.store.committed) })
  | deleteOld
      (v : RealmVersion)
      (hsave : (s.chains i).save = .begunWrite)
      (hopen : s.store.transaction = some (i, v)) :
      SaveMoves s i .deleteOld
        (s.after i { s.chains i with save := .deletedOld }
          { s.store with transaction := some (i, deleteAll v .friendItem) })
  | addNew
      (v w : RealmVersion) (items : List FriendItem)
      (hsave : (s.chains i).save = .deletedOld)
      (hout : (s.chains i).outputData = some items)
      (hopen : s.store.transaction = some (i, v))
      (hadd : addAll primaryKey v .friendItem items = some w) :
      SaveMoves s i .addNew
        (s.after i { s.chains i with save := .addedNew }
          { s.store with transaction := some (i, w) })
  | addRaises
      (hsave : (s.chains i).save = .deletedOld) :
      SaveMoves s i .addNew { s with crashed := true }
  | commit
      (v : RealmVersion)
      (hsave : (s.chains i).save = .addedNew)
      (hopen : s.store.transaction = some (i, v)) :
      SaveMoves s i (.commitWrite true)
        (s.after i { s.chains i with save := .finished true }
          { committed := v, transaction := none })
  | commitThrows
      (hsave : (s.chains i).save = .addedNew) :
      SaveMoves s i (.commitWrite false)
        (s.after i { s.chains i with save := .commitFailed } s.store)
  | closeRealm
      (hsave : (s.chains i).save = .commitFailed) :
      SaveMoves s i .closeRealm
        (s.after i { s.chains i with save := .finished false } s.store.cancel)

theorem saveStep_moves
    {s t : System ChainId} {i : ChainId} {a : ChainAction}
    (h : saveStep s i a = some t) :
    SaveMoves s i a t := by
  cases a with
  | saveReadsOutput =>
      simp only [saveStep] at h
      split at h
      next hsave =>
        split at h
        next =>
          cases h
          exact .readNothing hsave.1
        next items hout =>
          cases h
          exact .readOutput items hsave.1 hout
      next => cases h
  | openRealm success =>
      simp only [saveStep] at h
      split at h
      next hsave =>
        cases success with
        | true =>
            cases h
            exact .openedRealm hsave
        | false =>
            cases h
            exact .openFailed hsave
      next => cases h
  | beginWrite =>
      simp only [saveStep] at h
      split at h
      next hsave =>
        obtain ⟨st, hst, rfl⟩ := Option.map_eq_some_iff.mp h
        obtain ⟨hfree, rfl⟩ := Store.beginWrite_eq_some hst
        exact .beginWrite hsave hfree
      next => cases h
  | deleteOld =>
      simp only [saveStep] at h
      split at h
      next hsave =>
        obtain ⟨st, hst, rfl⟩ := Option.map_eq_some_iff.mp h
        obtain ⟨v, w, hopen, hw, rfl⟩ := Store.write_eq_some hst
        cases hw
        exact .deleteOld v hsave hopen
      next => cases h
  | addNew =>
      simp only [saveStep] at h
      split at h
      next hsave =>
        split at h
        next => cases h
        next items hout =>
          split at h
          next st hst =>
            cases h
            obtain ⟨v, w, hopen, hw, rfl⟩ := Store.write_eq_some hst
            exact .addNew v w items hsave hout hopen hw
          next =>
            cases h
            exact .addRaises hsave
      next => cases h
  | commitWrite success =>
      simp only [saveStep] at h
      split at h
      next hsave =>
        cases success with
        | true =>
            obtain ⟨st, hst, rfl⟩ := Option.map_eq_some_iff.mp h
            obtain ⟨v, hopen, rfl⟩ := Store.commit_eq_some hst
            exact .commit v hsave hopen
        | false =>
            cases h
            exact .commitThrows hsave
      next => cases h
  | closeRealm =>
      simp only [saveStep] at h
      split at h
      next hsave =>
        cases h
        exact .closeRealm hsave
      next => cases h
  | _ =>
      cases h

end SaveStep

section Invariant

variable {ChainId : Type} [DecidableEq ChainId]
variable {parse : Data → Option JSON}

/-- The open transaction of chain `i`, as far as its save operation has come. -/
def Transacting
    (st : Store ChainId RealmType.Object) (i : ChainId) (c : Chain) : Prop :=
  match c.save with
  | .begunWrite => st.transaction = some (i, st.committed)
  | .deletedOld =>
      st.transaction = some (i, deleteAll st.committed .friendItem)
  | .addedNew =>
      ∃ items, c.outputData = some items ∧
        st.transaction =
          some (i, Function.update st.committed .friendItem items.toFinset)
  | .commitFailed => st.OpenBy i
  | _ => ¬ st.OpenBy i

/-- The committed version is the initial one, or one chain's items replaced it. -/
def CommittedByOne
    (version : RealmVersion) (s : System ChainId) : Prop :=
  s.store.committed = version ∨
  ∃ i items,
    (s.chains i).save = .finished true ∧
    (s.chains i).outputData = some items ∧
    s.store.committed =
      Function.update version .friendItem items.toFinset

/-- Invariant of the runs from `version`. -/
structure Consistent
    (parse : Data → Option JSON) (version : RealmVersion)
    (s : System ChainId) : Prop where
  chainOk : ∀ i, ChainOk parse (s.chains i)
  transacting : ∀ i, Transacting s.store i (s.chains i)
  committed : CommittedByOne version s

omit [DecidableEq ChainId] in
theorem consistent_initial (version : RealmVersion) :
    Consistent parse version (System.initial version : System ChainId) where
  chainOk _ := chainOk_initial
  transacting _ := by
    rintro ⟨v, hv⟩
    cases hv
  committed := Or.inl rfl

omit [DecidableEq ChainId] in
/-- A chain outside a transaction does not mind what the store does. -/
theorem transacting_of_not_open
    {st st' : Store ChainId RealmType.Object} {i : ChainId} {c : Chain}
    (h : Transacting st i c)
    (hbefore : ¬ st.OpenBy i)
    (hafter : ¬ st'.OpenBy i) :
    Transacting st' i c := by
  unfold Transacting at h ⊢
  split at h
  · exact absurd ⟨_, h⟩ hbefore
  · exact absurd ⟨_, h⟩ hbefore
  · obtain ⟨items, _, hopen⟩ := h
    exact absurd ⟨_, hopen⟩ hbefore
  · exact absurd h hbefore
  · exact hafter

omit [DecidableEq ChainId] in
theorem transacting_congr
    {st : Store ChainId RealmType.Object} {i : ChainId} {c c' : Chain}
    (hsave : c'.save = c.save)
    (hout : ∀ items, c.outputData = some items → c'.outputData = some items)
    (h : Transacting st i c) :
    Transacting st i c' := by
  unfold Transacting at h ⊢
  rw [hsave]
  split at h
  · exact h
  · exact h
  · obtain ⟨items, hitems, hopen⟩ := h
    exact ⟨items, hout items hitems, hopen⟩
  · exact h
  · exact h

@[simp] theorem after_store
    (s : System ChainId) (i : ChainId) (c : Chain)
    (store : Store ChainId RealmType.Object) :
    (s.after i c store).store = store := by
  rfl

@[simp] theorem after_chains_self
    (s : System ChainId) (i : ChainId) (c : Chain)
    (store : Store ChainId RealmType.Object) :
    (s.after i c store).chains i = c := by
  simp [System.after, System.setChain]

theorem after_chains_of_ne
    (s : System ChainId) {i j : ChainId} (c : Chain)
    (store : Store ChainId RealmType.Object) (hji : j ≠ i) :
    (s.after i c store).chains j = s.chains j := by
  simp [System.after, System.setChain, hji]

/-- A version that one chain has committed stays the version of that chain. -/
theorem committedByOne_after
    {version : RealmVersion} {s : System ChainId} {i : ChainId} {c : Chain}
    {store : Store ChainId RealmType.Object}
    (h : CommittedByOne version s)
    (hsame : store.committed = s.store.committed)
    (hkeep : ∀ items,
      (s.chains i).save = .finished true →
      (s.chains i).outputData = some items →
      c.save = .finished true ∧ c.outputData = some items) :
    CommittedByOne version (s.after i c store) := by
  rcases h with hinit | ⟨j, items, hsaved, hout, hcommitted⟩
  · exact Or.inl (hsame.trans hinit)
  · refine Or.inr ⟨j, items, ?_⟩
    by_cases hji : j = i
    · subst hji
      obtain ⟨hsaved', hout'⟩ := hkeep items hsaved hout
      rw [after_chains_self]
      exact ⟨hsaved', hout', hsame.trans hcommitted⟩
    · rw [after_chains_of_ne _ _ _ hji]
      exact ⟨hsaved, hout, hsame.trans hcommitted⟩

/-- A chain and the store move together, and the other chains look on. -/
theorem consistent_after
    {version : RealmVersion} {s : System ChainId} {i : ChainId} {c : Chain}
    {store : Store ChainId RealmType.Object}
    (h : Consistent parse version s)
    (hok : ChainOk parse c)
    (hself : Transacting store i c)
    (hothers : ∀ j, j ≠ i →
      store = s.store ∨ (¬ s.store.OpenBy j ∧ ¬ store.OpenBy j))
    (hcommitted : CommittedByOne version (s.after i c store)) :
    Consistent parse version (s.after i c store) where
  chainOk j := by
    by_cases hji : j = i
    · subst hji
      simpa using hok
    · rw [after_chains_of_ne _ _ _ hji]
      exact h.chainOk j
  transacting j := by
    by_cases hji : j = i
    · subst hji
      simpa using hself
    · rw [after_chains_of_ne _ _ _ hji, after_store]
      rcases hothers j hji with hstore | ⟨hbefore, hafter⟩
      · rw [hstore]
        exact h.transacting j
      · exact transacting_of_not_open (h.transacting j) hbefore hafter
  committed := hcommitted

theorem consistent_fetchStep
    {version : RealmVersion} {s : System ChainId} {i : ChainId}
    {a : ChainAction} {c : Chain}
    (h : Consistent parse version s)
    (hstep : fetchStep parse (s.chains i) a = some c) :
    Consistent parse version (s.setChain i c) := by
  obtain ⟨hsave, hout⟩ := fetchStep_keeps hstep
  have hcommitted : CommittedByOne version (s.after i c s.store) := by
    apply committedByOne_after h.committed rfl
    intro items hsaved hitems
    exact ⟨hsave.trans hsaved, hout items hitems⟩
  exact consistent_after h
    (chainOk_fetchStep (h.chainOk i) hstep)
    (transacting_congr hsave hout (h.transacting i))
    (fun _ _ => Or.inl rfl)
    hcommitted

/-- A save operation that goes on leaves the rest of its chain alone. -/
theorem chainOk_save
    {c : Chain} {p : SavePoint}
    (h : ChainOk parse c)
    (hout : p = .finished false ∨ ∃ items, c.outputData = some items) :
    ChainOk parse { c with save := p } where
  data := h.data
  output := h.output
  saving _ hne := by
    rcases hout with hp | hitems
    · exact absurd hp hne
    · exact hitems

omit [DecidableEq ChainId] in
/-- Holding the transaction keeps every other chain out of it. -/
theorem not_open_of_open
    {st : Store ChainId RealmType.Object} {i j : ChainId} {v : RealmVersion}
    (hopen : st.transaction = some (i, v)) (hji : j ≠ i) :
    ¬ st.OpenBy j := by
  intro h
  exact hji (Store.openBy_unique h ⟨v, hopen⟩)

omit [DecidableEq ChainId] in
theorem not_open_of_none
    {st : Store ChainId RealmType.Object} {j : ChainId}
    (hnone : st.transaction = none) :
    ¬ st.OpenBy j := by
  rintro ⟨v, hv⟩
  rw [hnone] at hv
  cases hv

/-- A save operation that moves on without the store. -/
theorem consistent_setSave
    {version : RealmVersion} {s : System ChainId} {i : ChainId} {p : SavePoint}
    (h : Consistent parse version s)
    (hnotSaved : (s.chains i).save ≠ .finished true)
    (hout : p = .finished false ∨ ∃ items, (s.chains i).outputData = some items)
    (hself : Transacting s.store i { s.chains i with save := p }) :
    Consistent parse version
      (s.after i { s.chains i with save := p } s.store) := by
  refine consistent_after h (chainOk_save (h.chainOk i) hout) hself
    (fun _ _ => Or.inl rfl) ?_
  apply committedByOne_after h.committed rfl
  intro items hsaved
  exact absurd hsaved hnotSaved

/-- A save operation that changes only its own transaction. -/
theorem consistent_setTransaction
    {version : RealmVersion} {s : System ChainId} {i : ChainId} {p : SavePoint}
    {transaction : Option (ChainId × RealmVersion)}
    (h : Consistent parse version s)
    (hnotSaved : (s.chains i).save ≠ .finished true)
    (hout : p = .finished false ∨ ∃ items, (s.chains i).outputData = some items)
    (hself : Transacting { s.store with transaction := transaction } i
      { s.chains i with save := p })
    (hbefore : ∀ j, j ≠ i → ¬ s.store.OpenBy j)
    (hafter : ∀ j, j ≠ i →
      ¬ { s.store with transaction := transaction }.OpenBy j) :
    Consistent parse version
      (s.after i { s.chains i with save := p }
        { s.store with transaction := transaction }) := by
  refine consistent_after h (chainOk_save (h.chainOk i) hout) hself
    (fun j hji => Or.inr ⟨hbefore j hji, hafter j hji⟩) ?_
  apply committedByOne_after h.committed rfl
  intro items hsaved
  exact absurd hsaved hnotSaved

/-- The commit of chain `i` makes its items the friends. -/
theorem consistent_commit
    {version : RealmVersion} {s : System ChainId} {i : ChainId}
    {v : RealmVersion}
    (h : Consistent parse version s)
    (hsave : (s.chains i).save = .addedNew)
    (hopen : s.store.transaction = some (i, v)) :
    Consistent parse version
      (s.after i { s.chains i with save := .finished true }
        { committed := v, transaction := none }) := by
  have htransacting := h.transacting i
  simp only [Transacting, hsave] at htransacting
  obtain ⟨items, hout, hcopy⟩ := htransacting
  have hv : v = Function.update s.store.committed .friendItem items.toFinset := by
    rw [hopen] at hcopy
    cases hcopy
    rfl
  refine consistent_after h
    (chainOk_save (h.chainOk i) (Or.inr ⟨items, hout⟩))
    (not_open_of_none rfl)
    (fun j hji => Or.inr ⟨not_open_of_open hopen hji, not_open_of_none rfl⟩) ?_
  refine Or.inr ⟨i, items, by simp, by rw [after_chains_self]; exact hout, ?_⟩
  rw [after_store, hv]
  rcases h.committed with hinit | ⟨j, items', _, _, hreplaced⟩
  · rw [hinit]
  · rw [hreplaced, Function.update_idem]

theorem consistent_saveStep
    {version : RealmVersion} {s t : System ChainId} {i : ChainId}
    {a : ChainAction}
    (h : Consistent parse version s)
    (hstep : saveStep s i a = some t) :
    Consistent parse version t := by
  have htransacting := h.transacting i
  have hsaving := (h.chainOk i).saving
  cases saveStep_moves hstep with
  | readNothing hsave =>
      simp only [Transacting, hsave] at htransacting
      exact consistent_setSave h (by simp [hsave]) (Or.inl rfl) htransacting
  | readOutput items hsave hout =>
      simp only [Transacting, hsave] at htransacting
      exact consistent_setSave h (by simp [hsave]) (Or.inr ⟨items, hout⟩)
        htransacting
  | openedRealm hsave =>
      simp only [Transacting, hsave] at htransacting
      exact consistent_setSave h (by simp [hsave])
        (Or.inr (hsaving (by simp [hsave]) (by simp [hsave]))) htransacting
  | openFailed hsave =>
      simp only [Transacting, hsave] at htransacting
      exact consistent_setSave h (by simp [hsave]) (Or.inl rfl) htransacting
  | beginWrite hsave hfree =>
      exact consistent_setTransaction h (by simp [hsave])
        (Or.inr (hsaving (by simp [hsave]) (by simp [hsave]))) rfl
        (fun _ _ => not_open_of_none hfree)
        (fun _ hji => not_open_of_open rfl hji)
  | deleteOld v hsave hopen =>
      simp only [Transacting, hsave] at htransacting
      rw [hopen] at htransacting
      cases htransacting
      exact consistent_setTransaction h (by simp [hsave])
        (Or.inr (hsaving (by simp [hsave]) (by simp [hsave]))) rfl
        (fun _ hji => not_open_of_open hopen hji)
        (fun _ hji => not_open_of_open rfl hji)
  | addNew v w items hsave hout hopen hadd =>
      simp only [Transacting, hsave] at htransacting
      rw [hopen] at htransacting
      cases htransacting
      have hw := addAll_deleteAll_eq_some hadd
      exact consistent_setTransaction h (by simp [hsave])
        (Or.inr ⟨items, hout⟩) ⟨items, hout, by rw [hw]⟩
        (fun _ hji => not_open_of_open hopen hji)
        (fun _ hji => not_open_of_open rfl hji)
  | addRaises hsave =>
      exact ⟨h.chainOk, h.transacting, h.committed⟩
  | commit v hsave hopen =>
      exact consistent_commit h hsave hopen
  | commitThrows hsave =>
      simp only [Transacting, hsave] at htransacting
      obtain ⟨items, hout, hopen⟩ := htransacting
      exact consistent_setSave h (by simp [hsave]) (Or.inr ⟨items, hout⟩)
        ⟨_, hopen⟩
  | closeRealm hsave =>
      simp only [Transacting, hsave] at htransacting
      obtain ⟨v, hopen⟩ := htransacting
      exact consistent_setTransaction h (by simp [hsave]) (Or.inl rfl)
        (not_open_of_none rfl)
        (fun _ hji => not_open_of_open hopen hji)
        (fun _ _ => not_open_of_none rfl)

/-- A step is one of a fetching operation or one of a save operation. -/
theorem step_eq_some
    {s t : System ChainId} {a : ChainId × ChainAction}
    (h : step parse s a = some t) :
    (∃ c, fetchStep parse (s.chains a.1) a.2 = some c ∧ t = s.setChain a.1 c) ∨
    saveStep s a.1 a.2 = some t := by
  obtain ⟨i, a⟩ := a
  unfold step at h
  split at h
  · cases h
  · split at h
    · obtain ⟨c, hc, rfl⟩ := Option.map_eq_some_iff.mp h
      exact Or.inl ⟨c, hc, rfl⟩
    · obtain ⟨c, hc, rfl⟩ := Option.map_eq_some_iff.mp h
      exact Or.inl ⟨c, hc, rfl⟩
    · obtain ⟨c, hc, rfl⟩ := Option.map_eq_some_iff.mp h
      exact Or.inl ⟨c, hc, rfl⟩
    · exact Or.inr h

theorem consistent_step
    (version : RealmVersion)
    (s : System ChainId) (a : ChainId × ChainAction) (t : System ChainId)
    (h : Consistent parse version s)
    (hstep : step parse s a = some t) :
    Consistent parse version t := by
  rcases step_eq_some hstep with ⟨c, hc, rfl⟩ | hsave
  · exact consistent_fetchStep h hc
  · exact consistent_saveStep h hsave

theorem consistent_run
    {version : RealmVersion} {s : System ChainId}
    {as : List (ChainId × ChainAction)}
    (hrun : run (step parse) (System.initial version) as = some s) :
    Consistent parse version s :=
  run_invariant (consistent_step version) (consistent_initial version) hrun

end Invariant

section Result

variable {ChainId : Type} [DecidableEq ChainId]
variable {parse : Data → Option JSON}

/-- Only the chain that has just saved can have changed the committed version. -/
theorem committed_step
    {s t : System ChainId} {a : ChainId × ChainAction}
    (hstep : step parse s a = some t) :
    t.store.committed = s.store.committed ∨
    (t.chains a.1).save = .finished true := by
  rcases step_eq_some hstep with ⟨c, hc, rfl⟩ | hsave
  · exact Or.inl rfl
  · obtain ⟨i, a⟩ := a
    cases saveStep_moves hsave with
    | commit v hsave hopen => exact Or.inr (by simp)
    | _ => exact Or.inl rfl

/-- A chain that has saved never moves on. -/
theorem saved_step
    {i : ChainId} {s t : System ChainId} {a : ChainId × ChainAction}
    (hsaved : (s.chains i).save = .finished true)
    (hstep : step parse s a = some t) :
    (t.chains i).save = .finished true := by
  obtain ⟨j, a⟩ := a
  by_cases hij : i = j
  · subst hij
    rcases step_eq_some hstep with ⟨c, hc, rfl⟩ | hsave
    · simpa [System.setChain] using (fetchStep_keeps hc).1.trans hsaved
    · cases saveStep_moves hsave <;> simp_all
  · rcases step_eq_some hstep with ⟨c, hc, rfl⟩ | hsave
    · simpa [System.setChain, hij] using hsaved
    · cases saveStep_moves hsave with
      | addRaises hsave => exact hsaved
      | _ =>
          rw [after_chains_of_ne _ _ _ hij]
          exact hsaved

/-- Steps of a chain that has not saved by the end left the friends alone. -/
theorem unsaved_changes_nothing
    {version : RealmVersion} {s : System ChainId}
    {as : List (ChainId × ChainAction)} {i : ChainId}
    (hrun : run (step parse) (System.initial version) as = some s)
    (hunsaved : (s.chains i).save ≠ .finished true) :
    EveryStep (step parse)
      (fun u a t => a.1 = i → t.store.committed = u.store.committed)
      (System.initial version) as := by
  apply everyStep_of_split
  rintro pre a post u t has hpre hstep rfl
  rcases committed_step hstep with hsame | hsaved
  · exact hsame
  · exfalso
    apply hunsaved
    rw [has] at hrun
    obtain ⟨u', hpre', hrest⟩ := run_append_some.mp hrun
    rw [hpre] at hpre'
    cases hpre'
    obtain ⟨t', hstep', hpost⟩ := run_cons_some.mp hrest
    rw [hstep] at hstep'
    cases hstep'
    exact run_invariant
      (fun _ _ _ h hs => saved_step h hs) hsaved hpost

/--
**At every moment the committed friends are the initial ones or exactly the
items decoded from the response of one chain, and a chain that has not saved has
changed nothing.**
-/
theorem friends_from_one_response
    {version : RealmVersion} {s : System ChainId}
    {as : List (ChainId × ChainAction)}
    (hrun : run (step parse) (System.initial version) as = some s) :
    (s.store.committed .friendItem = version .friendItem ∨
      ∃ i items, FromResponse parse (s.chains i) items ∧
        s.store.committed .friendItem = items.toFinset) ∧
    (∀ i, (s.chains i).save ≠ .finished true →
      EveryStep (step parse)
        (fun u a t => a.1 = i → t.store.committed = u.store.committed)
        (System.initial version) as) := by
  have h := consistent_run hrun
  refine ⟨?_, fun i hunsaved => unsaved_changes_nothing hrun hunsaved⟩
  rcases h.committed with hinit | ⟨i, items, _, hout, hcommitted⟩
  · exact Or.inl (by rw [hinit])
  · refine Or.inr ⟨i, items, (h.chainOk i).output items hout, ?_⟩
    rw [hcommitted, Function.update_self]

/-- Body of a response with one friend. -/
def oneFriendBody : Data :=
  ("\x7b\"response\":\x7b\"items\":[\x7b\"id\":7,\"first_name\":\"A\"," ++
    "\"last_name\":\"B\"\x7d]\x7d\x7d").toList.map fun c => c.toNat.toUInt8

def oneFriendJSON : JSON :=
  .object [("response", .object [("items", .array [.object
    [("id", .number ⟨7, 0⟩), ("first_name", .string "A"),
      ("last_name", .string "B")]])])]

/-- The JSON parser on that body. -/
def parseOneFriend (data : Data) : Option JSON :=
  if data = oneFriendBody then some oneFriendJSON else none

/-- One chain fetches the friend and a second one gets a network error. -/
def twoChains : List (Bool × ChainAction) :=
  [(true, .get .readIsCancelled), (false, .get .readIsCancelled),
    (true, .get .createTask), (true, .get .resumeTask),
    (false, .get .createTask), (false, .get .resumeTask),
    (true, .get .startAssignsExecuting), (false, .get .startAssignsExecuting),
    (false, .get (.deliver ⟨none, some ⟨"NSURLErrorDomain", -1009⟩⟩)),
    (true, .get (.deliver ⟨some oneFriendBody, none⟩)),
    (true, .get .blockAssignsData), (true, .get .blockAssignsFinished),
    (false, .get .blockAssignsFinished),
    (true, .parseBecomesReady), (false, .parseBecomesReady),
    (true, .parseMain), (true, .saveReadsOutput), (true, .openRealm true),
    (false, .parseMain), (true, .beginWrite), (false, .saveReadsOutput),
    (true, .deleteOld), (true, .addNew), (true, .commitWrite true)]

theorem twoChains_run :
    ∃ s : System Bool,
      run (step parseOneFriend) (System.initial (fun _ => ∅)) twoChains =
        some s ∧
      s.store.committed .friendItem = {⟨"A", "B", none, 7⟩} :=
  ⟨_, rfl, rfl⟩

theorem friends_from_one_response_twoChains :
    ∃ s : System Bool,
      run (step parseOneFriend) (System.initial (fun _ => ∅)) twoChains =
        some s ∧
      s.store.committed .friendItem = {⟨"A", "B", none, 7⟩} ∧
      (s.store.committed .friendItem = ∅ ∨
        ∃ i items, FromResponse parseOneFriend (s.chains i) items ∧
          s.store.committed .friendItem = items.toFinset) ∧
      (∀ i, (s.chains i).save ≠ .finished true →
        EveryStep (step parseOneFriend)
          (fun u a t => a.1 = i → t.store.committed = u.store.committed)
          (System.initial (fun _ => ∅)) twoChains) := by
  obtain ⟨s, hrun, hfriends⟩ := twoChains_run
  have h := friends_from_one_response hrun
  exact ⟨s, hrun, hfriends, h⟩

end Result

end Fetching
end NotVK
