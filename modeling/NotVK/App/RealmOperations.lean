import NotVK.App.NewsModel
import NotVK.App.OperationData
import NotVK.Library.TransactionalStore

/-!
# The fetch chains of RealmOperations

`fetchFriendsFromRealm()` puts three operations on the one queue, each depending
on the one before: `GetDataOperation`, `ParseDataOperation<FriendItem>` and
`SaveDataOperation<FriendItem>`.  Any number of chains may be under way.

A chain holds the point that each of its operations has reached; `step` lets one
operation of one chain do its next atomic piece of work.  Realm is the store of
`TransactionalStore`: `beginWrite` waits for the open transaction of another
chain and starts from the latest version, the `Results` of the old values is
evaluated inside the transaction, an `add` that repeats a primary key raises,
and an exception that Swift does not catch ends the program.
-/

namespace NotVK
namespace Fetching

open Json News Networking Runs Transactions

section Operations

/-- The classes that the app stores in Realm. -/
inductive RealmType where
  | friendItem
  | groupItem
deriving DecidableEq

abbrev RealmType.Object : RealmType → Type
  | .friendItem => FriendItem
  | .groupItem => GroupItem

instance : (t : RealmType) → DecidableEq t.Object
  | .friendItem => inferInstanceAs (DecidableEq FriendItem)
  | .groupItem => inferInstanceAs (DecidableEq GroupItem)

/-- `primaryKey()` is `"id"` in both classes. -/
def primaryKey : (t : RealmType) → t.Object → Int
  | .friendItem, x => FriendItem.id x
  | .groupItem, x => GroupItem.id x

abbrev RealmVersion := Version RealmType.Object

variable {T : Type}

/--
`try? JSONDecoder().decode(VKResponse<T>.self, from: data).response.items`;
`parse` is the JSON parser under `JSONDecoder`.
-/
def decodeItems
    (parse : Data → Option JSON) (dec : Decoder T) (data : Data) :
    Option (List T) :=
  match parse data with
  | none => none
  | some v =>
      match VKResponse.decode dec v with
      | .ok decoded => some decoded.response.items
      | .error _ => none

/-- `ParseDataOperation.main()`: `outputData` after it, from the data it reads. -/
def parseMain
    (parse : Data → Option JSON) (dec : Decoder T) (data : Option Data) :
    Option (List T) :=
  match data with
  | none => none
  | some data => decodeItems parse dec data

end Operations

section Chains

inductive ParsePoint where
  | waiting
  | ready
  | finished (outputData : Option (List FriendItem))
deriving DecidableEq

/-- Points of `SaveDataOperation.main()`, named after what has just been done. -/
inductive SavePoint where
  | waiting
  | readOutput
  | openedRealm
  | begunWrite
  | deletedOld
  | addedNew
  | commitFailed
  | finished (saved : Bool)
deriving DecidableEq

structure Chain where
  get : Operations.Config
  parse : ParsePoint
  save : SavePoint

def Chain.initial : Chain where
  get := Operations.Config.initial
  parse := .waiting
  save := .waiting

/-- `outputData` of the chain's parse operation. -/
def Chain.outputData (c : Chain) : Option (List FriendItem) :=
  match c.parse with
  | .finished outputData => outputData
  | _ => none

def Chain.parseIsFinished (c : Chain) : Bool :=
  match c.parse with
  | .finished _ => true
  | _ => false

inductive ChainAction where
  | get (a : Operations.Action)
  | parseBecomesReady
  | parseMain
  | saveReadsOutput
  | openRealm (success : Bool)
  | beginWrite
  | deleteOld
  | addNew
  | commitWrite (success : Bool)
  | closeRealm

variable {ChainId : Type} [DecidableEq ChainId]

/-- The Realm, the chains, and whether an uncaught exception ended the program. -/
structure System (ChainId : Type) where
  store : Store ChainId RealmType.Object
  chains : ChainId → Chain
  crashed : Bool

def System.initial (version : RealmVersion) : System ChainId where
  store := { committed := version, transaction := none }
  chains := fun _ => Chain.initial
  crashed := false

def System.setChain
    (s : System ChainId) (i : ChainId) (c : Chain) : System ChainId :=
  { s with chains := Function.update s.chains i c }

/-- Step of the get and parse operations of a chain. -/
def fetchStep
    (parse : Data → Option JSON) (c : Chain) : ChainAction → Option Chain
  | .get a => (Operations.step c.get a).map (fun g => { c with get := g })
  | .parseBecomesReady =>
      if c.parse = .waiting ∧ c.get.op.isFinished = true then
        some { c with parse := .ready }
      else none
  | .parseMain =>
      if c.parse = .ready then
        some { c with
          parse := .finished (parseMain parse FriendItem.decode c.get.op.data) }
      else none
  | _ => none

/-- Step of `SaveDataOperation.main()` of chain `i`. -/
def saveStep
    (s : System ChainId) (i : ChainId) : ChainAction → Option (System ChainId)
  | .saveReadsOutput =>
      let c := s.chains i
      if c.save = .waiting ∧ c.parseIsFinished = true then
        match c.outputData with
        | none => some (s.setChain i { c with save := .finished false })
        | some _ => some (s.setChain i { c with save := .readOutput })
      else none
  | .openRealm success =>
      let c := s.chains i
      if c.save = .readOutput then
        if success then some (s.setChain i { c with save := .openedRealm })
        else some (s.setChain i { c with save := .finished false })
      else none
  | .beginWrite =>
      let c := s.chains i
      if c.save = .openedRealm then
        (s.store.beginWrite i).map fun store =>
          { s.setChain i { c with save := .begunWrite } with store := store }
      else none
  | .deleteOld =>
      let c := s.chains i
      if c.save = .begunWrite then
        (s.store.write i (fun v => some (deleteAll v .friendItem))).map
          fun store =>
            { s.setChain i { c with save := .deletedOld } with store := store }
      else none
  | .addNew =>
      let c := s.chains i
      if c.save = .deletedOld then
        match c.outputData with
        | none => none
        | some items =>
            match s.store.write i
              (fun v => addAll primaryKey v .friendItem items) with
            | some store =>
                some { s.setChain i { c with save := .addedNew } with
                  store := store }
            | none => some { s with crashed := true }
      else none
  | .commitWrite success =>
      let c := s.chains i
      if c.save = .addedNew then
        if success then
          (s.store.commit i).map fun store =>
            { s.setChain i { c with save := .finished true } with
              store := store }
        else some (s.setChain i { c with save := .commitFailed })
      else none
  | .closeRealm =>
      let c := s.chains i
      if c.save = .commitFailed then
        -- the transaction is rolled back when the Realm is deallocated
        some { s.setChain i { c with save := .finished false } with
          store := s.store.cancel }
      else none
  | _ => none

/-- One step of one operation of chain `a.1`. -/
def step
    (parse : Data → Option JSON)
    (s : System ChainId) (a : ChainId × ChainAction) :
    Option (System ChainId) :=
  if s.crashed then none
  else
    match a.2 with
    | .get _ | .parseBecomesReady | .parseMain =>
        (fetchStep parse (s.chains a.1) a.2).map (s.setChain a.1)
    | _ => saveStep s a.1 a.2

end Chains

end Fetching
end NotVK
