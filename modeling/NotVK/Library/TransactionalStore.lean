import Mathlib.Data.Finset.Basic
import Mathlib.Data.Finset.Dedup
import Mathlib.Data.Finset.Lattice.Lemmas
import Mathlib.Logic.Function.Basic

/-!
# A store with serialised write transactions

A store holds, for each type of object, the finite set of its objects.  Writers
are told apart by a name.  At most one write transaction is open; it starts from
the latest committed version, works on a copy of its own, and either replaces
the committed version by that copy or leaves it alone.

Objects of a type have a primary key.  `add` refuses an object whose key is
taken; `addAll` adds one object after the other and stops at the first refusal.
-/

namespace NotVK
namespace Transactions

section TransactionalStore

variable {Ty Key Writer : Type}
variable {Obj : Ty → Type}
variable [DecidableEq Ty] [∀ t, DecidableEq (Obj t)] [DecidableEq Key]

/-- The objects of every type. -/
abbrev Version (Obj : Ty → Type) := (t : Ty) → Finset (Obj t)

/-- Delete the objects of type `t`. -/
def deleteAll (v : Version Obj) (t : Ty) : Version Obj :=
  Function.update v t ∅

/-- Delete the objects of type `t` that are among the given ones, wherever
their contents may have changed since; `ref` tells objects apart. -/
def deleteByRef
    {Ref : Type} [DecidableEq Ref]
    (ref : (t : Ty) → Obj t → Ref)
    (v : Version Obj) (t : Ty) (objects : Finset (Obj t)) : Version Obj :=
  Function.update v t ((v t).filter fun x => ∀ y ∈ objects, ref t y ≠ ref t x)

/-- Add an object, unless its primary key is taken. -/
def add
    (key : (t : Ty) → Obj t → Key)
    (v : Version Obj) (t : Ty) (x : Obj t) : Option (Version Obj) :=
  if ∃ y ∈ v t, key t y = key t x then none
  else some (Function.update v t (insert x (v t)))

/-- Add the objects of a list in order, up to the first refusal. -/
def addAll
    (key : (t : Ty) → Obj t → Key)
    (v : Version Obj) (t : Ty) : List (Obj t) → Option (Version Obj)
  | [] => some v
  | x :: xs => (add key v t x).bind (fun w => addAll key w t xs)

/-- The committed version and the open write transaction, if there is one. -/
structure Store (Writer : Type) (Obj : Ty → Type) where
  committed : Version Obj
  transaction : Option (Writer × Version Obj)

namespace Store

/-- Open a transaction on the latest version; it waits while one is open. -/
def beginWrite
    (s : Store Writer Obj) (w : Writer) : Option (Store Writer Obj) :=
  match s.transaction with
  | none => some { s with transaction := some (w, s.committed) }
  | some _ => none

/-- Change the copy of `w`'s open transaction. -/
def write
    [DecidableEq Writer]
    (s : Store Writer Obj) (w : Writer)
    (f : Version Obj → Option (Version Obj)) : Option (Store Writer Obj) :=
  match s.transaction with
  | some (w', v) =>
      if w' = w then
        (f v).map (fun v' => { s with transaction := some (w, v') })
      else none
  | none => none

/-- Make the copy of `w`'s open transaction the committed version. -/
def commit
    [DecidableEq Writer]
    (s : Store Writer Obj) (w : Writer) : Option (Store Writer Obj) :=
  match s.transaction with
  | some (w', v) =>
      if w' = w then some { committed := v, transaction := none } else none
  | none => none

/-- Drop the open transaction. -/
def cancel (s : Store Writer Obj) : Store Writer Obj :=
  { s with transaction := none }

/-- The writer has the open transaction. -/
def OpenBy (s : Store Writer Obj) (w : Writer) : Prop :=
  ∃ v, s.transaction = some (w, v)

omit [DecidableEq Ty] [∀ t, DecidableEq (Obj t)] in
theorem openBy_unique
    {s : Store Writer Obj} {w w' : Writer}
    (h : s.OpenBy w) (h' : s.OpenBy w') :
    w = w' := by
  obtain ⟨v, hv⟩ := h
  obtain ⟨v', hv'⟩ := h'
  rw [hv] at hv'
  cases hv'
  rfl

section Spec

variable [DecidableEq Writer]

omit [DecidableEq Ty] [∀ t, DecidableEq (Obj t)] [DecidableEq Writer] in
theorem beginWrite_eq_some
    {s s' : Store Writer Obj} {w : Writer}
    (h : s.beginWrite w = some s') :
    s.transaction = none ∧
    s' = { s with transaction := some (w, s.committed) } := by
  unfold beginWrite at h
  split at h
  · cases h
    exact ⟨‹_›, rfl⟩
  · cases h

omit [DecidableEq Ty] [∀ t, DecidableEq (Obj t)] in
theorem write_eq_some
    {s s' : Store Writer Obj} {w : Writer}
    {f : Version Obj → Option (Version Obj)}
    (h : s.write w f = some s') :
    ∃ v v', s.transaction = some (w, v) ∧ f v = some v' ∧
      s' = { s with transaction := some (w, v') } := by
  unfold write at h
  split at h
  next w' v hopen =>
    split at h
    next hw =>
      subst hw
      obtain ⟨v', hv', rfl⟩ := Option.map_eq_some_iff.mp h
      exact ⟨v, v', hopen, hv', rfl⟩
    next => cases h
  next => cases h

omit [DecidableEq Ty] [∀ t, DecidableEq (Obj t)] in
theorem commit_eq_some
    {s s' : Store Writer Obj} {w : Writer}
    (h : s.commit w = some s') :
    ∃ v, s.transaction = some (w, v) ∧
      s' = { committed := v, transaction := none } := by
  unfold commit at h
  split at h
  next w' v hopen =>
    split at h
    next hw =>
      subst hw
      cases h
      exact ⟨v, hopen, rfl⟩
    next => cases h
  next => cases h

end Spec

end Store

omit [∀ t, DecidableEq (Obj t)] in
@[simp] theorem deleteAll_self (v : Version Obj) (t : Ty) :
    deleteAll v t t = ∅ := by
  simp [deleteAll]

section DeleteByRef

variable {Ref : Type} [DecidableEq Ref] {ref : (t : Ty) → Obj t → Ref}
variable {v : Version Obj} {t : Ty} {objects : Finset (Obj t)}

omit [∀ t, DecidableEq (Obj t)] in
theorem mem_deleteByRef
    {x : Obj t} :
    x ∈ deleteByRef ref v t objects t
      ↔
    x ∈ v t ∧ ∀ y ∈ objects, ref t y ≠ ref t x := by
  simp [deleteByRef]

omit [∀ t, DecidableEq (Obj t)] in
theorem deleteByRef_of_ne
    {u : Ty} (hu : u ≠ t) :
    deleteByRef ref v t objects u = v u :=
  Function.update_of_ne hu ..

omit [∀ t, DecidableEq (Obj t)] in
/-- Nothing of a type is left when all of it was among the given objects. -/
theorem deleteByRef_deletes_iff :
    (∀ x ∈ v t, ∀ y ∈ deleteByRef ref v t objects t, ref t y ≠ ref t x)
      ↔
    ∀ x ∈ v t, ∃ y ∈ objects, ref t y = ref t x := by
  constructor
  · intro h x hx
    by_contra hmissing
    have hleft : x ∈ deleteByRef ref v t objects t :=
      mem_deleteByRef.mpr ⟨hx, fun y hy href => hmissing ⟨y, hy, href⟩⟩
    exact h x hx x hleft rfl
  · intro h x hx y hy href
    obtain ⟨z, hz, hzx⟩ := h x hx
    exact (mem_deleteByRef.mp hy).2 z hz (hzx.trans href.symm)

end DeleteByRef

theorem add_eq_some
    {key : (t : Ty) → Obj t → Key}
    {v w : Version Obj} {t : Ty} {x : Obj t}
    (h : add key v t x = some w) :
    w = Function.update v t (insert x (v t)) := by
  unfold add at h
  split at h
  · cases h
  · cases h
    rfl

/-- What a list of successful additions leaves. -/
theorem addAll_eq_some
    {key : (t : Ty) → Obj t → Key}
    {v w : Version Obj} {t : Ty} {xs : List (Obj t)}
    (h : addAll key v t xs = some w) :
    w = Function.update v t (xs.toFinset ∪ v t) := by
  induction xs generalizing v with
  | nil =>
      cases h
      simp
  | cons x xs ih =>
      obtain ⟨u, hadd, htail⟩ := Option.bind_eq_some_iff.mp h
      have hu := add_eq_some hadd
      have hw := ih htail
      rw [hw, hu]
      simp [Finset.insert_union, Finset.union_insert]

/-- Replacing the objects of a type by those of a list. -/
theorem addAll_deleteAll_eq_some
    {key : (t : Ty) → Obj t → Key}
    {v w : Version Obj} {t : Ty} {xs : List (Obj t)}
    (h : addAll key (deleteAll v t) t xs = some w) :
    w = Function.update v t xs.toFinset := by
  rw [addAll_eq_some h]
  simp [deleteAll]

/-- An object is added when its key is free. -/
theorem exists_add_iff
    {key : (t : Ty) → Obj t → Key}
    {v : Version Obj} {t : Ty} {x : Obj t} :
    (∃ w, add key v t x = some w)
      ↔
    ∀ y ∈ v t, key t y ≠ key t x := by
  unfold add
  split
  next htaken =>
    obtain ⟨y, hy, hkey⟩ := htaken
    exact iff_of_false (by simp) (fun h => h y hy hkey)
  next hfree =>
    refine iff_of_true ⟨_, rfl⟩ (fun y hy hkey => hfree ⟨y, hy, hkey⟩)

/-- A list is added when its keys are free and differ from each other. -/
theorem exists_addAll_iff
    {key : (t : Ty) → Obj t → Key}
    {v : Version Obj} {t : Ty} {xs : List (Obj t)} :
    (∃ w, addAll key v t xs = some w)
      ↔
    (xs.map (key t)).Nodup ∧ ∀ x ∈ xs, ∀ y ∈ v t, key t y ≠ key t x := by
  induction xs generalizing v with
  | nil =>
      simp [addAll]
  | cons x xs ih =>
      rw [addAll, List.map_cons, List.nodup_cons, List.forall_mem_cons]
      constructor
      · rintro ⟨w, hw⟩
        obtain ⟨u, hadd, htail⟩ := Option.bind_eq_some_iff.mp hw
        obtain ⟨hnodup, hfree⟩ := ih.mp ⟨w, htail⟩
        rw [add_eq_some hadd, Function.update_self] at hfree
        refine ⟨⟨?_, hnodup⟩, exists_add_iff.mp ⟨u, hadd⟩, ?_⟩
        · intro hmem
          obtain ⟨y, hy, hkey⟩ := List.mem_map.mp hmem
          exact hfree y hy x (Finset.mem_insert_self x _) hkey.symm
        · intro y hy z hz
          exact hfree y hy z (Finset.mem_insert_of_mem hz)
      · rintro ⟨⟨hnew, hnodup⟩, hx, hxs⟩
        obtain ⟨u, hadd⟩ := exists_add_iff.mpr hx
        obtain ⟨w, hw⟩ : ∃ w, addAll key u t xs = some w := by
          refine ih.mpr ⟨hnodup, fun y hy z hz => ?_⟩
          rw [add_eq_some hadd, Function.update_self] at hz
          rcases Finset.mem_insert.mp hz with rfl | hz
          · intro hkey
            exact hnew (List.mem_map.mpr ⟨y, hy, hkey.symm⟩)
          · exact hxs y hy z hz
        exact ⟨w, Option.bind_eq_some_iff.mpr ⟨u, hadd, hw⟩⟩

/-- After a deletion only clashes inside the list are left. -/
theorem exists_addAll_deleteAll_iff
    {key : (t : Ty) → Obj t → Key}
    {v : Version Obj} {t : Ty} {xs : List (Obj t)} :
    (∃ w, addAll key (deleteAll v t) t xs = some w)
      ↔
    (xs.map (key t)).Nodup := by
  rw [exists_addAll_iff, deleteAll_self]
  simp

end TransactionalStore

end Transactions
end NotVK
