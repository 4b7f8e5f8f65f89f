import Mathlib.Algebra.Ring.Int.Defs
import Mathlib.Data.List.Basic
import Mathlib.Data.List.Forall2
import Mathlib.Tactic.Basic

/-!
# Keyed decoding of JSON values

A decoder for a type is a function from JSON values to `Except DecodingError`.
This module has the decoders that a keyed container offers, with the behaviour
that their documentation gives them:

* `decode` fails when the key is missing, and `decodeIfPresent` gives nil when
  the key is missing or holds null;
* an integer is a number with an integral value in the 64-bit range;
* an array is decoded element by element and fails with its first failure;
* `tryOptional` is `try?` on an optional: a failure becomes nil.

Two kinds of rules follow.  `succeeds_…` rules turn "decoding succeeds" into a
condition on the shape of the value, one combinator at a time.  `…_of_represents`
rules say that a value that represents `x` under the type's own format decodes
to `x`.
-/

namespace NotVK
namespace Json

/-- The numeral `mantissa / 10 ^ exponent`. -/
structure Decimal where
  mantissa : Int
  exponent : Nat
deriving DecidableEq

/-- A parsed JSON value; an object is the association list of its members. -/
inductive JSON where
  | null
  | bool (value : Bool)
  | number (value : Decimal)
  | string (value : String)
  | array (elements : List JSON)
  | object (members : List (String × JSON))

inductive DecodingError where
  | keyNotFound (key : String)
  | valueNotFound
  | typeMismatch
  | dataCorrupted
deriving DecidableEq

/-- A decoder for the type `α`. -/
abbrev Decoder (α : Type) := JSON → Except DecodingError α

section Decoders

variable {α : Type}

/-- The 64-bit integer that a numeral denotes, if it denotes one. -/
def Decimal.toInt? (d : Decimal) : Option Int :=
  let value := d.mantissa / 10 ^ d.exponent
  if value * 10 ^ d.exponent = d.mantissa ∧
      -(2 ^ 63) ≤ value ∧ value < 2 ^ 63 then
    some value
  else none

def decodeInt : Decoder Int
  | .number d =>
      match d.toInt? with
      | some k => .ok k
      | none => .error .dataCorrupted
  | .null => .error .valueNotFound
  | _ => .error .typeMismatch

def decodeString : Decoder String
  | .string s => .ok s
  | .null => .error .valueNotFound
  | _ => .error .typeMismatch

/-- Decode the elements in order, up to the first failure. -/
def decodeElements (dec : Decoder α) :
    List JSON → Except DecodingError (List α)
  | [] => .ok []
  | v :: vs => do
      let x ← dec v
      let xs ← decodeElements dec vs
      return x :: xs

def decodeArray (dec : Decoder α) : Decoder (List α)
  | .array vs => decodeElements dec vs
  | .null => .error .valueNotFound
  | _ => .error .typeMismatch

/-- `KeyedDecodingContainer`. -/
structure KeyedContainer where
  members : List (String × JSON)

/-- `decoder.container(keyedBy:)`. -/
def container : Decoder KeyedContainer
  | .object members => .ok ⟨members⟩
  | .null => .error .valueNotFound
  | _ => .error .typeMismatch

def KeyedContainer.decode
    (c : KeyedContainer) (dec : Decoder α) (key : String) :
    Except DecodingError α :=
  match c.members.lookup key with
  | none => .error (.keyNotFound key)
  | some v => dec v

def KeyedContainer.decodeIfPresent
    (c : KeyedContainer) (dec : Decoder α) (key : String) :
    Except DecodingError (Option α) :=
  match c.members.lookup key with
  | none => .ok none
  | some .null => .ok none
  | some v => (dec v).map some

/-- `try?` on an expression of optional type. -/
def tryOptional : Except DecodingError (Option α) → Option α
  | .ok x => x
  | .error _ => none

end Decoders

section Success

variable {α : Type} {β : Type}

/-- A decoding step that does not throw. -/
def Succeeds (r : Except DecodingError α) : Prop :=
  ∃ x, r = .ok x

/-- The value is an integer numeral in the 64-bit range. -/
def IsInt (v : JSON) : Prop :=
  ∃ d k, v = .number d ∧ d.toInt? = some k

def IsString (v : JSON) : Prop :=
  ∃ s, v = .string s

/-- The value is an array all of whose elements satisfy `P`. -/
def IsArrayOf (P : JSON → Prop) (v : JSON) : Prop :=
  ∃ vs, v = .array vs ∧ ∀ x ∈ vs, P x

/-- The value is an object whose members satisfy `P`. -/
def IsObject (P : List (String × JSON) → Prop) (v : JSON) : Prop :=
  ∃ members, v = .object members ∧ P members

/-- The key is there, with a value that satisfies `P`. -/
def HasKey
    (members : List (String × JSON)) (key : String) (P : JSON → Prop) : Prop :=
  ∃ v, members.lookup key = some v ∧ P v

/-- The key is absent, or null, or has a value that satisfies `P`. -/
def HasOptionalKey
    (members : List (String × JSON)) (key : String) (P : JSON → Prop) : Prop :=
  members.lookup key = none ∨
  members.lookup key = some .null ∨
  HasKey members key P

@[simp] theorem succeeds_ok (x : α) :
    Succeeds (.ok x : Except DecodingError α) :=
  ⟨x, rfl⟩

@[simp] theorem succeeds_pure (x : α) :
    Succeeds (pure x : Except DecodingError α) :=
  ⟨x, rfl⟩

@[simp] theorem not_succeeds_error (e : DecodingError) :
    ¬ Succeeds (.error e : Except DecodingError α) := by
  rintro ⟨x, h⟩
  cases h

@[simp] theorem ok_bind
    (x : α) (f : α → Except DecodingError β) :
    ((.ok x : Except DecodingError α) >>= f) = f x := by
  rfl

/-- A sequence of two steps succeeds when both do. -/
theorem bind_eq_ok_iff
    {r : Except DecodingError α} {f : α → Except DecodingError β} {y : β} :
    (r >>= f) = .ok y ↔ ∃ x, r = .ok x ∧ f x = .ok y := by
  cases r with
  | error e =>
      constructor
      · intro h
        cases h
      · rintro ⟨x, hx, _⟩
        cases hx
  | ok x =>
      constructor
      · intro h
        exact ⟨x, rfl, h⟩
      · rintro ⟨x', hx, h⟩
        cases hx
        exact h

theorem succeeds_bind
    {r : Except DecodingError α} {f : α → Except DecodingError β} :
    Succeeds (r >>= f) ↔ ∃ x, r = .ok x ∧ Succeeds (f x) := by
  unfold Succeeds
  constructor
  · rintro ⟨y, hy⟩
    obtain ⟨x, hx, hf⟩ := bind_eq_ok_iff.mp hy
    exact ⟨x, hx, y, hf⟩
  · rintro ⟨x, hx, y, hf⟩
    exact ⟨y, bind_eq_ok_iff.mpr ⟨x, hx, hf⟩⟩

theorem exists_eq_ok_iff
    {r : Except DecodingError α} :
    (∃ x, r = .ok x) ↔ Succeeds r := by
  rfl

/-- A step followed by one whose success does not depend on the value read. -/
theorem exists_eq_ok_and_iff
    {r : Except DecodingError α} {P : Prop} :
    (∃ x, r = .ok x ∧ P) ↔ Succeeds r ∧ P := by
  rw [exists_and_right, exists_eq_ok_iff]

theorem succeeds_map
    {r : Except DecodingError α} {f : α → β} :
    Succeeds (r.map f) ↔ Succeeds r := by
  cases r with
  | error e => simp [Except.map]
  | ok x => simp [Except.map]

theorem succeeds_decodeInt (v : JSON) :
    Succeeds (decodeInt v) ↔ IsInt v := by
  cases v with
  | number d =>
      cases hd : d.toInt? with
      | none => simp [decodeInt, hd, IsInt]
      | some k => simp [decodeInt, hd, IsInt]
  | _ => simp [decodeInt, IsInt]

theorem succeeds_decodeString (v : JSON) :
    Succeeds (decodeString v) ↔ IsString v := by
  cases v <;> simp [decodeString, IsString]

theorem succeeds_decodeElements
    (dec : Decoder α) (vs : List JSON) :
    Succeeds (decodeElements dec vs) ↔ ∀ v ∈ vs, Succeeds (dec v) := by
  induction vs with
  | nil =>
      simp [decodeElements]
  | cons v vs ih =>
      simp only [decodeElements, succeeds_bind, succeeds_pure, and_true,
        exists_eq_ok_iff, exists_eq_ok_and_iff, ih, List.forall_mem_cons]

theorem succeeds_decodeArray
    (dec : Decoder α) (v : JSON) :
    Succeeds (decodeArray dec v)
      ↔
    IsArrayOf (fun x => Succeeds (dec x)) v := by
  cases v with
  | array vs => simp [decodeArray, IsArrayOf, succeeds_decodeElements]
  | _ => simp [decodeArray, IsArrayOf]

theorem succeeds_decode
    (c : KeyedContainer) (dec : Decoder α) (key : String) :
    Succeeds (c.decode dec key)
      ↔
    HasKey c.members key (fun v => Succeeds (dec v)) := by
  unfold KeyedContainer.decode HasKey
  cases c.members.lookup key with
  | none => simp
  | some v => simp

theorem succeeds_decodeIfPresent
    (c : KeyedContainer) (dec : Decoder α) (key : String) :
    Succeeds (c.decodeIfPresent dec key)
      ↔
    HasOptionalKey c.members key (fun v => Succeeds (dec v)) := by
  unfold KeyedContainer.decodeIfPresent HasOptionalKey HasKey
  cases c.members.lookup key with
  | none => simp
  | some v => cases v <;> simp [succeeds_map]

/-- A decoder that opens a keyed container succeeds only on objects. -/
theorem succeeds_container_bind
    {f : KeyedContainer → Except DecodingError β} (v : JSON) :
    Succeeds (container v >>= f)
      ↔
    IsObject (fun members => Succeeds (f ⟨members⟩)) v := by
  rw [succeeds_bind]
  cases v <;> simp [container, IsObject]

end Success

section Representation

variable {α : Type} {β : Type}

/-- The value is the number `k`. -/
def RepresentsInt (k : Int) (v : JSON) : Prop :=
  ∃ d, v = .number d ∧ d.toInt? = some k

def RepresentsString (s : String) (v : JSON) : Prop :=
  v = .string s

def RepresentsBool (b : Bool) (v : JSON) : Prop :=
  v = .bool b

/-- The value is an array that represents the list element by element. -/
def RepresentsList (R : α → JSON → Prop) (xs : List α) (v : JSON) : Prop :=
  ∃ vs, v = .array vs ∧ List.Forall₂ R xs vs

/-- The member under `key` represents `x`. -/
def Holds
    (members : List (String × JSON)) (key : String)
    (R : α → JSON → Prop) (x : α) : Prop :=
  ∃ v, members.lookup key = some v ∧ R x v

/-- The member under `key` represents an optional: absent or null for nil. -/
def HoldsOptional
    (members : List (String × JSON)) (key : String)
    (R : α → JSON → Prop) : Option α → Prop
  | none => members.lookup key = none ∨ members.lookup key = some .null
  | some x => Holds members key R x

/-- `dec` reads back what `R` writes, and null represents nothing. -/
structure Reads (R : α → JSON → Prop) (dec : Decoder α) : Prop where
  ok : ∀ x v, R x v → dec v = .ok x
  ne_null : ∀ x, ¬ R x .null

theorem reads_int : Reads RepresentsInt decodeInt where
  ok := by
    rintro k v ⟨d, rfl, hd⟩
    simp [decodeInt, hd]
  ne_null := by
    rintro k ⟨d, h, _⟩
    cases h

theorem reads_string : Reads RepresentsString decodeString where
  ok := by
    rintro s v rfl
    rfl
  ne_null := by
    intro s h
    cases h

/-- What a decoder reads when it reads `f x` for every represented `x`. -/
theorem decodeElements_of_represents
    {R : α → JSON → Prop} {dec : Decoder β} {f : α → β}
    (hdec : ∀ x v, R x v → dec v = .ok (f x))
    {xs : List α} {vs : List JSON}
    (h : List.Forall₂ R xs vs) :
    decodeElements dec vs = .ok (xs.map f) := by
  induction h with
  | nil =>
      rfl
  | cons hx _ ih =>
      simp only [decodeElements, hdec _ _ hx, ih]
      rfl

theorem decodeArray_of_represents
    {R : α → JSON → Prop} {dec : Decoder β} {f : α → β}
    (hdec : ∀ x v, R x v → dec v = .ok (f x))
    {xs : List α} {v : JSON}
    (h : RepresentsList R xs v) :
    decodeArray dec v = .ok (xs.map f) := by
  obtain ⟨vs, rfl, hvs⟩ := h
  exact decodeElements_of_represents hdec hvs

theorem reads_list
    {R : α → JSON → Prop} {dec : Decoder α}
    (h : Reads R dec) :
    Reads (RepresentsList R) (decodeArray dec) where
  ok xs v hv := by
    have hread :=
      decodeArray_of_represents (f := id) h.ok hv
    rwa [List.map_id] at hread
  ne_null := by
    rintro xs ⟨vs, hvs, _⟩
    cases hvs

/-- Reading a required member. -/
theorem decode_of_represents
    {R : α → JSON → Prop} {dec : Decoder β} {f : α → β}
    (hdec : ∀ x v, R x v → dec v = .ok (f x))
    {members : List (String × JSON)} {key : String} {x : α}
    (h : Holds members key R x) :
    KeyedContainer.decode ⟨members⟩ dec key = .ok (f x) := by
  obtain ⟨v, hv, hR⟩ := h
  simp [KeyedContainer.decode, hv, hdec x v hR]

/-- Reading an optional member. -/
theorem decodeIfPresent_of_represents
    {R : α → JSON → Prop} {dec : Decoder β} {f : α → β}
    (hdec : ∀ x v, R x v → dec v = .ok (f x))
    (hnull : ∀ x, ¬ R x .null)
    {members : List (String × JSON)} {key : String} {x : Option α}
    (h : HoldsOptional members key R x) :
    KeyedContainer.decodeIfPresent ⟨members⟩ dec key = .ok (x.map f) := by
  unfold KeyedContainer.decodeIfPresent
  cases x with
  | none =>
      rcases h with h | h <;> simp [h]
  | some x =>
      obtain ⟨v, hv, hR⟩ := h
      have hok := hdec x v hR
      cases v with
      | null => exact absurd hR (hnull x)
      | _ => simp [hv, hok, Except.map]

theorem Reads.decode
    {R : α → JSON → Prop} {dec : Decoder α}
    (h : Reads R dec)
    {members : List (String × JSON)} {key : String} {x : α}
    (hx : Holds members key R x) :
    KeyedContainer.decode ⟨members⟩ dec key = .ok x :=
  decode_of_represents (f := id) h.ok hx

theorem Reads.decodeIfPresent
    {R : α → JSON → Prop} {dec : Decoder α}
    (h : Reads R dec)
    {members : List (String × JSON)} {key : String} {x : Option α}
    (hx : HoldsOptional members key R x) :
    KeyedContainer.decodeIfPresent ⟨members⟩ dec key = .ok x := by
  have hread :=
    decodeIfPresent_of_represents (f := id) h.ok h.ne_null hx
  rwa [Option.map_id] at hread

/-- Reading an optional member under `try?`. -/
theorem Reads.tryOptional
    {R : α → JSON → Prop} {dec : Decoder α}
    (h : Reads R dec)
    {members : List (String × JSON)} {key : String} {x : Option α}
    (hx : HoldsOptional members key R x) :
    Json.tryOptional (KeyedContainer.decodeIfPresent ⟨members⟩ dec key) = x := by
  rw [h.decodeIfPresent hx]
  rfl

end Representation

end Json
end NotVK
