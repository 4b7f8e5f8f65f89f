import Mathlib.Data.List.Basic
import Mathlib.Tactic.Basic
import Mathlib.Tactic.Ring

/-!
# Integers as bytes with a sign

A magnitude is written seven bits a byte, the lowest first, and six bits in the
last byte.  The last byte is the one whose highest bit is not set, and its next
bit is the sign.

`Denotes` says which magnitude and which sign some bytes hold.
-/

namespace NotVK
namespace Varints

section Denotes

/-- The bytes hold a sign and a magnitude. -/
inductive Denotes : List UInt8 → Bool → Nat → Prop
  | last (b : UInt8) (h : b.toNat < 128) :
      Denotes [b] (decide (64 ≤ b.toNat)) (b.toNat % 64)
  | more (b : UInt8) {bytes : List UInt8} {negative : Bool} {n : Nat}
      (h : 128 ≤ b.toNat) (rest : Denotes bytes negative n) :
      Denotes (b :: bytes) negative (b.toNat % 128 + 128 * n)

variable {bytes : List UInt8} {negative : Bool} {n : Nat}

theorem Denotes.length_pos
    (h : Denotes bytes negative n) :
    0 < bytes.length := by
  cases h <;> simp

/-- An integer that breaks off wants another byte. -/
theorem Denotes.high_of_append
    {front back : List UInt8}
    (h : Denotes (front ++ back) negative n)
    (hback : back ≠ []) :
    ∀ b ∈ front, 128 ≤ b.toNat := by
  induction front generalizing n with
  | nil => simp
  | cons b front ih =>
      have hrest : front ++ back ≠ [] := by simp [hback]
      generalize hbytes : b :: front ++ back = bytes at h
      cases h with
      | last b' hb' =>
          rw [List.cons_append] at hbytes
          exact absurd (List.cons.inj hbytes).2 hrest
      | more b' hb' htail =>
          rw [List.cons_append] at hbytes
          obtain ⟨rfl, rfl⟩ := List.cons.inj hbytes
          intro b' hmem
          rcases List.mem_cons.mp hmem with rfl | hmem
          · exact hb'
          · exact ih htail b' hmem

/-- Bytes begin with an integer, unless they all want another byte. -/
theorem exists_denotes (input : List UInt8) :
    (∃ bytes rest negative n, input = bytes ++ rest ∧ Denotes bytes negative n) ∨
      ∀ b ∈ input, 128 ≤ b.toNat := by
  induction input with
  | nil =>
      exact .inr (by simp)
  | cons b input ih =>
      rcases Nat.lt_or_ge b.toNat 128 with hb | hb
      · exact .inl ⟨[b], input, _, _, rfl, .last b hb⟩
      · rcases ih with ⟨bytes, rest, negative, n, rfl, h⟩ | hall
        · exact .inl ⟨b :: bytes, rest, negative, _, rfl, .more b hb h⟩
        · refine .inr ?_
          intro b' hb'
          rcases List.mem_cons.mp hb' with rfl | hb'
          · exact hb
          · exact hall b' hb'

/-- What `k + 1` bytes can hold. -/
def limit (k : Nat) : Nat :=
  64 * 128 ^ k

theorem limit_zero :
    limit 0 = 64 := by
  rfl

theorem limit_succ (k : Nat) :
    limit (k + 1) = 128 * limit k := by
  rw [limit, limit, Nat.pow_succ]
  ring

theorem limit_eq_two_pow (k : Nat) :
    limit k = 2 ^ (7 * k + 6) := by
  have h : (128 : Nat) ^ k = 2 ^ (7 * k) := by
    rw [Nat.pow_mul]
  rw [limit, h, Nat.pow_add]
  ring

/-- The magnitude of an integer, one less for a negative one. -/
def magnitude (v : Int) : Nat :=
  (if v < 0 then -(v + 1) else v).toNat

end Denotes

end Varints
end NotVK
