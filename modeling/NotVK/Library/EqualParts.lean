import Mathlib.Algebra.Order.Field.Basic
import Mathlib.Tactic.Linarith
import Mathlib.Tactic.Ring

/-!
# An interval cut into equal parts

A nondecreasing sequence of edges cuts the interval between its first and its
last edge into half-open parts.  Every point of the interval lies in exactly one
of them.

`edge width count k` is the `k`-th edge of `[0, width]` cut into `count` parts
of equal width.
-/

namespace NotVK
namespace EqualParts

universe u

section Edges

variable {K : Type u} [LinearOrder K]

/-- The point lies in the part between the edges `k` and `k + 1`. -/
def InPart (edges : Nat → K) (x : K) (k : Nat) : Prop :=
  edges k ≤ x ∧ x < edges (k + 1)

theorem exists_inPart
    {edges : Nat → K} {x : K}
    (hfirst : edges 0 ≤ x) :
    ∀ n, x < edges n → ∃ k, k < n ∧ InPart edges x k := by
  intro n
  induction n with
  | zero =>
      intro hlast
      exact absurd hlast (not_lt.mpr hfirst)
  | succ n ih =>
      intro hlast
      rcases le_or_gt (edges n) x with hn | hn
      · exact ⟨n, Nat.lt_succ_self n, hn, hlast⟩
      · obtain ⟨k, hk, hpart⟩ := ih hn
        exact ⟨k, Nat.lt_succ_of_lt hk, hpart⟩

theorem InPart.le_of_monotone
    {edges : Nat → K} {x : K} {k l : Nat}
    (hmono : Monotone edges)
    (hk : InPart edges x k)
    (hl : InPart edges x l) :
    k ≤ l := by
  by_contra hlt
  have hedges : edges (l + 1) ≤ edges k := hmono (by omega)
  exact absurd (hl.2.trans_le (hedges.trans hk.1)) (lt_irrefl x)

/-- **The parts cover the interval and do not overlap.** -/
theorem existsUnique_inPart
    {edges : Nat → K} {x : K} {n : Nat}
    (hmono : Monotone edges)
    (hfirst : edges 0 ≤ x)
    (hlast : x < edges n) :
    ∃! k, k < n ∧ InPart edges x k := by
  obtain ⟨k, hk, hpart⟩ := exists_inPart hfirst n hlast
  refine ⟨k, ⟨hk, hpart⟩, ?_⟩
  rintro l ⟨_, hl⟩
  exact le_antisymm (hl.le_of_monotone hmono hpart)
    (hpart.le_of_monotone hmono hl)

end Edges

section Edge

variable {K : Type u} [Field K]

/-- Edge `k` of `[0, width]` cut into `count` equal parts. -/
def edge (width : K) (count k : Nat) : K :=
  (k : K) * width / (count : K)

@[simp] theorem edge_zero (width : K) (count : Nat) :
    edge width count 0 = 0 := by
  simp [edge]

theorem edge_succ (width : K) (count k : Nat) :
    edge width count (k + 1) =
      edge width count k + width / (count : K) := by
  unfold edge
  push_cast
  ring

theorem edge_count
    [CharZero K] (width : K) {count : Nat}
    (hcount : 1 ≤ count) :
    edge width count count = width := by
  have hne : (count : K) ≠ 0 := Nat.cast_ne_zero.mpr (by omega)
  exact mul_div_cancel_left₀ width hne

variable [LinearOrder K] [IsStrictOrderedRing K]

theorem edge_monotone
    {width : K} (hwidth : 0 ≤ width) (count : Nat) :
    Monotone (edge width count) := by
  apply monotone_nat_of_le_succ
  intro k
  have hpart : 0 ≤ width / (count : K) :=
    div_nonneg hwidth (Nat.cast_nonneg count)
  rw [edge_succ]
  linarith

theorem edge_nonneg
    {width : K} (hwidth : 0 ≤ width) (count k : Nat) :
    0 ≤ edge width count k := by
  have h := edge_monotone hwidth count (Nat.zero_le k)
  rwa [edge_zero] at h

theorem edge_le
    {width : K} {count k : Nat}
    (hwidth : 0 ≤ width)
    (hcount : 1 ≤ count)
    (hk : k ≤ count) :
    edge width count k ≤ width :=
  calc edge width count k ≤ edge width count count :=
        edge_monotone hwidth count hk
    _ = width := edge_count width hcount

end Edge

end EqualParts
end NotVK
