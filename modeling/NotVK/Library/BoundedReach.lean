import Mathlib.Data.Set.Insert
import Mathlib.Tactic.Basic

/-!
# Reaching in a few steps

What a search in depth looks at: the vertices that are reached in at most `n` steps
without entering some of them.  Beside it stands the loop of such a search, which goes
over what comes next until one answer is yes, and passes on a state.
-/

namespace NotVK
namespace BoundedReach

universe u v w

section Within

variable {V : Type u}

/-- There is a path of at most `n` steps, and no vertex of it is in `off`. -/
inductive Within (edge : V → V → Prop) (off : Set V) : Nat → V → V → Prop
  | here
      {n : Nat} {x : V}
      (hx : x ∉ off) :
      Within edge off n x x
  | step
      {n : Nat} {x y z : V}
      (hx : x ∉ off)
      (hedge : edge x y)
      (hrest : Within edge off n y z) :
      Within edge off (n + 1) x z

namespace Within

variable {edge : V → V → Prop} {off off' : Set V} {n m : Nat} {x y z : V}

theorem start_notMem
    (h : Within edge off n x y) :
    x ∉ off := by
  cases h with
  | here hx => exact hx
  | step hx => exact hx

theorem mono
    (h : Within edge off n x y)
    (hoff : off' ⊆ off)
    (hn : n ≤ m) :
    Within edge off' m x y := by
  induction h generalizing m with
  | here hx => exact .here (fun hin => hx (hoff hin))
  | step hx hedge _ ih =>
      cases m with
      | zero => omega
      | succ m =>
          exact .step (fun hin => hx (hoff hin)) hedge (ih (by omega))

/-- One more step. -/
theorem cons
    (hedge : edge x y)
    (h : Within edge ∅ n y z) :
    Within edge ∅ (n + 1) x z :=
  .step (Set.notMem_empty x) hedge h

/-- A path does not enter `x`, or the rest of it starts there. -/
theorem avoid
    (h : Within edge off n y z)
    (x : V) :
    Within edge (insert x off) n y z ∨ ∃ m, m ≤ n ∧ Within edge off m x z := by
  induction h with
  | @here n y hy =>
      by_cases hyx : y = x
      · exact .inr ⟨n, Nat.le_refl n, hyx ▸ .here hy⟩
      · exact .inl (.here (fun hin => hin.elim hyx hy))
  | @step n y w z hy hedge hrest ih =>
      by_cases hyx : y = x
      · exact .inr ⟨n + 1, Nat.le_refl _, hyx ▸ .step hy hedge hrest⟩
      · rcases ih with hrest' | ⟨m, hm, hlater⟩
        · exact .inl (.step (fun hin => hin.elim hyx hy) hedge hrest')
        · exact .inr ⟨m, Nat.le_succ_of_le hm, hlater⟩

/-- A path that ends somewhere else need not come back to where it starts. -/
theorem leave
    (h : Within edge off n x z)
    (hne : z ≠ x) :
    ∃ m y, m < n ∧ edge x y ∧ Within edge (insert x off) m y z := by
  induction n using Nat.strong_induction_on with
  | _ n ih =>
      cases h with
      | here => exact absurd rfl hne
      | @step n _ y _ hx hedge hrest =>
          rcases hrest.avoid x with hout | ⟨m, hm, hback⟩
          · exact ⟨n, y, Nat.lt_succ_self n, hedge, hout⟩
          · obtain ⟨k, w, hk, hw, hpath⟩ := ih m (by omega) hback
            exact ⟨k, w, by omega, hw, hpath⟩

end Within

/-- Without a step, only the start is reached. -/
theorem within_zero
    {edge : V → V → Prop} {x y : V} :
    Within edge ∅ 0 x y ↔ y = x := by
  constructor
  · intro h
    cases h with
    | here => rfl
  · rintro rfl
    exact .here (Set.notMem_empty y)

/-- Edges that agree where a search can come to reach the same. -/
theorem within_congr
    {edge edge' : V → V → Prop} {off : Set V} {P : V → Prop}
    (hedge : ∀ x y, P x → edge x y → edge' x y ∧ P y)
    {n : Nat} {x y : V}
    (hx : P x)
    (h : Within edge off n x y) :
    Within edge' off n x y ∧ P y := by
  induction h with
  | here hout => exact ⟨.here hout, hx⟩
  | step hout hxy _ ih =>
      obtain ⟨hxy', hy⟩ := hedge _ _ hx hxy
      obtain ⟨hrest, hend⟩ := ih hy
      exact ⟨.step hout hxy' hrest, hend⟩

end Within

section AnyOf

variable {σ : Type v} {α : Type w}

/-- The loop that asks for each element until the answer is yes. -/
def anyOf (f : α → σ → Bool × σ) : List α → σ → Bool × σ
  | [], s => (false, s)
  | a :: l, s =>
      let r := f a s
      if r.1 then r else anyOf f l r.2

variable {f : α → σ → Bool × σ} {Inv : σ → Prop} {R : σ → σ → Prop}

/-- One answer does not need a loop. -/
theorem anyOf_singleton (a : α) (s : σ) :
    anyOf f [a] s = f a s := by
  rw [anyOf]
  split
  · rfl
  next hfalse =>
    rw [anyOf, ← Bool.eq_false_iff.mpr hfalse]

/-- **Rule for the loop**: what each answer keeps, the loop keeps. -/
theorem anyOf_keeps
    (hrefl : ∀ s, R s s)
    (htrans : ∀ s t u, R s t → R t u → R s u)
    {l : List α}
    (hstep : ∀ a ∈ l, ∀ s, Inv s → Inv (f a s).2 ∧ R s (f a s).2)
    {s : σ}
    (hs : Inv s) :
    Inv (anyOf f l s).2 ∧ R s (anyOf f l s).2 := by
  induction l generalizing s with
  | nil => exact ⟨hs, hrefl s⟩
  | cons a l ih =>
      obtain ⟨hinv, hkept⟩ := hstep a List.mem_cons_self s hs
      rw [anyOf]
      split
      · exact ⟨hinv, hkept⟩
      · obtain ⟨hinv', hkept'⟩ :=
          ih (fun b hb => hstep b (List.mem_cons_of_mem a hb)) hinv
        exact ⟨hinv', htrans _ _ _ hkept hkept'⟩

/-- When the answer of the loop is yes, that of an element was. -/
theorem anyOf_true
    {l : List α}
    (hstep : ∀ a ∈ l, ∀ s, Inv s → Inv (f a s).2)
    {s : σ}
    (hs : Inv s)
    (htrue : (anyOf f l s).1 = true) :
    ∃ a ∈ l, ∃ t, Inv t ∧ (f a t).1 = true := by
  induction l generalizing s with
  | nil => cases htrue
  | cons a l ih =>
      rw [anyOf] at htrue
      split at htrue
      next hyes => exact ⟨a, List.mem_cons_self, s, hs, hyes⟩
      next =>
        obtain ⟨b, hb, t, ht, hyes⟩ :=
          ih (fun b hb => hstep b (List.mem_cons_of_mem a hb))
            (hstep a List.mem_cons_self s hs) htrue
        exact ⟨b, List.mem_cons_of_mem a hb, t, ht, hyes⟩

/-- When the answer of the loop is no, that of each element was, and what it left
behind was kept from there on. -/
theorem anyOf_false
    (hrefl : ∀ s, R s s)
    (htrans : ∀ s t u, R s t → R t u → R s u)
    {l : List α}
    (hstep : ∀ a ∈ l, ∀ s, Inv s → Inv (f a s).2 ∧ R s (f a s).2)
    {s : σ}
    (hs : Inv s)
    (hfalse : (anyOf f l s).1 = false)
    {a : α}
    (ha : a ∈ l) :
    ∃ t, Inv t ∧ (f a t).1 = false ∧ R (f a t).2 (anyOf f l s).2 := by
  induction l generalizing s with
  | nil => cases ha
  | cons b l ih =>
      have hrest : ∀ c ∈ l, ∀ s, Inv s → Inv (f c s).2 ∧ R s (f c s).2 :=
        fun c hc => hstep c (List.mem_cons_of_mem b hc)
      obtain ⟨hinv, _⟩ := hstep b List.mem_cons_self s hs
      rw [anyOf] at hfalse ⊢
      split at hfalse
      next hyes =>
        rw [hyes] at hfalse
        cases hfalse
      next hno =>
        rw [if_neg hno]
        rcases List.mem_cons.mp ha with rfl | ha
        · exact ⟨s, hs, Bool.eq_false_iff.mpr hno,
            (anyOf_keeps hrefl htrans hrest hinv).2⟩
        · exact ih hrest hinv hfalse ha

end AnyOf

end BoundedReach
end NotVK
