import Mathlib.Data.List.Basic
import Mathlib.Tactic.Basic

/-!
# Runs of labelled partial steps

A system is a step function `step : σ → α → Option σ`.  The value `step s a` is
the state after action `a`, and `none` when `a` is not enabled in `s`.  A run is
a list of actions that are enabled one after the other.

The induction rules are packaged here:

* `run_invariant`: a predicate that every enabled action preserves holds at the
  end of every run;
* `run_history`: the same for a predicate on the actions taken so far together
  with the state they led to;
* `run_invariant_of_everyStep`: the same for runs all of whose steps meet a
  side condition;
* `run_invariant_of_forall_mem`: the same for runs all of whose actions do;
* `run_lastWrite`: where every step keeps the state or replaces it as a whole,
  a run ends in the last state that was written;
* `run_project`: a run of a system is, seen from one part of it, a run of that
  part.

`EveryStep P` says that every single step of a run satisfies `P`.
-/

namespace NotVK
namespace Runs

universe u v

section LabelledRun

variable {σ : Type u}
variable {α : Type v}
variable (step : σ → α → Option σ)

/-- State after a list of actions, when each of them is enabled in turn. -/
def run : σ → List α → Option σ
  | s, [] => some s
  | s, a :: as => (step s a).bind (fun t => run t as)

/-- Every step of the run of `as` from `s` satisfies `P`. -/
def EveryStep (P : σ → α → σ → Prop) : σ → List α → Prop
  | _, [] => True
  | s, a :: as =>
      ∀ t, step s a = some t → P s a t ∧ EveryStep P t as

variable {step}

@[simp] theorem run_nil (s : σ) :
    run step s [] = some s := by
  rfl

@[simp] theorem run_cons
    (s : σ) (a : α) (as : List α) :
    run step s (a :: as) =
      (step s a).bind (fun t => run step t as) := by
  rfl

/-- Peel the first action from a run. -/
theorem run_cons_some
    {s u : σ} {a : α} {as : List α} :
    run step s (a :: as) = some u
      ↔
    ∃ t, step s a = some t ∧ run step t as = some u := by
  rw [run_cons, Option.bind_eq_some_iff]

/-- A run can be split at any point. -/
theorem run_append
    (s : σ) (as bs : List α) :
    run step s (as ++ bs) =
      (run step s as).bind (fun t => run step t bs) := by
  induction as generalizing s with
  | nil =>
      rfl
  | cons a as ih =>
      rw [List.cons_append, run_cons, run_cons, Option.bind_assoc]
      congr 1
      funext t
      exact ih t

theorem run_append_some
    {s u : σ} {as bs : List α} :
    run step s (as ++ bs) = some u
      ↔
    ∃ t, run step s as = some t ∧ run step t bs = some u := by
  rw [run_append, Option.bind_eq_some_iff]

/-- Peel the last action from a run. -/
theorem run_snoc_some
    {s u : σ} {as : List α} {a : α} :
    run step s (as ++ [a]) = some u
      ↔
    ∃ t, run step s as = some t ∧ step t a = some u := by
  rw [run_append_some]
  constructor
  · rintro ⟨t, hrun, hlast⟩
    obtain ⟨w, hstep, hnil⟩ := run_cons_some.mp hlast
    cases hnil
    exact ⟨t, hrun, hstep⟩
  · rintro ⟨t, hrun, hstep⟩
    exact ⟨t, hrun, run_cons_some.mpr ⟨u, hstep, rfl⟩⟩

/-- **Invariant rule.** -/
theorem run_invariant
    {Inv : σ → Prop}
    (hpres : ∀ s a t, Inv s → step s a = some t → Inv t)
    {s t : σ} {as : List α}
    (hs : Inv s)
    (hrun : run step s as = some t) :
    Inv t := by
  induction as generalizing s with
  | nil =>
      cases hrun
      exact hs
  | cons a as ih =>
      obtain ⟨u, hstep, htail⟩ := run_cons_some.mp hrun
      exact ih (hpres s a u hs hstep) htail

/-- **History rule**: the invariant may mention the actions taken so far. -/
theorem run_history
    {Inv : List α → σ → Prop}
    (hpres : ∀ pre s a t,
      Inv pre s → step s a = some t → Inv (pre ++ [a]) t)
    {pre as : List α} {s t : σ}
    (hs : Inv pre s)
    (hrun : run step s as = some t) :
    Inv (pre ++ as) t := by
  induction as generalizing pre s with
  | nil =>
      cases hrun
      simpa using hs
  | cons a as ih =>
      obtain ⟨u, hstep, htail⟩ := run_cons_some.mp hrun
      have h := ih (hpres pre s a u hs hstep) htail
      simpa using h

@[simp] theorem everyStep_nil
    (P : σ → α → σ → Prop) (s : σ) :
    EveryStep step P s [] := by
  trivial

/-- Along an enabled first action, `EveryStep` splits into head and tail. -/
theorem everyStep_cons
    {P : σ → α → σ → Prop}
    {s t : σ} {a : α} {as : List α}
    (hstep : step s a = some t) :
    EveryStep step P s (a :: as)
      ↔
    P s a t ∧ EveryStep step P t as := by
  constructor
  · intro h
    exact h t hstep
  · intro h t' hstep'
    have ht : t = t' := Option.some.inj (hstep.symm.trans hstep')
    exact ht ▸ h

/-- `EveryStep` along a run that is cut in two. -/
theorem everyStep_append
    {P : σ → α → σ → Prop}
    {s t : σ} {as bs : List α}
    (hrun : run step s as = some t) :
    EveryStep step P s (as ++ bs)
      ↔
    EveryStep step P s as ∧ EveryStep step P t bs := by
  induction as generalizing s with
  | nil =>
      cases hrun
      simp
  | cons a as ih =>
      obtain ⟨u, hstep, htail⟩ := run_cons_some.mp hrun
      rw [List.cons_append, everyStep_cons hstep,
        everyStep_cons hstep, ih htail, and_assoc]

/-- A step at any position of a run satisfies `P`. -/
theorem EveryStep.at_split
    {P : σ → α → σ → Prop}
    {s t u : σ} {pre post : List α} {a : α}
    (h : EveryStep step P s (pre ++ a :: post))
    (hpre : run step s pre = some t)
    (hstep : step t a = some u) :
    P t a u := by
  have htail := ((everyStep_append hpre).mp h).2
  exact ((everyStep_cons hstep).mp htail).1

/-- To show `EveryStep P`, look at one step after an arbitrary prefix. -/
theorem everyStep_of_split
    {P : σ → α → σ → Prop}
    {s : σ} {as : List α}
    (h : ∀ pre a post t u,
      as = pre ++ a :: post →
      run step s pre = some t →
      step t a = some u →
      P t a u) :
    EveryStep step P s as := by
  induction as generalizing s with
  | nil =>
      trivial
  | cons a as ih =>
      intro t hstep
      refine ⟨h [] a as s t rfl rfl hstep, ih ?_⟩
      intro pre b post t' u has hpre hb
      refine h (a :: pre) b post t' u ?_ ?_ hb
      · rw [has]
        rfl
      · exact run_cons_some.mpr ⟨t, hstep, hpre⟩

/-- Two conditions on steps agree along a run if they do under the invariant. -/
theorem everyStep_iff
    {I : σ → Prop} {P Q : σ → α → σ → Prop}
    (hiff : ∀ s a t, I s → step s a = some t → (P s a t ↔ Q s a t))
    (hpres : ∀ s a t, I s → Q s a t → step s a = some t → I t)
    {s : σ} (hs : I s) (as : List α) :
    EveryStep step P s as
      ↔
    EveryStep step Q s as := by
  induction as generalizing s with
  | nil =>
      simp
  | cons a as ih =>
      constructor
      · intro h t hstep
        obtain ⟨hp, hrest⟩ := h t hstep
        have hq := (hiff s a t hs hstep).mp hp
        exact ⟨hq, (ih (hpres s a t hs hq hstep)).mp hrest⟩
      · intro h t hstep
        obtain ⟨hq, hrest⟩ := h t hstep
        exact ⟨(hiff s a t hs hstep).mpr hq,
          (ih (hpres s a t hs hq hstep)).mpr hrest⟩

/-- **Invariant rule under a side condition on the steps.** -/
theorem run_invariant_of_everyStep
    {Inv : σ → Prop} {G : σ → α → σ → Prop}
    (hpres : ∀ s a t,
      Inv s → G s a t → step s a = some t → Inv t)
    {s t : σ} {as : List α}
    (hs : Inv s)
    (hguard : EveryStep step G s as)
    (hrun : run step s as = some t) :
    Inv t := by
  induction as generalizing s with
  | nil =>
      cases hrun
      exact hs
  | cons a as ih =>
      obtain ⟨u, hstep, htail⟩ := run_cons_some.mp hrun
      obtain ⟨hg, hrest⟩ := (everyStep_cons hstep).mp hguard
      exact ih (hpres s a u hs hg hstep) hrest htail

/-- **Invariant rule for runs that use only some of the actions.** -/
theorem run_invariant_of_forall_mem
    {Inv : σ → Prop} {P : α → Prop}
    (hpres : ∀ s a t, Inv s → P a → step s a = some t → Inv t)
    {s t : σ} {as : List α}
    (hs : Inv s)
    (has : ∀ a ∈ as, P a)
    (hrun : run step s as = some t) :
    Inv t := by
  refine run_invariant_of_everyStep (G := fun _ a _ => P a) hpres hs ?_ hrun
  apply everyStep_of_split
  intro pre a post _ _ hsplit _ _
  apply has a
  rw [hsplit]
  exact List.mem_append_right _ List.mem_cons_self

/-- **Last write rule**: a step keeps the state or replaces it as a whole. -/
theorem run_lastWrite
    {write : α → Option σ}
    (hstep : ∀ s a t, step s a = some t → t = (write a).getD s)
    {s t : σ} {as : List α}
    (hrun : run step s as = some t) :
    t = ((as.filterMap write).getLast?).getD s := by
  induction as generalizing s with
  | nil =>
      cases hrun
      rfl
  | cons a as ih =>
      obtain ⟨u, hu, htail⟩ := run_cons_some.mp hrun
      rw [ih htail, hstep s a u hu]
      cases hwrite : write a with
      | none =>
          simp [hwrite]
      | some v =>
          cases hlast : (as.filterMap write).getLast? <;>
            simp [hwrite, List.getLast?_cons, hlast]

/--
**Projection rule**: a run of the whole is a run of the part that `view` shows,
when every step moves the part by its label or leaves it alone.
-/
theorem run_project
    {τ : Type u} {β : Type v} {stepPart : τ → β → Option τ}
    {view : σ → τ} {label : α → Option β}
    (hstep : ∀ s a t, step s a = some t →
      (label a = none ∧ view t = view s) ∨
      ∃ b, label a = some b ∧ stepPart (view s) b = some (view t))
    {s t : σ} {as : List α}
    (hrun : run step s as = some t) :
    run stepPart (view s) (as.filterMap label) = some (view t) := by
  induction as generalizing s with
  | nil =>
      cases hrun
      rfl
  | cons a as ih =>
      obtain ⟨u, hu, htail⟩ := run_cons_some.mp hrun
      rcases hstep s a u hu with ⟨hlabel, hview⟩ | ⟨b, hlabel, hpart⟩
      · rw [List.filterMap_cons_none hlabel, ← hview]
        exact ih htail
      · rw [List.filterMap_cons_some hlabel]
        exact run_cons_some.mpr ⟨view u, hpart, ih htail⟩

/-- The step of a run that a given place of the projected run comes from. -/
theorem exists_labelled_step
    {β : Type v} {label : α → Option β}
    {s t : σ} {as : List α} {front back : List β} {b : β}
    (hrun : run step s as = some t)
    (hsplit : as.filterMap label = front ++ b :: back) :
    ∃ pre a post u v,
      as = pre ++ a :: post ∧
      label a = some b ∧
      post.filterMap label = back ∧
      run step s pre = some u ∧
      step u a = some v ∧
      run step v post = some t := by
  obtain ⟨first, second, rfl, _, hsecond⟩ :=
    List.filterMap_eq_append_iff.mp hsplit
  obtain ⟨skipped, a, post, rfl, _, hlabel, hpost⟩ :=
    List.filterMap_eq_cons_iff.mp hsecond
  rw [← List.append_assoc] at hrun
  obtain ⟨u, hpre, hrest⟩ := run_append_some.mp hrun
  obtain ⟨v, hstep, htail⟩ := run_cons_some.mp hrest
  exact ⟨first ++ skipped, a, post, u, v, by rw [List.append_assoc], hlabel,
    hpost, hpre, hstep, htail⟩

end LabelledRun

end Runs
end NotVK
