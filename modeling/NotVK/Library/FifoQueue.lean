import NotVK.Library.LabelledRun

/-!
# First-in, first-out queues

Two facts about a queue that is served at its front and grows at its end.

`AllProvided` says of the contents of a queue that whatever an element needs is
there already or is provided by an element in front of it.  Enqueueing and
serving keep that, so an element that is served finds what it needs.

`run_served` says that an element with `n` elements in front of it has been
served once a run has served more than `n` elements.
-/

namespace NotVK
namespace Fifo

open Runs

universe u v w

section Provided

variable {β : Type u} {ι : Type v}
variable (needs provides : β → ι → Prop)

/-- The thing is there or an element of the list provides it. -/
def Provided (has : ι → Prop) (front : List β) (i : ι) : Prop :=
  has i ∨ ∃ b ∈ front, provides b i

/-- Every element finds what it needs once those in front are served. -/
def AllProvided (has : ι → Prop) (queue : List β) : Prop :=
  ∀ front b back i, queue = front ++ b :: back →
    needs b i → Provided provides has front i

variable {needs provides}
variable {has has' : ι → Prop} {queue : List β} {b : β} {i : ι}

theorem Provided.concat
    (h : Provided provides has queue i) (b : β) :
    Provided provides has (queue ++ [b]) i := by
  rcases h with hhas | ⟨c, hc, hprovides⟩
  · exact Or.inl hhas
  · exact Or.inr ⟨c, List.mem_append_left _ hc, hprovides⟩

theorem provided_concat_self
    (h : provides b i) :
    Provided provides has (queue ++ [b]) i :=
  Or.inr ⟨b, List.mem_append_right _ (List.mem_singleton_self b), h⟩

/-- Serving the first element makes what it provides available. -/
theorem Provided.serve
    (h : Provided provides has (b :: queue) i)
    (hserve : ∀ i, has i ∨ provides b i → has' i) :
    Provided provides has' queue i := by
  rcases h with hhas | ⟨c, hc, hprovides⟩
  · exact Or.inl (hserve i (Or.inl hhas))
  · rcases List.mem_cons.mp hc with rfl | hc
    · exact Or.inl (hserve i (Or.inr hprovides))
    · exact Or.inr ⟨c, hc, hprovides⟩

theorem allProvided_nil :
    AllProvided needs provides has [] := by
  intro front b back i hqueue
  simp at hqueue

theorem AllProvided.concat
    (h : AllProvided needs provides has queue)
    (hb : ∀ i, needs b i → Provided provides has queue i) :
    AllProvided needs provides has (queue ++ [b]) := by
  intro front c back i hqueue hneeds
  rcases List.eq_nil_or_concat back with rfl | ⟨rest, last, rfl⟩
  · obtain ⟨rfl, hlast⟩ := List.append_inj' hqueue rfl
    cases hlast
    exact hb i hneeds
  · have hlast : queue ++ [b] = (front ++ c :: rest) ++ [last] := by
      simpa using hqueue
    obtain ⟨hold, _⟩ := List.append_inj' hlast rfl
    exact h front c rest i hold hneeds

theorem AllProvided.serve
    (h : AllProvided needs provides has (b :: queue))
    (hserve : ∀ i, has i ∨ provides b i → has' i) :
    AllProvided needs provides has' queue := by
  intro front c back i hqueue hneeds
  have hfront : Provided provides has (b :: front) i :=
    h (b :: front) c back i (by rw [hqueue]; rfl) hneeds
  exact hfront.serve hserve

/-- The element that is served next has what it needs. -/
theorem AllProvided.head
    (h : AllProvided needs provides has (b :: queue))
    (hneeds : needs b i) :
    has i := by
  rcases h [] b queue i rfl hneeds with hhas | ⟨_, hc, _⟩
  · exact hhas
  · cases hc

end Provided

section Served

variable {σ : Type u} {α : Type v} {β : Type w}
variable {step : σ → α → Option σ} (queue : σ → List β)
variable {serves : α → Bool} {G : α → Prop} {Q : σ → Prop}

/-- **An element is served after those in front of it.** -/
theorem run_served
    {b : β}
    (hserve : ∀ s a t, G a → serves a = true → step s a = some t →
      ∃ c, queue s = c :: queue t ∧ (c = b → Q t))
    (hgrow : ∀ s a t, G a → serves a = false → step s a = some t →
      ∃ new, queue t = queue s ++ new)
    (hkeep : ∀ s a t, G a → Q s → step s a = some t → Q t)
    {s t : σ} {as : List α} {front back : List β}
    (has : ∀ a ∈ as, G a)
    (hrun : run step s as = some t)
    (hqueue : queue s = front ++ b :: back)
    (hcount : front.length < as.countP serves) :
    Q t := by
  induction as generalizing s front back with
  | nil =>
      simp at hcount
  | cons a as ih =>
      obtain ⟨u, hstep, htail⟩ := run_cons_some.mp hrun
      have ha : G a := has a List.mem_cons_self
      have hrest : ∀ c ∈ as, G c :=
        fun c hc => has c (List.mem_cons_of_mem a hc)
      cases hserves : serves a with
      | false =>
          obtain ⟨new, hnew⟩ := hgrow s a u ha hserves hstep
          have hu : queue u = front ++ b :: (back ++ new) := by
            rw [hnew, hqueue, List.append_assoc, List.cons_append]
          refine ih hrest htail hu ?_
          simpa [List.countP_cons, hserves] using hcount
      | true =>
          obtain ⟨c, hhead, hserved⟩ := hserve s a u ha hserves hstep
          rw [hqueue] at hhead
          cases front with
          | nil =>
              obtain ⟨rfl, _⟩ := List.cons.inj hhead
              exact run_invariant_of_forall_mem
                (fun s a t hQ hG hst => hkeep s a t hG hQ hst)
                (hserved rfl) hrest htail
          | cons f front =>
              obtain ⟨_, hu⟩ := List.cons.inj hhead
              refine ih hrest htail hu.symm ?_
              simpa [List.countP_cons, hserves] using hcount

end Served

end Fifo
end NotVK
