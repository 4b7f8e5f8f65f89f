import NotVK.Library.IndexedChange
import NotVK.ObjectStore.IndexSetPositions

/-!
# A set of positions at once

The operations that take a whole set of positions walk over the indices of both
sets in ascending order and keep count of the positions they have passed.  What
they emit is put together to ranges again by a builder.
-/

namespace NotVK
namespace ObjectStore

open Indices

section Builder

/-- `push_back` of the builder; the last range comes first. -/
def pushBack (ranges : List (Nat × Nat)) (r : Nat × Nat) : List (Nat × Nat) :=
  match ranges with
  | [] => [r]
  | b :: rest => if r.1 = b.2 then (b.1, r.2) :: rest else r :: b :: rest

/-- All that was pushed, and `finalize()`. -/
def build (pushed : List (Nat × Nat)) : List (Nat × Nat) :=
  (pushed.foldl pushBack []).reverse

/-- Indices that are pushed one by one. -/
def singles (indexes : List Nat) : List (Nat × Nat) :=
  indexes.map (fun i => (i, i + 1))

/-- Ranges in ascending order; they may touch. -/
structure Ascending (pushed : List (Nat × Nat)) : Prop where
  nonempty : ∀ r ∈ pushed, r.1 < r.2
  ascending : pushed.Pairwise (fun r s => r.2 ≤ s.1)

theorem pushBack_spec
    {ranges : List (Nat × Nat)} {r : Nat × Nat}
    (hranges : Ordered ranges.reverse)
    (hr : r.1 < r.2)
    (hbefore : ∀ b ∈ ranges, b.2 ≤ r.1) :
    Ordered (pushBack ranges r).reverse ∧
    (∀ i, i ∈ members (pushBack ranges r)
      ↔
    i ∈ members ranges ∨ (r.1 ≤ i ∧ i < r.2)) ∧
    ∀ b ∈ pushBack ranges r, b.2 ≤ r.2 := by
  cases ranges with
  | nil =>
      exact ⟨by simpa [pushBack] using hr, fun i => by simp [pushBack],
        by simp [pushBack]⟩
  | cons b rest =>
      have hb := hbefore b List.mem_cons_self
      rw [List.reverse_cons, ordered_append] at hranges
      obtain ⟨hrest, hb_ordered, hrest_b⟩ := hranges
      have hb_lt : b.1 < b.2 := hb_ordered.nonempty b (by simp)
      have hrest_lt : ∀ q ∈ rest, q.2 < b.1 :=
        fun q hq => hrest_b q (by simpa using hq) b (by simp)
      by_cases htouch : r.1 = b.2
      · simp only [pushBack, if_pos htouch]
        refine ⟨?_, fun i => ?_, ?_⟩
        · rw [List.reverse_cons, ordered_append]
          refine ⟨hrest, by simp; omega, ?_⟩
          intro q hq s hs
          rw [List.mem_singleton.mp hs]
          exact hrest_lt q (by simpa using hq)
        · simp only [mem_members_cons]
          grind
        · intro q hq
          rcases List.mem_cons.mp hq with rfl | hq
          · exact le_rfl
          · have := hrest_lt q hq
            omega
      · simp only [pushBack, if_neg htouch]
        refine ⟨?_, fun i => ?_, ?_⟩
        · rw [List.reverse_cons, List.reverse_cons, ordered_append, ordered_append]
          refine ⟨⟨hrest, hb_ordered, hrest_b⟩, by simpa using hr, ?_⟩
          intro q hq s hs
          rw [List.mem_singleton.mp hs]
          rw [List.mem_append, List.mem_reverse, List.mem_singleton] at hq
          rcases hq with hq | rfl
          · have := hrest_lt q hq
            omega
          · omega
        · rw [mem_members_cons, or_comm]
        · intro q hq
          rcases List.mem_cons.mp hq with rfl | hq
          · exact le_rfl
          · have := hbefore q hq
            omega

theorem foldl_pushBack_spec
    {ranges pushed : List (Nat × Nat)}
    (hranges : Ordered ranges.reverse)
    (hpushed : Ascending pushed)
    (hbefore : ∀ b ∈ ranges, ∀ r ∈ pushed, b.2 ≤ r.1) :
    Ordered (pushed.foldl pushBack ranges).reverse ∧
    ∀ i, i ∈ members (pushed.foldl pushBack ranges)
      ↔
    i ∈ members ranges ∨ i ∈ members pushed := by
  induction pushed generalizing ranges with
  | nil =>
      exact ⟨hranges, fun i => by simp⟩
  | cons r pushed ih =>
      have hascending := List.pairwise_cons.mp hpushed.ascending
      obtain ⟨hordered, hmem, hle⟩ := pushBack_spec hranges
        (hpushed.nonempty r List.mem_cons_self)
        (fun b hb => hbefore b hb r List.mem_cons_self)
      obtain ⟨hfold, hfold_mem⟩ := ih hordered
        ⟨fun s hs => hpushed.nonempty s (List.mem_cons_of_mem r hs), hascending.2⟩
        (fun b hb s hs => (hle b hb).trans (hascending.1 s hs))
      refine ⟨hfold, fun i => ?_⟩
      rw [List.foldl_cons, hfold_mem, hmem, mem_members_cons, or_assoc]

theorem ordered_build
    {pushed : List (Nat × Nat)}
    (h : Ascending pushed) :
    Ordered (build pushed) :=
  (@foldl_pushBack_spec [] pushed ordered_nil h (by simp)).1

theorem members_build
    {pushed : List (Nat × Nat)}
    (h : Ascending pushed) :
    members (build pushed) = members pushed := by
  ext i
  have hmem := (@foldl_pushBack_spec [] pushed ordered_nil h (by simp)).2 i
  rw [mem_members_nil, false_or] at hmem
  rw [← hmem, build, mem_members, mem_members]
  simp

theorem ascending_singles
    {indexes : List Nat}
    (h : indexes.Pairwise (· < ·)) :
    Ascending (singles indexes) where
  nonempty := by
    intro r hr
    obtain ⟨i, _, rfl⟩ := List.mem_map.mp hr
    exact Nat.lt_succ_self i
  ascending := List.pairwise_map.mpr (h.imp (fun hlt => hlt))

theorem mem_members_singles
    {indexes : List Nat} {i : Nat} :
    i ∈ members (singles indexes) ↔ i ∈ indexes := by
  rw [mem_members]
  constructor
  · rintro ⟨r, hr, hle, hlt⟩
    obtain ⟨j, hj, rfl⟩ := List.mem_map.mp hr
    obtain rfl : j = i := by
      simp only at hle hlt
      omega
    exact hj
  · intro hi
    exact ⟨(i, i + 1), List.mem_map.mpr ⟨i, hi, rfl⟩, le_rfl, Nat.lt_succ_self i⟩

theorem members_build_singles
    {indexes : List Nat}
    (h : indexes.Pairwise (· < ·)) :
    members (build (singles indexes)) = indexes.toFinset := by
  ext i
  rw [members_build (ascending_singles h), mem_members_singles, List.mem_toFinset]

end Builder

section Loops

/-- Positions that are emitted themselves, or only passed. -/
def emitted (keep : Bool) (ys : List Nat) : List Nat :=
  if keep then ys else []

/-- The loop of `insert_at(IndexSet)`, and with `keep` false that of
`shift_for_insert_at(IndexSet)`: what is emitted for the indices `xs` of the set
and the positions `ys`. -/
def mergeShifted (keep : Bool) : Nat → List Nat → List Nat → List Nat
  | shift, xs, [] => xs.map (fun x => x + shift)
  | _, [], y :: ys => emitted keep (y :: ys)
  | shift, x :: xs, y :: ys =>
      if x + shift < y then (x + shift) :: mergeShifted keep shift xs (y :: ys)
      else emitted keep [y] ++ mergeShifted keep (shift + 1) (x :: xs) ys
termination_by _ xs ys => xs.length + ys.length

/-- The loop of `erase_at(IndexSet)`. -/
def mergeErased : Nat → List Nat → List Nat → List Nat
  | shift, xs, [] => xs.map (fun x => x - shift)
  | _, [], _ :: _ => []
  | shift, x :: xs, y :: ys =>
      if x < y then (x - shift) :: mergeErased shift xs (y :: ys)
      else if x = y then mergeErased (shift + 1) xs ys
      else mergeErased (shift + 1) (x :: xs) ys
termination_by _ xs ys => xs.length + ys.length

theorem mem_emitted
    {keep : Bool} {ys : List Nat} {v : Nat} :
    v ∈ emitted keep ys ↔ keep = true ∧ v ∈ ys := by
  cases keep <;> simp [emitted]

theorem emitted_sorted
    {keep : Bool} {ys : List Nat}
    (hys : ys.Pairwise (· < ·)) :
    (emitted keep ys).Pairwise (· < ·) := by
  cases keep
  · exact List.Pairwise.nil
  · exact hys

/-- The positions that a loop has passed, for the indices still to come. -/
structure Passed
    (passed : Finset Nat) (shift : Nat) (ys : List Nat) : Prop where
  card : passed.card = shift
  lt_positions : ∀ q ∈ passed, ∀ y ∈ ys, q < y

theorem Passed.insert
    {passed : Finset Nat} {shift y : Nat} {ys : List Nat}
    (h : Passed passed shift (y :: ys))
    (hys : (y :: ys).Pairwise (· < ·)) :
    Passed (insert y passed) (shift + 1) ys where
  card := by
    have hy : y ∉ passed := fun hy => (h.lt_positions y hy y List.mem_cons_self).ne rfl
    rw [Finset.card_insert_of_notMem hy, h.card]
  lt_positions := by
    intro q hq z hz
    rcases Finset.mem_insert.mp hq with rfl | hq
    · exact (List.pairwise_cons.mp hys).1 z hz
    · exact h.lt_positions q hq z (List.mem_cons_of_mem y hz)

theorem insert_union_toFinset
    (passed : Finset Nat) (y : Nat) (ys : List Nat) :
    insert y passed ∪ ys.toFinset = passed ∪ (y :: ys).toFinset := by
  rw [List.toFinset_cons, Finset.insert_union, Finset.union_insert]

/-- Between the passed positions and those to come a fixed number is passed. -/
theorem Passed.card_filter
    {passed : Finset Nat} {shift v : Nat} {ys : List Nat}
    (h : Passed passed shift ys)
    (hpassed : ∀ q ∈ passed, q < v)
    (hys : ∀ y ∈ ys, v ≤ y) :
    ((passed ∪ ys.toFinset).filter (fun k => k < v)).card = shift := by
  have hfilter : (passed ∪ ys.toFinset).filter (fun k => k < v) = passed := by
    ext k
    rw [Finset.mem_filter, Finset.mem_union, List.mem_toFinset]
    constructor
    · rintro ⟨hk | hk, hlt⟩
      · exact hk
      · have := hys k hk
        omega
    · intro hk
      exact ⟨Or.inl hk, hpassed k hk⟩
  rw [hfilter, h.card]

/-- An index is shifted by the number of positions that were passed. -/
theorem Passed.shift_eq
    {passed : Finset Nat} {shift x : Nat} {ys : List Nat}
    (h : Passed passed shift ys)
    (hpassed : ∀ q ∈ passed, q < x + shift)
    (hys : ∀ y ∈ ys, x + shift < y) :
    Indices.shift (passed ∪ ys.toFinset) x = x + shift := by
  apply shift_eq_of_card
  · rw [Finset.mem_union, List.mem_toFinset]
    rintro (hk | hk)
    · exact (hpassed _ hk).ne rfl
    · exact (hys _ hk).ne rfl
  · exact h.card_filter hpassed (fun y hy => (hys y hy).le)

theorem Passed.unshift_eq
    {passed : Finset Nat} {shift x : Nat} {ys : List Nat}
    (h : Passed passed shift ys)
    (hpassed : ∀ q ∈ passed, q < x)
    (hys : ∀ y ∈ ys, x ≤ y) :
    Indices.unshift (passed ∪ ys.toFinset) x = x - shift := by
  have hsplit := unshift_add_card (passed ∪ ys.toFinset) x
  rw [h.card_filter hpassed hys] at hsplit
  omega

/-- Passing a position that is not above the next index keeps the rest above. -/
theorem passed_insert
    {passed : Finset Nat} {shift x y : Nat} {xs : List Nat}
    (hxs : (x :: xs).Pairwise (· < ·))
    (hpassed : ∀ q ∈ passed, ∀ z ∈ x :: xs, q < z + shift)
    (hge : ¬ x + shift < y) :
    ∀ q ∈ insert y passed, ∀ z ∈ x :: xs, q < z + (shift + 1) := by
  intro q hq z hz
  have hxz : x ≤ z := by
    rcases List.mem_cons.mp hz with rfl | hz
    · exact le_rfl
    · exact ((List.pairwise_cons.mp hxs).1 z hz).le
  rcases Finset.mem_insert.mp hq with rfl | hq
  · omega
  · have := hpassed q hq x List.mem_cons_self
    omega

/-- An index goes behind the positions that are not above it. -/
theorem Passed.lt_shift
    {passed : Finset Nat} {shift x y : Nat} {ys : List Nat}
    (h : Passed passed shift (y :: ys))
    (hys : (y :: ys).Pairwise (· < ·))
    (hge : y ≤ x + shift) :
    y < Indices.shift (passed ∪ (y :: ys).toFinset) x := by
  have hunshift := h.unshift_eq (x := y)
    (fun q hq => h.lt_positions q hq y List.mem_cons_self)
    (fun z hz => by
      rcases List.mem_cons.mp hz with rfl | hz
      · exact le_rfl
      · exact ((List.pairwise_cons.mp hys).1 z hz).le)
  have hle : y ≤ Indices.shift (passed ∪ (y :: ys).toFinset) x := by
    rw [← gc_unshift_shift, hunshift]
    omega
  have hne : Indices.shift (passed ∪ (y :: ys).toFinset) x ≠ y := by
    intro heq
    apply shift_notMem (passed ∪ (y :: ys).toFinset) x
    rw [heq]
    simp
  omega

/-- What `insert_at` and `shift_for_insert_at` emit. -/
theorem mem_mergeShifted
    {keep : Bool} {shift : Nat} {xs ys : List Nat} {passed : Finset Nat}
    (hxs : xs.Pairwise (· < ·))
    (hys : ys.Pairwise (· < ·))
    (h : Passed passed shift ys)
    (hpassed : ∀ q ∈ passed, ∀ x ∈ xs, q < x + shift)
    {v : Nat} :
    v ∈ mergeShifted keep shift xs ys
      ↔
    (keep = true ∧ v ∈ ys) ∨
      ∃ x ∈ xs, v = Indices.shift (passed ∪ ys.toFinset) x := by
  induction shift, xs, ys using mergeShifted.induct generalizing passed with
  | case1 shift xs =>
      have hx : ∀ x ∈ xs,
          Indices.shift (passed ∪ ([] : List Nat).toFinset) x = x + shift :=
        fun x hx => h.shift_eq (fun q hq => hpassed q hq x hx) (by simp)
      rw [mergeShifted, List.mem_map]
      constructor
      · rintro ⟨x, hx_mem, rfl⟩
        exact Or.inr ⟨x, hx_mem, (hx x hx_mem).symm⟩
      · rintro (⟨_, hv⟩ | ⟨x, hx_mem, rfl⟩)
        · simp at hv
        · exact ⟨x, hx_mem, (hx x hx_mem).symm⟩
  | case2 shift y ys =>
      simp [mergeShifted, mem_emitted]
  | case3 shift x xs y ys hlt ih =>
      have hx := h.shift_eq (fun q hq => hpassed q hq x List.mem_cons_self)
        (fun z hz => by
          rcases List.mem_cons.mp hz with rfl | hz
          · exact hlt
          · exact hlt.trans ((List.pairwise_cons.mp hys).1 z hz))
      rw [mergeShifted, if_pos hlt, List.mem_cons,
        ih (List.pairwise_cons.mp hxs).2 hys h
          (fun q hq z hz => hpassed q hq z (List.mem_cons_of_mem x hz)),
        List.exists_mem_cons_iff, hx]
      tauto
  | case4 shift x xs y ys hge ih =>
      have hpassed' := passed_insert hxs hpassed hge
      rw [mergeShifted, if_neg hge, List.mem_append,
        ih hxs (List.pairwise_cons.mp hys).2 (h.insert hys) hpassed',
        insert_union_toFinset, mem_emitted, List.mem_singleton, List.mem_cons]
      tauto

/-- It is emitted in ascending order. -/
theorem mergeShifted_sorted
    {keep : Bool} {shift : Nat} {xs ys : List Nat} {passed : Finset Nat}
    (hxs : xs.Pairwise (· < ·))
    (hys : ys.Pairwise (· < ·))
    (h : Passed passed shift ys)
    (hpassed : ∀ q ∈ passed, ∀ x ∈ xs, q < x + shift) :
    (mergeShifted keep shift xs ys).Pairwise (· < ·) := by
  induction shift, xs, ys using mergeShifted.induct generalizing passed with
  | case1 shift xs =>
      rw [mergeShifted]
      exact List.pairwise_map.mpr (hxs.imp (fun hlt => by omega))
  | case2 shift y ys =>
      rw [mergeShifted]
      exact emitted_sorted hys
  | case3 shift x xs y ys hlt ih =>
      have hrest := List.pairwise_cons.mp hxs
      have hpassed' : ∀ q ∈ passed, ∀ z ∈ xs, q < z + shift :=
        fun q hq z hz => hpassed q hq z (List.mem_cons_of_mem x hz)
      have hx := h.shift_eq (fun q hq => hpassed q hq x List.mem_cons_self)
        (fun z hz => by
          rcases List.mem_cons.mp hz with rfl | hz
          · exact hlt
          · exact hlt.trans ((List.pairwise_cons.mp hys).1 z hz))
      rw [mergeShifted, if_pos hlt]
      refine List.pairwise_cons.mpr ⟨fun v hv => ?_, ih hrest.2 hys h hpassed'⟩
      rcases (mem_mergeShifted hrest.2 hys h hpassed').mp hv with
        ⟨_, hv⟩ | ⟨z, hz, rfl⟩
      · rcases List.mem_cons.mp hv with rfl | hv
        · exact hlt
        · exact hlt.trans ((List.pairwise_cons.mp hys).1 v hv)
      · rw [← hx]
        exact shift_strictMono _ (hrest.1 z hz)
  | case4 shift x xs y ys hge ih =>
      have hrest := List.pairwise_cons.mp hys
      have hpassed' := passed_insert hxs hpassed hge
      have hsorted := ih hxs hrest.2 (h.insert hys) hpassed'
      rw [mergeShifted, if_neg hge]
      refine List.pairwise_append.mpr
        ⟨emitted_sorted (List.pairwise_singleton _ _), hsorted, ?_⟩
      intro w hw v hv
      obtain ⟨_, hw⟩ := mem_emitted.mp hw
      rw [List.mem_singleton.mp hw]
      rcases (mem_mergeShifted hxs hrest.2 (h.insert hys) hpassed').mp hv with
        ⟨_, hv⟩ | ⟨z, hz, rfl⟩
      · exact hrest.1 v hv
      · have hxz : x ≤ z := by
          rcases List.mem_cons.mp hz with rfl | hz
          · exact le_rfl
          · exact ((List.pairwise_cons.mp hxs).1 z hz).le
        rw [insert_union_toFinset]
        exact h.lt_shift hys (by omega)

/-- What `erase_at` emits. -/
theorem mem_mergeErased
    {shift : Nat} {xs ys : List Nat} {passed : Finset Nat}
    (hxs : xs.Pairwise (· < ·))
    (hys : ys.Pairwise (· < ·))
    (h : Passed passed shift ys)
    (hpassed : ∀ q ∈ passed, ∀ x ∈ xs, q < x)
    {v : Nat} :
    v ∈ mergeErased shift xs ys
      ↔
    ∃ x ∈ xs, x ∉ ys ∧ v = Indices.unshift (passed ∪ ys.toFinset) x := by
  induction shift, xs, ys using mergeErased.induct generalizing passed with
  | case1 shift xs =>
      have hx : ∀ x ∈ xs,
          Indices.unshift (passed ∪ ([] : List Nat).toFinset) x = x - shift :=
        fun x hx => h.unshift_eq (fun q hq => hpassed q hq x hx) (by simp)
      rw [mergeErased, List.mem_map]
      constructor
      · rintro ⟨x, hx_mem, rfl⟩
        exact ⟨x, hx_mem, by simp, (hx x hx_mem).symm⟩
      · rintro ⟨x, hx_mem, _, rfl⟩
        exact ⟨x, hx_mem, (hx x hx_mem).symm⟩
  | case2 shift y ys =>
      simp [mergeErased]
  | case3 shift x xs y ys hlt ih =>
      have hbelow : ∀ z ∈ y :: ys, x < z := by
        intro z hz
        rcases List.mem_cons.mp hz with rfl | hz
        · exact hlt
        · exact hlt.trans ((List.pairwise_cons.mp hys).1 z hz)
      have hx := h.unshift_eq (fun q hq => hpassed q hq x List.mem_cons_self)
        (fun z hz => (hbelow z hz).le)
      have hx_notMem : x ∉ y :: ys := fun hx => (hbelow x hx).ne rfl
      rw [mergeErased, if_pos hlt, List.mem_cons,
        ih (List.pairwise_cons.mp hxs).2 hys h
          (fun q hq z hz => hpassed q hq z (List.mem_cons_of_mem x hz)),
        List.exists_mem_cons_iff, hx]
      simp only [hx_notMem, not_false_eq_true, true_and]
  | case4 shift xs x ys hge ih =>
      have hrest := List.pairwise_cons.mp hxs
      have hpassed' : ∀ q ∈ insert x passed, ∀ z ∈ xs, q < z := by
        intro q hq z hz
        rcases Finset.mem_insert.mp hq with rfl | hq
        · exact hrest.1 z hz
        · exact hpassed q hq z (List.mem_cons_of_mem x hz)
      rw [mergeErased, if_neg hge, if_pos rfl,
        ih hrest.2 (List.pairwise_cons.mp hys).2 (h.insert hys) hpassed',
        insert_union_toFinset, List.exists_mem_cons_iff]
      constructor
      · rintro ⟨z, hz, hz_notMem, rfl⟩
        refine Or.inr ⟨z, hz, ?_, rfl⟩
        rw [List.mem_cons, not_or]
        exact ⟨(hrest.1 z hz).ne', hz_notMem⟩
      · rintro (⟨hx, _⟩ | ⟨z, hz, hz_notMem, rfl⟩)
        · exact absurd List.mem_cons_self hx
        · exact ⟨z, hz, fun hmem => hz_notMem (List.mem_cons_of_mem x hmem), rfl⟩
  | case5 shift x xs y ys hge hne ih =>
      have hyx : y < x := by omega
      have hpassed' : ∀ q ∈ insert y passed, ∀ z ∈ x :: xs, q < z := by
        intro q hq z hz
        rcases Finset.mem_insert.mp hq with rfl | hq
        · rcases List.mem_cons.mp hz with rfl | hz
          · exact hyx
          · exact hyx.trans ((List.pairwise_cons.mp hxs).1 z hz)
        · exact hpassed q hq z hz
      rw [mergeErased, if_neg hge, if_neg hne,
        ih hxs (List.pairwise_cons.mp hys).2 (h.insert hys) hpassed',
        insert_union_toFinset]
      refine exists_congr fun z => and_congr_right fun hz => ?_
      have hzy : z ≠ y := (hpassed' y (Finset.mem_insert_self _ _) z hz).ne'
      rw [List.mem_cons, not_or]
      simp only [hzy, not_false_eq_true, true_and]

theorem mergeErased_sorted
    {shift : Nat} {xs ys : List Nat} {passed : Finset Nat}
    (hxs : xs.Pairwise (· < ·))
    (hys : ys.Pairwise (· < ·))
    (h : Passed passed shift ys)
    (hpassed : ∀ q ∈ passed, ∀ x ∈ xs, q < x) :
    (mergeErased shift xs ys).Pairwise (· < ·) := by
  induction shift, xs, ys using mergeErased.induct generalizing passed with
  | case1 shift xs =>
      rw [mergeErased]
      refine List.pairwise_map.mpr (hxs.imp_of_mem ?_)
      intro x z hx hz hlt
      rw [← h.unshift_eq (fun q hq => hpassed q hq x hx) (by simp),
        ← h.unshift_eq (fun q hq => hpassed q hq z hz) (by simp)]
      apply unshift_lt_unshift _ hlt
      simpa using fun hx' => (hpassed x hx' x hx).ne rfl
  | case2 shift y ys =>
      simp [mergeErased]
  | case3 shift x xs y ys hlt ih =>
      have hrest := List.pairwise_cons.mp hxs
      have hpassed' : ∀ q ∈ passed, ∀ z ∈ xs, q < z :=
        fun q hq z hz => hpassed q hq z (List.mem_cons_of_mem x hz)
      have hbelow : ∀ z ∈ y :: ys, x < z := by
        intro z hz
        rcases List.mem_cons.mp hz with rfl | hz
        · exact hlt
        · exact hlt.trans ((List.pairwise_cons.mp hys).1 z hz)
      have hx := h.unshift_eq (fun q hq => hpassed q hq x List.mem_cons_self)
        (fun z hz => (hbelow z hz).le)
      rw [mergeErased, if_pos hlt]
      refine List.pairwise_cons.mpr ⟨fun v hv => ?_, ih hrest.2 hys h hpassed'⟩
      obtain ⟨z, hz, _, rfl⟩ := (mem_mergeErased hrest.2 hys h hpassed').mp hv
      rw [← hx]
      apply unshift_lt_unshift _ (hrest.1 z hz)
      rw [Finset.mem_union, List.mem_toFinset]
      rintro (hx_mem | hx_mem)
      · exact (hpassed x hx_mem x List.mem_cons_self).ne rfl
      · exact (hbelow x hx_mem).ne rfl
  | case4 shift xs x ys hge ih =>
      have hrest := List.pairwise_cons.mp hxs
      rw [mergeErased, if_neg hge, if_pos rfl]
      apply ih hrest.2 (List.pairwise_cons.mp hys).2 (h.insert hys)
      intro q hq z hz
      rcases Finset.mem_insert.mp hq with rfl | hq
      · exact hrest.1 z hz
      · exact hpassed q hq z (List.mem_cons_of_mem x hz)
  | case5 shift x xs y ys hge hne ih =>
      rw [mergeErased, if_neg hge, if_neg hne]
      apply ih hxs (List.pairwise_cons.mp hys).2 (h.insert hys)
      intro q hq z hz
      rcases Finset.mem_insert.mp hq with rfl | hq
      · rcases List.mem_cons.mp hz with rfl | hz
        · omega
        · have := (List.pairwise_cons.mp hxs).1 z hz
          omega
      · exact hpassed q hq z hz

theorem passed_empty (ys : List Nat) :
    Passed ∅ 0 ys :=
  ⟨rfl, by simp⟩

end Loops

section AddingShifted

open Iterator

/-- `add(IndexSet)`: each index is searched for from the place of the last one. -/
def addIndexes (it : Iterator) : List Nat → Iterator
  | [] => it
  | index :: rest => addIndexes ((find index it.front it.back).doAdd index) rest

/-- The inner loop of `add_shifted_by` over `shifted_by`: the ranges that are
left, `new_shift` and `skip_until`. -/
def takeShift
    (index : Nat) : List (Nat × Nat) → Nat → Nat → List (Nat × Nat) × Nat × Nat
  | [], newShift, skipUntil => ([], newShift, skipUntil)
  | r :: rest, newShift, skipUntil =>
      if r.1 ≤ index then takeShift index rest (newShift + (r.2 - r.1)) r.2
      else (r :: rest, newShift, skipUntil)

/-- The inner loop over the set itself: what is pushed, the ranges that are
left, and `old_shift`. -/
def takeOld
    (base : Nat) : List (Nat × Nat) → Nat → List (Nat × Nat) × List (Nat × Nat) × Nat
  | [], oldShift => ([], [], oldShift)
  | r :: rest, oldShift =>
      if r.1 ≤ base + oldShift then
        let taken := takeOld base rest (oldShift + (r.2 - r.1))
        (singles (List.range' r.1 (r.2 - r.1)) ++ taken.1, taken.2)
      else ([], r :: rest, oldShift)

/-- What `add_shifted_by` pushes for the indices of `values`. -/
def addShiftedPushes
    (old shiftedBy : List (Nat × Nat)) (skipUntil oldShift newShift : Nat) :
    List Nat → List (Nat × Nat)
  | [] => old
  | index :: rest =>
      let shift := takeShift index shiftedBy newShift skipUntil
      if index < shift.2.2 then
        addShiftedPushes old shift.1 shift.2.2 oldShift shift.2.1 rest
      else
        let taken := takeOld (index - shift.2.1) old oldShift
        let added := index - shift.2.1 + taken.2.2
        taken.1 ++ (added, added + 1) ::
          addShiftedPushes taken.2.1 shift.1 shift.2.2 taken.2.2 shift.2.1 rest

theorem addIndexes_spec
    {it : Iterator} {indexes : List Nat}
    (hordered : Ordered it.ranges)
    (hindexes : indexes.Pairwise (· < ·))
    (hfront : ∀ r ∈ it.front, ∀ i ∈ indexes, r.2 ≤ i) :
    Ordered (addIndexes it indexes).ranges ∧
    ∀ i, i ∈ members (addIndexes it indexes).ranges
      ↔
    i ∈ members it.ranges ∨ i ∈ indexes := by
  induction indexes generalizing it with
  | nil =>
      exact ⟨hordered, fun i => by simp [addIndexes]⟩
  | cons index rest ih =>
      obtain ⟨hfirst, hrest⟩ := List.pairwise_cons.mp hindexes
      have hfound : Ordered (find index it.front it.back).ranges := by
        rw [ranges_find]
        exact hordered
      have hsplits : (find index it.front it.back).Splits index := splits_find
        (fun r hr => hfront r hr index List.mem_cons_self)
        (ordered_ranges.mp hordered).2.1
      have hadds := doAdd_adds hfound hsplits
      obtain ⟨hres, hmem⟩ := ih hadds.ordered hrest (fun r hr i hi =>
        (hadds.splits.front_le r hr).trans (hfirst i hi).le)
      refine ⟨hres, fun i => ?_⟩
      have hranges : members (find index it.front it.back).ranges = members it.ranges := by
        rw [ranges_find]
        rfl
      rw [addIndexes, hmem, hadds.mem_iff, hranges, List.mem_cons]
      tauto

/-- Where the loop over `shifted_by` stands, for the values still to come. -/
structure Skips
    (shiftedBy passed : Finset Nat) (left : List (Nat × Nat))
    (newShift skipUntil : Nat) (values : List Nat) : Prop where
  union : shiftedBy = passed ∪ members left
  card : passed.card = newShift
  below : ∀ q ∈ passed, q < skipUntil
  covered : ∀ v ∈ values, v < skipUntil → v ∈ passed
  ordered : Ordered left
  above : ∀ r ∈ left, skipUntil ≤ r.1

theorem takeShift_spec
    {shiftedBy passed : Finset Nat} {left : List (Nat × Nat)}
    {newShift skipUntil index : Nat} {values : List Nat}
    (hvalues : ∀ v ∈ values, index ≤ v)
    (h : Skips shiftedBy passed left newShift skipUntil values) :
    ∃ passed',
      Skips shiftedBy passed' (takeShift index left newShift skipUntil).1
        (takeShift index left newShift skipUntil).2.1
        (takeShift index left newShift skipUntil).2.2 values ∧
      ∀ r ∈ (takeShift index left newShift skipUntil).1, index < r.1 := by
  induction left generalizing passed newShift skipUntil with
  | nil =>
      exact ⟨passed, h, by simp [takeShift]⟩
  | cons r rest ih =>
      obtain ⟨hr, hfirst, hrest⟩ := (ordered_cons r rest).mp h.ordered
      rw [takeShift]
      split
      next hle =>
        apply @ih (passed ∪ Finset.Ico r.1 r.2)
        have hr_above := h.above r List.mem_cons_self
        refine ⟨?_, ?_, ?_, ?_, hrest, fun s hs => (hfirst s hs).le⟩
        · rw [h.union]
          ext i
          simp only [Finset.mem_union, mem_members_cons, Finset.mem_Ico]
          tauto
        · have hdisjoint : Disjoint passed (Finset.Ico r.1 r.2) := by
            rw [Finset.disjoint_left]
            intro q hq hin
            have := h.below q hq
            rw [Finset.mem_Ico] at hin
            omega
          rw [Finset.card_union_of_disjoint hdisjoint, Nat.card_Ico, h.card]
        · intro q hq
          rcases Finset.mem_union.mp hq with hq | hq
          · have := h.below q hq
            omega
          · exact (Finset.mem_Ico.mp hq).2
        · intro v hv hlt
          have := hvalues v hv
          exact Finset.mem_union_right _ (Finset.mem_Ico.mpr ⟨by omega, hlt⟩)
      next hgt =>
        refine ⟨passed, h, ?_⟩
        intro s hs
        rcases List.mem_cons.mp hs with rfl | hs
        · omega
        · have := hfirst s hs
          omega

/-- An index is skipped exactly when it is one of `shifted_by`. -/
theorem Skips.mem_iff
    {shiftedBy passed : Finset Nat} {left : List (Nat × Nat)}
    {newShift skipUntil index : Nat} {values : List Nat}
    (h : Skips shiftedBy passed left newShift skipUntil values)
    (hindex : index ∈ values)
    (hleft : ∀ r ∈ left, index < r.1) :
    index ∈ shiftedBy ↔ index < skipUntil := by
  rw [h.union, Finset.mem_union]
  constructor
  · rintro (hq | hq)
    · exact h.below index hq
    · obtain ⟨r, hr, hle, _⟩ := mem_members.mp hq
      have := hleft r hr
      omega
  · intro hlt
    exact Or.inl (h.covered index hindex hlt)

theorem Skips.unshift_eq
    {shiftedBy passed : Finset Nat} {left : List (Nat × Nat)}
    {newShift skipUntil index : Nat} {values : List Nat}
    (h : Skips shiftedBy passed left newShift skipUntil values)
    (hleft : ∀ r ∈ left, index < r.1)
    (hskip : skipUntil ≤ index) :
    Indices.unshift shiftedBy index = index - newShift := by
  have hsplit := unshift_add_card shiftedBy index
  have hfilter : shiftedBy.filter (fun k => k < index) = passed := by
    rw [h.union]
    ext k
    rw [Finset.mem_filter, Finset.mem_union]
    constructor
    · rintro ⟨hk | hk, hlt⟩
      · exact hk
      · obtain ⟨r, hr, hle, _⟩ := mem_members.mp hk
        have := hleft r hr
        omega
    · intro hk
      have := h.below k hk
      exact ⟨Or.inl hk, by omega⟩
  rw [hfilter, h.card] at hsplit
  omega

/-- Where the loop over the set itself stands. -/
structure Holds
    (set passed : Finset Nat) (left : List (Nat × Nat)) (oldShift : Nat) :
    Prop where
  union : set = passed ∪ members left
  card : passed.card = oldShift
  ordered : Ordered left
  below : ∀ q ∈ passed, ∀ r ∈ left, q < r.1

theorem le_takeOld (base : Nat) (left : List (Nat × Nat)) (oldShift : Nat) :
    oldShift ≤ (takeOld base left oldShift).2.2 := by
  induction left generalizing oldShift with
  | nil =>
      exact le_rfl
  | cons r rest ih =>
      rw [takeOld]
      split
      · have := ih (oldShift + (r.2 - r.1))
        simp only
        omega
      · exact le_rfl

theorem first_mem_members
    {pushed : List (Nat × Nat)} {r : Nat × Nat}
    (h : Ascending pushed)
    (hr : r ∈ pushed) :
    r.1 ∈ members pushed :=
  mem_members.mpr ⟨r, hr, le_rfl, h.nonempty r hr⟩

/-- What the loop over the set pushes, and where it then stands. -/
structure Takes
    (set passed : Finset Nat) (left : List (Nat × Nat)) (base : Nat)
    (taken : List (Nat × Nat) × List (Nat × Nat) × Nat) : Prop where
  holds : Holds set passed taken.2.1 taken.2.2
  passed_lt : ∀ q ∈ passed, q < base + taken.2.2
  left_gt : ∀ r ∈ taken.2.1, base + taken.2.2 < r.1
  ascending : Ascending taken.1
  pushed_le : ∀ r ∈ taken.1, r.2 ≤ base + taken.2.2
  mem_iff : ∀ i, i ∈ members left
    ↔
    i ∈ members taken.1 ∨ i ∈ members taken.2.1

theorem takeOld_spec
    {set passed : Finset Nat} {left : List (Nat × Nat)} {oldShift base : Nat}
    (h : Holds set passed left oldShift)
    (hpassed : ∀ q ∈ passed, q < base + oldShift) :
    ∃ passed', Takes set passed' left base (takeOld base left oldShift) := by
  induction left generalizing passed oldShift with
  | nil =>
      exact ⟨passed, h, hpassed, by simp [takeOld],
        ⟨by simp [takeOld], by simp [takeOld]⟩, by simp [takeOld],
        fun i => by simp [takeOld]⟩
  | cons r rest ih =>
      obtain ⟨hr, hfirst, hrest⟩ := (ordered_cons r rest).mp h.ordered
      have hpassed_r : ∀ q ∈ passed, q < r.1 :=
        fun q hq => h.below q hq r List.mem_cons_self
      rw [takeOld]
      split
      next hle =>
        have hholds : Holds set (passed ∪ Finset.Ico r.1 r.2) rest
            (oldShift + (r.2 - r.1)) := by
          refine ⟨?_, ?_, hrest, ?_⟩
          · rw [h.union]
            ext i
            simp only [Finset.mem_union, mem_members_cons, Finset.mem_Ico]
            tauto
          · have hdisjoint : Disjoint passed (Finset.Ico r.1 r.2) := by
              rw [Finset.disjoint_left]
              intro q hq hin
              have := hpassed_r q hq
              rw [Finset.mem_Ico] at hin
              omega
            rw [Finset.card_union_of_disjoint hdisjoint, Nat.card_Ico, h.card]
          · intro q hq s hs
            have := hfirst s hs
            rcases Finset.mem_union.mp hq with hq | hq
            · have := hpassed_r q hq
              omega
            · rw [Finset.mem_Ico] at hq
              omega
        have hlt : ∀ q ∈ passed ∪ Finset.Ico r.1 r.2,
            q < base + (oldShift + (r.2 - r.1)) := by
          intro q hq
          rcases Finset.mem_union.mp hq with hq | hq
          · have := hpassed q hq
            omega
          · rw [Finset.mem_Ico] at hq
            omega
        obtain ⟨passed', htakes⟩ := ih hholds hlt
        have hge := le_takeOld base rest (oldShift + (r.2 - r.1))
        generalize takeOld base rest (oldShift + (r.2 - r.1)) = taken at htakes hge
        have hsingles := ascending_singles
          (@List.pairwise_lt_range' r.1 (r.2 - r.1) 1 Nat.one_pos)
        have hsingle_le : ∀ q ∈ singles (List.range' r.1 (r.2 - r.1)), q.2 ≤ r.2 := by
          intro q hq
          obtain ⟨i, hi, rfl⟩ := List.mem_map.mp hq
          rw [List.mem_range'_1] at hi
          simp only
          omega
        refine ⟨passed', htakes.holds, htakes.passed_lt, htakes.left_gt,
          ⟨?_, List.pairwise_append.mpr ⟨hsingles.ascending,
            htakes.ascending.ascending, ?_⟩⟩, ?_, fun i => ?_⟩
        · intro q hq
          rcases List.mem_append.mp hq with hq | hq
          · exact hsingles.nonempty q hq
          · exact htakes.ascending.nonempty q hq
        · intro q hq s hs
          have hin := (htakes.mem_iff s.1).mpr
            (Or.inl (first_mem_members htakes.ascending hs))
          have := lt_of_mem_back h.ordered hin
          have := hsingle_le q hq
          omega
        · intro q hq
          rcases List.mem_append.mp hq with hq | hq
          · have := hsingle_le q hq
            simp only
            omega
          · exact htakes.pushed_le q hq
        · rw [mem_members_cons, htakes.mem_iff, mem_members_append,
            mem_members_singles, List.mem_range'_1, or_assoc]
          have hend : r.1 + (r.2 - r.1) = r.2 := by omega
          rw [hend]
      next hgt =>
        refine ⟨passed, h, hpassed, ?_, ⟨by simp, by simp⟩, by simp, fun i => by simp⟩
        intro s hs
        rcases List.mem_cons.mp hs with rfl | hs
        · simp only
          omega
        · have := hfirst s hs
          simp only
          omega

/-- Behind the indices that it has passed, the set shifts by their number. -/
theorem Takes.shift_eq
    {set passed : Finset Nat} {left : List (Nat × Nat)} {base : Nat}
    {taken : List (Nat × Nat) × List (Nat × Nat) × Nat}
    (h : Takes set passed left base taken) :
    Indices.shift set base = base + taken.2.2 := by
  have hleft : ∀ i ∈ members taken.2.1, base + taken.2.2 < i := by
    intro i hi
    obtain ⟨r, hr, hle, _⟩ := mem_members.mp hi
    have := h.left_gt r hr
    omega
  rw [h.holds.union]
  apply shift_eq_of_card
  · rw [Finset.mem_union]
    rintro (hq | hq)
    · exact (h.passed_lt _ hq).ne rfl
    · exact (hleft _ hq).ne rfl
  · refine Eq.trans (congrArg Finset.card ?_) h.holds.card
    ext k
    rw [Finset.mem_filter, Finset.mem_union]
    constructor
    · rintro ⟨hk | hk, hlt⟩
      · exact hk
      · have := hleft k hk
        omega
    · intro hk
      exact ⟨Or.inl hk, h.passed_lt k hk⟩

theorem addShiftedPushes_spec
    {set shiftedBy heldPassed skipPassed : Finset Nat}
    {old left : List (Nat × Nat)}
    {skipUntil oldShift newShift : Nat} {values : List Nat}
    (hvalues : values.Pairwise (· < ·))
    (hholds : Holds set heldPassed old oldShift)
    (hskips : Skips shiftedBy skipPassed left newShift skipUntil values)
    (hpassed : ∀ v ∈ values, v ∉ shiftedBy →
      ∀ q ∈ heldPassed, q < Indices.unshift shiftedBy v + oldShift) :
    Ascending (addShiftedPushes old left skipUntil oldShift newShift values) ∧
    ∀ i, i ∈ members (addShiftedPushes old left skipUntil oldShift newShift values)
      ↔
    i ∈ members old ∨
      ∃ v ∈ values, v ∉ shiftedBy ∧
        i = Indices.shift set (Indices.unshift shiftedBy v) := by
  induction values generalizing old left heldPassed skipPassed skipUntil oldShift
      newShift with
  | nil =>
      refine ⟨⟨hholds.ordered.nonempty,
        hholds.ordered.apart.imp (fun hlt => le_of_lt hlt)⟩, fun i => by simp [addShiftedPushes]⟩
  | cons index rest ih =>
      obtain ⟨hfirst, hrest⟩ := List.pairwise_cons.mp hvalues
      have hfirst_le : ∀ v ∈ index :: rest, index ≤ v := by
        intro v hv
        rcases List.mem_cons.mp hv with rfl | hv
        · exact le_rfl
        · exact (hfirst v hv).le
      obtain ⟨skipPassed', hskips', hleft'⟩ := takeShift_spec hfirst_le hskips
      rw [addShiftedPushes]
      generalize takeShift index left newShift skipUntil = shift at hskips' hleft'
      have hskips_rest : Skips shiftedBy skipPassed' shift.1 shift.2.1 shift.2.2 rest :=
        ⟨hskips'.union, hskips'.card, hskips'.below,
          fun v hv => hskips'.covered v (List.mem_cons_of_mem index hv),
          hskips'.ordered, hskips'.above⟩
      have hpassed_rest : ∀ v ∈ rest, v ∉ shiftedBy →
          ∀ q ∈ heldPassed, q < Indices.unshift shiftedBy v + oldShift :=
        fun v hv => hpassed v (List.mem_cons_of_mem index hv)
      have hmem := hskips'.mem_iff List.mem_cons_self hleft'
      simp only
      split
      next hlt =>
        obtain ⟨hascending, hiff⟩ := ih hrest hholds hskips_rest hpassed_rest
        refine ⟨hascending, fun i => ?_⟩
        rw [hiff, List.exists_mem_cons_iff]
        have hindex := hmem.mpr hlt
        simp only [hindex, not_true_eq_false, false_and, false_or]
      next hge =>
        have hindex : index ∉ shiftedBy := fun h => hge (hmem.mp h)
        have hunshift := hskips'.unshift_eq hleft' (not_lt.mp hge)
        have hpassed_index := hpassed index List.mem_cons_self hindex
        rw [hunshift] at hpassed_index
        obtain ⟨heldPassed', htakes⟩ := takeOld_spec hholds hpassed_index
        have hgrow := le_takeOld (index - shift.2.1) old oldShift
        generalize takeOld (index - shift.2.1) old oldShift = taken at htakes hgrow
        have hadded := htakes.shift_eq
        rw [← hunshift] at hadded htakes
        have hpassed' : ∀ v ∈ rest, v ∉ shiftedBy →
            ∀ q ∈ heldPassed', q < Indices.unshift shiftedBy v + taken.2.2 := by
          intro v hv hv_notMem q hq
          have := htakes.passed_lt q hq
          have := unshift_mono shiftedBy (hfirst v hv).le
          omega
        obtain ⟨hascending, hiff⟩ := ih hrest htakes.holds hskips_rest hpassed'
        rw [← hunshift, ← hadded]
        generalize addShiftedPushes taken.2.1 shift.1 shift.2.2 taken.2.2 shift.2.1 rest =
          pushed at hascending hiff
        have hbeyond : ∀ r ∈ pushed,
            Indices.shift set (Indices.unshift shiftedBy index) < r.1 := by
          intro r hr
          rcases (hiff r.1).mp (first_mem_members hascending hr) with hin | ⟨v, hv, _, heq⟩
          · obtain ⟨s, hs, hle, _⟩ := mem_members.mp hin
            have := htakes.left_gt s hs
            omega
          · rw [heq]
            exact shift_strictMono set (unshift_lt_unshift hindex (hfirst v hv))
        refine ⟨⟨?_, ?_⟩, fun i => ?_⟩
        · intro r hr
          rcases List.mem_append.mp hr with hr | hr
          · exact htakes.ascending.nonempty r hr
          · rcases List.mem_cons.mp hr with rfl | hr
            · exact Nat.lt_succ_self _
            · exact hascending.nonempty r hr
        · refine List.pairwise_append.mpr ⟨htakes.ascending.ascending,
            List.pairwise_cons.mpr ⟨fun r hr => hbeyond r hr, hascending.ascending⟩, ?_⟩
          intro q hq r hr
          have hq_le := htakes.pushed_le q hq
          rcases List.mem_cons.mp hr with rfl | hr
          · simp only
            omega
          · have := hbeyond r hr
            omega
        · rw [mem_members_append, mem_members_cons, hiff, htakes.mem_iff,
            List.exists_mem_cons_iff]
          have hsingle : ∀ x : Nat, (x ≤ i ∧ i < x + 1) ↔ i = x := by
            intro x
            omega
          simp only [hsingle, hindex, not_false_eq_true, true_and]
          tauto

end AddingShifted

namespace IndexSet

theorem asIndexes_toFinset (s : IndexSet) :
    (asIndexes s.ranges).toFinset = s.toFinset := by
  rfl

/-- The loop of `insert_at` or `shift_for_insert_at` over two whole sets. -/
def shifted (keep : Bool) (s positions : IndexSet) : IndexSet where
  ranges := build (singles
    (mergeShifted keep 0 (asIndexes s.ranges) (asIndexes positions.ranges)))
  ordered := ordered_build (ascending_singles
    (mergeShifted_sorted s.ordered.asIndexes_sorted
      positions.ordered.asIndexes_sorted (passed_empty _) (by simp)))

/-- `insert_at(IndexSet)`. -/
def insertAtAll (s positions : IndexSet) : IndexSet :=
  if positions.isEmpty then s
  else if s.isEmpty then positions
  else shifted true s positions

/-- `m_data.back().end`. -/
def lastEnd (s : IndexSet) : Nat :=
  (s.ranges.getLast?.map Prod.snd).getD 0

/-- `m_data.front().begin`. -/
def firstBegin (s : IndexSet) : Nat :=
  (s.ranges.head?.map Prod.fst).getD 0

/-- `shift_for_insert_at(IndexSet)`. -/
def shiftForInsertAtAll (s values : IndexSet) : IndexSet :=
  if s.isEmpty || values.isEmpty then s
  else if s.lastEnd ≤ values.firstBegin then s
  else shifted false s values

/-- `erase_at(IndexSet)`. -/
def eraseAtAll (s positions : IndexSet) : IndexSet :=
  if s.isEmpty || positions.isEmpty then s
  else
    { ranges := build (singles
        (mergeErased 0 (asIndexes s.ranges) (asIndexes positions.ranges)))
      ordered := ordered_build (ascending_singles
        (mergeErased_sorted s.ordered.asIndexes_sorted
          positions.ordered.asIndexes_sorted (passed_empty _) (by simp))) }

/-- `add(IndexSet)`. -/
def addAll (s other : IndexSet) : IndexSet where
  ranges := (addIndexes ⟨[], s.ranges⟩ (asIndexes other.ranges)).ranges
  ordered := (@addIndexes_spec ⟨[], s.ranges⟩ _ s.ordered
    other.ordered.asIndexes_sorted (by simp)).1

theorem addShiftedPushes_begin (s shiftedBy values : IndexSet) :
    Ascending (addShiftedPushes s.ranges shiftedBy.ranges 0 0 0
      (asIndexes values.ranges)) ∧
    ∀ i, i ∈ members (addShiftedPushes s.ranges shiftedBy.ranges 0 0 0
        (asIndexes values.ranges))
      ↔
    i ∈ s.toFinset ∨
      ∃ v ∈ asIndexes values.ranges, v ∉ shiftedBy.toFinset ∧
        i = Indices.shift s.toFinset (Indices.unshift shiftedBy.toFinset v) :=
  @addShiftedPushes_spec _ _ ∅ ∅ _ _ _ _ _ _
    values.ordered.asIndexes_sorted
    ⟨(Finset.empty_union _).symm, rfl, s.ordered, by simp⟩
    ⟨(Finset.empty_union _).symm, rfl, by simp, by simp, shiftedBy.ordered, by simp⟩
    (by simp)

/-- The ranges that `add_shifted_by` leaves; `ChunkedIndexSet.addShiftedBy` has the
counts of their chunks as well. -/
def addShiftedBy (s shiftedBy values : IndexSet) : IndexSet :=
  if values.isEmpty then s
  else
    { ranges := build (addShiftedPushes s.ranges shiftedBy.ranges 0 0 0
        (asIndexes values.ranges))
      ordered := ordered_build (addShiftedPushes_begin s shiftedBy values).1 }

theorem mem_shifted
    {keep : Bool} {s positions : IndexSet} {v : Nat} :
    v ∈ (shifted keep s positions).toFinset
      ↔
    (keep = true ∧ v ∈ positions.toFinset) ∨
      v ∈ s.toFinset.image (Indices.shift positions.toFinset) := by
  have hs := s.ordered.asIndexes_sorted
  have hpositions := positions.ordered.asIndexes_sorted
  rw [toFinset, shifted, members_build_singles
    (mergeShifted_sorted hs hpositions (passed_empty _) (by simp)),
    List.mem_toFinset, mem_mergeShifted hs hpositions (passed_empty _) (by simp),
    Finset.empty_union, asIndexes_toFinset, Finset.mem_image,
    ← asIndexes_toFinset positions, List.mem_toFinset]
  refine or_congr_right (exists_congr fun x => ?_)
  rw [← asIndexes_toFinset s, List.mem_toFinset]
  exact and_congr_right fun _ => eq_comm

@[simp] theorem toFinset_insertAtAll (s positions : IndexSet) :
    (s.insertAtAll positions).toFinset =
      positions.toFinset ∪ s.toFinset.image (Indices.shift positions.toFinset) := by
  rw [insertAtAll]
  split
  next hpositions =>
    rw [isEmpty_iff.mp hpositions, Finset.empty_union]
    ext v
    simp
  next =>
    split
    next hs =>
      rw [isEmpty_iff.mp hs, Finset.image_empty, Finset.union_empty]
    next =>
      ext v
      rw [mem_shifted, Finset.mem_union]
      simp

@[simp] theorem toFinset_addAll (s other : IndexSet) :
    (s.addAll other).toFinset = s.toFinset ∪ other.toFinset := by
  ext i
  have hmem := (@addIndexes_spec ⟨[], s.ranges⟩ _ s.ordered
    other.ordered.asIndexes_sorted (by simp)).2 i
  rw [toFinset, addAll, hmem, Finset.mem_union, ← asIndexes_toFinset other,
    List.mem_toFinset]
  rfl

@[simp] theorem toFinset_addShiftedBy (s shiftedBy values : IndexSet) :
    (s.addShiftedBy shiftedBy values).toFinset =
      s.toFinset ∪
        Change.moved shiftedBy.toFinset s.toFinset values.toFinset := by
  rw [addShiftedBy]
  split
  next hvalues =>
    rw [isEmpty_iff.mp hvalues]
    simp [Change.moved]
  next =>
    obtain ⟨hascending, hmem⟩ := addShiftedPushes_begin s shiftedBy values
    ext i
    rw [toFinset, members_build hascending, hmem, Finset.mem_union, Change.moved,
      Finset.mem_image]
    refine or_congr_right ?_
    constructor
    · rintro ⟨v, hv, hv_notMem, rfl⟩
      refine ⟨_, Finset.mem_image_of_mem _ (Finset.mem_sdiff.mpr ⟨?_, hv_notMem⟩), rfl⟩
      rw [← asIndexes_toFinset, List.mem_toFinset]
      exact hv
    · rintro ⟨w, hw, rfl⟩
      obtain ⟨v, hv, rfl⟩ := Finset.mem_image.mp hw
      obtain ⟨hv, hv_notMem⟩ := Finset.mem_sdiff.mp hv
      rw [← asIndexes_toFinset, List.mem_toFinset] at hv
      exact ⟨v, hv, hv_notMem, rfl⟩

/-- Everything in the set lies below its last end. -/
theorem lt_lastEnd
    {s : IndexSet} {i : Nat}
    (hi : i ∈ s.toFinset) :
    i < s.lastEnd := by
  obtain ⟨r, hr, _, hlt⟩ := mem_members.mp hi
  have hordered := s.ordered
  rcases List.eq_nil_or_concat s.ranges with hnil | ⟨before, last, hlast⟩
  · rw [hnil] at hr
    simp at hr
  · rw [List.concat_eq_append] at hlast
    rw [hlast] at hr hordered
    obtain ⟨_, hlast_ordered, hcross⟩ := (ordered_append _ _).mp hordered
    have hlast_lt := hlast_ordered.nonempty last (by simp)
    have hend : s.lastEnd = last.2 := by simp [lastEnd, hlast]
    rw [hend]
    rcases List.mem_append.mp hr with hr | hr
    · have := hcross r hr last (by simp)
      omega
    · rwa [List.mem_singleton.mp hr] at hlt

/-- And not below its first beginning. -/
theorem firstBegin_le
    {s : IndexSet} {i : Nat}
    (hi : i ∈ s.toFinset) :
    s.firstBegin ≤ i := by
  obtain ⟨r, hr, hle, _⟩ := mem_members.mp hi
  have hordered := s.ordered
  cases hranges : s.ranges with
  | nil =>
      rw [hranges] at hr
      simp at hr
  | cons f rest =>
      rw [hranges] at hr hordered
      obtain ⟨hf, hfirst, _⟩ := (ordered_cons f rest).mp hordered
      have hbegin : s.firstBegin = f.1 := by simp [firstBegin, hranges]
      rw [hbegin]
      rcases List.mem_cons.mp hr with rfl | hr
      · exact hle
      · have := hfirst r hr
        omega

@[simp] theorem toFinset_shiftForInsertAtAll (s values : IndexSet) :
    (s.shiftForInsertAtAll values).toFinset =
      s.toFinset.image (Indices.shift values.toFinset) := by
  rw [shiftForInsertAtAll]
  split
  next hempty =>
    rw [Bool.or_eq_true, isEmpty_iff, isEmpty_iff] at hempty
    rcases hempty with hs | hvalues
    · rw [hs, Finset.image_empty]
    · rw [hvalues]
      ext v
      simp
  next =>
    split
    next hpast =>
      ext v
      rw [Finset.mem_image]
      have hsame : ∀ i ∈ s.toFinset, Indices.shift values.toFinset i = i := by
        intro i hi
        apply shift_of_forall_gt
        intro k hk
        have := lt_lastEnd hi
        have := firstBegin_le hk
        omega
      constructor
      · intro hv
        exact ⟨v, hv, hsame v hv⟩
      · rintro ⟨i, hi, rfl⟩
        rwa [hsame i hi]
    next =>
      ext v
      rw [mem_shifted]
      simp

@[simp] theorem toFinset_eraseAtAll (s positions : IndexSet) :
    (s.eraseAtAll positions).toFinset =
      (s.toFinset \ positions.toFinset).image
        (Indices.unshift positions.toFinset) := by
  rw [eraseAtAll]
  split
  next hempty =>
    rw [Bool.or_eq_true, isEmpty_iff, isEmpty_iff] at hempty
    rcases hempty with hs | hpositions
    · rw [hs, Finset.empty_sdiff, Finset.image_empty]
    · rw [hpositions]
      ext v
      simp
  next =>
    have hs := s.ordered.asIndexes_sorted
    have hpositions := positions.ordered.asIndexes_sorted
    ext v
    rw [toFinset, members_build_singles
      (mergeErased_sorted hs hpositions (passed_empty _) (by simp)),
      List.mem_toFinset, mem_mergeErased hs hpositions (passed_empty _) (by simp),
      Finset.empty_union, asIndexes_toFinset, Finset.mem_image]
    refine exists_congr fun x => ?_
    rw [Finset.mem_sdiff, ← asIndexes_toFinset s, ← asIndexes_toFinset positions,
      List.mem_toFinset, List.mem_toFinset, and_assoc]
    exact and_congr_right fun _ => and_congr_right fun _ => eq_comm

/-- **Indices that are inserted and erased again leave the set as it was.** -/
theorem eraseAtAll_insertAtAll (s positions : IndexSet) :
    (s.insertAtAll positions).eraseAtAll positions = s := by
  apply ext_toFinset
  rw [toFinset_eraseAtAll, toFinset_insertAtAll]
  ext i
  simp only [Finset.mem_image, Finset.mem_sdiff, Finset.mem_union]
  constructor
  · rintro ⟨_, ⟨hin | ⟨k, hk, rfl⟩, hout⟩, rfl⟩
    · exact absurd hin hout
    · rwa [unshift_shift]
  · intro hi
    have hout := shift_notMem positions.toFinset i
    exact ⟨Indices.shift positions.toFinset i, ⟨.inr ⟨i, hi, rfl⟩, hout⟩,
      unshift_shift _ _⟩

/-- **Positions that are erased and inserted again are all in the set afterwards.** -/
theorem insertAtAll_eraseAtAll (s positions : IndexSet) :
    (s.eraseAtAll positions).insertAtAll positions = s.addAll positions := by
  apply ext_toFinset
  rw [toFinset_insertAtAll, toFinset_eraseAtAll, toFinset_addAll]
  ext i
  simp only [Finset.mem_image, Finset.mem_sdiff, Finset.mem_union]
  constructor
  · rintro (hin | ⟨_, ⟨k, ⟨hk, hout⟩, rfl⟩, rfl⟩)
    · exact .inr hin
    · rw [shift_unshift hout]
      exact .inl hk
  · rintro (hi | hi)
    · by_cases hin : i ∈ positions.toFinset
      · exact .inl hin
      · exact .inr ⟨_, ⟨i, ⟨hi, hin⟩, rfl⟩, shift_unshift hin⟩
    · exact .inl hi

/-- The one walk of `add_shifted_by` adds what is left when positions are erased from
the values and room is made for the set itself. -/
theorem addShiftedBy_eq_addAll (s shiftedBy values : IndexSet) :
    s.addShiftedBy shiftedBy values =
      s.addAll ((values.eraseAtAll shiftedBy).shiftForInsertAtAll s) := by
  apply ext_toFinset
  rw [toFinset_addShiftedBy, toFinset_addAll, toFinset_shiftForInsertAtAll,
    toFinset_eraseAtAll]
  rfl

end IndexSet

end ObjectStore
end NotVK
