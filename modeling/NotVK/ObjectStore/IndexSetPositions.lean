import NotVK.ObjectStore.IndexSet

/-!
# Positions that are inserted and erased

The indices of a set are positions in a list.  When elements are inserted into
the list or erased from it, the positions after them shift; each operation that
does so is shown to be the general `shift` or `unshift` of the inserted or
erased positions.
-/

namespace NotVK
namespace ObjectStore

open Indices

section Shifted

/-- `shift(distance)` on every range. -/
def shiftBy (distance : Nat) (ranges : List (Nat × Nat)) : List (Nat × Nat) :=
  ranges.map (fun r => (r.1 + distance, r.2 + distance))

/-- `shift(-1)` on every range. -/
def shiftBack (ranges : List (Nat × Nat)) : List (Nat × Nat) :=
  ranges.map (fun r => (r.1 - 1, r.2 - 1))

theorem mem_members_shiftBy
    {distance : Nat} {ranges : List (Nat × Nat)} {i : Nat} :
    i ∈ members (shiftBy distance ranges)
      ↔
    distance ≤ i ∧ i - distance ∈ members ranges := by
  induction ranges with
  | nil =>
      simp [shiftBy]
  | cons r ranges ih =>
      simp only [shiftBy, List.map_cons, mem_members_cons] at ih ⊢
      rw [ih]
      grind

theorem ordered_shiftBy
    {distance : Nat} {ranges : List (Nat × Nat)}
    (h : Ordered ranges) :
    Ordered (shiftBy distance ranges) := by
  induction ranges with
  | nil =>
      exact ordered_nil
  | cons r ranges ih =>
      obtain ⟨hr, hfirst, hrest⟩ := (ordered_cons r ranges).mp h
      refine (ordered_cons _ _).mpr ⟨by simp only; omega, ?_, ih hrest⟩
      intro s hs
      obtain ⟨t, ht, rfl⟩ := List.mem_map.mp hs
      have := hfirst t ht
      simp only
      omega

theorem mem_members_shiftBack
    {ranges : List (Nat × Nat)} {i : Nat}
    (h : ∀ r ∈ ranges, 0 < r.1) :
    i ∈ members (shiftBack ranges)
      ↔
    i + 1 ∈ members ranges := by
  induction ranges with
  | nil =>
      simp [shiftBack]
  | cons r ranges ih =>
      have hr := h r List.mem_cons_self
      have hrest := ih (fun s hs => h s (List.mem_cons_of_mem r hs))
      simp only [shiftBack, List.map_cons, mem_members_cons] at hrest ⊢
      rw [hrest]
      grind

theorem ordered_shiftBack
    {ranges : List (Nat × Nat)}
    (h : Ordered ranges)
    (hpos : ∀ r ∈ ranges, 0 < r.1) :
    Ordered (shiftBack ranges) := by
  induction ranges with
  | nil =>
      exact ordered_nil
  | cons r ranges ih =>
      obtain ⟨hr, hfirst, hrest⟩ := (ordered_cons r ranges).mp h
      have hr_pos := hpos r List.mem_cons_self
      refine (ordered_cons _ _).mpr ⟨by simp only; omega, ?_,
        ih hrest (fun s hs => hpos s (List.mem_cons_of_mem r hs))⟩
      intro s hs
      obtain ⟨t, ht, rfl⟩ := List.mem_map.mp hs
      have := hfirst t ht
      simp only
      omega

/-- Members on either side of a split. -/
theorem Iterator.Splits.mem_front_lt
    {it : Iterator} {index i : Nat}
    (h : it.Splits index)
    (hi : i ∈ members it.front) :
    i < index := by
  obtain ⟨r, hr, _, hlt⟩ := mem_members.mp hi
  have := h.front_le r hr
  omega

theorem lt_of_mem_back
    {r : Nat × Nat} {rest : List (Nat × Nat)} {i : Nat}
    (h : Ordered (r :: rest))
    (hi : i ∈ members rest) :
    r.2 < i := by
  obtain ⟨s, hs, hle, _⟩ := mem_members.mp hi
  have := ((ordered_cons r rest).mp h).2.1 s hs
  omega

end Shifted

section Inserting

open Iterator

/-- The loop of `insert_at` that adds the inserted indices one by one. -/
def addRun (index : Nat) : Nat → Iterator → Iterator
  | 0, it => it
  | count + 1, it => addRun (index + 1) count (it.doAdd index).next

/-- `insert_at(index, count)` at the place of the index. -/
def insertAt (index count : Nat) (pos : Iterator) : Iterator :=
  match pos.back with
  | [] => addRun index count pos
  | r :: rest =>
      if r.1 ≤ index then
        -- in an existing range, which grows
        ⟨pos.front, (r.1, r.2 + count) :: shiftBy count rest⟩
      else addRun index count ⟨pos.front, shiftBy count (r :: rest)⟩

/-- `shift_for_insert_at(index, count)` at the place of the index. -/
def shiftForInsertAt (index count : Nat) (it : Iterator) : Iterator :=
  match it.back with
  | [] => it
  | r :: rest =>
      if r.1 + count < index + count then
        -- the range contained the insertion point and is split there
        ⟨it.front, (r.1 + count - count, index) :: (index + count, r.2 + count) ::
          shiftBy count rest⟩
      else ⟨it.front, shiftBy count (r :: rest)⟩

theorem ranges_next (it : Iterator) :
    it.next.ranges = it.ranges := by
  obtain ⟨front, back⟩ := it
  cases back with
  | nil => rfl
  | cons r rest => simp [next, ranges]

/-- Adding an index that touches nothing behind it leaves what is behind it. -/
theorem doAdd_next
    {it : Iterator} {index : Nat}
    (hsplits : it.Splits index)
    (hback : ∀ r ∈ it.back, index + 1 < r.1) :
    (it.doAdd index).next.back = it.back ∧
    ∀ r ∈ (it.doAdd index).next.front, r.2 ≤ index + 1 := by
  obtain ⟨front, back⟩ := it
  have hfront : ∀ r ∈ front, r.2 ≤ index + 1 := by
    intro r hr
    have := hsplits.front_le r hr
    omega
  have hapart : ((Iterator.mk front back).addApart index).next.back = back ∧
      ∀ r ∈ ((Iterator.mk front back).addApart index).next.front,
        r.2 ≤ index + 1 := by
    cases back with
    | nil => simpa [addApart, next] using hfront
    | cons r rest =>
        have := hback r List.mem_cons_self
        have hne : r.1 ≠ index + 1 := by omega
        simpa [addApart, next, hne] using hfront
  have hout : ¬ back.head?.any (fun r => r.1 ≤ index && index < r.2) := by
    cases back with
    | nil => simp
    | cons r rest =>
        have := hback r List.mem_cons_self
        simp
        omega
  rw [doAdd, if_neg hout]
  cases front with
  | nil => exact hapart
  | cons p before =>
      simp only
      split
      next htouch =>
        have hbefore : ∀ r ∈ before, r.2 ≤ index + 1 :=
          fun r hr => hfront r (List.mem_cons_of_mem p hr)
        cases back with
        | nil => simpa [addAfter, next, htouch] using hbefore
        | cons r rest =>
            have := hback r List.mem_cons_self
            have hne : index + 1 ≠ r.1 := by omega
            simpa [addAfter, next, htouch, hne] using hbefore
      next hgap => exact hapart

/-- The indices that `addRun` adds. -/
theorem addRun_spec
    {it : Iterator} {index count : Nat}
    (hordered : Ordered it.ranges)
    (hsplits : it.Splits index)
    (hback : ∀ r ∈ it.back, index + count < r.1) :
    Ordered (addRun index count it).ranges ∧
    ∀ i, i ∈ members (addRun index count it).ranges
      ↔
    (index ≤ i ∧ i < index + count) ∨ i ∈ members it.ranges := by
  induction count generalizing it index with
  | zero =>
      refine ⟨hordered, fun i => ?_⟩
      simp only [addRun, add_zero]
      constructor
      · exact Or.inr
      · rintro (h | h)
        · omega
        · exact h
  | succ count ih =>
      have hadds := doAdd_adds hordered hsplits
      have hbeyond : ∀ r ∈ it.back, index + 1 < r.1 := by
        intro r hr
        have := hback r hr
        omega
      obtain ⟨hnext_back, hnext_front⟩ := doAdd_next hsplits hbeyond
      have hnext_ordered : Ordered (it.doAdd index).next.ranges := by
        rw [ranges_next]
        exact hadds.ordered
      have hnext_splits : (it.doAdd index).next.Splits (index + 1) := by
        refine ⟨hnext_front, fun r hr => ?_⟩
        rw [hnext_back] at hr
        have := hbeyond r hr
        have := (ordered_ranges.mp hordered).2.1.nonempty r hr
        omega
      obtain ⟨hrun_ordered, hrun_mem⟩ := ih hnext_ordered hnext_splits (by
        intro r hr
        rw [hnext_back] at hr
        have := hback r hr
        omega)
      refine ⟨hrun_ordered, fun i => ?_⟩
      rw [addRun, hrun_mem, ranges_next, hadds.mem_iff]
      constructor
      · rintro (h | rfl | h)
        · left
          omega
        · left
          omega
        · exact Or.inr h
      · rintro (h | h)
        · by_cases hi : i = index
          · exact Or.inr (Or.inl hi)
          · left
            omega
        · exact Or.inr (Or.inr h)

/-- Where the members go when `count` positions are inserted at `index`. -/
theorem mem_image_shift_Ico
    {T : Finset Nat} {index count i : Nat} :
    i ∈ T.image (Indices.shift (Finset.Ico index (index + count)))
      ↔
    (i < index ∧ i ∈ T) ∨ (index + count ≤ i ∧ i - count ∈ T) := by
  rw [Finset.mem_image]
  constructor
  · rintro ⟨j, hj, rfl⟩
    rw [shift_Ico]
    split
    next hlt => exact Or.inl ⟨hlt, hj⟩
    next hge => exact Or.inr ⟨by omega, by simpa using hj⟩
  · rintro (⟨hlt, hi⟩ | ⟨hle, hi⟩)
    · exact ⟨i, hi, by rw [shift_Ico, if_pos hlt]⟩
    · exact ⟨i - count, hi, by rw [shift_Ico, if_neg (by omega)]; omega⟩

/-- The ranges in front stay apart from what comes behind the index. -/
theorem Iterator.Splits.front_apart
    {it : Iterator} {index : Nat}
    (h : it.Splits index)
    {back : List (Nat × Nat)}
    (hback : ∀ s ∈ back, index < s.1) :
    ∀ r ∈ it.front, ∀ s ∈ back, r.2 < s.1 := by
  intro r hr s hs
  have := h.front_le r hr
  have := hback s hs
  omega

theorem insertAt_spec
    {it : Iterator} {index count : Nat}
    (hcount : 0 < count)
    (hordered : Ordered it.ranges)
    (hsplits : it.Splits index) :
    Ordered (insertAt index count it).ranges ∧
    members (insertAt index count it).ranges =
      Finset.Ico index (index + count) ∪
        (members it.ranges).image
          (Indices.shift (Finset.Ico index (index + count))) := by
  obtain ⟨front, back⟩ := it
  obtain ⟨hfront, hback, hcross⟩ := ordered_ranges.mp hordered
  have hlt : ∀ i, i ∈ members front → i < index := fun i => hsplits.mem_front_lt
  have hmem : ∀ i,
      i ∈ Finset.Ico index (index + count) ∪
        (members (Iterator.mk front back).ranges).image
          (Indices.shift (Finset.Ico index (index + count)))
        ↔
      (index ≤ i ∧ i < index + count) ∨ i ∈ members front ∨
        (i < index ∧ i ∈ members back) ∨
        (index + count ≤ i ∧ i - count ∈ members back) := by
    intro i
    rw [Finset.mem_union, Finset.mem_Ico, mem_image_shift_Ico,
      mem_members_ranges, mem_members_ranges]
    have := hlt i
    have := hlt (i - count)
    grind
  cases back with
  | nil =>
      obtain ⟨hrun, hrun_mem⟩ := @addRun_spec ⟨front, []⟩ index count hordered hsplits (by simp)
      refine ⟨hrun, Finset.ext fun i => ?_⟩
      rw [hmem, insertAt, hrun_mem, mem_members_ranges]
      simp
  | cons r rest =>
      obtain ⟨hr, hfirst, hrest⟩ := (ordered_cons r rest).mp hback
      have hr_lt := hsplits.lt_back r List.mem_cons_self
      by_cases hin : r.1 ≤ index
      · simp only [insertAt, if_pos hin]
        refine ⟨ordered_ranges.mpr ⟨hfront, ?_, ?_⟩, Finset.ext fun i => ?_⟩
        · refine (ordered_cons _ _).mpr ⟨by simp only; omega, ?_, ordered_shiftBy hrest⟩
          intro s hs
          obtain ⟨t, ht, rfl⟩ := List.mem_map.mp hs
          have := hfirst t ht
          simp only
          omega
        · intro p hp s hs
          have hp_le := hsplits.front_le p hp
          rcases List.mem_cons.mp hs with rfl | hs
          · exact hcross p hp r List.mem_cons_self
          · obtain ⟨t, ht, rfl⟩ := List.mem_map.mp hs
            have := hcross p hp t (List.mem_cons_of_mem r ht)
            simp only
            omega
        · rw [hmem, mem_members_ranges]
          simp only [mem_members_cons, mem_members_shiftBy]
          have := fun hi => lt_of_mem_back (i := i) hback hi
          have := fun hi => lt_of_mem_back (i := i - count) hback hi
          clear hmem hlt
          grind
      · simp only [insertAt, if_neg hin]
        have hpast : ∀ s ∈ shiftBy count (r :: rest), index + count < s.1 := by
          intro s hs
          obtain ⟨t, ht, rfl⟩ := List.mem_map.mp hs
          rcases List.mem_cons.mp ht with rfl | ht
          · simp only
            omega
          · have := hfirst t ht
            simp only
            omega
        have hshifted_ordered : Ordered (shiftBy count (r :: rest)) := ordered_shiftBy hback
        have hshifted : Ordered (Iterator.mk front (shiftBy count (r :: rest))).ranges := by
          refine ordered_ranges.mpr ⟨hfront, hshifted_ordered, ?_⟩
          apply hsplits.front_apart
          intro s hs
          have := hpast s hs
          omega
        have hshifted_splits :
            (Iterator.mk front (shiftBy count (r :: rest))).Splits index := by
          refine ⟨hsplits.front_le, fun s hs => ?_⟩
          have := hpast s hs
          have := hshifted_ordered.nonempty s hs
          omega
        obtain ⟨hrun, hrun_mem⟩ := addRun_spec hshifted hshifted_splits hpast
        refine ⟨hrun, Finset.ext fun i => ?_⟩
        rw [hmem, hrun_mem, mem_members_ranges]
        simp only [mem_members_shiftBy, mem_members_cons]
        have := fun hi => lt_of_mem_back (i := i) hback hi
        have := fun hi => lt_of_mem_back (i := i - count) hback hi
        clear hmem hlt
        grind

theorem shiftForInsertAt_spec
    {it : Iterator} {index count : Nat}
    (hcount : 0 < count)
    (hordered : Ordered it.ranges)
    (hsplits : it.Splits index) :
    Ordered (shiftForInsertAt index count it).ranges ∧
    members (shiftForInsertAt index count it).ranges =
      (members it.ranges).image
        (Indices.shift (Finset.Ico index (index + count))) := by
  obtain ⟨front, back⟩ := it
  obtain ⟨hfront, hback, hcross⟩ := ordered_ranges.mp hordered
  have hlt : ∀ i, i ∈ members front → i < index := fun i => hsplits.mem_front_lt
  have hmem : ∀ i,
      i ∈ (members (Iterator.mk front back).ranges).image
          (Indices.shift (Finset.Ico index (index + count)))
        ↔
      i ∈ members front ∨ (i < index ∧ i ∈ members back) ∨
        (index + count ≤ i ∧ i - count ∈ members back) := by
    intro i
    rw [mem_image_shift_Ico, mem_members_ranges, mem_members_ranges]
    have := hlt i
    have := hlt (i - count)
    grind
  cases back with
  | nil =>
      refine ⟨hordered, Finset.ext fun i => ?_⟩
      rw [hmem, shiftForInsertAt, mem_members_ranges]
      simp
  | cons r rest =>
      obtain ⟨hr, hfirst, hrest⟩ := (ordered_cons r rest).mp hback
      have hr_lt := hsplits.lt_back r List.mem_cons_self
      have hrest_past : ∀ s ∈ shiftBy count rest, r.2 + count < s.1 := by
        intro s hs
        obtain ⟨t, ht, rfl⟩ := List.mem_map.mp hs
        have := hfirst t ht
        simp only
        omega
      by_cases hin : r.1 + count < index + count
      · simp only [shiftForInsertAt, if_pos hin]
        refine ⟨ordered_ranges.mpr ⟨hfront, ?_, ?_⟩, Finset.ext fun i => ?_⟩
        · refine (ordered_cons _ _).mpr ⟨by simp only; omega, ?_,
            (ordered_cons _ _).mpr ⟨by simp only; omega, hrest_past,
              ordered_shiftBy hrest⟩⟩
          intro s hs
          rcases List.mem_cons.mp hs with rfl | hs
          · simp only
            omega
          · have := hrest_past s hs
            simp only
            omega
        · intro p hp s hs
          have hp_le := hcross p hp r List.mem_cons_self
          rcases List.mem_cons.mp hs with rfl | hs
          · simp only
            omega
          · rcases List.mem_cons.mp hs with rfl | hs
            · simp only
              omega
            · have := hrest_past s hs
              omega
        · rw [hmem, mem_members_ranges]
          simp only [mem_members_cons, mem_members_shiftBy]
          have := fun hi => lt_of_mem_back (i := i) hback hi
          have := fun hi => lt_of_mem_back (i := i - count) hback hi
          clear hmem hlt
          grind
      · simp only [shiftForInsertAt, if_neg hin]
        refine ⟨ordered_ranges.mpr ⟨hfront, ordered_shiftBy hback, ?_⟩,
          Finset.ext fun i => ?_⟩
        · apply hsplits.front_apart
          intro s hs
          rcases List.mem_cons.mp hs with rfl | hs
          · simp only
            omega
          · have := hrest_past s hs
            omega
        · rw [hmem, mem_members_ranges]
          simp only [mem_members_cons, mem_members_shiftBy]
          have := fun hi => lt_of_mem_back (i := i) hback hi
          have := fun hi => lt_of_mem_back (i := i - count) hback hi
          clear hmem hlt
          grind

end Inserting

section Erasing

open Iterator

/-- `do_erase`. -/
def doErase (it : Iterator) (index : Nat) : Iterator :=
  match it.back with
  | [] => it
  | r :: rest =>
      if r.1 ≤ index then
        if r.1 + 1 = r.2 then ⟨it.front, shiftBack rest⟩
        else ⟨(r.1, r.2 - 1) :: it.front, shiftBack rest⟩
      else
        match it.front with
        | [] => ⟨[], shiftBack (r :: rest)⟩
        | p :: before =>
            -- the ranges on both sides of the index join
            if p.2 + 1 = r.1 then ⟨(p.1, p.2 + (r.2 - r.1)) :: before, shiftBack rest⟩
            else ⟨p :: before, shiftBack (r :: rest)⟩

/-- The loops of `erase_or_unshift`: the place of the index, and the index
without the indices in the ranges before it. -/
def unshiftedPlace
    (index : Nat) : List (Nat × Nat) → List (Nat × Nat) → Nat → Iterator × Nat
  | front, [], shifted => (⟨front, []⟩, shifted)
  | front, r :: rest, shifted =>
      if r.2 ≤ index then
        unshiftedPlace index (r :: front) rest (shifted - (r.2 - r.1))
      else (⟨front, r :: rest⟩, shifted)

/-- `do_remove` from a place on.  Where a range is cut, the next round of the
loop finds the part before the cut too early and goes on after it. -/
def doRemove :
    List (Nat × Nat) → List (Nat × Nat) → Nat → Nat → Iterator
  | front, [], _, _ => ⟨front, []⟩
  | front, r :: rest, first, last =>
      if r.2 ≤ first then doRemove (r :: front) rest first last
      else if r.1 < last then
        if r.1 < max r.1 first ∧ last < r.2 then
          ⟨(r.1, max r.1 first) :: front, (last, r.2) :: rest⟩
        else if max r.1 first = r.1 ∧ r.2 ≤ last then
          doRemove front rest (max r.1 first) last
        else if max r.1 first = r.1 then ⟨front, (last, r.2) :: rest⟩
        else doRemove ((r.1, max r.1 first) :: front) rest (max r.1 first) last
      else ⟨front, r :: rest⟩

/-- `remove(IndexSet)`: each round goes on at the place where the last one ended. -/
def removeFrom (it : Iterator) : List (Nat × Nat) → Iterator
  | [] => it
  | r :: rest =>
      if (doRemove it.front it.back r.1 r.2).back = [] then
        doRemove it.front it.back r.1 r.2
      else removeFrom (doRemove it.front it.back r.1 r.2) rest

theorem mem_image_unshift_singleton
    {T : Finset Nat} {index i : Nat} :
    i ∈ (T \ {index}).image (Indices.unshift {index})
      ↔
    (i < index ∧ i ∈ T) ∨ (index ≤ i ∧ i + 1 ∈ T) := by
  rw [mem_image_unshift, shift_singleton]
  split <;> grind

theorem pos_of_ordered
    {r : Nat × Nat} {rest : List (Nat × Nat)}
    (h : Ordered (r :: rest)) :
    ∀ s ∈ rest, r.2 < s.1 ∧ 0 < s.1 := by
  intro s hs
  have := ((ordered_cons r rest).mp h).2.1 s hs
  omega

theorem ranges_cons_front
    (front rest : List (Nat × Nat)) (r : Nat × Nat) :
    (Iterator.mk (r :: front) rest).ranges = (Iterator.mk front (r :: rest)).ranges := by
  simp [Iterator.ranges]

/-- The ranges at a place, apart from the first one after it. -/
theorem ordered_ranges_cons
    {front rest : List (Nat × Nat)} {r : Nat × Nat} :
    Ordered (Iterator.mk front (r :: rest)).ranges
      ↔
    Ordered front.reverse ∧ r.1 < r.2 ∧ Ordered rest ∧
      (∀ p ∈ front, p.2 < r.1) ∧ ∀ s ∈ rest, r.2 < s.1 := by
  rw [ordered_ranges, ordered_cons]
  constructor
  · rintro ⟨hfront, ⟨hr, hrest_gt, hrest⟩, hcross⟩
    exact ⟨hfront, hr, hrest, fun p hp => hcross p hp r List.mem_cons_self, hrest_gt⟩
  · rintro ⟨hfront, hr, hrest, hfront_lt, hrest_gt⟩
    refine ⟨hfront, ⟨hr, hrest_gt, hrest⟩, ?_⟩
    intro p hp s hs
    have hp_lt := hfront_lt p hp
    rcases List.mem_cons.mp hs with rfl | hs
    · exact hp_lt
    · have := hrest_gt s hs
      omega

/-- What is left of the ranges at a place when an index is erased. -/
structure Erases (it : Iterator) (index : Nat) (it' : Iterator) : Prop where
  ordered : Ordered it'.ranges
  members_eq : members it'.ranges =
    (members it.ranges \ {index}).image (Indices.unshift {index})

section Erases

variable {front rest : List (Nat × Nat)} {r : Nat × Nat} {index : Nat}

theorem erases_of_mem_iff
    {back : List (Nat × Nat)} {it' : Iterator}
    (hsplits : (Iterator.mk front back).Splits index)
    (hordered : Ordered it'.ranges)
    (hmem : ∀ i, i ∈ members it'.ranges
      ↔
    i ∈ members front ∨ (i < index ∧ i ∈ members back) ∨
      (index ≤ i ∧ i + 1 ∈ members back)) :
    Erases ⟨front, back⟩ index it' := by
  refine ⟨hordered, Finset.ext fun i => ?_⟩
  rw [hmem, mem_image_unshift_singleton, mem_members_ranges, mem_members_ranges]
  have := fun hi => hsplits.mem_front_lt (i := i) hi
  have := fun hi => hsplits.mem_front_lt (i := i + 1) hi
  clear hmem
  grind

/-- The ranges after another one, moved back by one. -/
theorem shiftBack_rest
    (hback : Ordered (r :: rest)) :
    Ordered (shiftBack rest) ∧
      (∀ i, i ∈ members (shiftBack rest) ↔ i + 1 ∈ members rest) ∧
      ∀ s ∈ shiftBack rest, r.2 ≤ s.1 := by
  have hpos := fun s hs => (pos_of_ordered hback s hs).2
  refine ⟨ordered_shiftBack ((ordered_cons r rest).mp hback).2.2 hpos,
    fun i => mem_members_shiftBack hpos, ?_⟩
  intro s hs
  obtain ⟨t, ht, rfl⟩ := List.mem_map.mp hs
  have := (pos_of_ordered hback t ht).1
  simp only
  omega

/-- A range with one index goes. -/
theorem erases_range
    (hordered : Ordered (Iterator.mk front (r :: rest)).ranges)
    (hsplits : (Iterator.mk front (r :: rest)).Splits index)
    (hin : r.1 ≤ index)
    (hone : r.1 + 1 = r.2) :
    Erases ⟨front, r :: rest⟩ index ⟨front, shiftBack rest⟩ := by
  obtain ⟨hfront, hback, hcross⟩ := ordered_ranges.mp hordered
  obtain ⟨hrest, hrest_mem, hrest_ge⟩ := shiftBack_rest hback
  have hr_lt := hsplits.lt_back r List.mem_cons_self
  refine erases_of_mem_iff hsplits (ordered_ranges.mpr ⟨hfront, hrest, ?_⟩) fun i => ?_
  · intro p hp s hs
    have := hcross p hp r List.mem_cons_self
    have := hrest_ge s hs
    omega
  · rw [mem_members_ranges, hrest_mem]
    simp only [mem_members_cons]
    have := fun hi => lt_of_mem_back (i := i) hback hi
    have := fun hi => lt_of_mem_back (i := i + 1) hback hi
    clear hrest_mem
    grind

/-- A range with several indices becomes shorter. -/
theorem erases_index
    (hordered : Ordered (Iterator.mk front (r :: rest)).ranges)
    (hsplits : (Iterator.mk front (r :: rest)).Splits index)
    (hin : r.1 ≤ index)
    (hseveral : r.1 + 1 ≠ r.2) :
    Erases ⟨front, r :: rest⟩ index ⟨(r.1, r.2 - 1) :: front, shiftBack rest⟩ := by
  obtain ⟨hfront, hr, _, hfront_lt, _⟩ := ordered_ranges_cons.mp hordered
  have hback := (ordered_ranges.mp hordered).2.1
  obtain ⟨hrest, hrest_mem, hrest_ge⟩ := shiftBack_rest hback
  have hr_lt := hsplits.lt_back r List.mem_cons_self
  refine erases_of_mem_iff hsplits ?_ fun i => ?_
  · rw [ranges_cons_front]
    refine ordered_ranges_cons.mpr ⟨hfront, by simp only; omega, hrest, hfront_lt, ?_⟩
    intro s hs
    have := hrest_ge s hs
    simp only
    omega
  · rw [mem_members_ranges, hrest_mem]
    simp only [mem_members_cons]
    have := fun hi => lt_of_mem_back (i := i) hback hi
    have := fun hi => lt_of_mem_back (i := i + 1) hback hi
    clear hrest_mem
    grind

/-- The index is not in the set, and the ranges around it stay apart. -/
theorem erases_gap
    (hordered : Ordered (Iterator.mk front (r :: rest)).ranges)
    (hsplits : (Iterator.mk front (r :: rest)).Splits index)
    (hout : ¬ r.1 ≤ index)
    (hgap : ∀ p ∈ front, p.2 + 1 < r.1) :
    Erases ⟨front, r :: rest⟩ index ⟨front, shiftBack (r :: rest)⟩ := by
  obtain ⟨hfront, hback, _⟩ := ordered_ranges.mp hordered
  have hpos : ∀ s ∈ r :: rest, 0 < s.1 := by
    intro s hs
    rcases List.mem_cons.mp hs with rfl | hs
    · omega
    · exact (pos_of_ordered hback s hs).2
  have hback_mem : ∀ i, i ∈ members (shiftBack (r :: rest)) ↔ i + 1 ∈ members (r :: rest) :=
    fun i => mem_members_shiftBack hpos
  have hr := ((ordered_cons r rest).mp hback).1
  have hrest_ge := (shiftBack_rest hback).2.2
  refine erases_of_mem_iff hsplits
    (ordered_ranges.mpr ⟨hfront, ordered_shiftBack hback hpos, ?_⟩) fun i => ?_
  · intro p hp s hs
    have := hgap p hp
    rcases List.mem_cons.mp hs with rfl | hs
    · simp only
      omega
    · have := hrest_ge s hs
      omega
  · rw [mem_members_ranges, hback_mem]
    simp only [mem_members_cons]
    have := fun hi => lt_of_mem_back (i := i) hback hi
    have := fun hi => lt_of_mem_back (i := i + 1) hback hi
    clear hback_mem
    grind

/-- The index is alone between two ranges, which become one. -/
theorem erases_join
    {p : Nat × Nat}
    (hordered : Ordered (Iterator.mk (p :: front) (r :: rest)).ranges)
    (hsplits : (Iterator.mk (p :: front) (r :: rest)).Splits index)
    (hout : ¬ r.1 ≤ index)
    (hjoin : p.2 + 1 = r.1) :
    Erases ⟨p :: front, r :: rest⟩ index
      ⟨(p.1, p.2 + (r.2 - r.1)) :: front, shiftBack rest⟩ := by
  have hback := (ordered_ranges.mp hordered).2.1
  obtain ⟨hrest, hrest_mem, hrest_ge⟩ := shiftBack_rest hback
  have hp_le := hsplits.front_le p List.mem_cons_self
  have hr := ((ordered_cons r rest).mp hback).1
  rw [ranges_cons_front] at hordered
  obtain ⟨hfront, hp, _, hfront_lt, _⟩ := ordered_ranges_cons.mp hordered
  refine erases_of_mem_iff hsplits ?_ fun i => ?_
  · rw [ranges_cons_front]
    refine ordered_ranges_cons.mpr ⟨hfront, by simp only; omega, hrest, hfront_lt, ?_⟩
    intro s hs
    have := hrest_ge s hs
    simp only
    omega
  · rw [mem_members_ranges, hrest_mem]
    simp only [mem_members_cons]
    have := fun hi => lt_of_mem_back (i := i) hback hi
    have := fun hi => lt_of_mem_back (i := i + 1) hback hi
    clear hrest_mem
    grind

end Erases

theorem doErase_spec
    {it : Iterator} {index : Nat}
    (hordered : Ordered it.ranges)
    (hsplits : it.Splits index) :
    Erases it index (doErase it index) := by
  obtain ⟨front, back⟩ := it
  cases back with
  | nil =>
      exact erases_of_mem_iff hsplits hordered fun i => by
        rw [doErase, mem_members_ranges]
        simp
  | cons r rest =>
      by_cases hin : r.1 ≤ index
      · by_cases hone : r.1 + 1 = r.2
        · simp only [doErase, if_pos hin, if_pos hone]
          exact erases_range hordered hsplits hin hone
        · simp only [doErase, if_pos hin, if_neg hone]
          exact erases_index hordered hsplits hin hone
      · cases front with
        | nil =>
            simp only [doErase, if_neg hin]
            exact erases_gap hordered hsplits hin (by simp)
        | cons p before =>
            by_cases hjoin : p.2 + 1 = r.1
            · simp only [doErase, if_neg hin, if_pos hjoin]
              exact erases_join hordered hsplits hin hjoin
            · simp only [doErase, if_neg hin, if_neg hjoin]
              refine erases_gap hordered hsplits hin ?_
              obtain ⟨_, _, _, hfront_lt, _⟩ := ordered_ranges_cons.mp hordered
              rw [ranges_cons_front] at hordered
              obtain ⟨_, hp, _, hbefore_lt, _⟩ := ordered_ranges_cons.mp hordered
              have := hfront_lt p List.mem_cons_self
              intro q hq
              rcases List.mem_cons.mp hq with rfl | hq
              · omega
              · have := hbefore_lt q hq
                omega

theorem unshiftedPlace_find
    (index : Nat) (front back : List (Nat × Nat)) (shifted : Nat) :
    (unshiftedPlace index front back shifted).1 = find index front back := by
  induction back generalizing front shifted with
  | nil =>
      rfl
  | cons r rest ih =>
      rw [unshiftedPlace, find]
      split
      · exact ih _ _
      · rfl

/-- Without the indices before it, an index that is not in the set is unshifted. -/
theorem unshiftedPlace_shifted
    {index : Nat} {front back : List (Nat × Nat)} {shifted : Nat}
    (hback : Ordered back)
    (hindex : index ∉ members back) :
    (unshiftedPlace index front back shifted).2 =
      shifted - ((members back).filter (fun k => k < index)).card := by
  induction back generalizing front shifted with
  | nil =>
      rfl
  | cons r rest ih =>
      obtain ⟨hr, hfirst, hrest⟩ := (ordered_cons r rest).mp hback
      rw [mem_members_cons] at hindex
      rw [unshiftedPlace, IndexSet.card_below_cons hback]
      split
      next hle =>
        rw [ih hrest (fun h => hindex (Or.inr h)), min_eq_left hle]
        omega
      next hgt =>
        rw [IndexSet.card_below_of_forall_le
          (fun s hs => by have := hfirst s hs; omega)]
        simp only
        omega

/-- What is left of the ranges at a place when the indices from `first` to `last` are
removed. -/
structure Removes (it : Iterator) (first last : Nat) (it' : Iterator) : Prop where
  ordered : Ordered it'.ranges
  mem_iff : ∀ i, i ∈ members it'.ranges
    ↔
  i ∈ members it.ranges ∧ ¬ (first ≤ i ∧ i < last)
  front_le : ∀ r ∈ it'.front, r.2 ≤ last

section Removes

variable {front rest : List (Nat × Nat)} {r : Nat × Nat} {first last : Nat}
variable {it' : Iterator}

/-- The indices before a range and after it. -/
theorem mem_apart
    (hordered : Ordered (Iterator.mk front (r :: rest)).ranges)
    (i : Nat) :
    (i ∈ members front → i < r.1) ∧ (i ∈ members rest → r.2 < i) := by
  obtain ⟨_, hback, hcross⟩ := ordered_ranges.mp hordered
  refine ⟨fun hi => ?_, fun hi => lt_of_mem_back hback hi⟩
  obtain ⟨p, hp, _, hlt⟩ := mem_members.mp hi
  have := hcross p hp r List.mem_cons_self
  omega

theorem mem_front_lt_first
    (hfront : ∀ p ∈ front, p.2 ≤ first)
    (i : Nat) (hi : i ∈ members front) :
    i < first := by
  obtain ⟨p, hp, _, hlt⟩ := mem_members.mp hi
  have := hfront p hp
  omega

/-- A range is cut on both sides. -/
theorem removes_between
    (hordered : Ordered (Iterator.mk front (r :: rest)).ranges)
    (hfront : ∀ p ∈ front, p.2 ≤ first)
    (hlast : max r.1 first < last)
    (hboth : r.1 < max r.1 first ∧ last < r.2) :
    Removes ⟨front, r :: rest⟩ first last
      ⟨(r.1, max r.1 first) :: front, (last, r.2) :: rest⟩ := by
  obtain ⟨hbefore, hr, hrest, hfront_lt, hrest_gt⟩ := ordered_ranges_cons.mp hordered
  refine ⟨?_, fun i => ?_, ?_⟩
  · rw [ranges_cons_front]
    refine ordered_ranges_cons.mpr ⟨hbefore, hboth.1,
      (ordered_cons _ _).mpr ⟨hboth.2, hrest_gt, hrest⟩, hfront_lt, ?_⟩
    intro s hs
    rcases List.mem_cons.mp hs with rfl | hs
    · exact hlast
    · have := hrest_gt s hs
      simp only
      omega
  · rw [mem_members_ranges, mem_members_ranges]
    simp only [mem_members_cons]
    have := mem_front_lt_first hfront i
    have := (mem_apart hordered i).2
    grind
  · intro p hp
    rcases List.mem_cons.mp hp with rfl | hp
    · exact hlast.le
    · have := hfront p hp
      omega

/-- A range loses its first indices. -/
theorem removes_head
    (hordered : Ordered (Iterator.mk front (r :: rest)).ranges)
    (hfront : ∀ p ∈ front, p.2 ≤ first)
    (hfirst : first ≤ r.1)
    (hlast : r.1 < last)
    (hpart : last < r.2) :
    Removes ⟨front, r :: rest⟩ first last ⟨front, (last, r.2) :: rest⟩ := by
  obtain ⟨hbefore, hr, hrest, hfront_lt, hrest_gt⟩ := ordered_ranges_cons.mp hordered
  refine ⟨ordered_ranges_cons.mpr ⟨hbefore, hpart, hrest, ?_, hrest_gt⟩, fun i => ?_, ?_⟩
  · intro p hp
    have := hfront_lt p hp
    simp only
    omega
  · rw [mem_members_ranges, mem_members_ranges]
    simp only [mem_members_cons]
    have := mem_front_lt_first hfront i
    have := (mem_apart hordered i).2
    grind
  · intro p hp
    have := hfront p hp
    omega

/-- The ranges from the place on come after all that is removed. -/
theorem removes_none
    (hordered : Ordered (Iterator.mk front (r :: rest)).ranges)
    (hfront : ∀ p ∈ front, p.2 ≤ first)
    (hlt : first < last)
    (hlast : last ≤ r.1) :
    Removes ⟨front, r :: rest⟩ first last ⟨front, r :: rest⟩ := by
  refine ⟨hordered, fun i => ?_, fun p hp => ?_⟩
  · rw [mem_members_ranges]
    simp only [mem_members_cons]
    have := mem_front_lt_first hfront i
    have := (mem_apart hordered i).2
    have := (ordered_ranges_cons.mp hordered).2.1
    grind
  · have := hfront p hp
    omega

/-- A range goes, and the loop goes on. -/
theorem Removes.range
    (hordered : Ordered (Iterator.mk front (r :: rest)).ranges)
    (hfront : ∀ p ∈ front, p.2 ≤ first)
    (hfirst : first ≤ r.1)
    (hall : r.2 ≤ last)
    (h : Removes ⟨front, rest⟩ r.1 last it') :
    Removes ⟨front, r :: rest⟩ first last it' := by
  refine ⟨h.ordered, fun i => ?_, h.front_le⟩
  rw [h.mem_iff, mem_members_ranges, mem_members_ranges]
  simp only [mem_members_cons]
  have := mem_front_lt_first hfront i
  have := mem_apart hordered i
  have := (ordered_ranges_cons.mp hordered).2.1
  grind

/-- A range loses its last indices, and the loop goes on. -/
theorem Removes.tail
    (hordered : Ordered (Iterator.mk front (r :: rest)).ranges)
    (hfront : ∀ p ∈ front, p.2 ≤ first)
    (hpart : first < r.2)
    (hlast : r.2 ≤ last)
    (h : Removes ⟨(r.1, first) :: front, rest⟩ first last it') :
    Removes ⟨front, r :: rest⟩ first last it' := by
  refine ⟨h.ordered, fun i => ?_, h.front_le⟩
  rw [h.mem_iff, mem_members_ranges, mem_members_ranges]
  simp only [mem_members_cons]
  have := mem_front_lt_first hfront i
  have := (mem_apart hordered i).2
  grind

end Removes

theorem doRemove_spec
    {front back : List (Nat × Nat)} {first last : Nat}
    (hordered : Ordered (Iterator.mk front back).ranges)
    (hfront : ∀ r ∈ front, r.2 ≤ first)
    (hlt : first < last) :
    Removes ⟨front, back⟩ first last (doRemove front back first last) := by
  induction back generalizing front first with
  | nil =>
      refine ⟨hordered, fun i => ?_, fun r hr => ?_⟩
      · rw [doRemove, mem_members_ranges]
        have := mem_front_lt_first hfront i
        simp only [mem_members_nil, or_false]
        grind
      · have := hfront r hr
        omega
  | cons r rest ih =>
      obtain ⟨hbefore, hr, hrest, hfront_lt, hrest_gt⟩ := ordered_ranges_cons.mp hordered
      rw [doRemove]
      split
      next hpassed =>
        rw [← ranges_cons_front] at hordered
        have h := ih hordered (fun p hp => by
          rcases List.mem_cons.mp hp with rfl | hp
          · exact hpassed
          · exact hfront p hp) hlt
        refine ⟨h.ordered, fun i => ?_, h.front_le⟩
        rw [h.mem_iff, ranges_cons_front]
      next hnot =>
        split
        next hlast =>
          have hmax_lt : max r.1 first < last := by omega
          split
          next hboth =>
            exact removes_between hordered hfront hmax_lt hboth
          next hone =>
            split
            next hall =>
              have hfirst : first ≤ r.1 := by omega
              rw [hall.1]
              refine Removes.range hordered hfront hfirst hall.2
                (ih ?_ (fun p hp => (hfront_lt p hp).le) hlast)
              exact ordered_ranges.mpr ⟨hbefore, hrest, fun p hp s hs =>
                (hfront_lt p hp).trans (hr.trans (hrest_gt s hs))⟩
            next hpart =>
              split
              next hhead =>
                exact removes_head hordered hfront (by omega) hlast (by omega)
              next htail =>
                have hmax : max r.1 first = first := by omega
                rw [hmax] at htail ⊢
                refine Removes.tail hordered hfront (by omega) (by omega)
                  (ih ?_ ?_ hlt)
                · rw [ranges_cons_front]
                  refine ordered_ranges_cons.mpr ⟨hbefore, by simp only; omega, hrest,
                    hfront_lt, fun s hs => ?_⟩
                  have := hrest_gt s hs
                  simp only
                  omega
                · intro p hp
                  rcases List.mem_cons.mp hp with rfl | hp
                  · exact le_rfl
                  · exact hfront p hp
        next hlast =>
          exact removes_none hordered hfront hlt (by omega)

theorem removeFrom_spec
    {it : Iterator} {ranges : List (Nat × Nat)}
    (hordered : Ordered it.ranges)
    (hranges : Ordered ranges)
    (hfront : ∀ r ∈ it.front, ∀ s ∈ ranges, r.2 ≤ s.1) :
    Ordered (removeFrom it ranges).ranges ∧
    members (removeFrom it ranges).ranges = members it.ranges \ members ranges := by
  induction ranges generalizing it with
  | nil =>
      refine ⟨hordered, ?_⟩
      ext i
      simp [removeFrom]
  | cons r rest ih =>
      obtain ⟨front, back⟩ := it
      obtain ⟨hr, hfirst, hrest⟩ := (ordered_cons r rest).mp hranges
      obtain ⟨hres, hmem, hres_front⟩ := doRemove_spec hordered
        (fun p hp => hfront p hp r List.mem_cons_self) hr
      rw [removeFrom]
      split
      next hend =>
        refine ⟨hres, ?_⟩
        ext i
        rw [hmem, Finset.mem_sdiff, mem_members_cons]
        have hbelow : i ∈ members rest →
            i ∈ members (doRemove front back r.1 r.2).ranges → False := by
          intro hi hin
          have hlt := lt_of_mem_back hranges hi
          rw [mem_members_ranges, hend] at hin
          obtain ⟨p, hp, _, hlt'⟩ := mem_members.mp (hin.resolve_right (by simp))
          have := hres_front p hp
          omega
        rw [hmem] at hbelow
        grind
      next hmore =>
        obtain ⟨hres', hmem'⟩ := ih hres hrest (fun p hp s hs => by
          have := hres_front p hp
          have := hfirst s hs
          omega)
        refine ⟨hres', ?_⟩
        ext i
        rw [hmem', Finset.mem_sdiff, Finset.mem_sdiff, hmem, mem_members_cons]
        grind

end Erasing

namespace IndexSet

open Iterator

def insertAt (s : IndexSet) (index count : Nat) (hcount : 0 < count) : IndexSet where
  ranges := (ObjectStore.insertAt index count (find index [] s.ranges)).ranges
  ordered := (insertAt_spec hcount (s.ordered_begin index) (s.splits_begin index)).1

def shiftForInsertAt
    (s : IndexSet) (index count : Nat) (hcount : 0 < count) : IndexSet where
  ranges := (ObjectStore.shiftForInsertAt index count (find index [] s.ranges)).ranges
  ordered :=
    (shiftForInsertAt_spec hcount (s.ordered_begin index) (s.splits_begin index)).1

def eraseAt (s : IndexSet) (index : Nat) : IndexSet where
  ranges := (doErase (find index [] s.ranges) index).ranges
  ordered := (doErase_spec (s.ordered_begin index) (s.splits_begin index)).ordered

/-- `erase_or_unshift(index)`: none for `npos`. -/
def eraseOrUnshift (s : IndexSet) (index : Nat) : IndexSet × Option Nat :=
  (s.eraseAt index,
    match (unshiftedPlace index [] s.ranges index).1.back with
    | [] => some (unshiftedPlace index [] s.ranges index).2
    | r :: _ =>
        if r.1 ≤ index then none
        else some (unshiftedPlace index [] s.ranges index).2)

/-- `remove(index)`. -/
def remove (s : IndexSet) (index : Nat) : IndexSet where
  ranges := (doRemove [] s.ranges index (index + 1)).ranges
  ordered := (@doRemove_spec [] s.ranges index (index + 1) s.ordered (by simp)
    (Nat.lt_succ_self index)).ordered

/-- `remove(IndexSet)`. -/
def removeAll (s values : IndexSet) : IndexSet where
  ranges := (removeFrom ⟨[], s.ranges⟩ values.ranges).ranges
  ordered := (@removeFrom_spec ⟨[], s.ranges⟩ values.ranges s.ordered values.ordered
    (by simp)).1

@[simp] theorem toFinset_insertAt
    (s : IndexSet) (index count : Nat) (hcount : 0 < count) :
    (s.insertAt index count hcount).toFinset =
      Finset.Ico index (index + count) ∪
        s.toFinset.image (Indices.shift (Finset.Ico index (index + count))) := by
  have hspec := insertAt_spec hcount (s.ordered_begin index) (s.splits_begin index)
  rw [s.ranges_begin] at hspec
  exact hspec.2

@[simp] theorem toFinset_shiftForInsertAt
    (s : IndexSet) (index count : Nat) (hcount : 0 < count) :
    (s.shiftForInsertAt index count hcount).toFinset =
      s.toFinset.image (Indices.shift (Finset.Ico index (index + count))) := by
  have hspec :=
    shiftForInsertAt_spec hcount (s.ordered_begin index) (s.splits_begin index)
  rw [s.ranges_begin] at hspec
  exact hspec.2

@[simp] theorem toFinset_eraseAt (s : IndexSet) (index : Nat) :
    (s.eraseAt index).toFinset =
      (s.toFinset \ {index}).image (Indices.unshift {index}) := by
  have hspec := (doErase_spec (s.ordered_begin index) (s.splits_begin index)).members_eq
  rw [s.ranges_begin] at hspec
  exact hspec

/-- An index of the set is erased, another one is unshifted. -/
theorem eraseOrUnshift_eq (s : IndexSet) (index : Nat) :
    s.eraseOrUnshift index =
      (s.eraseAt index,
        if index ∈ s.toFinset then none
        else some (Indices.unshift s.toFinset index)) := by
  have hsplits := s.splits_begin index
  have hranges := s.ranges_begin index
  have hordered := s.ordered_begin index
  have hshifted := fun h => @unshiftedPlace_shifted index [] s.ranges index
    s.ordered h
  have hsplit := unshift_add_card s.toFinset index
  have hcontains : (∃ r rest, (find index [] s.ranges).back = r :: rest ∧
      r.1 ≤ index) ↔ index ∈ s.toFinset := by
    rw [← contains_iff, contains]
    cases (find index [] s.ranges).back <;> simp
  rw [eraseOrUnshift, unshiftedPlace_find]
  congr 1
  cases hit : (find index [] s.ranges).back with
  | nil =>
      have hnotMem : index ∉ s.toFinset := by
        rw [← hcontains, hit]
        simp
      rw [if_neg hnotMem]
      simp only
      rw [hshifted hnotMem]
      congr 1
      change index - (s.toFinset.filter (fun k => k < index)).card = _
      omega
  | cons r rest =>
      by_cases hin : r.1 ≤ index
      · rw [if_pos (hcontains.mp ⟨r, rest, hit, hin⟩)]
        simp [hin]
      · have hnotMem : index ∉ s.toFinset := by
          rw [← hcontains, hit]
          simpa using hin
        rw [if_neg hnotMem]
        simp only [if_neg hin]
        rw [hshifted hnotMem]
        congr 1
        change index - (s.toFinset.filter (fun k => k < index)).card = _
        omega

@[simp] theorem toFinset_remove (s : IndexSet) (index : Nat) :
    (s.remove index).toFinset = s.toFinset.erase index := by
  ext i
  obtain ⟨_, hmem, _⟩ := @doRemove_spec [] s.ranges index (index + 1) s.ordered
    (by simp) (by omega)
  rw [toFinset, remove, hmem, Finset.mem_erase]
  simp only [Iterator.ranges, List.reverse_nil, List.nil_append, toFinset]
  have hne : ¬ (index ≤ i ∧ i < index + 1) ↔ i ≠ index := by omega
  rw [hne, and_comm]

@[simp] theorem toFinset_removeAll (s values : IndexSet) :
    (s.removeAll values).toFinset = s.toFinset \ values.toFinset :=
  (@removeFrom_spec ⟨[], s.ranges⟩ values.ranges s.ordered values.ordered (by simp)).2

end IndexSet

end ObjectStore
end NotVK
