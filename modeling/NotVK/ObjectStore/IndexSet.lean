import Mathlib.Data.Finset.Card
import Mathlib.Data.List.Range
import NotVK.Library.IndexShift

/-!
# The index set of the object store

A set of indices is kept as half-open ranges in ascending order, no two of which
overlap or touch.  The operations walk over the ranges with an iterator, and
change the range it points to and its neighbours.

Ranges are in one list here, and are counted one by one.  The object store cuts this
list into chunks, each with the number of indices in it; `ChunkedRangeVector` and
`ChunkedIndexSet` have these.
-/

namespace NotVK
namespace ObjectStore

open Indices

section Ranges

/-- What `ChunkedRangeVector::verify()` asserts of the ranges. -/
structure Ordered (ranges : List (Nat × Nat)) : Prop where
  nonempty : ∀ r ∈ ranges, r.1 < r.2
  apart : ranges.Pairwise (fun r s => r.2 < s.1)

/-- `as_indexes()`: the indices in the ranges, one by one. -/
def asIndexes (ranges : List (Nat × Nat)) : List Nat :=
  ranges.flatMap (fun r => List.range' r.1 (r.2 - r.1))

/-- The set that the ranges stand for. -/
def members (ranges : List (Nat × Nat)) : Finset Nat :=
  (asIndexes ranges).toFinset

theorem mem_asIndexes
    {ranges : List (Nat × Nat)} {i : Nat} :
    i ∈ asIndexes ranges
      ↔
    ∃ r ∈ ranges, r.1 ≤ i ∧ i < r.2 := by
  rw [asIndexes, List.mem_flatMap]
  constructor
  · rintro ⟨r, hr, hi⟩
    rw [List.mem_range'_1] at hi
    exact ⟨r, hr, hi.1, by omega⟩
  · rintro ⟨r, hr, hlow, hhigh⟩
    exact ⟨r, hr, List.mem_range'_1.mpr ⟨hlow, by omega⟩⟩

theorem mem_members
    {ranges : List (Nat × Nat)} {i : Nat} :
    i ∈ members ranges
      ↔
    ∃ r ∈ ranges, r.1 ≤ i ∧ i < r.2 := by
  rw [members, List.mem_toFinset, mem_asIndexes]

@[simp] theorem mem_members_nil (i : Nat) :
    i ∈ members [] ↔ False := by
  simp [mem_members]

@[simp] theorem mem_members_cons
    (r : Nat × Nat) (ranges : List (Nat × Nat)) (i : Nat) :
    i ∈ members (r :: ranges)
      ↔
    (r.1 ≤ i ∧ i < r.2) ∨ i ∈ members ranges := by
  simp [mem_members]

@[simp] theorem mem_members_append
    (ranges ranges' : List (Nat × Nat)) (i : Nat) :
    i ∈ members (ranges ++ ranges')
      ↔
    i ∈ members ranges ∨ i ∈ members ranges' := by
  simp [mem_members, or_and_right, exists_or]

@[simp] theorem ordered_nil :
    Ordered [] :=
  ⟨by simp, List.Pairwise.nil⟩

@[simp] theorem ordered_cons
    (r : Nat × Nat) (ranges : List (Nat × Nat)) :
    Ordered (r :: ranges)
      ↔
    r.1 < r.2 ∧ (∀ s ∈ ranges, r.2 < s.1) ∧ Ordered ranges := by
  constructor
  · rintro ⟨hnonempty, hapart⟩
    rw [List.pairwise_cons] at hapart
    exact ⟨hnonempty r List.mem_cons_self, hapart.1,
      ⟨fun s hs => hnonempty s (List.mem_cons_of_mem r hs), hapart.2⟩⟩
  · rintro ⟨hr, hfirst, hrest⟩
    refine ⟨?_, List.pairwise_cons.mpr ⟨hfirst, hrest.apart⟩⟩
    intro s hs
    rcases List.mem_cons.mp hs with rfl | hs
    · exact hr
    · exact hrest.nonempty s hs

@[simp] theorem ordered_append
    (ranges ranges' : List (Nat × Nat)) :
    Ordered (ranges ++ ranges')
      ↔
    Ordered ranges ∧ Ordered ranges' ∧
      ∀ r ∈ ranges, ∀ s ∈ ranges', r.2 < s.1 := by
  constructor
  · rintro ⟨hnonempty, hapart⟩
    rw [List.pairwise_append] at hapart
    exact ⟨⟨fun r hr => hnonempty r (List.mem_append_left _ hr), hapart.1⟩,
      ⟨fun r hr => hnonempty r (List.mem_append_right _ hr), hapart.2.1⟩,
      hapart.2.2⟩
  · rintro ⟨hleft, hright, hcross⟩
    refine ⟨?_, List.pairwise_append.mpr ⟨hleft.apart, hright.apart, hcross⟩⟩
    intro r hr
    rcases List.mem_append.mp hr with hr | hr
    · exact hleft.nonempty r hr
    · exact hright.nonempty r hr

/-- The indices of ordered ranges come in ascending order. -/
theorem Ordered.asIndexes_sorted
    {ranges : List (Nat × Nat)}
    (h : Ordered ranges) :
    (asIndexes ranges).Pairwise (· < ·) := by
  induction ranges with
  | nil =>
      exact List.Pairwise.nil
  | cons r ranges ih =>
      obtain ⟨hr, hfirst, hrest⟩ := (ordered_cons r ranges).mp h
      rw [asIndexes, List.flatMap_cons, ← asIndexes]
      refine List.pairwise_append.mpr ⟨List.pairwise_lt_range', ih hrest, ?_⟩
      intro i hi j hj
      obtain ⟨s, hs, hlow, _⟩ := mem_asIndexes.mp hj
      have happart := hfirst s hs
      rw [List.mem_range'_1] at hi
      omega

theorem Ordered.asIndexes_nodup
    {ranges : List (Nat × Nat)}
    (h : Ordered ranges) :
    (asIndexes ranges).Nodup :=
  h.asIndexes_sorted.imp (fun hlt => hlt.ne)

/-- Ranges that stand for the same set start at the same index. -/
theorem Ordered.first_le
    {r s : Nat × Nat} {ranges ranges' : List (Nat × Nat)}
    (h : Ordered (r :: ranges))
    (h' : Ordered (s :: ranges'))
    (hsame : ∀ i, i ∈ members (s :: ranges') → i ∈ members (r :: ranges)) :
    r.1 ≤ s.1 := by
  obtain ⟨hr, hfirst, _⟩ := (ordered_cons r ranges).mp h
  obtain ⟨hs, _, _⟩ := (ordered_cons s ranges').mp h'
  rcases (mem_members_cons r ranges s.1).mp (hsame s.1 (by simp [hs])) with
    hin | hin
  · exact hin.1
  · obtain ⟨t, ht, hlow, _⟩ := mem_members.mp hin
    have := hfirst t ht
    omega

theorem Ordered.second_le
    {r s : Nat × Nat} {ranges ranges' : List (Nat × Nat)}
    (h : Ordered (r :: ranges))
    (hfirst : r.1 = s.1)
    (hsame : ∀ i, i ∈ members (s :: ranges') → i ∈ members (r :: ranges)) :
    s.2 ≤ r.2 := by
  obtain ⟨hr, hnext, _⟩ := (ordered_cons r ranges).mp h
  by_contra hlt
  rcases (mem_members_cons r ranges r.2).mp
    (hsame r.2 (by simp; omega)) with hin | hin
  · omega
  · obtain ⟨t, ht, hlow, _⟩ := mem_members.mp hin
    have := hnext t ht
    omega

/-- **A set of indices is kept in one way only.** -/
theorem Ordered.ext
    {ranges ranges' : List (Nat × Nat)}
    (h : Ordered ranges)
    (h' : Ordered ranges')
    (hsame : members ranges = members ranges') :
    ranges = ranges' := by
  induction ranges generalizing ranges' with
  | nil =>
      cases ranges' with
      | nil =>
          rfl
      | cons s ranges' =>
          have hs := ((ordered_cons s ranges').mp h').1
          have hin : s.1 ∈ members (s :: ranges') := by simp [hs]
          rw [← hsame] at hin
          simp at hin
  | cons r ranges ih =>
      cases ranges' with
      | nil =>
          have hr := ((ordered_cons r ranges).mp h).1
          have hin : r.1 ∈ members (r :: ranges) := by simp [hr]
          rw [hsame] at hin
          simp at hin
      | cons s ranges' =>
          have hto : ∀ i, i ∈ members (s :: ranges') → i ∈ members (r :: ranges) :=
            fun i hi => hsame ▸ hi
          have hfrom : ∀ i, i ∈ members (r :: ranges) → i ∈ members (s :: ranges') :=
            fun i hi => hsame ▸ hi
          have hfirst := le_antisymm (h.first_le h' hto) (h'.first_le h hfrom)
          have hsecond := le_antisymm
            (h'.second_le hfirst.symm hfrom) (h.second_le hfirst hto)
          obtain rfl : r = s := Prod.ext hfirst hsecond
          obtain ⟨_, hnext, hrest⟩ := (ordered_cons r ranges).mp h
          obtain ⟨_, hnext', hrest'⟩ := (ordered_cons r ranges').mp h'
          rw [ih hrest hrest']
          ext i
          have hiff := Finset.ext_iff.mp hsame i
          simp only [mem_members_cons] at hiff
          have habove : ∀ l : List (Nat × Nat), (∀ t ∈ l, r.2 < t.1) →
              i ∈ members l → ¬ i < r.2 := by
            intro l hl hi
            obtain ⟨t, ht, hlow, _⟩ := mem_members.mp hi
            have := hl t ht
            omega
          constructor
          · intro hi
            exact (hiff.mp (Or.inr hi)).resolve_left
              (fun hin => habove ranges hnext hi hin.2)
          · intro hi
            exact (hiff.mpr (Or.inr hi)).resolve_left
              (fun hin => habove ranges' hnext' hi hin.2)

end Ranges

section Iterators

/-- A place in the ranges; it is at the end when `back` is empty. -/
structure Iterator where
  /-- The ranges before, the nearest first. -/
  front : List (Nat × Nat)
  /-- The range it points to and those after it. -/
  back : List (Nat × Nat)
deriving DecidableEq

namespace Iterator

def ranges (it : Iterator) : List (Nat × Nat) :=
  it.front.reverse ++ it.back

/-- The range that contains the index, or the first one after it. -/
def find (index : Nat) : List (Nat × Nat) → List (Nat × Nat) → Iterator
  | front, [] => ⟨front, []⟩
  | front, r :: rest =>
      if r.2 ≤ index then find index (r :: front) rest else ⟨front, r :: rest⟩

/-- `std::next`. -/
def next (it : Iterator) : Iterator :=
  match it.back with
  | [] => it
  | r :: rest => ⟨r :: it.front, rest⟩

/-- The last two cases of `do_add`: the index is not next to the range before. -/
def addApart (it : Iterator) (index : Nat) : Iterator :=
  match it.back with
  | [] => ⟨it.front, [(index, index + 1)]⟩
  | r :: rest =>
      -- immediately before an existing range
      if r.1 = index + 1 then ⟨it.front, (r.1 - 1, r.2) :: rest⟩
      else ⟨it.front, (index, index + 1) :: r :: rest⟩

/-- The case of `do_add` where the range `p` ends at the index. -/
def addAfter
    (before : List (Nat × Nat)) (p : Nat × Nat) (back : List (Nat × Nat)) :
    Iterator :=
  match back with
  | [] => ⟨before, [(p.1, p.2 + 1)]⟩
  | r :: rest =>
      -- the index may join two existing ranges
      if p.2 + 1 = r.1 then ⟨before, (p.1, p.2 + 1 + (r.2 - r.1)) :: rest⟩
      else ⟨before, (p.1, p.2 + 1) :: r :: rest⟩

/-- `do_add`; the result points to the range that has the index. -/
def doAdd (it : Iterator) (index : Nat) : Iterator :=
  if it.back.head?.any (fun r => r.1 ≤ index && index < r.2) then it
  else
    match it.front with
    | [] => it.addApart index
    | p :: before =>
        if p.2 = index then addAfter before p it.back else it.addApart index

/-- What `find` leaves on either side of an index. -/
structure Splits (it : Iterator) (index : Nat) : Prop where
  front_le : ∀ r ∈ it.front, r.2 ≤ index
  lt_back : ∀ r ∈ it.back, index < r.2

theorem ranges_find (index : Nat) (front back : List (Nat × Nat)) :
    (find index front back).ranges = front.reverse ++ back := by
  induction back generalizing front with
  | nil =>
      rfl
  | cons r rest ih =>
      rw [find]
      split
      · rw [ih, List.reverse_cons, List.append_assoc, List.singleton_append]
      · rfl

theorem splits_find
    {index : Nat} {front back : List (Nat × Nat)}
    (hfront : ∀ r ∈ front, r.2 ≤ index)
    (hback : Ordered back) :
    (find index front back).Splits index := by
  induction back generalizing front with
  | nil =>
      exact ⟨hfront, by simp [find]⟩
  | cons r rest ih =>
      obtain ⟨_, hfirst, hrest⟩ := (ordered_cons r rest).mp hback
      rw [find]
      split
      next hle =>
          apply ih _ hrest
          intro s hs
          rcases List.mem_cons.mp hs with rfl | hs
          · exact hle
          · exact hfront s hs
      next hlt =>
          refine ⟨hfront, ?_⟩
          intro s hs
          rcases List.mem_cons.mp hs with rfl | hs
          · exact not_le.mp hlt
          · have happart := hfirst s hs
            have hs := hrest.nonempty s hs
            omega

theorem mem_members_ranges
    {it : Iterator} {i : Nat} :
    i ∈ members it.ranges
      ↔
    i ∈ members it.front ∨ i ∈ members it.back := by
  simp [ranges, mem_members, or_and_right, exists_or]

/-- The two sides of an iterator, apart from each other. -/
theorem ordered_ranges
    {it : Iterator} :
    Ordered it.ranges
      ↔
    Ordered it.front.reverse ∧ Ordered it.back ∧
      ∀ r ∈ it.front, ∀ s ∈ it.back, r.2 < s.1 := by
  simp [ranges]

/-- What `addApart` and `doAdd` do to the ranges. -/
structure Adds (it : Iterator) (index : Nat) (it' : Iterator) : Prop where
  ordered : Ordered it'.ranges
  mem_iff : ∀ i, i ∈ members it'.ranges ↔ i = index ∨ i ∈ members it.ranges
  splits : it'.Splits index

theorem addApart_adds
    {it : Iterator} {index : Nat}
    (h : Ordered it.ranges)
    (hsplits : it.Splits index)
    (hbefore : ∀ r ∈ it.front, r.2 < index)
    (hafter : ∀ r ∈ it.back, index < r.1) :
    it.Adds index (it.addApart index) := by
  obtain ⟨front, back⟩ := it
  obtain ⟨hfront, hback, hcross⟩ := ordered_ranges.mp h
  cases back with
  | nil =>
      refine ⟨ordered_ranges.mpr ⟨hfront, by simp [addApart], ?_⟩, ?_,
        ⟨hsplits.front_le, by simp [addApart]⟩⟩
      · simpa [addApart] using fun a b hr => hbefore (a, b) hr
      · intro i
        simp only [mem_members_ranges, addApart, mem_members_cons, mem_members_nil]
        constructor <;> rintro (h | h) <;> grind
  | cons r rest =>
      obtain ⟨hr, hfirst, hrest⟩ := (ordered_cons r rest).mp hback
      have hindex := hafter r List.mem_cons_self
      by_cases hnext : r.1 = index + 1
      · simp only [addApart, if_pos hnext]
        refine ⟨ordered_ranges.mpr ⟨hfront, ?_, ?_⟩, ?_,
          ⟨hsplits.front_le, ?_⟩⟩
        · exact (ordered_cons _ _).mpr ⟨by simp; omega, hfirst, hrest⟩
        · intro p hp s hs
          have hlt := hbefore p hp
          rcases List.mem_cons.mp hs with rfl | hs
          · simp only
            omega
          · exact hcross p hp s (List.mem_cons_of_mem _ hs)
        · intro i
          simp only [mem_members_ranges, mem_members_cons]
          constructor <;> rintro (h | h | h) <;> grind
        · have := hsplits.lt_back
          grind
      · simp only [addApart, if_neg hnext]
        refine ⟨ordered_ranges.mpr ⟨hfront, ?_, ?_⟩, ?_,
          ⟨hsplits.front_le, ?_⟩⟩
        · refine (ordered_cons _ _).mpr ⟨by simp, ?_, hback⟩
          intro s hs
          have := hafter s hs
          grind
        · intro p hp s hs
          have hlt := hbefore p hp
          rcases List.mem_cons.mp hs with rfl | hs
          · exact hlt
          · exact hcross p hp s hs
        · intro i
          simp only [mem_members_ranges, mem_members_cons]
          constructor <;> rintro (h | h | h) <;> grind
        · have := hsplits.lt_back
          grind

theorem addAfter_adds
    {before back : List (Nat × Nat)} {p : Nat × Nat}
    (h : Ordered (Iterator.mk (p :: before) back).ranges)
    (hafter : ∀ r ∈ back, p.2 < r.1) :
    (Iterator.mk (p :: before) back).Adds p.2 (addAfter before p back) := by
  obtain ⟨hfront, hback, hcross⟩ := ordered_ranges.mp h
  rw [List.reverse_cons, ordered_append] at hfront
  obtain ⟨hbefore, hp, hbefore_p⟩ := hfront
  replace hp : p.1 < p.2 := hp.nonempty p (by simp)
  have hlt : ∀ q ∈ before, q.2 < p.1 :=
    fun q hq => hbefore_p q (by simpa using hq) p (by simp)
  have hpast : ∀ q ∈ before, ∀ s ∈ back, q.2 < s.1 :=
    fun q hq => hcross q (List.mem_cons_of_mem p hq)
  have hfront_le : ∀ q ∈ before, q.2 ≤ p.2 := by
    intro q hq
    have := hlt q hq
    omega
  cases back with
  | nil =>
      refine ⟨ordered_ranges.mpr ⟨hbefore, by simp [addAfter]; omega, ?_⟩, ?_,
        ⟨hfront_le, by simp [addAfter]⟩⟩
      · simpa [addAfter] using fun a b hr => hlt (a, b) hr
      · intro i
        simp only [mem_members_ranges, addAfter, mem_members_cons, mem_members_nil]
        grind
  | cons r rest =>
      obtain ⟨hr, hfirst, hrest⟩ := (ordered_cons r rest).mp hback
      have hindex := hafter r List.mem_cons_self
      by_cases hjoin : p.2 + 1 = r.1
      · simp only [addAfter, if_pos hjoin]
        refine ⟨ordered_ranges.mpr ⟨hbefore, ?_, ?_⟩, ?_, ⟨hfront_le, ?_⟩⟩
        · refine (ordered_cons _ _).mpr ⟨by simp only; omega, ?_, hrest⟩
          intro s hs
          have := hfirst s hs
          grind
        · intro q hq s hs
          rcases List.mem_cons.mp hs with rfl | hs
          · exact hlt q hq
          · exact hpast q hq s (List.mem_cons_of_mem r hs)
        · intro i
          simp only [mem_members_ranges, mem_members_cons]
          grind
        · intro s hs
          rcases List.mem_cons.mp hs with rfl | hs
          · simp only
            omega
          · have := hfirst s hs
            have := hrest.nonempty s hs
            omega
      · simp only [addAfter, if_neg hjoin]
        refine ⟨ordered_ranges.mpr ⟨hbefore, ?_, ?_⟩, ?_, ⟨hfront_le, ?_⟩⟩
        · refine (ordered_cons _ _).mpr ⟨by simp only; omega, ?_, hback⟩
          intro s hs
          have := hafter s hs
          have := hfirst
          grind
        · intro q hq s hs
          rcases List.mem_cons.mp hs with rfl | hs
          · exact hlt q hq
          · exact hpast q hq s hs
        · intro i
          simp only [mem_members_ranges, mem_members_cons]
          grind
        · intro s hs
          rcases List.mem_cons.mp hs with rfl | hs
          · simp
          · have := hafter s hs
            have := hback.nonempty s hs
            omega

/-- Behind an index that is not in the set every range begins after it. -/
theorem lt_first_of_splits
    {index : Nat} {back : List (Nat × Nat)}
    (hback : Ordered back)
    (hlt : ∀ r ∈ back, index < r.2)
    (hout : ¬ back.head?.any (fun r => r.1 ≤ index && index < r.2)) :
    ∀ r ∈ back, index < r.1 := by
  cases back with
  | nil =>
      simp
  | cons s rest =>
      obtain ⟨_, hfirst, _⟩ := (ordered_cons s rest).mp hback
      have hs := hlt s List.mem_cons_self
      simp only [List.head?_cons, Option.any_some, Bool.and_eq_true,
        decide_eq_true_eq] at hout
      intro r hr
      rcases List.mem_cons.mp hr with rfl | hr
      · omega
      · have := hfirst r hr
        omega

theorem doAdd_adds
    {it : Iterator} {index : Nat}
    (h : Ordered it.ranges)
    (hsplits : it.Splits index) :
    it.Adds index (it.doAdd index) := by
  obtain ⟨front, back⟩ := it
  obtain ⟨hfront, hback, hcross⟩ := ordered_ranges.mp h
  rw [doAdd]
  split
  next hin =>
    refine ⟨h, fun i => ⟨Or.inr, ?_⟩, hsplits⟩
    rintro (rfl | hi)
    · rw [mem_members_ranges]
      cases back with
      | nil => simp at hin
      | cons r rest => right; simpa using Or.inl hin
    · exact hi
  next hout =>
    have hafter := lt_first_of_splits hback hsplits.lt_back hout
    cases front with
    | nil =>
        exact addApart_adds h hsplits (by simp) hafter
    | cons p before =>
        simp only
        split
        next htouch =>
          subst htouch
          exact addAfter_adds h hafter
        next hgap =>
          have hp := hsplits.front_le p List.mem_cons_self
          apply addApart_adds h hsplits _ hafter
          intro r hr
          rw [List.reverse_cons, ordered_append] at hfront
          have hnonempty := hfront.2.1.nonempty p (by simp)
          rcases List.mem_cons.mp hr with rfl | hr
          · omega
          · have := hfront.2.2 r (by simpa using hr) p (by simp)
            omega

end Iterator

end Iterators

section IndexSet

structure IndexSet where
  ranges : List (Nat × Nat)
  ordered : Ordered ranges

namespace IndexSet

open Iterator

/-- The set of indices that is kept. -/
def toFinset (s : IndexSet) : Finset Nat :=
  members s.ranges

def empty : IndexSet :=
  ⟨[], ordered_nil⟩

/-- `empty()`. -/
def isEmpty (s : IndexSet) : Bool :=
  s.ranges.isEmpty

theorem splits_begin (s : IndexSet) (index : Nat) :
    (find index [] s.ranges).Splits index :=
  splits_find (by simp) s.ordered

theorem ranges_begin (s : IndexSet) (index : Nat) :
    (find index [] s.ranges).ranges = s.ranges := by
  rw [ranges_find]
  rfl

theorem ordered_begin (s : IndexSet) (index : Nat) :
    Ordered (find index [] s.ranges).ranges := by
  rw [s.ranges_begin]
  exact s.ordered

def contains (s : IndexSet) (index : Nat) : Bool :=
  (find index [] s.ranges).back.head?.any (fun r => r.1 ≤ index)

def add (s : IndexSet) (index : Nat) : IndexSet where
  ranges := ((find index [] s.ranges).doAdd index).ranges
  ordered := (doAdd_adds (s.ordered_begin index) (s.splits_begin index)).ordered

/-- `set(len)`: the indices below `len`. -/
def set (len : Nat) : IndexSet where
  ranges := if len = 0 then [] else [(0, len)]
  ordered := by
    split
    · exact ordered_nil
    next hlen => simp; omega

/-- The loops of `count` over the ranges after the first. -/
def countFrom (last : Nat) : List (Nat × Nat) → Nat
  | [] => 0
  | r :: rest =>
      if r.2 ≤ last then (r.2 - r.1) + countFrom last rest
      else if r.1 < last then last - r.1 else 0

/-- `count(start_index, end_index)`, of the ranges; `chunkCount` reads the counts of
the chunks. -/
def count (s : IndexSet) (first last : Nat) : Nat :=
  match (find first [] s.ranges).back with
  | [] => 0
  | r :: rest =>
      if last ≤ r.1 then 0
      else if last ≤ r.2 then min r.2 last - max r.1 first
      else (r.2 - max r.1 first) + countFrom last rest

/-- The loop of `shift`. -/
def shiftFrom : List (Nat × Nat) → Nat → Nat
  | [], index => index
  | r :: rest, index =>
      if index < r.1 then index else shiftFrom rest (index + (r.2 - r.1))

def shift (s : IndexSet) (index : Nat) : Nat :=
  shiftFrom s.ranges index

def unshift (s : IndexSet) (index : Nat) : Nat :=
  index - s.count 0 index

/-- The loops of `add_shifted`: the place to add at, and the index to add. -/
def shiftedPlace : List (Nat × Nat) → List (Nat × Nat) → Nat → Iterator × Nat
  | front, [], index => (⟨front, []⟩, index)
  | front, r :: rest, index =>
      if r.1 ≤ index then shiftedPlace (r :: front) rest (index + (r.2 - r.1))
      else (⟨front, r :: rest⟩, index)

theorem ext_toFinset
    {s t : IndexSet}
    (h : s.toFinset = t.toFinset) :
    s = t := by
  obtain ⟨ranges, hs⟩ := s
  obtain ⟨ranges', ht⟩ := t
  obtain rfl : ranges = ranges' := hs.ext ht h
  rfl

@[simp] theorem toFinset_empty :
    empty.toFinset = ∅ := by
  rfl

theorem isEmpty_iff
    {s : IndexSet} :
    s.isEmpty = true ↔ s.toFinset = ∅ := by
  rw [isEmpty, List.isEmpty_iff]
  constructor
  · intro h
    rw [toFinset, h]
    rfl
  · intro h
    have hs : s = empty := ext_toFinset h
    rw [hs]
    rfl

@[simp] theorem contains_iff
    {s : IndexSet} {index : Nat} :
    s.contains index = true ↔ index ∈ s.toFinset := by
  have hsplits := s.splits_begin index
  have hordered := s.ordered_begin index
  have hmem : index ∈ s.toFinset ↔ index ∈ members (find index [] s.ranges).ranges := by
    rw [s.ranges_begin]
    rfl
  rw [hmem, mem_members_ranges, contains]
  generalize find index [] s.ranges = it at hsplits hordered
  have hfront : index ∉ members it.front := by
    intro h
    obtain ⟨r, hr, _, hlt⟩ := mem_members.mp h
    have := hsplits.front_le r hr
    omega
  have hback := (ordered_ranges.mp hordered).2.1
  cases hit : it.back with
  | nil =>
      simp [hfront]
  | cons r rest =>
      rw [hit] at hback
      have hr := hsplits.lt_back r (by simp [hit])
      have hrest : index ∉ members rest := by
        intro h
        obtain ⟨s, hs, hle, _⟩ := mem_members.mp h
        have := ((ordered_cons r rest).mp hback).2.1 s hs
        omega
      simp [hfront, hrest, hr]

@[simp] theorem toFinset_add (s : IndexSet) (index : Nat) :
    (s.add index).toFinset = insert index s.toFinset := by
  ext i
  have hadds := doAdd_adds (s.ordered_begin index) (s.splits_begin index)
  rw [Finset.mem_insert, toFinset, add, hadds.mem_iff, s.ranges_begin]
  rfl

@[simp] theorem toFinset_set (len : Nat) :
    (set len).toFinset = Finset.range len := by
  ext i
  by_cases hlen : len = 0 <;> simp [set, toFinset, hlen]

/-- Members below a bound, range by range. -/
theorem card_below_cons
    {r : Nat × Nat} {rest : List (Nat × Nat)}
    (h : Ordered (r :: rest))
    (v : Nat) :
    ((members (r :: rest)).filter (fun k => k < v)).card =
      (min r.2 v - r.1) + ((members rest).filter (fun k => k < v)).card := by
  obtain ⟨_, hfirst, _⟩ := (ordered_cons r rest).mp h
  have hunion : (members (r :: rest)).filter (fun k => k < v) =
      Finset.Ico r.1 (min r.2 v) ∪ (members rest).filter (fun k => k < v) := by
    ext k
    simp only [Finset.mem_filter, mem_members_cons, Finset.mem_union,
      Finset.mem_Ico, lt_min_iff]
    tauto
  have hdisjoint : Disjoint (Finset.Ico r.1 (min r.2 v))
      ((members rest).filter (fun k => k < v)) := by
    rw [Finset.disjoint_left]
    intro k hk hrest
    obtain ⟨s, hs, hle, _⟩ := mem_members.mp (Finset.mem_filter.mp hrest).1
    have := hfirst s hs
    rw [Finset.mem_Ico, lt_min_iff] at hk
    omega
  rw [hunion, Finset.card_union_of_disjoint hdisjoint, Nat.card_Ico]

theorem card_below_of_forall_le
    {ranges : List (Nat × Nat)} {v : Nat}
    (h : ∀ r ∈ ranges, v ≤ r.1) :
    ((members ranges).filter (fun k => k < v)).card = 0 := by
  rw [Finset.card_eq_zero, Finset.filter_eq_empty_iff]
  intro k hk hlt
  obtain ⟨r, hr, hle, _⟩ := mem_members.mp hk
  have := h r hr
  omega

theorem countFrom_eq
    {ranges : List (Nat × Nat)}
    (h : Ordered ranges)
    (last : Nat) :
    countFrom last ranges =
      ((members ranges).filter (fun k => k < last)).card := by
  induction ranges with
  | nil =>
      rfl
  | cons r rest ih =>
      obtain ⟨hr, hfirst, hrest⟩ := (ordered_cons r rest).mp h
      rw [countFrom, card_below_cons h, ih hrest]
      split
      next hle => rw [min_eq_left hle]
      next hlt =>
        rw [card_below_of_forall_le (fun s hs => by have := hfirst s hs; omega)]
        split <;> omega

/-- `count` counts. -/
theorem count_eq (s : IndexSet) (first last : Nat) :
    s.count first last =
      (s.toFinset.filter (fun k => first ≤ k ∧ k < last)).card := by
  have hsplits := s.splits_begin first
  have hordered := s.ordered_begin first
  have hmembers : s.toFinset = members (find first [] s.ranges).ranges := by
    rw [s.ranges_begin]
    rfl
  rw [hmembers, count]
  generalize find first [] s.ranges = it at hsplits hordered
  have hback := (ordered_ranges.mp hordered).2.1
  have hfilter : (members it.ranges).filter (fun k => first ≤ k ∧ k < last) =
      (members it.back).filter (fun k => first ≤ k ∧ k < last) := by
    ext k
    rw [Finset.mem_filter, Finset.mem_filter, mem_members_ranges]
    refine and_congr_left (fun hk => or_iff_right (fun hfront => ?_))
    obtain ⟨r, hr, _, hlt⟩ := mem_members.mp hfront
    have := hsplits.front_le r hr
    omega
  rw [hfilter]
  cases hit : it.back with
  | nil =>
      rfl
  | cons r rest =>
      rw [hit] at hback
      have hlt := hsplits.lt_back r (by simp [hit])
      obtain ⟨hr, hfirst, hrest⟩ := (ordered_cons r rest).mp hback
      have hcut : Ordered ((max r.1 first, r.2) :: rest) :=
        (ordered_cons _ _).mpr ⟨by simp; omega, hfirst, hrest⟩
      have hsame : (members (r :: rest)).filter (fun k => first ≤ k ∧ k < last) =
          (members ((max r.1 first, r.2) :: rest)).filter (fun k => k < last) := by
        ext k
        simp only [Finset.mem_filter, mem_members_cons, max_le_iff]
        constructor
        · rintro ⟨hk, hfirst, hlast⟩
          exact ⟨hk.imp_left (fun h => ⟨⟨h.1, hfirst⟩, h.2⟩), hlast⟩
        · rintro ⟨⟨⟨h1, h2⟩, h3⟩ | hk, hlast⟩
          · exact ⟨Or.inl ⟨h1, h3⟩, h2, hlast⟩
          · obtain ⟨s, hs, hle, _⟩ := mem_members.mp hk
            have := hfirst s hs
            exact ⟨Or.inr hk, by omega, hlast⟩
      rw [hsame, card_below_cons hcut, ← countFrom_eq hrest]
      have hnone : ∀ v, v ≤ r.2 → countFrom v rest = 0 := by
        intro v hv
        rw [countFrom_eq hrest]
        exact card_below_of_forall_le (fun s hs => by have := hfirst s hs; omega)
      simp only
      split
      · rw [hnone last (by omega)]
        omega
      · split
        · rw [hnone last (by omega)]
          omega
        · omega

/-- No more indices lie below an index than there are. -/
theorem count_le (s : IndexSet) (last : Nat) :
    s.count 0 last ≤ last := by
  have hsubset : s.toFinset.filter (fun k => 0 ≤ k ∧ k < last) ⊆ Finset.range last := by
    intro k hk
    exact Finset.mem_range.mpr (Finset.mem_filter.mp hk).2.2
  rw [count_eq]
  exact (Finset.card_le_card hsubset).trans_eq (Finset.card_range last)

theorem unshift_eq (s : IndexSet) (index : Nat) :
    s.unshift index = Indices.unshift s.toFinset index := by
  have hsplit := unshift_add_card s.toFinset index
  rw [unshift, count_eq]
  simp only [Nat.zero_le, true_and]
  omega

theorem shiftFrom_eq
    {ranges : List (Nat × Nat)}
    (h : Ordered ranges)
    (index : Nat) :
    shiftFrom ranges index = Indices.shift (members ranges) index := by
  induction ranges generalizing index with
  | nil =>
      exact (shift_empty index).symm
  | cons r rest ih =>
      obtain ⟨hr, hfirst, hrest⟩ := (ordered_cons r rest).mp h
      rw [shiftFrom]
      split
      next hlt =>
        symm
        apply shift_of_forall_gt
        intro k hk
        rcases (mem_members_cons r rest k).mp hk with hk | hk
        · omega
        · obtain ⟨s, hs, hle, _⟩ := mem_members.mp hk
          have := hfirst s hs
          omega
      next hge =>
        rw [ih hrest]
        symm
        obtain ⟨hnotMem, hunshift⟩ :=
          shift_eq_iff.mp (rfl : Indices.shift (members rest)
            (index + (r.2 - r.1)) = _)
        generalize Indices.shift (members rest) (index + (r.2 - r.1)) = v
          at hnotMem hunshift
        have hsplit := unshift_add_card (members rest) v
        have hcard := card_below_cons h v
        have hsplit' := unshift_add_card (members (r :: rest)) v
        refine shift_eq_iff.mpr ⟨?_, ?_⟩
        · rw [mem_members_cons]
          rintro (hk | hk)
          · omega
          · exact hnotMem hk
        · omega

@[simp] theorem shift_eq (s : IndexSet) (index : Nat) :
    s.shift index = Indices.shift s.toFinset index :=
  shiftFrom_eq s.ordered index

/-- The place that `add_shifted` finds. -/
theorem shiftedPlace_spec
    {front back : List (Nat × Nat)} {index : Nat}
    (hfront : ∀ r ∈ front, r.2 ≤ index)
    (hback : Ordered back) :
    (shiftedPlace front back index).2 = shiftFrom back index ∧
    (shiftedPlace front back index).1.ranges = front.reverse ++ back ∧
    (shiftedPlace front back index).1.Splits
      (shiftedPlace front back index).2 := by
  induction back generalizing front index with
  | nil =>
      exact ⟨rfl, rfl, hfront, by simp [shiftedPlace]⟩
  | cons r rest ih =>
      obtain ⟨hr, hfirst, hrest⟩ := (ordered_cons r rest).mp hback
      rw [shiftedPlace, shiftFrom]
      split
      next =>
        rw [if_neg (by omega)]
        have hfront' : ∀ s ∈ r :: front, s.2 ≤ index + (r.2 - r.1) := by
          intro s hs
          rcases List.mem_cons.mp hs with rfl | hs
          · omega
          · have := hfront s hs
            omega
        obtain ⟨hindex, hranges, hsplits⟩ := ih hfront' hrest
        refine ⟨hindex, ?_, hsplits⟩
        rw [hranges, List.reverse_cons, List.append_assoc, List.singleton_append]
      next hlt =>
        rw [if_pos (by omega)]
        refine ⟨rfl, rfl, hfront, ?_⟩
        intro s hs
        rcases List.mem_cons.mp hs with rfl | hs
        · simp only
          omega
        · have := hfirst s hs
          have := hrest.nonempty s hs
          simp only
          omega

/-- `add_shifted(index)`: the set, and the index that was added. -/
def addShifted (s : IndexSet) (index : Nat) : IndexSet × Nat :=
  (⟨((shiftedPlace [] s.ranges index).1.doAdd (shiftedPlace [] s.ranges index).2).ranges,
    by
      obtain ⟨_, hranges, hsplits⟩ :=
        @shiftedPlace_spec [] s.ranges index (by simp) s.ordered
      exact (doAdd_adds (by rw [hranges]; exact s.ordered) hsplits).ordered⟩,
    (shiftedPlace [] s.ranges index).2)

@[simp] theorem addShifted_index (s : IndexSet) (index : Nat) :
    (s.addShifted index).2 = Indices.shift s.toFinset index := by
  obtain ⟨hindex, _, _⟩ :=
    @shiftedPlace_spec [] s.ranges index (by simp) s.ordered
  rw [addShifted, hindex, shiftFrom_eq s.ordered]
  rfl

@[simp] theorem toFinset_addShifted (s : IndexSet) (index : Nat) :
    (s.addShifted index).1.toFinset =
      insert (Indices.shift s.toFinset index) s.toFinset := by
  obtain ⟨_, hranges, hsplits⟩ :=
    @shiftedPlace_spec [] s.ranges index (by simp) s.ordered
  have hordered : Ordered (shiftedPlace [] s.ranges index).1.ranges := by
    rw [hranges]
    exact s.ordered
  ext i
  rw [Finset.mem_insert, ← addShifted_index, toFinset, addShifted,
    (doAdd_adds hordered hsplits).mem_iff, hranges]
  rfl

end IndexSet

end IndexSet

end ObjectStore
end NotVK
