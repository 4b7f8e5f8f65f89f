import NotVK.ObjectStore.IndexSetMerging

/-!
# The chunks of an index set

The ranges of an index set are kept in chunks of a limited size.  Each chunk has the
first and the last index of its ranges, by which a chunk is found, and the number of
its indices, by which whole chunks are counted without a look at their ranges.

A builder puts ranges that come in ascending order into chunks.  It reserves as many
chunks as the old ranges need; a chunk beyond these gets the count of a range with
one index, whatever the range is that it begins with.
-/

namespace NotVK
namespace ObjectStore

section Chunks

structure Chunk where
  data : List (Nat × Nat)
  beginIndex : Nat
  endIndex : Nat
  /-- Below zero where the code goes below zero modulo `2 ^ 64`. -/
  count : Int
deriving DecidableEq

/-- `max_size`: ranges of two `size_t` in 4096 bytes. -/
def maxSize : Nat :=
  4096 / 16

/-- The ranges of all chunks, as an iterator walks over them. -/
def chunkRanges (chunks : List Chunk) : List (Nat × Nat) :=
  chunks.flatMap Chunk.data

/-- The number of indices in the ranges. -/
def total (ranges : List (Nat × Nat)) : Nat :=
  (ranges.map (fun r => r.2 - r.1)).sum

/-- What `verify()` asserts of the bounds of a chunk, and its size. -/
structure Chunk.Framed (c : Chunk) : Prop where
  size_le : c.data.length ≤ maxSize
  begin_eq : c.data.head?.map Prod.fst = some c.beginIndex
  end_eq : c.data.getLast?.map Prod.snd = some c.endIndex

/-- What `verify()` asserts of the count of a chunk. -/
def Chunk.Counted (c : Chunk) : Prop :=
  c.count = total c.data

instance (c : Chunk) : Decidable c.Counted :=
  inferInstanceAs (Decidable (_ = _))

@[simp] theorem chunkRanges_nil :
    chunkRanges [] = [] := by
  rfl

@[simp] theorem chunkRanges_cons (c : Chunk) (chunks : List Chunk) :
    chunkRanges (c :: chunks) = c.data ++ chunkRanges chunks := by
  rfl

@[simp] theorem chunkRanges_append (chunks chunks' : List Chunk) :
    chunkRanges (chunks ++ chunks') = chunkRanges chunks ++ chunkRanges chunks' :=
  List.flatMap_append

@[simp] theorem total_nil :
    total [] = 0 := by
  rfl

@[simp] theorem total_cons (r : Nat × Nat) (ranges : List (Nat × Nat)) :
    total (r :: ranges) = (r.2 - r.1) + total ranges := by
  rfl

@[simp] theorem total_append (ranges ranges' : List (Nat × Nat)) :
    total (ranges ++ ranges') = total ranges + total ranges' := by
  rw [total, List.map_append, List.sum_append]
  rfl

theorem Chunk.Framed.data_ne_nil
    {c : Chunk}
    (h : c.Framed) :
    c.data ≠ [] := by
  intro hnil
  have hbegin := h.begin_eq
  rw [hnil] at hbegin
  cases hbegin

/-- The last range ends where the chunk does. -/
theorem Chunk.Framed.exists_last
    {c : Chunk}
    (h : c.Framed) :
    ∃ before last, c.data = before ++ [last] ∧ last.2 = c.endIndex := by
  have hend := h.end_eq
  rcases List.eq_nil_or_concat c.data with hnil | ⟨before, last, hlast⟩
  · exact absurd hnil h.data_ne_nil
  · rw [List.concat_eq_append] at hlast
    rw [hlast, List.getLast?_concat, Option.map_some, Option.some.injEq] at hend
    exact ⟨before, last, hlast, hend⟩

/-- No range of a chunk ends after it. -/
theorem Chunk.Framed.le_end
    {c : Chunk}
    (h : c.Framed)
    (hordered : Ordered c.data) :
    ∀ r ∈ c.data, r.2 ≤ c.endIndex := by
  obtain ⟨before, last, hdata, hlast⟩ := h.exists_last
  rw [hdata] at hordered ⊢
  obtain ⟨_, hlast_ordered, hcross⟩ := (ordered_append _ _).mp hordered
  have hlast_lt := hlast_ordered.nonempty last (by simp)
  intro r hr
  rcases List.mem_append.mp hr with hr | hr
  · have := hcross r hr last (by simp)
    omega
  · rw [List.mem_singleton.mp hr, hlast]

end Chunks

section Finding

open Iterator

/-- A place in the chunks: a chunk, its ranges before and after, and the chunks after. -/
structure ChunkIterator where
  outer : Chunk
  /-- The ranges before in the chunk, the nearest first. -/
  front : List (Nat × Nat)
  /-- The range it points to and those after it in the chunk. -/
  back : List (Nat × Nat)
  rest : List Chunk

/-- `find(index)`; none for `end()`. -/
def findChunk (index : Nat) : List Chunk → Option ChunkIterator
  | [] => none
  | c :: rest =>
      if index < c.endIndex then
        if index < c.beginIndex then some ⟨c, [], c.data, rest⟩
        else
          -- `std::lower_bound` in the chunk
          some ⟨c, (find index [] c.data).front, (find index [] c.data).back, rest⟩
      else findChunk index rest

/-- The range it points to and all that come after it. -/
def ChunkIterator.ranges (it : ChunkIterator) : List (Nat × Nat) :=
  it.back ++ chunkRanges it.rest

theorem back_find_front
    (index : Nat) (front back : List (Nat × Nat)) :
    (find index front back).back = (find index [] back).back := by
  induction back generalizing front with
  | nil =>
      rfl
  | cons r rest ih =>
      simp only [find]
      split
      · rw [ih (r :: front), ih [r]]
      · rfl

theorem back_find_append_of_le
    {index : Nat} {ranges : List (Nat × Nat)} (after : List (Nat × Nat))
    (h : ∀ r ∈ ranges, r.2 ≤ index) :
    (find index [] (ranges ++ after)).back = (find index [] after).back := by
  induction ranges with
  | nil =>
      rfl
  | cons r ranges ih =>
      rw [List.cons_append, find, if_pos (h r List.mem_cons_self), back_find_front]
      exact ih (fun s hs => h s (List.mem_cons_of_mem r hs))

theorem back_find_append_of_lt
    {index : Nat} {ranges : List (Nat × Nat)} (after : List (Nat × Nat))
    (h : ∃ r ∈ ranges, index < r.2) :
    (find index [] (ranges ++ after)).back = (find index [] ranges).back ++ after := by
  induction ranges with
  | nil =>
      simp at h
  | cons r ranges ih =>
      rw [List.cons_append, find, find]
      split
      next hle =>
          rw [back_find_front, back_find_front index [r] ranges]
          refine ih ?_
          obtain ⟨s, hs, hlt⟩ := h
          rcases List.mem_cons.mp hs with rfl | hs
          · omega
          · exact ⟨s, hs, hlt⟩
      · rfl

/-- A search that stops at the first range. -/
theorem find_eq_of_lt_begin
    {index : Nat} {r : Nat × Nat} (rest : List (Nat × Nat))
    (h : index < r.2) :
    find index [] (r :: rest) = ⟨[], r :: rest⟩ := by
  rw [find, if_neg (by omega)]

/-- The chunks are searched for what a search in all their ranges finds. -/
theorem back_find_chunkRanges
    {chunks : List Chunk} (index : Nat)
    (hframed : ∀ c ∈ chunks, c.Framed)
    (hordered : Ordered (chunkRanges chunks)) :
    (find index [] (chunkRanges chunks)).back =
      ((findChunk index chunks).map ChunkIterator.ranges).getD [] := by
  induction chunks with
  | nil =>
      rfl
  | cons c rest ih =>
      have hc := hframed c List.mem_cons_self
      rw [chunkRanges_cons, ordered_append] at hordered
      obtain ⟨hdata, hrest, _⟩ := hordered
      obtain ⟨before, last, hlast, hlast_end⟩ := hc.exists_last
      rw [chunkRanges_cons, findChunk]
      split
      next hlt =>
          have hstop : ∃ r ∈ c.data, index < r.2 :=
            ⟨last, by simp [hlast], by omega⟩
          rw [back_find_append_of_lt _ hstop]
          split
          next hbegin =>
              cases hcons : c.data with
              | nil => exact absurd hcons hc.data_ne_nil
              | cons r ranges =>
                  have hfirst := hc.begin_eq
                  rw [hcons, List.head?_cons, Option.map_some, Option.some.injEq] at hfirst
                  rw [hcons] at hdata
                  have hr := ((ordered_cons r ranges).mp hdata).1
                  rw [find_eq_of_lt_begin ranges (by omega)]
                  rfl
          · rfl
      next hge =>
          rw [back_find_append_of_le _
            (fun r hr => (hc.le_end hdata r hr).trans (by omega)),
            ih (fun c' hc' => hframed c' (List.mem_cons_of_mem c hc')) hrest]

end Finding

section Counting

open IndexSet (countFrom)

/-- The rest of a chunk that `count` starts in the middle of, and whether it ends
there. -/
def countRest (last : Nat) : List (Nat × Nat) → Nat × Bool
  | [] => (0, false)
  | r :: rest =>
      if r.2 < last then ((r.2 - r.1) + (countRest last rest).1, (countRest last rest).2)
      else (if r.1 < last then last - r.1 else 0, true)

/-- Complete chunks, and then the ranges of the last one. -/
def countChunks (last : Nat) : List Chunk → Int
  | [] => 0
  | c :: rest =>
      if c.endIndex ≤ last then c.count + countChunks last rest
      else countFrom last c.data

/-- `count(start_index, end_index)`. -/
def chunkCount (chunks : List Chunk) (first last : Nat) : Int :=
  match findChunk first chunks with
  | none => 0
  | some it =>
      match it.back with
      | [] => 0
      | r :: inner =>
          if last ≤ r.1 then 0
          else if last ≤ r.2 then (min r.2 last - max r.1 first : Nat)
          else if r.1 < first ∨ it.front ≠ [] then
            let ret := r.2 - max r.1 first + (countRest last inner).1
            if (countRest last inner).2 then ret
            else
              match chunkRanges it.rest with
              | [] => ret
              -- what the next range has before `last` is left out
              | s :: _ => if last ≤ s.2 then ret else ret + countChunks last it.rest
          else countChunks last (it.outer :: it.rest)

/-- What `count` begins with when it begins at zero, and `counted` after that. -/
def countBegin (last : Nat) (counted : Int) : List (Nat × Nat) → Int
  | [] => 0
  | r :: _ =>
      if last ≤ r.1 then 0
      else if last ≤ r.2 then (last - r.1 : Nat)
      else counted

theorem countFrom_append_of_le
    {last : Nat} {ranges : List (Nat × Nat)} (after : List (Nat × Nat))
    (h : ∀ r ∈ ranges, r.2 ≤ last) :
    countFrom last (ranges ++ after) = total ranges + countFrom last after := by
  induction ranges with
  | nil =>
      simp
  | cons r ranges ih =>
      rw [List.cons_append, countFrom, if_pos (h r List.mem_cons_self),
        ih (fun s hs => h s (List.mem_cons_of_mem r hs)), total_cons, Nat.add_assoc]

theorem countFrom_append_of_lt
    {last : Nat} {ranges : List (Nat × Nat)} (after : List (Nat × Nat))
    (h : ∃ r ∈ ranges, last < r.2) :
    countFrom last (ranges ++ after) = countFrom last ranges := by
  induction ranges with
  | nil =>
      simp at h
  | cons r ranges ih =>
      rw [List.cons_append, countFrom, countFrom]
      split
      next hle =>
          rw [ih]
          obtain ⟨s, hs, hlt⟩ := h
          rcases List.mem_cons.mp hs with rfl | hs
          · omega
          · exact ⟨s, hs, hlt⟩
      · rfl

variable {chunks : List Chunk}
variable (hframed : ∀ c ∈ chunks, c.Framed)
variable (hordered : Ordered (chunkRanges chunks))

/-- Chunks with right counts are counted as their ranges are. -/
theorem countChunks_eq
    (hframed : ∀ c ∈ chunks, c.Framed)
    (hordered : Ordered (chunkRanges chunks))
    (hcounted : ∀ c ∈ chunks, c.Counted)
    (last : Nat) :
    countChunks last chunks = countFrom last (chunkRanges chunks) := by
  induction chunks with
  | nil =>
      rfl
  | cons c rest ih =>
      have hc := hframed c List.mem_cons_self
      rw [chunkRanges_cons, ordered_append] at hordered
      obtain ⟨hdata, hrest, _⟩ := hordered
      rw [countChunks, chunkRanges_cons]
      split
      next hle =>
          rw [countFrom_append_of_le _ (fun r hr => (hc.le_end hdata r hr).trans hle),
            Int.natCast_add, hcounted c List.mem_cons_self,
            ih (fun c' hc' => hframed c' (List.mem_cons_of_mem c hc')) hrest
              (fun c' hc' => hcounted c' (List.mem_cons_of_mem c hc'))]
      next hlt =>
          obtain ⟨before, last', hlast, hlast_end⟩ := hc.exists_last
          rw [countFrom_append_of_lt _ ⟨last', by simp [hlast], by omega⟩]

theorem countFrom_eq_zero
    {last : Nat} {ranges : List (Nat × Nat)}
    (h : ∀ r ∈ ranges, last ≤ r.1 ∧ r.1 < r.2) :
    countFrom last ranges = 0 := by
  cases ranges with
  | nil =>
      rfl
  | cons r ranges =>
      have hr := h r List.mem_cons_self
      rw [countFrom, if_neg (by omega), if_neg (by omega)]

theorem countChunks_eq_zero
    {last : Nat}
    (hframed : ∀ c ∈ chunks, c.Framed)
    (h : ∀ r ∈ chunkRanges chunks, last ≤ r.1 ∧ r.1 < r.2) :
    countChunks last chunks = 0 := by
  cases chunks with
  | nil =>
      rfl
  | cons c rest =>
      obtain ⟨before, last', hlast, hlast_end⟩ := (hframed c List.mem_cons_self).exists_last
      have hpast := h last' (by simp [hlast])
      have hnone : countFrom last c.data = 0 :=
        countFrom_eq_zero (fun r hr => h r (by simp [hr]))
      rw [countChunks, if_neg (by omega), hnone]
      rfl

/-- Counts that are right for every index after the first range are those of the
chunks. -/
theorem counted_of_countChunks_eq
    (hframed : ∀ c ∈ chunks, c.Framed)
    (hordered : Ordered (chunkRanges chunks))
    (h : ∀ last, (∀ r ∈ (chunkRanges chunks).head?, r.2 < last) →
      countChunks last chunks = countFrom last (chunkRanges chunks)) :
    ∀ c ∈ chunks, c.Counted := by
  induction chunks with
  | nil =>
      simp
  | cons c rest ih =>
      have hc := hframed c List.mem_cons_self
      have hrest := fun c' hc' => hframed c' (List.mem_cons_of_mem c hc')
      rw [chunkRanges_cons, ordered_append] at hordered
      obtain ⟨hdata, hrest_ordered, hcross⟩ := hordered
      obtain ⟨before, last', hlast, hlast_end⟩ := hc.exists_last
      have hle := hc.le_end hdata
      have hfirst : ∀ last, c.endIndex < last →
          c.count + countChunks last rest =
            total c.data + countFrom last (chunkRanges rest) := by
        intro last hlt
        have heq := h last (by
          intro r hr
          rw [chunkRanges_cons, List.head?_append_of_ne_nil _ hc.data_ne_nil] at hr
          exact (hle r (List.mem_of_mem_head? hr)).trans_lt hlt)
        rwa [countChunks, if_pos hlt.le, chunkRanges_cons,
          countFrom_append_of_le _ (fun r hr => (hle r hr).trans hlt.le)] at heq
      have hpast : ∀ r ∈ chunkRanges rest, c.endIndex + 1 ≤ r.1 ∧ r.1 < r.2 := by
        intro r hr
        have := hcross last' (by simp [hlast]) r hr
        have := hrest_ordered.nonempty r hr
        omega
      have hcounted : c.Counted := by
        have heq := hfirst (c.endIndex + 1) (by omega)
        rwa [countChunks_eq_zero hrest hpast, countFrom_eq_zero hpast, Int.natCast_zero,
          add_zero, add_zero] at heq
      intro c' hc'
      rcases List.mem_cons.mp hc' with rfl | hc'
      · exact hcounted
      · refine ih hrest hrest_ordered (fun last hhead => ?_) c' hc'
        cases hranges : chunkRanges rest with
        | nil =>
            rw [← hranges, countChunks_eq_zero hrest (by simp [hranges]),
              countFrom_eq_zero (by simp [hranges]), Int.natCast_zero]
        | cons r ranges =>
            have hlt := hhead r (by rw [hranges]; rfl)
            have hr := hpast r (by simp [hranges])
            have heq := hfirst last (by omega)
            rw [hcounted, hranges] at heq
            exact add_left_cancel heq

theorem count_zero
    {ranges : List (Nat × Nat)}
    (hordered : Ordered ranges)
    (last : Nat) :
    IndexSet.count ⟨ranges, hordered⟩ 0 last =
      countBegin last (countFrom last ranges) ranges := by
  cases ranges with
  | nil =>
      rfl
  | cons r rest =>
      have hr := ((ordered_cons r rest).mp hordered).1
      simp only [IndexSet.count, find_eq_of_lt_begin rest (show 0 < r.2 by omega),
        countBegin]
      split
      · rfl
      · split
        next hle => rw [min_eq_right hle, Nat.max_zero]
        next hlt => rw [countFrom, if_pos (by omega), Nat.max_zero]

include hframed hordered

/-- From the beginning on, `count` takes complete chunks at once. -/
theorem chunkCount_zero (last : Nat) :
    chunkCount chunks 0 last =
      countBegin last (countChunks last chunks) (chunkRanges chunks) := by
  cases chunks with
  | nil =>
      rfl
  | cons c rest =>
      have hc := hframed c List.mem_cons_self
      obtain ⟨before, last', hlast, hlast_end⟩ := hc.exists_last
      cases hcons : c.data with
      | nil => exact absurd hcons hc.data_ne_nil
      | cons r ranges =>
          rw [chunkRanges_cons, ordered_append] at hordered
          have hlast_lt := hordered.1.nonempty last' (by simp [hlast])
          have hr := hordered.1.nonempty r (by simp [hcons])
          have hfind : findChunk 0 (c :: rest) = some ⟨c, [], r :: ranges, rest⟩ := by
            rw [findChunk, if_pos (by omega), hcons, find_eq_of_lt_begin ranges (by omega)]
            exact ite_self _
          rw [chunkCount, hfind, chunkRanges_cons, hcons]
          simp only [List.cons_append, Nat.not_lt_zero, ne_eq, not_true, or_self, if_false,
            Nat.max_zero, countBegin]
          split
          · rfl
          · split
            next hle => rw [min_eq_right hle]
            · rfl

/-- `count(0, last)` counts when the counts of the chunks are right. -/
theorem chunkCount_eq
    (hcounted : ∀ c ∈ chunks, c.Counted)
    (last : Nat) :
    chunkCount chunks 0 last = IndexSet.count ⟨chunkRanges chunks, hordered⟩ 0 last := by
  rw [chunkCount_zero hframed hordered, countChunks_eq hframed hordered hcounted,
    count_zero]

/-- It counts for every `last` only then. -/
theorem chunkCount_eq_iff :
    (∀ last, chunkCount chunks 0 last =
        IndexSet.count ⟨chunkRanges chunks, hordered⟩ 0 last)
      ↔
    ∀ c ∈ chunks, c.Counted := by
  refine ⟨fun h => ?_, fun hcounted => chunkCount_eq hframed hordered hcounted⟩
  refine counted_of_countChunks_eq hframed hordered (fun last hlast => ?_)
  have heq := h last
  rw [chunkCount_zero hframed hordered, count_zero] at heq
  have hfirst := hordered.nonempty
  cases hranges : chunkRanges chunks with
  | nil =>
      rw [countChunks_eq_zero hframed (by simp [hranges])]
      rfl
  | cons r rest =>
      rw [hranges] at heq hfirst
      have hr := hfirst r List.mem_cons_self
      have hafter := hlast r (by rw [hranges]; rfl)
      rwa [countBegin, countBegin, if_neg (by omega), if_neg (by omega),
        if_neg (by omega), if_neg (by omega)] at heq

end Counting

section Builder

structure ChunkBuilder where
  /-- The chunks before the one that is filled, the last one first. -/
  full : List Chunk
  /-- The chunk at `m_outer_pos`. -/
  current : Chunk
  /-- The number of chunks after it, which are empty. -/
  reserved : Nat
deriving DecidableEq

namespace ChunkBuilder

/-- The constructor: chunks are made for the ranges of the expected ones. -/
def new (expected : List Chunk) : ChunkBuilder where
  full := []
  current := ⟨[], 0, 0, 0⟩
  reserved := (chunkRanges expected).length / maxSize

/-- `push_back` of a range. -/
def pushBack (b : ChunkBuilder) (r : Nat × Nat) : ChunkBuilder :=
  match b.current.data.getLast? with
  | none =>
      { b with
        current := { b.current with data := [r], count := (r.2 - r.1 : Nat), beginIndex := r.1 } }
  | some last =>
      if r.1 = last.2 then
        { b with
          current :=
            { b.current with
              data := b.current.data.dropLast ++ [(last.1, r.2)]
              count := b.current.count + (r.2 - r.1 : Nat) } }
      else if b.current.data.length < maxSize then
        { b with
          current :=
            { b.current with
              data := b.current.data ++ [r]
              count := b.current.count + (r.2 - r.1 : Nat) } }
      else
        let full := { b.current with endIndex := last.2 } :: b.full
        match b.reserved with
        -- a chunk beyond the reserved ones, with one index in it
        | 0 => ⟨full, ⟨[r], r.1, 0, 1⟩, 0⟩
        | reserved + 1 => ⟨full, ⟨[r], r.1, 0, (r.2 - r.1 : Nat)⟩, reserved⟩

/-- `finalize()`. -/
def finalize (b : ChunkBuilder) : List Chunk :=
  match b.current.data.getLast? with
  | none => b.full.reverse
  | some last => ({ b.current with endIndex := last.2 } :: b.full).reverse

/-- Whether the range begins a chunk beyond the reserved ones. -/
def overflows (b : ChunkBuilder) (r : Nat × Nat) : Bool :=
  b.current.data.getLast?.any (fun last => r.1 ≠ last.2) &&
    maxSize ≤ b.current.data.length && b.reserved = 0

/-- A range that begins a chunk beyond the reserved ones has one index. -/
def OverflowsByOnes : ChunkBuilder → List (Nat × Nat) → Prop
  | _, [] => True
  | b, r :: pushed =>
      (b.overflows r = true → r.2 = r.1 + 1) ∧ (b.pushBack r).OverflowsByOnes pushed

/-- All ranges so far. -/
def ranges (b : ChunkBuilder) : List (Nat × Nat) :=
  chunkRanges b.full.reverse ++ b.current.data

/-- What holds of the builder between two calls. -/
structure Framed (b : ChunkBuilder) : Prop where
  full : ∀ c ∈ b.full, c.Framed
  size_le : b.current.data.length ≤ maxSize
  begun : b.current.data = [] → b.full = [] ∧ b.current.count = 0
  begin_eq : ∀ r ∈ b.current.data.head?, r.1 = b.current.beginIndex

/-- The counts so far are right. -/
structure Counted (b : ChunkBuilder) : Prop where
  full : ∀ c ∈ b.full, c.Counted
  current : b.current.Counted

theorem framed_new (expected : List Chunk) :
    (new expected).Framed :=
  ⟨by simp [new], by simp [new], fun _ => ⟨rfl, rfl⟩, by simp [new]⟩

theorem counted_new (expected : List Chunk) :
    (new expected).Counted :=
  ⟨by simp [new], rfl⟩

/-- The four ways in which a range is pushed. -/
inductive Pushes (b : ChunkBuilder) (r : Nat × Nat) : ChunkBuilder → Prop
  | first
      (hdata : b.current.data = [])
      (hfits : b.overflows r = false) :
      Pushes b r
        { b with
          current := { b.current with data := [r], count := (r.2 - r.1 : Nat), beginIndex := r.1 } }
  | touch
      {before : List (Nat × Nat)} {last : Nat × Nat}
      (hdata : b.current.data = before ++ [last])
      (htouch : r.1 = last.2)
      (hfits : b.overflows r = false) :
      Pushes b r
        { b with
          current :=
            { b.current with
              data := before ++ [(last.1, r.2)]
              count := b.current.count + (r.2 - r.1 : Nat) } }
  | room
      {before : List (Nat × Nat)} {last : Nat × Nat}
      (hdata : b.current.data = before ++ [last])
      (htouch : r.1 ≠ last.2)
      (hroom : b.current.data.length < maxSize)
      (hfits : b.overflows r = false) :
      Pushes b r
        { b with
          current :=
            { b.current with
              data := b.current.data ++ [r]
              count := b.current.count + (r.2 - r.1 : Nat) } }
  | next
      {before : List (Nat × Nat)} {last : Nat × Nat}
      (hdata : b.current.data = before ++ [last])
      (htouch : r.1 ≠ last.2)
      (hfull : maxSize ≤ b.current.data.length)
      (hfits : b.overflows r = decide (b.reserved = 0)) :
      Pushes b r
        ⟨{ b.current with endIndex := last.2 } :: b.full,
          ⟨[r], r.1, 0, if b.reserved = 0 then 1 else (r.2 - r.1 : Nat)⟩, b.reserved - 1⟩

theorem pushes_pushBack (b : ChunkBuilder) (r : Nat × Nat) :
    b.Pushes r (b.pushBack r) := by
  rcases List.eq_nil_or_concat b.current.data with hnil | ⟨before, last, hlast⟩
  · rw [pushBack, hnil]
    exact .first hnil (by simp [overflows, hnil])
  rw [List.concat_eq_append] at hlast
  by_cases htouch : r.1 = last.2
  · have hpush := Pushes.touch hlast htouch (by simp [overflows, hlast, htouch])
    rw [pushBack, hlast, List.getLast?_concat]
    simpa only [if_pos htouch, List.dropLast_concat] using hpush
  by_cases hroom : b.current.data.length < maxSize
  · have hpush := Pushes.room hlast htouch hroom (by simp [overflows, hroom])
    rw [pushBack, hlast, List.getLast?_concat]
    simp only [if_neg htouch]
    rwa [← hlast, if_pos hroom]
  · have hfull : maxSize ≤ b.current.data.length := by omega
    have hany : b.current.data.getLast?.any (fun last => decide (r.1 ≠ last.2)) = true := by
      rw [hlast, List.getLast?_concat]
      simpa using htouch
    have hpush := Pushes.next hlast htouch hfull (by
      rw [overflows, hany, decide_eq_true hfull]
      rfl)
    rw [pushBack, hlast, List.getLast?_concat]
    simp only [if_neg htouch]
    rw [← hlast, if_neg hroom]
    cases hreserved : b.reserved with
    | zero => simpa [hreserved] using hpush
    | succ reserved => simpa [hreserved] using hpush

section Pushing

variable {b b' : ChunkBuilder}
variable {r : Nat × Nat}

theorem Pushes.framed
    (h : b.Pushes r b')
    (hb : b.Framed) :
    b'.Framed := by
  cases h with
  | first hdata hfits =>
      exact ⟨hb.full, by simp [maxSize], by simp, by simp⟩
  | @touch before last hdata htouch hfits =>
      have hsize := hb.size_le
      have hbegin := hb.begin_eq
      rw [hdata] at hsize
      refine ⟨hb.full, by simpa using hsize, by simp, ?_⟩
      rw [hdata] at hbegin
      cases before with
      | nil => simpa using hbegin
      | cons first before => simpa using hbegin
  | @room before last hdata htouch hroom hfits =>
      refine ⟨hb.full, by simpa using hroom, by simp, ?_⟩
      have hbegin := hb.begin_eq
      simp only
      rw [hdata] at hbegin ⊢
      cases before with
      | nil => simpa using hbegin
      | cons first before => simpa using hbegin
  | @next before last hdata htouch hfull hfits =>
      refine ⟨?_, by simp [maxSize], by simp, by simp⟩
      intro c hc
      rcases List.mem_cons.mp hc with rfl | hc
      · have hbegin := hb.begin_eq
        refine ⟨hb.size_le, ?_, by simp [hdata]⟩
        simp only
        rw [hdata] at hbegin ⊢
        cases before with
        | nil => simpa using hbegin
        | cons first before => simpa using hbegin
      · exact hb.full c hc

/-- The ranges of all chunks are what the ranges of one list would be. -/
theorem Pushes.ranges_eq
    (h : b.Pushes r b')
    (hb : b.Framed) :
    b'.ranges = (ObjectStore.pushBack b.ranges.reverse r).reverse := by
  cases h with
  | first hdata hfits =>
      simp [ranges, hdata, (hb.begun hdata).1, ObjectStore.pushBack]
  | touch hdata htouch hfits =>
      simp [ranges, hdata, ObjectStore.pushBack, htouch]
  | room hdata htouch hroom hfits =>
      simp [ranges, hdata, ObjectStore.pushBack, htouch]
  | next hdata htouch hfull hfits =>
      simp [ranges, hdata, ObjectStore.pushBack, htouch]

/-- A push keeps the counts right unless the chunk it begins gets the wrong count. -/
theorem Pushes.counted_iff
    (h : b.Pushes r b')
    (hb : b.Framed)
    (hr : r.1 < r.2)
    (hranges : ∀ s ∈ b.current.data, s.1 < s.2) :
    b'.Counted ↔ b.Counted ∧ (b.overflows r = true → r.2 = r.1 + 1) := by
  cases h with
  | first hdata hfits =>
      obtain ⟨hfull, hcount⟩ := hb.begun hdata
      have hb_counted : b.Counted :=
        ⟨by simp [hfull], by rw [Chunk.Counted, hdata, hcount]; rfl⟩
      refine ⟨fun _ => ⟨hb_counted, by simp [hfits]⟩, fun _ => ⟨hb_counted.full, ?_⟩⟩
      simp [Chunk.Counted]
  | @touch before last hdata htouch hfits =>
      have hlast := hranges last (by simp [hdata])
      have hcurrent : b.current.Counted ↔
          b.current.count + (r.2 - r.1 : Nat) = total (before ++ [(last.1, r.2)]) := by
        simp only [Chunk.Counted, hdata, total_append, total_cons, total_nil]
        omega
      constructor
      · intro h
        exact ⟨⟨h.full, hcurrent.mpr h.current⟩, by simp [hfits]⟩
      · rintro ⟨h, _⟩
        exact ⟨h.full, hcurrent.mp h.current⟩
  | room hdata htouch hroom hfits =>
      have hcurrent : b.current.Counted ↔
          b.current.count + (r.2 - r.1 : Nat) = total (b.current.data ++ [r]) := by
        simp only [Chunk.Counted, total_append, total_cons, total_nil]
        omega
      constructor
      · intro h
        exact ⟨⟨h.full, hcurrent.mpr h.current⟩, by simp [hfits]⟩
      · rintro ⟨h, _⟩
        exact ⟨h.full, hcurrent.mp h.current⟩
  | @next before last hdata htouch hfull hfits =>
      have hnew : (b.overflows r = true → r.2 = r.1 + 1) ↔
          (if b.reserved = 0 then 1 else (r.2 - r.1 : Nat) : Int) = total [r] := by
        rw [hfits]
        simp only [decide_eq_true_eq, total_cons, total_nil]
        split <;> omega
      constructor
      · intro h
        refine ⟨⟨fun c hc => h.full c (List.mem_cons_of_mem _ hc), ?_⟩, hnew.mpr h.current⟩
        exact h.full { b.current with endIndex := last.2 } List.mem_cons_self
      · rintro ⟨h, hones⟩
        refine ⟨?_, hnew.mp hones⟩
        intro c hc
        rcases List.mem_cons.mp hc with rfl | hc
        · exact h.current
        · exact h.full c hc

end Pushing

section Built

variable {b : ChunkBuilder}
variable {pushed : List (Nat × Nat)}

theorem framed_foldl
    (hb : b.Framed) :
    (pushed.foldl pushBack b).Framed := by
  induction pushed generalizing b with
  | nil => exact hb
  | cons r pushed ih => exact ih ((b.pushes_pushBack r).framed hb)

theorem ranges_foldl
    (hb : b.Framed) :
    (pushed.foldl pushBack b).ranges =
      (pushed.foldl ObjectStore.pushBack b.ranges.reverse).reverse := by
  induction pushed generalizing b with
  | nil =>
      simp
  | cons r pushed ih =>
      have hpush := b.pushes_pushBack r
      rw [List.foldl_cons, ih (hpush.framed hb), hpush.ranges_eq hb, List.reverse_reverse]
      rfl

theorem Pushes.nonempty
    {b' : ChunkBuilder} {r : Nat × Nat}
    (h : b.Pushes r b')
    (hr : r.1 < r.2)
    (hranges : ∀ s ∈ b.current.data, s.1 < s.2) :
    ∀ s ∈ b'.current.data, s.1 < s.2 := by
  cases h with
  | first hdata hfits =>
      simpa using hr
  | @touch before last hdata htouch hfits =>
      have hlast := hranges last (by simp [hdata])
      intro s hs
      rcases List.mem_append.mp hs with hs | hs
      · exact hranges s (by simp [hdata, hs])
      · rw [List.mem_singleton.mp hs]
        simp only
        omega
  | room hdata htouch hroom hfits =>
      intro s hs
      rcases List.mem_append.mp hs with hs | hs
      · exact hranges s hs
      · rwa [List.mem_singleton.mp hs]
  | next hdata htouch hfull hfits =>
      simpa using hr

theorem counted_foldl_iff
    (hb : b.Framed)
    (hpushed : ∀ r ∈ pushed, r.1 < r.2)
    (hranges : ∀ s ∈ b.current.data, s.1 < s.2) :
    (pushed.foldl pushBack b).Counted ↔ b.Counted ∧ b.OverflowsByOnes pushed := by
  induction pushed generalizing b with
  | nil =>
      exact ⟨fun h => ⟨h, trivial⟩, fun h => h.1⟩
  | cons r pushed ih =>
      have hpush := b.pushes_pushBack r
      have hr := hpushed r List.mem_cons_self
      rw [List.foldl_cons, ih (hpush.framed hb)
        (fun s hs => hpushed s (List.mem_cons_of_mem r hs)) (hpush.nonempty hr hranges),
        hpush.counted_iff hb hr hranges, OverflowsByOnes, and_assoc]

theorem chunkRanges_finalize :
    chunkRanges b.finalize = b.ranges := by
  rw [finalize, ranges]
  split
  next hnone =>
    have hdata := List.getLast?_eq_none_iff.mp hnone
    simp [hdata]
  next last hlast =>
    simp

theorem framed_finalize
    (hb : b.Framed) :
    ∀ c ∈ b.finalize, c.Framed := by
  rw [finalize]
  split
  next hnone =>
    intro c hc
    exact hb.full c (List.mem_reverse.mp hc)
  next last hlast =>
    intro c hc
    rcases List.mem_cons.mp (List.mem_reverse.mp hc) with rfl | hc
    · have hbegin := hb.begin_eq
      refine ⟨hb.size_le, ?_, by simp [hlast]⟩
      cases hdata : b.current.data with
      | nil =>
          rw [hdata] at hlast
          cases hlast
      | cons r rest =>
          rw [hdata] at hbegin
          simpa using hbegin
    · exact hb.full c hc

theorem counted_finalize_iff
    (hb : b.Framed) :
    (∀ c ∈ b.finalize, c.Counted) ↔ b.Counted := by
  rw [finalize]
  split
  next hnone =>
    have hdata := List.getLast?_eq_none_iff.mp hnone
    obtain ⟨hfull, hcount⟩ := hb.begun hdata
    refine ⟨fun _ => ⟨by simp [hfull], ?_⟩, fun _ => by simp [hfull]⟩
    rw [Chunk.Counted, hdata, hcount]
    rfl
  next last hlast =>
    constructor
    · intro h
      exact ⟨fun c hc => h c (by simp [hc]), h { b.current with endIndex := last.2 } (by simp)⟩
    · intro h c hc
      rcases List.mem_cons.mp (List.mem_reverse.mp hc) with rfl | hc
      · exact h.current
      · exact h.full c hc

/-- No chunk beyond the reserved ones is begun so far. -/
structure Within (b : ChunkBuilder) (reserved : Nat) : Prop where
  full : maxSize * b.full.length ≤ (chunkRanges b.full.reverse).length
  reserved_eq : b.full.length + b.reserved + 1 = reserved

theorem Pushes.length_le
    {b' : ChunkBuilder} {r : Nat × Nat}
    (h : b.Pushes r b') :
    b.ranges.length ≤ b'.ranges.length := by
  cases h <;> simp_all [ranges]

theorem length_le_foldl :
    b.ranges.length ≤ (pushed.foldl pushBack b).ranges.length := by
  induction pushed generalizing b with
  | nil => exact le_rfl
  | cons r pushed ih => exact (b.pushes_pushBack r).length_le.trans ih

/-- Either there is room for the range, or there are more than fit in. -/
theorem Pushes.within
    {b' : ChunkBuilder} {r : Nat × Nat} {reserved : Nat}
    (h : b.Pushes r b')
    (hb : b.Within reserved) :
    (b.overflows r = false ∧ b'.Within reserved) ∨
      maxSize * reserved < b'.ranges.length := by
  have hfull := hb.full
  have hreserved := hb.reserved_eq
  cases h with
  | first hdata hfits | touch hdata htouch hfits | room hdata htouch hroom hfits =>
      exact .inl ⟨hfits, hfull, hreserved⟩
  | next hdata htouch hmax hfits =>
      by_cases hnone : b.reserved = 0
      · right
        rw [← hreserved, hnone]
        simp only [ranges, List.reverse_cons, chunkRanges_append, chunkRanges_cons,
          chunkRanges_nil, List.append_nil, List.length_append, List.length_singleton,
          Nat.mul_add, Nat.mul_one, Nat.add_zero]
        omega
      · left
        refine ⟨by rw [hfits, decide_eq_false hnone], ?_, ?_⟩
        · simp only [List.reverse_cons, chunkRanges_append, chunkRanges_cons,
            chunkRanges_nil, List.append_nil, List.length_append, List.length_cons,
            Nat.mul_add, Nat.mul_one]
          omega
        · simp only [List.length_cons]
          omega

theorem overflowsByOnes_of_length
    {reserved : Nat}
    (hb : b.Within reserved)
    (h : (pushed.foldl pushBack b).ranges.length ≤ maxSize * reserved) :
    b.OverflowsByOnes pushed := by
  induction pushed generalizing b with
  | nil =>
      trivial
  | cons r pushed ih =>
      rcases (b.pushes_pushBack r).within hb with ⟨hfits, hwithin⟩ | hmore
      · exact ⟨by simp [hfits], ih hwithin h⟩
      · have hle := @length_le_foldl (b.pushBack r) pushed
        rw [List.foldl_cons] at h
        omega

theorem overflowsByOnes_singles (b : ChunkBuilder) (indexes : List Nat) :
    b.OverflowsByOnes (singles indexes) := by
  induction indexes generalizing b with
  | nil => trivial
  | cons i indexes ih => exact ⟨fun _ => rfl, ih _⟩

end Built

end ChunkBuilder

open ChunkBuilder

/-- All that was pushed, and `finalize()`. -/
def chunkBuild (expected : List Chunk) (pushed : List (Nat × Nat)) : List Chunk :=
  (pushed.foldl ChunkBuilder.pushBack (new expected)).finalize

variable (expected : List Chunk) (pushed : List (Nat × Nat))

theorem framed_chunkBuild :
    ∀ c ∈ chunkBuild expected pushed, c.Framed :=
  framed_finalize (framed_foldl (framed_new expected))

theorem chunkRanges_chunkBuild :
    chunkRanges (chunkBuild expected pushed) = build pushed := by
  rw [chunkBuild, chunkRanges_finalize,
    ranges_foldl (framed_new expected)]
  rfl

/-- The counts of what is built are right exactly when no range with several indices
begins a chunk beyond the reserved ones. -/
theorem counted_chunkBuild_iff
    (hpushed : ∀ r ∈ pushed, r.1 < r.2) :
    (∀ c ∈ chunkBuild expected pushed, c.Counted)
      ↔
    (new expected).OverflowsByOnes pushed := by
  rw [chunkBuild, counted_finalize_iff (framed_foldl (framed_new expected)),
    counted_foldl_iff (framed_new expected) hpushed (by simp [new])]
  exact and_iff_right (counted_new expected)

/-- They are right when the ranges go into the reserved chunks. -/
theorem overflowsByOnes_of_build_length
    (h : (build pushed).length ≤
      maxSize * ((chunkRanges expected).length / maxSize + 1)) :
    (new expected).OverflowsByOnes pushed := by
  have hwithin : (new expected).Within ((chunkRanges expected).length / maxSize + 1) :=
    ⟨by simp [new], by simp [new]⟩
  refine overflowsByOnes_of_length hwithin ?_
  rw [ranges_foldl (framed_new expected)]
  exact h

end Builder

end ObjectStore
end NotVK
