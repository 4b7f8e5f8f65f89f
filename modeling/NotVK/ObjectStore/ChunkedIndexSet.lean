import NotVK.ObjectStore.ChunkedRangeVector

/-!
# An index set in chunks

The operations that a merge of change sets needs, on the chunks of an index set.
Their ranges are those of the operations on one list of ranges.  The counts of the
chunks stay right as well, but for the counts that `add_shifted_by` leaves behind.
-/

namespace NotVK
namespace ObjectStore

section Changing

/-- `data.front().first`. -/
def frontBegin (ranges : List (Nat × Nat)) : Nat :=
  (ranges.head?.map Prod.fst).getD 0

/-- `data.back().second`. -/
def backEnd (ranges : List (Nat × Nat)) : Nat :=
  (ranges.getLast?.map Prod.snd).getD 0

namespace Chunk

/-- `set(front, back)` of an iterator that points to `r`. -/
def set
    (c : Chunk) (before : List (Nat × Nat)) (r : Nat × Nat) (after : List (Nat × Nat))
    (front back : Nat) : Chunk where
  data := before ++ (front, back) :: after
  beginIndex := if before = [] then front else c.beginIndex
  endIndex := if after = [] then back else c.endIndex
  count := c.count - (r.2 - r.1 : Nat) + (back - front : Nat)

/-- `erase` of an iterator that points to `r`; an empty chunk is erased as well. -/
def erase
    (c : Chunk) (before : List (Nat × Nat)) (r : Nat × Nat) (after : List (Nat × Nat)) :
    List Chunk :=
  if before ++ after = [] then []
  else
    [⟨before ++ after, frontBegin (before ++ after), backEnd (before ++ after),
      c.count - (r.2 - r.1 : Nat)⟩]

/-- The two halves of a chunk, from `ensure_space`. -/
def halves (c : Chunk) : Chunk × Chunk :=
  let toMove := maxSize / 2
  let kept := c.data.take (c.data.length - toMove)
  let moved := c.data.drop (c.data.length - toMove)
  (⟨kept, c.beginIndex, backEnd kept, c.count - total moved⟩,
    ⟨moved, frontBegin moved, backEnd moved, total moved⟩)

/-- A range goes into a chunk that has space. -/
def insertAt (c : Chunk) (offset : Nat) (value : Nat × Nat) : Chunk where
  data := c.data.take offset ++ value :: c.data.drop offset
  beginIndex := min c.beginIndex value.1
  endIndex := max c.endIndex value.2
  count := c.count + (value.2 - value.1 : Nat)

/-- `insert` before the range at the offset. -/
def insert (c : Chunk) (offset : Nat) (value : Nat × Nat) : List Chunk :=
  if c.data.length + 1 ≤ maxSize then [c.insertAt offset value]
  else if maxSize / 2 ≤ offset then
    [c.halves.1, c.halves.2.insertAt (offset - maxSize / 2) value]
  else [c.halves.1.insertAt offset value, c.halves.2]

/-- `push_back`, for the last chunk. -/
def pushBack (c : Chunk) (value : Nat × Nat) : List Chunk :=
  if c.data.length < maxSize then
    [{ c with
      data := c.data ++ [value]
      count := c.count + (value.2 - value.1 : Nat)
      endIndex := value.2 }]
  else [c, ⟨[value], value.1, value.2, (value.2 - value.1 : Nat)⟩]

end Chunk

/-- `insert` after a range of the chunk: in it, in the next one, or at the end. -/
def insertNext
    (c : Chunk) (offset : Nat) (value : Nat × Nat) (rest : List Chunk) : List Chunk :=
  if offset < c.data.length then c.insert offset value ++ rest
  else
    match rest with
    | [] => c.pushBack value
    | d :: rest => c :: (d.insert 0 value ++ rest)

/-- `do_remove` at the iterator that `find` returns, for a single index; the range
after the one that is found is past the index, and the loop ends. -/
def removeAt
    (index : Nat) (c : Chunk) (before back : List (Nat × Nat)) (rest : List Chunk) :
    List Chunk :=
  match back with
  | [] => c :: rest
  | r :: after =>
      if index + 1 ≤ r.1 then c :: rest
      else if r.1 < index ∧ index + 1 < r.2 then
        insertNext (c.set before r after r.1 index) (before.length + 1) (index + 1, r.2) rest
      else if r.1 = index ∧ r.2 ≤ index + 1 then c.erase before r after ++ rest
      else if r.1 = index then c.set before r after (index + 1) r.2 :: rest
      else c.set before r after r.1 index :: rest

/-- `remove(index)`. -/
def removeChunks (index : Nat) : List Chunk → List Chunk
  | [] => []
  | c :: rest =>
      if index < c.endIndex then
        if index < c.beginIndex then c :: rest
        else
          removeAt index c (Iterator.find index [] c.data).front.reverse
            (Iterator.find index [] c.data).back rest
      else c :: removeChunks index rest

/-- `do_add` of an index that is past all ranges. -/
def addLast : List Chunk → Nat → List Chunk
  | [], index => [⟨[(index, index + 1)], index, index + 1, 1⟩]
  | [c], index =>
      match c.data.getLast? with
      | none => c.pushBack (index, index + 1)
      | some last =>
          -- immediately after an existing range
          if last.2 = index then [c.set c.data.dropLast last [] last.1 (last.2 + 1)]
          else c.pushBack (index, index + 1)
  | c :: d :: rest, index => c :: addLast (d :: rest) index

/-- What is left of a range that ends after the index. -/
def without (index : Nat) (r : Nat × Nat) : List (Nat × Nat) :=
  if index + 1 ≤ r.1 then [r]
  else if r.1 < index ∧ index + 1 < r.2 then [(r.1, index), (index + 1, r.2)]
  else if r.1 = index ∧ r.2 ≤ index + 1 then []
  else if r.1 = index then [(index + 1, r.2)]
  else [(r.1, index)]

/-- Chunks that hold the given ranges. -/
structure Stores (chunks : List Chunk) (ranges : List (Nat × Nat)) : Prop where
  ranges_eq : chunkRanges chunks = ranges
  framed : ∀ c ∈ chunks, c.Framed

theorem Stores.append
    {chunks chunks' : List Chunk} {ranges ranges' : List (Nat × Nat)}
    (h : Stores chunks ranges)
    (h' : Stores chunks' ranges') :
    Stores (chunks ++ chunks') (ranges ++ ranges') where
  ranges_eq := by rw [chunkRanges_append, h.ranges_eq, h'.ranges_eq]
  framed := by
    intro c hc
    rcases List.mem_append.mp hc with hc | hc
    · exact h.framed c hc
    · exact h'.framed c hc

theorem stores_singleton
    {c : Chunk}
    (h : c.Framed) :
    Stores [c] c.data :=
  ⟨by simp, by simpa using h⟩

/-- A chunk that has the bounds of its ranges. -/
theorem framed_of_ne_nil
    {ranges : List (Nat × Nat)}
    (hne : ranges ≠ [])
    (hsize : ranges.length ≤ maxSize)
    (count : Int) :
    Chunk.Framed ⟨ranges, frontBegin ranges, backEnd ranges, count⟩ := by
  obtain ⟨r, rest, rfl⟩ := List.exists_cons_of_ne_nil hne
  exact ⟨hsize, rfl, by simp [backEnd, List.getLast?_cons]⟩

section Framing

variable {c : Chunk}
variable {before after : List (Nat × Nat)}
variable {r value : Nat × Nat}

theorem framed_set
    (hc : c.Framed)
    (hdata : c.data = before ++ r :: after)
    (front back : Nat) :
    (c.set before r after front back).Framed := by
  obtain ⟨hsize, hbegin, hend⟩ := hc
  rw [hdata] at hsize hbegin hend
  refine ⟨by simpa [Chunk.set] using hsize, ?_, ?_⟩
  · cases before with
    | nil => simp [Chunk.set]
    | cons first before => simpa [Chunk.set] using hbegin
  · cases after with
    | nil => simp [Chunk.set]
    | cons next after => simpa [Chunk.set, List.getLast?_cons] using hend

theorem counted_set
    (hc : c.Counted)
    (hdata : c.data = before ++ r :: after)
    (front back : Nat) :
    (c.set before r after front back).Counted := by
  rw [Chunk.Counted, hdata] at hc
  simp only [Chunk.Counted, Chunk.set, hc, total_append, total_cons]
  omega

theorem stores_erase
    (hc : c.Framed)
    (hdata : c.data = before ++ r :: after) :
    Stores (c.erase before r after) (before ++ after) := by
  have hsize := hc.size_le
  rw [hdata] at hsize
  rw [Chunk.erase]
  split
  next hnil => exact ⟨hnil.symm, by simp⟩
  next hne =>
    refine stores_singleton (framed_of_ne_nil hne ?_ _)
    simp only [List.length_append, List.length_cons] at hsize ⊢
    omega

theorem counted_erase
    (hc : c.Counted)
    (hdata : c.data = before ++ r :: after) :
    ∀ d ∈ c.erase before r after, d.Counted := by
  rw [Chunk.Counted, hdata] at hc
  rw [Chunk.erase]
  split
  · simp
  · intro d hd
    rw [List.mem_singleton.mp hd]
    simp only [Chunk.Counted, hc, total_append, total_cons]
    omega

/-- The chunk begins with its first range or with the one that was put before it. -/
theorem begin_insertAt
    {offset : Nat}
    (hc : c.Framed)
    (hordered : Ordered (c.data.take offset ++ value :: c.data.drop offset)) :
    (c.insertAt offset value).data.head?.map Prod.fst =
      some (c.insertAt offset value).beginIndex := by
  obtain ⟨htake, hdrop, hcross⟩ := (ordered_append _ _).mp hordered
  obtain ⟨hvalue, hpast, _⟩ := (ordered_cons _ _).mp hdrop
  have hbegin := hc.begin_eq
  cases hhead : c.data with
  | nil => exact absurd hhead hc.data_ne_nil
  | cons first rest =>
      rw [hhead, List.head?_cons, Option.map_some, Option.some.injEq] at hbegin
      rw [Chunk.insertAt, hhead, ← hbegin]
      cases offset with
      | zero =>
          have hlt := hpast first (by simp [hhead])
          simp only [List.take_zero, List.nil_append, List.head?_cons, Option.map_some,
            Option.some.injEq]
          omega
      | succ offset =>
          have hmem : first ∈ c.data.take (offset + 1) := by simp [hhead]
          have hlt := hcross first hmem value List.mem_cons_self
          have hfirst := htake.nonempty first hmem
          simp only [List.take_succ_cons, List.cons_append, List.head?_cons,
            Option.map_some, Option.some.injEq]
          omega

/-- The chunk ends with its last range or with the one that was put after it. -/
theorem end_insertAt
    {offset : Nat}
    (hc : c.Framed)
    (hordered : Ordered (c.data.take offset ++ value :: c.data.drop offset)) :
    (c.insertAt offset value).data.getLast?.map Prod.snd =
      some (c.insertAt offset value).endIndex := by
  obtain ⟨htake, hdrop, hcross⟩ := (ordered_append _ _).mp hordered
  obtain ⟨hvalue, hpast, _⟩ := (ordered_cons _ _).mp hdrop
  obtain ⟨front, last, hlast, hlast_end⟩ := hc.exists_last
  rw [Chunk.insertAt, ← hlast_end]
  cases hrest : c.data.drop offset with
  | nil =>
      have hmem : last ∈ c.data.take offset := by
        rw [List.take_of_length_le (List.drop_eq_nil_iff.mp hrest), hlast]
        simp
      have hlt := hcross last hmem value List.mem_cons_self
      simp only [List.getLast?_concat, Option.map_some, Option.some.injEq]
      omega
  | cons next rest =>
      have hback : (next :: rest).getLast? = some last := by
        have hsplit := List.take_append_drop offset c.data
        rw [hrest, hlast] at hsplit
        have hget := congrArg List.getLast? hsplit
        rwa [List.getLast?_append_of_ne_nil _ (by simp), List.getLast?_concat] at hget
      have hlt := hpast last (by
        rw [hrest]
        exact List.mem_of_getLast? hback)
      have hlast_lt := hdrop.nonempty last (by
        rw [hrest]
        exact List.mem_cons_of_mem _ (List.mem_of_getLast? hback))
      rw [List.getLast?_append_of_ne_nil _ (by simp), List.getLast?_cons_cons, hback,
        Option.map_some, Option.some.injEq]
      simp only
      omega

/-- A range goes into a chunk where it belongs. -/
theorem framed_insertAt
    {offset : Nat}
    (hc : c.Framed)
    (hspace : c.data.length + 1 ≤ maxSize)
    (hordered : Ordered (c.data.take offset ++ value :: c.data.drop offset)) :
    (c.insertAt offset value).Framed := by
  refine ⟨?_, begin_insertAt hc hordered, end_insertAt hc hordered⟩
  rw [Chunk.insertAt, List.length_append, List.length_cons, ← Nat.add_assoc,
    ← List.length_append, List.take_append_drop]
  exact hspace

theorem counted_insertAt
    {offset : Nat}
    (hc : c.Counted) :
    (c.insertAt offset value).Counted := by
  have hsplit : total c.data = total (c.data.take offset) + total (c.data.drop offset) := by
    rw [← total_append, List.take_append_drop]
  rw [Chunk.Counted, hsplit] at hc
  simp only [Chunk.Counted, Chunk.insertAt, hc, total_append, total_cons]
  omega

/-- The two halves are what the chunk was. -/
structure Halved (c : Chunk) (halves : Chunk × Chunk) : Prop where
  data_eq : c.data = halves.1.data ++ halves.2.data
  length_eq : halves.1.data.length = maxSize / 2
  space_first : halves.1.data.length + 1 ≤ maxSize
  space_second : halves.2.data.length + 1 ≤ maxSize
  first : halves.1.Framed
  second : halves.2.Framed

theorem halved_halves
    (hc : c.Framed)
    (hfull : ¬ c.data.length + 1 ≤ maxSize) :
    Halved c c.halves := by
  have hsize : c.data.length = maxSize := by
    have := hc.size_le
    omega
  have hmax : maxSize = 256 := rfl
  have hkept : (c.data.take (c.data.length - maxSize / 2)).length = maxSize / 2 := by
    rw [List.length_take]
    omega
  have hmoved : (c.data.drop (c.data.length - maxSize / 2)).length = maxSize / 2 := by
    rw [List.length_drop]
    omega
  have hkept_ne : c.data.take (c.data.length - maxSize / 2) ≠ [] := by
    intro hnil
    rw [hnil, List.length_nil] at hkept
    omega
  have hmoved_ne : c.data.drop (c.data.length - maxSize / 2) ≠ [] := by
    intro hnil
    rw [hnil, List.length_nil] at hmoved
    omega
  have hbegin : (c.data.take (c.data.length - maxSize / 2)).head?.map Prod.fst =
      some c.beginIndex := by
    rw [← hc.begin_eq, List.head?_take, if_neg (by omega)]
  have hend := (framed_of_ne_nil hkept_ne (by omega) 0).end_eq
  rw [Chunk.halves]
  generalize c.data.length - maxSize / 2 = kept at *
  refine ⟨(List.take_append_drop _ _).symm, hkept, ?_, ?_, ⟨?_, hbegin, hend⟩,
    framed_of_ne_nil hmoved_ne (by omega) _⟩
  · simp only [hkept]
    omega
  · simp only [hmoved]
    omega
  · simp only [hkept]
    omega

theorem counted_halves
    (hc : c.Counted) :
    c.halves.1.Counted ∧ c.halves.2.Counted := by
  have hsplit : total c.data = total (c.data.take (c.data.length - maxSize / 2)) +
      total (c.data.drop (c.data.length - maxSize / 2)) := by
    rw [← total_append, List.take_append_drop]
  rw [Chunk.Counted, hsplit] at hc
  rw [Chunk.halves]
  generalize c.data.length - maxSize / 2 = kept at *
  refine ⟨?_, rfl⟩
  simp only [Chunk.Counted, hc]
  omega

/-- `insert` puts a range before the one at the offset, in one chunk or in two. -/
theorem stores_insert
    {offset : Nat}
    (hc : c.Framed)
    (hordered : Ordered (c.data.take offset ++ value :: c.data.drop offset)) :
    Stores (c.insert offset value) (c.data.take offset ++ value :: c.data.drop offset) := by
  rw [Chunk.insert]
  split
  next hspace =>
    exact stores_singleton (framed_insertAt hc hspace hordered)
  next hfull =>
    obtain ⟨hdata, hlength, hfirst_space, hsecond_space, hfirst, hsecond⟩ :=
      halved_halves hc hfull
    generalize c.halves = halves at *
    rw [hdata, List.take_append, List.drop_append, hlength] at hordered ⊢
    split
    next hsecond_half =>
      rw [List.take_of_length_le (by omega), List.drop_eq_nil_of_le (by omega),
        List.nil_append, List.append_assoc] at hordered ⊢
      exact (stores_singleton hfirst).append (stores_singleton
        (framed_insertAt hsecond hsecond_space ((ordered_append _ _).mp hordered).2.1))
    next hfirst_half =>
      have hnone : offset - maxSize / 2 = 0 := by omega
      rw [hnone, List.take_zero, List.drop_zero, List.append_nil, ← List.cons_append,
        ← List.append_assoc] at hordered ⊢
      exact (stores_singleton (framed_insertAt hfirst hfirst_space
        ((ordered_append _ _).mp hordered).1)).append (stores_singleton hsecond)

theorem counted_insert
    {offset : Nat}
    (hc : c.Counted) :
    ∀ d ∈ c.insert offset value, d.Counted := by
  obtain ⟨hfirst, hsecond⟩ := counted_halves hc
  rw [Chunk.insert]
  intro d hd
  split at hd
  · rw [List.mem_singleton.mp hd]
    exact counted_insertAt hc
  · split at hd
    · rcases List.mem_pair.mp hd with rfl | rfl
      · exact hfirst
      · exact counted_insertAt hsecond
    · rcases List.mem_pair.mp hd with rfl | rfl
      · exact counted_insertAt hfirst
      · exact hsecond

theorem stores_pushBack
    (hc : c.Framed) :
    Stores (c.pushBack value) (c.data ++ [value]) := by
  rw [Chunk.pushBack]
  split
  next hspace =>
    refine stores_singleton ⟨by simp; omega, ?_, by simp⟩
    rw [← hc.begin_eq, List.head?_append_of_ne_nil _ hc.data_ne_nil]
  next =>
    exact (stores_singleton hc).append (stores_singleton ⟨by simp [maxSize], rfl, rfl⟩)

theorem counted_pushBack
    (hc : c.Counted) :
    ∀ d ∈ c.pushBack value, d.Counted := by
  rw [Chunk.Counted] at hc
  rw [Chunk.pushBack]
  split
  · intro d hd
    rw [List.mem_singleton.mp hd]
    simp only [Chunk.Counted, hc, total_append, total_cons, total_nil]
    omega
  · intro d hd
    rcases List.mem_pair.mp hd with rfl | rfl
    · exact hc
    · simp [Chunk.Counted]

end Framing

section Removing

open Iterator

variable {index : Nat}
variable {c : Chunk}
variable {rest : List Chunk}

theorem ranges_doRemove_front
    (front back : List (Nat × Nat)) (first last : Nat) :
    (doRemove front back first last).ranges =
      front.reverse ++ (doRemove [] back first last).ranges := by
  induction back generalizing front first with
  | nil =>
      simp [doRemove, Iterator.ranges]
  | cons r back ih =>
      simp only [doRemove]
      split
      · rw [ih (r :: front), ih [r], List.reverse_cons, List.append_assoc]
        rfl
      · split
        · split
          · simp [Iterator.ranges]
          · split
            · rw [ih front]
            · split
              · simp [Iterator.ranges]
              · rw [ih (_ :: front), ih [_], List.reverse_cons, List.append_assoc]
                rfl
        · simp [Iterator.ranges]

/-- Nothing is removed from ranges that are past the last index. -/
theorem ranges_doRemove_of_le
    {first last : Nat} {back : List (Nat × Nat)}
    (hlast : first < last)
    (h : ∀ r ∈ back, last ≤ r.1 ∧ r.1 < r.2) :
    (doRemove [] back first last).ranges = back := by
  cases back with
  | nil =>
      rfl
  | cons r back =>
      have hr := h r List.mem_cons_self
      rw [doRemove, if_neg (by omega), if_neg (by omega)]
      rfl

theorem ranges_doRemove_append
    {ranges back : List (Nat × Nat)}
    (h : ∀ r ∈ ranges, r.2 ≤ index) :
    (doRemove [] (ranges ++ back) index (index + 1)).ranges =
      ranges ++ (doRemove [] back index (index + 1)).ranges := by
  induction ranges with
  | nil =>
      rfl
  | cons r ranges ih =>
      rw [List.cons_append, doRemove, if_pos (h r List.mem_cons_self),
        ranges_doRemove_front, ih (fun s hs => h s (List.mem_cons_of_mem r hs))]
      rfl

/-- One range loses the index. -/
theorem ranges_doRemove_cons
    {r : Nat × Nat} {after : List (Nat × Nat)}
    (hordered : Ordered (r :: after))
    (hr : index < r.2) :
    (doRemove [] (r :: after) index (index + 1)).ranges = without index r ++ after := by
  obtain ⟨hr_lt, hfirst, hafter⟩ := (ordered_cons r after).mp hordered
  have hpast : ∀ s ∈ after, index + 1 ≤ s.1 ∧ s.1 < s.2 := by
    intro s hs
    have := hfirst s hs
    have := hafter.nonempty s hs
    omega
  rw [doRemove, if_neg (by omega), without]
  by_cases hout : index + 1 ≤ r.1
  · rw [if_neg (by omega), if_pos hout]
    rfl
  · have hmax : max r.1 index = index := by omega
    rw [if_pos (by omega), if_neg hout, hmax]
    split
    · rfl
    · rename_i hcut
      by_cases hwhole : r.1 = index ∧ r.2 ≤ index + 1
      · rw [if_pos ⟨hwhole.1.symm, hwhole.2⟩, if_pos hwhole,
          ranges_doRemove_of_le (by omega) hpast]
        rfl
      · rw [if_neg (fun h => hwhole ⟨h.1.symm, h.2⟩), if_neg hwhole]
        by_cases hbegin : r.1 = index
        · rw [if_pos hbegin.symm, if_pos hbegin]
          rfl
        · rw [if_neg (fun h => hbegin h.symm), if_neg hbegin, ranges_doRemove_front,
            ranges_doRemove_of_le (by omega) hpast]
          rfl

theorem stores_insertNext
    (offset : Nat) (value : Nat × Nat)
    (hc : c.Framed)
    (hrest : ∀ d ∈ rest, d.Framed)
    (hordered : Ordered
      (c.data.take offset ++ value :: (c.data.drop offset ++ chunkRanges rest))) :
    Stores (insertNext c offset value rest)
      (c.data.take offset ++ value :: (c.data.drop offset ++ chunkRanges rest)) := by
  unfold insertNext
  split
  next hinside =>
    rw [← List.cons_append, ← List.append_assoc] at hordered ⊢
    exact (stores_insert hc ((ordered_append _ _).mp hordered).1).append ⟨rfl, hrest⟩
  next hpast =>
    rw [List.take_of_length_le (by omega), List.drop_eq_nil_of_le (by omega),
      List.nil_append] at hordered ⊢
    cases rest with
    | nil =>
        simpa using stores_pushBack hc
    | cons d rest =>
        have hd := hrest d List.mem_cons_self
        have hinsert := (ordered_append _ _).mp hordered
        rw [chunkRanges_cons, ← List.cons_append, ordered_append] at hinsert
        have hstored : Stores (d.insert 0 value) (d.data.take 0 ++ value :: d.data.drop 0) :=
          stores_insert hd hinsert.2.1.1
        exact (stores_singleton hc).append
          (hstored.append ⟨rfl, fun e he => hrest e (List.mem_cons_of_mem d he)⟩)

theorem counted_insertNext
    {offset : Nat} {value : Nat × Nat}
    (hc : c.Counted)
    (hrest : ∀ d ∈ rest, d.Counted) :
    ∀ d ∈ insertNext c offset value rest, d.Counted := by
  unfold insertNext
  split
  · intro d hd
    rcases List.mem_append.mp hd with hd | hd
    · exact counted_insert hc d hd
    · exact hrest d hd
  · cases rest with
    | nil => exact counted_pushBack hc
    | cons e rest =>
        intro d hd
        rcases List.mem_cons.mp hd with rfl | hd
        · exact hc
        · rcases List.mem_append.mp hd with hd | hd
          · exact counted_insert (hrest e List.mem_cons_self) d hd
          · exact hrest d (List.mem_cons_of_mem e hd)

/-- One range of a chunk loses the index. -/
theorem stores_removeAt
    {before after : List (Nat × Nat)} {r : Nat × Nat}
    (hc : c.Framed)
    (hrest : ∀ d ∈ rest, d.Framed)
    (hdata : c.data = before ++ r :: after)
    (hordered : Ordered (c.data ++ chunkRanges rest)) :
    Stores (removeAt index c before (r :: after) rest)
      (before ++ (without index r ++ (after ++ chunkRanges rest))) := by
  have hstored_rest : Stores rest (chunkRanges rest) := ⟨rfl, hrest⟩
  rw [removeAt, without]
  split
  · have hall := (stores_singleton hc).append hstored_rest
    rw [hdata] at hall
    simpa using hall
  split
  next hcut =>
    have hset := framed_set hc hdata r.1 index
    have htake : (c.set before r after r.1 index).data.take (before.length + 1) =
        before ++ [(r.1, index)] := by
      simp [Chunk.set, List.take_append]
    have hdrop : (c.set before r after r.1 index).data.drop (before.length + 1) = after := by
      simp [Chunk.set, List.drop_append]
    have hinsert : Ordered (before ++ [(r.1, index)] ++
        (index + 1, r.2) :: (after ++ chunkRanges rest)) := by
      rw [hdata] at hordered
      simp only [List.append_assoc, List.cons_append, List.nil_append, ordered_append,
        ordered_cons, List.mem_append, List.mem_cons] at hordered ⊢
      grind
    have hstored := stores_insertNext (before.length + 1) (index + 1, r.2) hset hrest
      (by rwa [htake, hdrop])
    rw [htake, hdrop] at hstored
    simpa using hstored
  split
  next hwhole =>
    have hstored := (stores_erase hc hdata).append hstored_rest
    rwa [List.append_assoc] at hstored
  split
  · have hstored := (stores_singleton (framed_set hc hdata (index + 1) r.2)).append
      hstored_rest
    simpa [Chunk.set] using hstored
  · have hstored := (stores_singleton (framed_set hc hdata r.1 index)).append hstored_rest
    simpa [Chunk.set] using hstored

theorem counted_removeAt
    {before after : List (Nat × Nat)} {r : Nat × Nat}
    (hc : c.Counted)
    (hrest : ∀ d ∈ rest, d.Counted)
    (hdata : c.data = before ++ r :: after) :
    ∀ d ∈ removeAt index c before (r :: after) rest, d.Counted := by
  rw [removeAt]
  split
  · simpa using ⟨hc, hrest⟩
  split
  · exact counted_insertNext (counted_set hc hdata r.1 index) hrest
  split
  · intro d hd
    rcases List.mem_append.mp hd with hd | hd
    · exact counted_erase hc hdata d hd
    · exact hrest d hd
  split
  · simpa using ⟨counted_set hc hdata (index + 1) r.2, hrest⟩
  · simpa using ⟨counted_set hc hdata r.1 index, hrest⟩

/-- The place that is found in a chunk: the ranges before it end before the index. -/
theorem exists_find
    (hc : c.Framed)
    (hdata : Ordered c.data)
    (hlt : index < c.endIndex) :
    ∃ r after, (find index [] c.data).back = r :: after ∧
      c.data = (find index [] c.data).front.reverse ++ r :: after ∧
      (∀ s ∈ (find index [] c.data).front.reverse, s.2 ≤ index) ∧ index < r.2 := by
  have hranges := ranges_find index [] c.data
  obtain ⟨hfront, hback⟩ := @splits_find index [] c.data (by simp) hdata
  obtain ⟨before, last, hlast, hlast_end⟩ := hc.exists_last
  rw [Iterator.ranges, List.reverse_nil, List.nil_append] at hranges
  cases hit : (find index [] c.data).back with
  | nil =>
      have hmem : last ∈ (find index [] c.data).front := by
        rw [hit, List.append_nil] at hranges
        rw [← List.mem_reverse, hranges, hlast]
        simp
      have := hfront last hmem
      omega
  | cons r after =>
      rw [hit] at hranges hback
      exact ⟨r, after, rfl, hranges.symm,
        fun s hs => hfront s (List.mem_reverse.mp hs), hback r List.mem_cons_self⟩

/-- An iterator that is found points to a range. -/
theorem findChunk_back_ne_nil
    {chunks : List Chunk} {it : ChunkIterator}
    (hframed : ∀ c ∈ chunks, c.Framed)
    (hordered : Ordered (chunkRanges chunks))
    (hit : findChunk index chunks = some it) :
    it.back ≠ [] := by
  induction chunks with
  | nil =>
      cases hit
  | cons c rest ih =>
      have hc := hframed c List.mem_cons_self
      rw [chunkRanges_cons, ordered_append] at hordered
      obtain ⟨hdata, hrest, _⟩ := hordered
      rw [findChunk] at hit
      split at hit
      next hlt =>
          split at hit
          · cases hit
            exact hc.data_ne_nil
          · obtain ⟨r, after, hback, _⟩ := exists_find hc hdata hlt
            cases hit
            simp [hback]
      next => exact ih (fun d hd => hframed d (List.mem_cons_of_mem c hd)) hrest hit

/-- `remove(index)` on chunks does what it does on one list of ranges. -/
theorem stores_removeChunks
    {chunks : List Chunk}
    (hframed : ∀ c ∈ chunks, c.Framed)
    (hordered : Ordered (chunkRanges chunks)) :
    Stores (removeChunks index chunks)
      (doRemove [] (chunkRanges chunks) index (index + 1)).ranges := by
  induction chunks with
  | nil =>
      exact ⟨rfl, by simp [removeChunks]⟩
  | cons c rest ih =>
      have hc := hframed c List.mem_cons_self
      have hrest := fun d hd => hframed d (List.mem_cons_of_mem c hd)
      rw [chunkRanges_cons] at hordered ⊢
      obtain ⟨hdata, hrest_ordered, _⟩ := (ordered_append _ _).mp hordered
      rw [removeChunks]
      split
      next hlt =>
          split
          next hbegin =>
              have hall : ∀ r ∈ c.data ++ chunkRanges rest,
                  index + 1 ≤ r.1 ∧ r.1 < r.2 := by
                have hhead := hc.begin_eq
                obtain ⟨first, after, hcons⟩ := List.exists_cons_of_ne_nil hc.data_ne_nil
                rw [hcons, List.head?_cons, Option.map_some, Option.some.injEq] at hhead
                rw [hcons, List.cons_append] at hordered ⊢
                obtain ⟨hfirst_lt, hafter, hordered_after⟩ := (ordered_cons _ _).mp hordered
                intro r hr
                rcases List.mem_cons.mp hr with rfl | hr
                · omega
                · have := hafter r hr
                  have := hordered_after.nonempty r hr
                  omega
              rw [ranges_doRemove_of_le (by omega) hall]
              exact (stores_singleton hc).append ⟨rfl, hrest⟩
          next =>
              obtain ⟨r, after, hback, hsplit, hbefore, hr⟩ := exists_find hc hdata hlt
              have hstored := @stores_removeAt index c rest _ after r hc hrest hsplit hordered
              rw [hback]
              generalize (find index [] c.data).front.reverse = before at *
              have hcons : Ordered (r :: (after ++ chunkRanges rest)) := by
                rw [hsplit, List.append_assoc, List.cons_append] at hordered
                exact ((ordered_append _ _).mp hordered).2.1
              rwa [hsplit, List.append_assoc, List.cons_append,
                ranges_doRemove_append hbefore, ranges_doRemove_cons hcons hr]
      next hge =>
          rw [ranges_doRemove_append
            (fun r hr => (hc.le_end hdata r hr).trans (by omega))]
          exact (stores_singleton hc).append (ih hrest hrest_ordered)

theorem counted_removeChunks
    {chunks : List Chunk}
    (hframed : ∀ c ∈ chunks, c.Framed)
    (hordered : Ordered (chunkRanges chunks))
    (hcounted : ∀ c ∈ chunks, c.Counted) :
    ∀ c ∈ removeChunks index chunks, c.Counted := by
  induction chunks with
  | nil =>
      simp [removeChunks]
  | cons c rest ih =>
      have hc := hframed c List.mem_cons_self
      have hrest := fun d hd => hframed d (List.mem_cons_of_mem c hd)
      have hc_counted := hcounted c List.mem_cons_self
      have hrest_counted := fun d hd => hcounted d (List.mem_cons_of_mem c hd)
      rw [chunkRanges_cons] at hordered
      obtain ⟨hdata, hrest_ordered, _⟩ := (ordered_append _ _).mp hordered
      rw [removeChunks]
      split
      next hlt =>
          split
          · exact hcounted
          · obtain ⟨r, after, hback, hsplit, _, _⟩ := exists_find hc hdata hlt
            rw [hback]
            exact counted_removeAt hc_counted hrest_counted hsplit
      next =>
          intro d hd
          rcases List.mem_cons.mp hd with rfl | hd
          · exact hc_counted
          · exact ih hrest hrest_ordered hrest_counted d hd

end Removing

end Changing

section IndexSets

structure ChunkedIndexSet where
  chunks : List Chunk
  framed : ∀ c ∈ chunks, c.Framed
  ordered : Ordered (chunkRanges chunks)

namespace ChunkedIndexSet

open ChunkBuilder

/-- The set with its ranges in one list. -/
def indexSet (s : ChunkedIndexSet) : IndexSet where
  ranges := chunkRanges s.chunks
  ordered := s.ordered

/-- What `verify()` asserts of the counts. -/
def Counted (s : ChunkedIndexSet) : Prop :=
  ∀ c ∈ s.chunks, c.Counted

instance (s : ChunkedIndexSet) : Decidable s.Counted :=
  inferInstanceAs (Decidable (∀ c ∈ s.chunks, c.Counted))

def empty : ChunkedIndexSet where
  chunks := []
  framed := by simp
  ordered := ordered_nil

/-- `empty()`. -/
def isEmpty (s : ChunkedIndexSet) : Bool :=
  s.chunks.isEmpty

def contains (s : ChunkedIndexSet) (index : Nat) : Bool :=
  (findChunk index s.chunks).any (fun it => it.back.head?.any (fun r => r.1 ≤ index))

/-- `count(start_index, end_index)`. -/
def count (s : ChunkedIndexSet) (first last : Nat) : Int :=
  chunkCount s.chunks first last

def shift (s : ChunkedIndexSet) (index : Nat) : Nat :=
  IndexSet.shiftFrom (chunkRanges s.chunks) index

def unshift (s : ChunkedIndexSet) (index : Nat) : Nat :=
  (index - s.count 0 index).toNat

/-- `remove(index)`. -/
def remove (s : ChunkedIndexSet) (index : Nat) : ChunkedIndexSet where
  chunks := removeChunks index s.chunks
  framed := (stores_removeChunks s.framed s.ordered).framed
  ordered := by
    rw [(stores_removeChunks s.framed s.ordered).ranges_eq]
    exact (s.indexSet.remove index).ordered

/-- A builder that expects the ranges of `s`, and all that it is given. -/
def built
    (s : ChunkedIndexSet) (pushed : List (Nat × Nat)) (hpushed : Ascending pushed) :
    ChunkedIndexSet where
  chunks := chunkBuild s.chunks pushed
  framed := framed_chunkBuild s.chunks pushed
  ordered := by
    rw [chunkRanges_chunkBuild]
    exact ordered_build hpushed

/-- `insert_at(IndexSet)`. -/
def insertAtAll (s positions : ChunkedIndexSet) : ChunkedIndexSet :=
  if positions.isEmpty then s
  else if s.isEmpty then positions
  else
    s.built
      (singles (mergeShifted true 0 (asIndexes (chunkRanges s.chunks))
        (asIndexes (chunkRanges positions.chunks))))
      (ascending_singles (mergeShifted_sorted s.ordered.asIndexes_sorted
        positions.ordered.asIndexes_sorted (passed_empty _) (by simp)))

/-- `erase_at(IndexSet)`. -/
def eraseAtAll (s positions : ChunkedIndexSet) : ChunkedIndexSet :=
  if s.isEmpty || positions.isEmpty then s
  else
    s.built
      (singles (mergeErased 0 (asIndexes (chunkRanges s.chunks))
        (asIndexes (chunkRanges positions.chunks))))
      (ascending_singles (mergeErased_sorted s.ordered.asIndexes_sorted
        positions.ordered.asIndexes_sorted (passed_empty _) (by simp)))

/-- What `add_shifted_by` hands to the builder. -/
def shiftedPushes (s shiftedBy values : ChunkedIndexSet) : List (Nat × Nat) :=
  addShiftedPushes (chunkRanges s.chunks) (chunkRanges shiftedBy.chunks) 0 0 0
    (asIndexes (chunkRanges values.chunks))

theorem ascending_shiftedPushes (s shiftedBy values : ChunkedIndexSet) :
    Ascending (s.shiftedPushes shiftedBy values) :=
  (IndexSet.addShiftedPushes_begin s.indexSet shiftedBy.indexSet values.indexSet).1

def addShiftedBy (s shiftedBy values : ChunkedIndexSet) : ChunkedIndexSet :=
  if values.isEmpty then s
  else
    s.built (s.shiftedPushes shiftedBy values)
      (ascending_shiftedPushes s shiftedBy values)

/-- No range with several indices begins a chunk beyond those that the builder of
`add_shifted_by` reserves. -/
def OverflowsByOnes (s shiftedBy values : ChunkedIndexSet) : Prop :=
  values.isEmpty = false →
    (new s.chunks).OverflowsByOnes (s.shiftedPushes shiftedBy values)

theorem ext_indexSet
    {s t : IndexSet}
    (h : s.ranges = t.ranges) :
    s = t := by
  obtain ⟨ranges, hs⟩ := s
  obtain rfl : ranges = t.ranges := h
  rfl

@[simp] theorem isEmpty_indexSet (s : ChunkedIndexSet) :
    s.indexSet.isEmpty = s.isEmpty := by
  have hframed := s.framed
  change (chunkRanges s.chunks).isEmpty = s.chunks.isEmpty
  cases hchunks : s.chunks with
  | nil => rfl
  | cons c rest =>
      rw [hchunks] at hframed
      simp [(hframed c List.mem_cons_self).data_ne_nil]

@[simp] theorem contains_indexSet (s : ChunkedIndexSet) (index : Nat) :
    s.indexSet.contains index = s.contains index := by
  have hback := back_find_chunkRanges index s.framed s.ordered
  have hne := fun it => @findChunk_back_ne_nil index s.chunks it s.framed s.ordered
  change ((Iterator.find index [] (chunkRanges s.chunks)).back.head?.any
    (fun r => r.1 ≤ index)) = _
  rw [hback, contains]
  cases hit : findChunk index s.chunks with
  | none => rfl
  | some it =>
      rw [Option.map_some, Option.getD_some, ChunkIterator.ranges,
        List.head?_append_of_ne_nil _ (hne it hit)]
      rfl

@[simp] theorem shift_indexSet (s : ChunkedIndexSet) (index : Nat) :
    s.indexSet.shift index = s.shift index := by
  rfl

theorem count_indexSet
    {s : ChunkedIndexSet}
    (hs : s.Counted)
    (last : Nat) :
    s.count 0 last = s.indexSet.count 0 last :=
  chunkCount_eq s.framed s.ordered hs last

theorem unshift_indexSet
    {s : ChunkedIndexSet}
    (hs : s.Counted)
    (index : Nat) :
    s.unshift index = s.indexSet.unshift index := by
  rw [unshift, count_indexSet hs, IndexSet.unshift]
  omega

theorem indexSet_remove (s : ChunkedIndexSet) (index : Nat) :
    (s.remove index).indexSet = s.indexSet.remove index :=
  ext_indexSet (stores_removeChunks s.framed s.ordered).ranges_eq

theorem counted_remove
    {s : ChunkedIndexSet}
    (hs : s.Counted)
    (index : Nat) :
    (s.remove index).Counted :=
  counted_removeChunks s.framed s.ordered hs

theorem ranges_built
    {s : ChunkedIndexSet} {pushed : List (Nat × Nat)}
    (hpushed : Ascending pushed) :
    (s.built pushed hpushed).indexSet.ranges = build pushed :=
  chunkRanges_chunkBuild s.chunks pushed

theorem counted_built_iff
    {s : ChunkedIndexSet} {pushed : List (Nat × Nat)}
    (hpushed : Ascending pushed) :
    (s.built pushed hpushed).Counted ↔ (new s.chunks).OverflowsByOnes pushed :=
  counted_chunkBuild_iff s.chunks pushed hpushed.nonempty

theorem indexSet_insertAtAll (s positions : ChunkedIndexSet) :
    (s.insertAtAll positions).indexSet = s.indexSet.insertAtAll positions.indexSet := by
  rw [insertAtAll, IndexSet.insertAtAll, isEmpty_indexSet, isEmpty_indexSet]
  split
  · rfl
  · split
    · rfl
    · exact ext_indexSet (ranges_built _)

theorem counted_insertAtAll
    {s positions : ChunkedIndexSet}
    (hs : s.Counted)
    (hpositions : positions.Counted) :
    (s.insertAtAll positions).Counted := by
  rw [insertAtAll]
  split
  · exact hs
  · split
    · exact hpositions
    · exact (counted_built_iff _).mpr (overflowsByOnes_singles _ _)

theorem indexSet_eraseAtAll (s positions : ChunkedIndexSet) :
    (s.eraseAtAll positions).indexSet = s.indexSet.eraseAtAll positions.indexSet := by
  rw [eraseAtAll, IndexSet.eraseAtAll, isEmpty_indexSet, isEmpty_indexSet]
  split
  · rfl
  · exact ext_indexSet (ranges_built _)

theorem counted_eraseAtAll
    {s : ChunkedIndexSet}
    (hs : s.Counted)
    (positions : ChunkedIndexSet) :
    (s.eraseAtAll positions).Counted := by
  rw [eraseAtAll]
  split
  · exact hs
  · exact (counted_built_iff _).mpr (overflowsByOnes_singles _ _)

theorem indexSet_addShiftedBy (s shiftedBy values : ChunkedIndexSet) :
    (s.addShiftedBy shiftedBy values).indexSet =
      s.indexSet.addShiftedBy shiftedBy.indexSet values.indexSet := by
  rw [addShiftedBy, IndexSet.addShiftedBy, isEmpty_indexSet]
  split
  · rfl
  · exact ext_indexSet (ranges_built _)

theorem counted_addShiftedBy_iff
    {s : ChunkedIndexSet}
    (hs : s.Counted)
    (shiftedBy values : ChunkedIndexSet) :
    (s.addShiftedBy shiftedBy values).Counted ↔ s.OverflowsByOnes shiftedBy values := by
  rw [addShiftedBy, OverflowsByOnes]
  split
  next hempty =>
    simpa [hempty] using hs
  next hempty =>
    rw [counted_built_iff]
    simp [hempty]

/-- The set that comes out has no more ranges than go into the reserved chunks. -/
theorem overflowsByOnes_of_ranges
    {s shiftedBy values : ChunkedIndexSet}
    (h : (s.addShiftedBy shiftedBy values).indexSet.ranges.length ≤
      maxSize * (s.indexSet.ranges.length / maxSize + 1)) :
    s.OverflowsByOnes shiftedBy values := by
  intro hempty
  rw [addShiftedBy, if_neg (by simp [hempty]), ranges_built] at h
  exact overflowsByOnes_of_build_length s.chunks _ h

/--
**The one walk of `add_shifted_by` gives the indices that the plain way gives: erase
the positions from the values, make room for the set itself, and add.  What `count`
says of them, from the beginning to any index, is right exactly when no range with
several indices begins a chunk beyond those that were reserved.**
-/
theorem addShiftedBy_eq_plain
    {s : ChunkedIndexSet}
    (hs : s.Counted)
    (shiftedBy values : ChunkedIndexSet) :
    (s.addShiftedBy shiftedBy values).indexSet =
        s.indexSet.addAll ((values.indexSet.eraseAtAll shiftedBy.indexSet).shiftForInsertAtAll
          s.indexSet) ∧
      ((∀ last, (s.addShiftedBy shiftedBy values).count 0 last =
          (s.indexSet.addAll
            ((values.indexSet.eraseAtAll shiftedBy.indexSet).shiftForInsertAtAll
              s.indexSet)).count 0 last)
        ↔
      s.OverflowsByOnes shiftedBy values) := by
  have hset := indexSet_addShiftedBy s shiftedBy values
  rw [IndexSet.addShiftedBy_eq_addAll] at hset
  refine ⟨hset, ?_⟩
  rw [← hset, ← counted_addShiftedBy_iff hs]
  exact chunkCount_eq_iff (s.addShiftedBy shiftedBy values).framed
    (s.addShiftedBy shiftedBy values).ordered

/-- Everything goes into the one chunk that is reserved. -/
theorem addShiftedBy_eq_plain_oneChunk :
    ((built .empty (singles [2, 4]) (ascending_singles (by decide))).addShiftedBy
          (built .empty (singles [0]) (ascending_singles (by decide)))
          (built .empty (singles [1, 5]) (ascending_singles (by decide)))).indexSet =
        (built .empty (singles [2, 4]) (ascending_singles (by decide))).indexSet.addAll
          (((built .empty (singles [1, 5])
              (ascending_singles (by decide))).indexSet.eraseAtAll
            (built .empty (singles [0])
              (ascending_singles (by decide))).indexSet).shiftForInsertAtAll
            (built .empty (singles [2, 4]) (ascending_singles (by decide))).indexSet) ∧
      ((built .empty (singles [2, 4]) (ascending_singles (by decide))).addShiftedBy
          (built .empty (singles [0]) (ascending_singles (by decide)))
          (built .empty (singles [1, 5]) (ascending_singles (by decide)))).count 0 5 =
        ((built .empty (singles [2, 4]) (ascending_singles (by decide))).indexSet.addAll
          (((built .empty (singles [1, 5])
              (ascending_singles (by decide))).indexSet.eraseAtAll
            (built .empty (singles [0])
              (ascending_singles (by decide))).indexSet).shiftForInsertAtAll
            (built .empty (singles [2, 4])
              (ascending_singles (by decide))).indexSet)).count 0 5 := by
  obtain ⟨hset, hcount⟩ := addShiftedBy_eq_plain
    (s := built .empty (singles [2, 4]) (ascending_singles (by decide))) (by decide)
    (built .empty (singles [0]) (ascending_singles (by decide)))
    (built .empty (singles [1, 5]) (ascending_singles (by decide)))
  exact ⟨hset, hcount.mpr (overflowsByOnes_of_ranges (by decide)) 5⟩

/-- There are 266 indices, but the range with ten of them begins the second chunk. -/
example :
    chunkCount (chunkBuild [⟨[(1000, 1010)], 1000, 1010, 10⟩]
      (addShiftedPushes [(1000, 1010)] [] 0 0 0
        ((List.range 256).map (fun i => 2 * i)))) 0 2000 = 257 := by
  decide +kernel

end ChunkedIndexSet

end IndexSets

end ObjectStore
end NotVK
