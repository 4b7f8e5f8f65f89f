import Mathlib.Data.List.TakeWhile
import NotVK.ObjectStore.ChunkedIndexSet

/-!
# Longest matching blocks

To find which rows of a sorted collection moved, the old and the new order of
the rows are aligned: the longest block of rows that both orders have is fixed,
and the search goes on before and after it.  The first order is a list of rows,
the second one is given by its rows sorted by key.
-/

namespace NotVK
namespace ObjectStore

namespace LongestCommonSubsequence

/-- An object key and an index in the table view. -/
structure Row where
  key : Int
  tvIndex : Nat
deriving DecidableEq

structure Match where
  /-- The index in `a` at which this match begins. -/
  i : Nat
  /-- The index in `b` at which this match begins. -/
  j : Nat
  size : Nat
  /-- The number of rows in this block which were modified, none for `npos`. -/
  modified : Option Nat

/-- The length of the matching block that ends at `j`. -/
structure Length where
  j : Nat
  len : Nat

section Calculator

variable (modified : List Chunk)
variable (a b : List Row)

/-- `length(j)`. -/
def length (prev : List Length) (j : Nat) : Nat :=
  match prev.find? (fun pair => pair.j + 1 = j) with
  | some pair => pair.len + 1
  | none => 1

/-- The `j` that `for_each_b_match` visits. -/
def bMatches (begin2 end2 : Nat) (key : Int) : List Nat :=
  ((((b.dropWhile (fun r => r.key < key)).takeWhile (fun r => r.key = key)).map
    Row.tvIndex).filter (fun j => begin2 ≤ j)).takeWhile (fun j => j < end2)

/-- `first - size + 1`, which wraps around. -/
def windowStart (first size : Nat) : Nat :=
  if size ≤ first + 1 then first + 1 - size else 2 ^ 64 + first + 1 - size

/-- The choice between the best block and the one of `size` at `a[i]` and `b[j]`. -/
def select (i j size : Nat) (best : Match) : Match :=
  if best.size < size then ⟨i + 1 - size, j + 1 - size, size, none⟩
  else if size = best.size then
    let bestModified :=
      best.modified.getD
        (chunkCount modified (windowStart best.j size) (best.j + 1)).toNat
    let count := (chunkCount modified (windowStart j size) (j + 1)).toNat
    if count < bestModified then ⟨i + 1 - size, j + 1 - size, size, some count⟩
    else { best with modified := some bestModified }
  else best

/-- One row of `a` against its matches in `b`. -/
def matchRow (i : Nat) (prev : List Length) :
    List Nat → List Length → Match → List Length × Match
  | [], cur, best => (cur, best)
  | j :: js, cur, best =>
      matchRow i prev js (cur ++ [⟨j, length prev j⟩])
        (select modified i j (length prev j) best)

/-- The rows of `a` from `i` on. -/
def matchRows (begin2 end2 : Nat) :
    Nat → List Row → List Length → Match → Match
  | _, [], _, best => best
  | i, row :: rows, prev, best =>
      let matched := matchRow modified i prev (bMatches b begin2 end2 row.key) [] best
      matchRows begin2 end2 (i + 1) rows matched.1 matched.2

/-- `find_longest_match`. -/
def findLongestMatch (begin1 end1 begin2 end2 : Nat) : Match :=
  matchRows modified b begin2 end2 begin1 ((a.drop begin1).take (end1 - begin1)) []
    ⟨begin1, begin2, 0, some 0⟩

end Calculator

section Blocks

variable {modified : List Chunk}
variable {a b : List Row}
variable {begin1 end1 begin2 end2 : Nat}

/-- The rows from `i` on in `a` are those from `j` on in `b`. -/
def Common (a b : List Row) (i j size : Nat) : Prop :=
  ∀ k < size, ∃ key, a[i + k]?.map Row.key = some key ∧ (⟨key, j + k⟩ : Row) ∈ b

/-- A common block that ends before `a[i]` and `b[j]`. -/
def Ends (a b : List Row) (begin1 begin2 i j len : Nat) : Prop :=
  ∃ i' j', i' + len = i ∧ j' + len = j ∧ begin1 ≤ i' ∧ begin2 ≤ j' ∧
    Common a b i' j' len

/-- The match is a common block of the range that is searched. -/
structure Match.Sound
    (a b : List Row) (begin1 end1 begin2 end2 : Nat) (m : Match) : Prop where
  left : begin1 ≤ m.i
  left_end : 0 < m.size → m.i + m.size ≤ end1
  right : begin2 ≤ m.j
  right_end : 0 < m.size → m.j + m.size ≤ end2
  common : Common a b m.i m.j m.size

theorem Ends.refl
    {i j : Nat}
    (hi : begin1 ≤ i)
    (hj : begin2 ≤ j) :
    Ends a b begin1 begin2 i j 0 :=
  ⟨i, j, rfl, rfl, hi, hj, fun _ hk => absurd hk (Nat.not_lt_zero _)⟩

theorem Ends.concat
    {i j len : Nat} {key : Int}
    (h : Ends a b begin1 begin2 i j len)
    (ha : a[i]?.map Row.key = some key)
    (hb : (⟨key, j⟩ : Row) ∈ b) :
    Ends a b begin1 begin2 (i + 1) (j + 1) (len + 1) := by
  obtain ⟨i', j', rfl, rfl, hi, hj, hcommon⟩ := h
  refine ⟨i', j', rfl, rfl, hi, hj, fun k hk => ?_⟩
  rcases Nat.lt_succ_iff_lt_or_eq.mp hk with hlt | rfl
  · exact hcommon k hlt
  · exact ⟨key, ha, hb⟩

theorem Ends.dropLast
    {i j len : Nat}
    (h : Ends a b begin1 begin2 (i + 1) (j + 1) (len + 1)) :
    Ends a b begin1 begin2 i j len ∧
      ∃ key, a[i]?.map Row.key = some key ∧ (⟨key, j⟩ : Row) ∈ b := by
  obtain ⟨i', j', hi_end, hj_end, hi, hj, hcommon⟩ := h
  obtain rfl : i' + len = i := by omega
  obtain rfl : j' + len = j := by omega
  exact ⟨⟨i', j', rfl, rfl, hi, hj, fun k hk => hcommon k (Nat.lt_succ_of_lt hk)⟩,
    hcommon len (Nat.lt_succ_self len)⟩

/-- The lengths that are kept of the row before `a[i]`. -/
def RowSound (a b : List Row) (begin1 begin2 i : Nat) (prev : List Length) : Prop :=
  ∀ p ∈ prev, 0 < p.len ∧ Ends a b begin1 begin2 i (p.j + 1) p.len

theorem length_pos (prev : List Length) (j : Nat) :
    0 < length prev j := by
  rw [length]
  split <;> omega

theorem ends_length
    {prev : List Length} {i j : Nat} {key : Int}
    (hprev : RowSound a b begin1 begin2 i prev)
    (hi : begin1 ≤ i)
    (hj : begin2 ≤ j)
    (ha : a[i]?.map Row.key = some key)
    (hb : (⟨key, j⟩ : Row) ∈ b) :
    Ends a b begin1 begin2 (i + 1) (j + 1) (length prev j) := by
  rw [length]
  split
  next p hp =>
    have hmem := List.mem_of_find?_eq_some hp
    have hnext : p.j + 1 = j := by simpa using List.find?_some hp
    have hends := (hprev p hmem).2
    rw [hnext] at hends
    exact hends.concat ha hb
  next =>
    exact (Ends.refl hi hj).concat ha hb

theorem size_select
    {i j size : Nat} {best : Match} :
    (select modified i j size best).size = max best.size size := by
  simp only [select]
  split_ifs with hlt heq hfewer
  · exact (Nat.max_eq_right hlt.le).symm
  · simp [heq]
  · simp [heq]
  · omega

/-- Whichever block is chosen is a sound one. -/
theorem sound_select
    {i j size : Nat} {best : Match}
    (hbest : best.Sound a b begin1 (i + 1) begin2 end2)
    (hends : Ends a b begin1 begin2 (i + 1) (j + 1) size)
    (hj : j < end2) :
    (select modified i j size best).Sound a b begin1 (i + 1) begin2 end2 := by
  obtain ⟨i', j', hi_end, hj_end, hi, hj_begin, hcommon⟩ := hends
  have hi' : i + 1 - size = i' := by omega
  have hj' : j + 1 - size = j' := by omega
  simp only [select, hi', hj']
  split_ifs
  · exact ⟨hi, fun _ => by simp only; omega, hj_begin, fun _ => by simp only; omega, hcommon⟩
  · exact ⟨hi, fun _ => by simp only; omega, hj_begin, fun _ => by simp only; omega, hcommon⟩
  · exact ⟨hbest.left, hbest.left_end, hbest.right, hbest.right_end, hbest.common⟩
  · exact hbest

theorem matchRow_eq
    {i : Nat} {prev cur : List Length} {js : List Nat} {best : Match} :
    matchRow modified i prev js cur best =
      (cur ++ js.map (fun j => ⟨j, length prev j⟩),
        js.foldl (fun best j => select modified i j (length prev j) best) best) := by
  induction js generalizing cur best with
  | nil => simp [matchRow]
  | cons j js ih => simp [matchRow, ih]

theorem mem_bMatches_sound
    {key : Int} {j : Nat}
    (h : j ∈ bMatches b begin2 end2 key) :
    begin2 ≤ j ∧ j < end2 ∧ (⟨key, j⟩ : Row) ∈ b := by
  have hlt := List.mem_takeWhile_imp h
  have hfilter := (List.takeWhile_sublist _).subset h
  rw [List.mem_filter] at hfilter
  obtain ⟨hmap, hle⟩ := hfilter
  obtain ⟨r, hr, rfl⟩ := List.mem_map.mp hmap
  have hkey := List.mem_takeWhile_imp hr
  have hmem := (List.dropWhile_sublist _).subset ((List.takeWhile_sublist _).subset hr)
  simp only [decide_eq_true_eq] at hlt hle hkey
  refine ⟨hle, hlt, ?_⟩
  rw [← hkey]
  exact hmem

theorem sound_foldl_select
    {i : Nat} {prev : List Length} {js : List Nat} {best : Match}
    (hbest : best.Sound a b begin1 (i + 1) begin2 end2)
    (hlength : ∀ j ∈ js, j < end2 ∧
      Ends a b begin1 begin2 (i + 1) (j + 1) (length prev j)) :
    (js.foldl (fun best j => select modified i j (length prev j) best) best).Sound
      a b begin1 (i + 1) begin2 end2 := by
  induction js generalizing best with
  | nil =>
      exact hbest
  | cons j js ih =>
      obtain ⟨hj, hends⟩ := hlength j List.mem_cons_self
      exact ih (sound_select hbest hends hj)
        (fun j hj => hlength j (List.mem_cons_of_mem _ hj))

/-- One row of `a`: what is kept of it, and the best block, are sound. -/
theorem sound_matchRow
    (modified : List Chunk) {i : Nat} {row : Row} {prev : List Length} {best : Match}
    (hi : begin1 ≤ i)
    (hrow : a[i]? = some row)
    (hprev : RowSound a b begin1 begin2 i prev)
    (hbest : best.Sound a b begin1 i begin2 end2) :
    RowSound a b begin1 begin2 (i + 1)
        (matchRow modified i prev (bMatches b begin2 end2 row.key) [] best).1 ∧
      (matchRow modified i prev (bMatches b begin2 end2 row.key) [] best).2.Sound
        a b begin1 (i + 1) begin2 end2 := by
  have ha : a[i]?.map Row.key = some row.key := by rw [hrow]; rfl
  have hlength : ∀ j ∈ bMatches b begin2 end2 row.key,
      j < end2 ∧ Ends a b begin1 begin2 (i + 1) (j + 1) (length prev j) := by
    intro j hj
    obtain ⟨hbegin, hend, hmem⟩ := mem_bMatches_sound hj
    exact ⟨hend, ends_length hprev hi hbegin ha hmem⟩
  rw [matchRow_eq]
  constructor
  · intro p hp
    rw [List.nil_append, List.mem_map] at hp
    obtain ⟨j, hj, rfl⟩ := hp
    exact ⟨length_pos prev j, (hlength j hj).2⟩
  · refine sound_foldl_select { hbest with left_end := ?_ } hlength
    exact fun hsize => Nat.le_succ_of_le (hbest.left_end hsize)

theorem sound_matchRows
    (modified : List Chunk) {i : Nat} {rows : List Row} {prev : List Length} {best : Match}
    (hi : begin1 ≤ i)
    (hrows : ∀ k < rows.length, a[i + k]? = rows[k]?)
    (hprev : RowSound a b begin1 begin2 i prev)
    (hbest : best.Sound a b begin1 i begin2 end2) :
    (matchRows modified b begin2 end2 i rows prev best).Sound
      a b begin1 (i + rows.length) begin2 end2 := by
  induction rows generalizing i prev best with
  | nil =>
      exact hbest
  | cons row rows ih =>
      have hrow : a[i]? = some row := hrows 0 (Nat.succ_pos _)
      obtain ⟨hcur, hbest'⟩ := sound_matchRow modified hi hrow hprev hbest
      have hrest : ∀ k < rows.length, a[i + 1 + k]? = rows[k]? := by
        intro k hk
        have hnext := hrows (k + 1) (Nat.succ_lt_succ hk)
        rwa [show i + (k + 1) = i + 1 + k by omega] at hnext
      have hlater := ih (Nat.le_succ_of_le hi) hrest hcur hbest'
      rw [show i + (row :: rows).length = i + 1 + rows.length by
        rw [List.length_cons]; omega]
      exact hlater

theorem getElem?_range (a : List Row) (begin1 end1 : Nat) :
    ∀ k < ((a.drop begin1).take (end1 - begin1)).length,
      a[begin1 + k]? = ((a.drop begin1).take (end1 - begin1))[k]? := by
  intro k hk
  rw [List.length_take] at hk
  rw [List.getElem?_take_of_lt (by omega), List.getElem?_drop]

/-- **What is found is a common block of the range.** -/
theorem sound_findLongestMatch
    (modified : List Chunk) (a b : List Row) (begin1 end1 begin2 end2 : Nat) :
    (findLongestMatch modified a b begin1 end1 begin2 end2).Sound
      a b begin1 end1 begin2 end2 := by
  have hnone : RowSound a b begin1 begin2 begin1 [] := by simp [RowSound]
  have hbest : Match.Sound a b begin1 begin1 begin2 end2 ⟨begin1, begin2, 0, some 0⟩ :=
    ⟨Nat.le_refl _, fun h => absurd h (Nat.lt_irrefl 0), Nat.le_refl _,
      fun h => absurd h (Nat.lt_irrefl 0), fun _ hk => absurd hk (Nat.not_lt_zero _)⟩
  have hrows := sound_matchRows modified (Nat.le_refl begin1)
    (getElem?_range a begin1 end1) hnone hbest
  refine { hrows with left_end := fun hsize => ?_ }
  have hleft := hrows.left
  have hend := hrows.left_end hsize
  rw [List.length_take] at hend
  rw [findLongestMatch] at hsize ⊢
  omega

end Blocks

section Longest

variable {modified : List Chunk}
variable {a b : List Row}
variable {begin1 end1 begin2 end2 : Nat}

/-- `b` is sorted by key, and by index where keys are the same. -/
def Sorted (b : List Row) : Prop :=
  b.Pairwise (fun r s => r.key < s.key ∨ r.key = s.key ∧ r.tvIndex < s.tvIndex)

theorem takeWhile_eq_filter
    {α : Type} {p : α → Bool} {l : List α}
    (h : l.Pairwise (fun x y => p y = true → p x = true)) :
    l.takeWhile p = l.filter p := by
  induction l with
  | nil =>
      rfl
  | cons x l ih =>
      obtain ⟨hx, hl⟩ := List.pairwise_cons.mp h
      by_cases hpx : p x = true
      · rw [List.takeWhile_cons_of_pos hpx, List.filter_cons_of_pos hpx, ih hl]
      · rw [List.takeWhile_cons_of_neg hpx, List.filter_cons_of_neg hpx]
        symm
        rw [List.filter_eq_nil_iff]
        exact fun y hy hpy => hpx (hx y hy hpy)

theorem dropWhile_eq_filter
    {α : Type} {p : α → Bool} {l : List α}
    (h : l.Pairwise (fun x y => p y = true → p x = true)) :
    l.dropWhile p = l.filter (fun x => !p x) := by
  induction l with
  | nil =>
      rfl
  | cons x l ih =>
      obtain ⟨hx, hl⟩ := List.pairwise_cons.mp h
      by_cases hpx : p x = true
      · rw [List.dropWhile_cons_of_pos hpx, List.filter_cons_of_neg (by simpa using hpx),
          ih hl]
      · rw [List.dropWhile_cons_of_neg hpx, List.filter_cons_of_pos (by simpa using hpx)]
        congr 1
        symm
        rw [List.filter_eq_self]
        exact fun y hy => by simpa using fun hpy => hpx (hx y hy hpy)

/-- The rows of `b` with a key, in the order of their indices. -/
theorem bMatches_eq
    (hb : Sorted b) (key : Int) :
    bMatches b begin2 end2 key =
      ((b.filter (fun r => r.key = key)).map Row.tvIndex).filter
        (fun j => begin2 ≤ j ∧ j < end2) := by
  have hdrop : b.dropWhile (fun r => r.key < key) =
      b.filter (fun r => !decide (r.key < key)) :=
    dropWhile_eq_filter (hb.imp (fun h => by simp only [decide_eq_true_eq]; omega))
  have hrest : Sorted (b.filter (fun r => !decide (r.key < key))) := hb.filter _
  have hge : ∀ r ∈ b.filter (fun r => !decide (r.key < key)), key ≤ r.key := by
    intro r hr
    simpa using (List.mem_filter.mp hr).2
  have htake : (b.filter (fun r => !decide (r.key < key))).takeWhile
      (fun r => r.key = key) = b.filter (fun r => r.key = key) := by
    rw [takeWhile_eq_filter (hrest.imp_of_mem (fun hr _ h => by
      have := hge _ hr
      simp only [decide_eq_true_eq]
      omega)), List.filter_filter]
    apply List.filter_congr
    intro r _
    by_cases hkey : r.key = key <;> simp [hkey]
  have hsorted : ((b.filter (fun r => r.key = key)).map Row.tvIndex).Pairwise
      (· < ·) := by
    rw [List.pairwise_map]
    refine (hb.filter _).imp_of_mem (fun hr hs h => ?_)
    have hr := (List.mem_filter.mp hr).2
    have hs := (List.mem_filter.mp hs).2
    simp only [decide_eq_true_eq] at hr hs
    omega
  rw [bMatches, hdrop, htake, takeWhile_eq_filter ((hsorted.filter _).imp (fun h => by
    simp only [decide_eq_true_eq]
    omega)), List.filter_filter]
  apply List.filter_congr
  intro j _
  rw [Bool.and_comm, Bool.decide_and]

theorem mem_bMatches
    (hb : Sorted b) {key : Int} {j : Nat} :
    j ∈ bMatches b begin2 end2 key
      ↔
    begin2 ≤ j ∧ j < end2 ∧ (⟨key, j⟩ : Row) ∈ b := by
  refine ⟨mem_bMatches_sound, fun ⟨hbegin, hend, hmem⟩ => ?_⟩
  rw [bMatches_eq hb, List.mem_filter, List.mem_map, decide_eq_true_eq]
  exact ⟨⟨⟨key, j⟩, List.mem_filter.mpr ⟨hmem, by simp⟩, rfl⟩, hbegin, hend⟩

theorem bMatches_nodup
    (hb : Sorted b) (key : Int) :
    (bMatches b begin2 end2 key).Nodup := by
  rw [bMatches_eq hb]
  apply List.Nodup.filter
  apply List.Nodup.map_on
  · intro r hr s hs h
    have hr := (List.mem_filter.mp hr).2
    have hs := (List.mem_filter.mp hs).2
    simp only [decide_eq_true_eq] at hr hs
    obtain ⟨_, _⟩ := r
    obtain ⟨_, _⟩ := s
    simp_all
  · refine List.Nodup.filter _ (hb.imp ?_)
    rintro r s h rfl
    omega

/-- What is kept of the row before `a[i]` has the longest block for each end. -/
structure RowLongest (a b : List Row) (begin1 begin2 end2 i : Nat)
    (prev : List Length) : Prop where
  nodup : (prev.map Length.j).Nodup
  longest : ∀ j len, 0 < len → j < end2 → Ends a b begin1 begin2 i (j + 1) len →
    ∃ p ∈ prev, p.j = j ∧ len ≤ p.len

theorem le_length
    {prev : List Length} {i j len : Nat}
    (hprev : RowLongest a b begin1 begin2 end2 i prev)
    (hj : j < end2)
    (hends : Ends a b begin1 begin2 (i + 1) (j + 1) len) :
    len ≤ length prev j := by
  have hpos := length_pos prev j
  rcases len with _ | _ | len
  · exact Nat.zero_le _
  · exact hpos
  · obtain ⟨hbefore, _⟩ := hends.dropLast
    obtain ⟨i', j', _, hj', _⟩ := hbefore
    obtain ⟨k, rfl⟩ : ∃ k, j = k + 1 := ⟨j - 1, by omega⟩
    obtain ⟨p, hp, rfl, hle⟩ := hprev.longest k (len + 1) (Nat.succ_pos _) (by omega)
      hends.dropLast.1
    rw [length]
    split
    next q hq =>
      have hmem := List.mem_of_find?_eq_some hq
      have hnext : q.j = p.j := by simpa using List.find?_some hq
      have hsame := List.inj_on_of_nodup_map hprev.nodup hmem hp hnext
      rw [hsame]
      omega
    next hnone =>
      have hnot := List.find?_eq_none.mp hnone p hp
      simp at hnot

theorem longest_matchRow
    (modified : List Chunk) (best : Match)
    (hb : Sorted b)
    {i : Nat} {row : Row} {prev : List Length}
    (hrow : a[i]? = some row)
    (hprev : RowLongest a b begin1 begin2 end2 i prev) :
    RowLongest a b begin1 begin2 end2 (i + 1)
      (matchRow modified i prev (bMatches b begin2 end2 row.key) [] best).1 := by
  rw [matchRow_eq]
  refine ⟨?_, ?_⟩
  · simp only [List.nil_append, List.map_map, Function.comp_def, List.map_id']
    exact bMatches_nodup hb row.key
  · intro j len hlen hj hends
    obtain ⟨len, rfl⟩ : ∃ k, len = k + 1 := ⟨len - 1, by omega⟩
    obtain ⟨⟨_, j', _, hj', _, hbegin, _⟩, key, ha, hmem⟩ := hends.dropLast
    rw [hrow] at ha
    cases ha
    refine ⟨⟨j, length prev j⟩, ?_, rfl, le_length hprev hj hends⟩
    rw [List.nil_append]
    exact List.mem_map.mpr ⟨j, (mem_bMatches hb).mpr ⟨by omega, hj, hmem⟩, rfl⟩

theorem size_foldl_select
    (modified : List Chunk) (i : Nat) (prev : List Length) (js : List Nat) (best : Match) :
    best.size ≤
        (js.foldl (fun best j => select modified i j (length prev j) best) best).size ∧
      ∀ j ∈ js, length prev j ≤
        (js.foldl (fun best j => select modified i j (length prev j) best) best).size := by
  induction js generalizing best with
  | nil =>
      simp
  | cons j js ih =>
      obtain ⟨hbest, hjs⟩ := ih (select modified i j (length prev j) best)
      rw [size_select] at hbest
      rw [List.foldl_cons]
      refine ⟨by omega, ?_⟩
      intro k hk
      rcases List.mem_cons.mp hk with rfl | hk
      · omega
      · exact hjs k hk

/-- No block that ends before `a[i]` is longer than the best one. -/
def BestLongest (a b : List Row) (begin1 begin2 end2 i : Nat) (best : Match) : Prop :=
  ∀ i' ≤ i, ∀ j ≤ end2, ∀ len, Ends a b begin1 begin2 i' j len → len ≤ best.size

theorem longest_matchRows
    (modified : List Chunk)
    (hb : Sorted b)
    {i : Nat} {rows : List Row} {prev : List Length} {best : Match}
    (hrows : ∀ k < rows.length, a[i + k]? = rows[k]?)
    (hprev : RowLongest a b begin1 begin2 end2 i prev)
    (hbest : BestLongest a b begin1 begin2 end2 i best) :
    BestLongest a b begin1 begin2 end2 (i + rows.length)
      (matchRows modified b begin2 end2 i rows prev best) := by
  induction rows generalizing i prev best with
  | nil =>
      exact hbest
  | cons row rows ih =>
      have hrow : a[i]? = some row := hrows 0 (Nat.succ_pos _)
      have hcur := longest_matchRow modified best hb hrow hprev
      have hrest : ∀ k < rows.length, a[i + 1 + k]? = rows[k]? := by
        intro k hk
        have hnext := hrows (k + 1) (Nat.succ_lt_succ hk)
        rwa [show i + (k + 1) = i + 1 + k by omega] at hnext
      rw [show i + (row :: rows).length = i + 1 + rows.length by
        rw [List.length_cons]; omega]
      refine ih hrest hcur ?_
      intro i' hi' j hj len hends
      rw [matchRow_eq]
      obtain ⟨hkept, hmatched⟩ := size_foldl_select modified i prev
        (bMatches b begin2 end2 row.key) best
      rcases Nat.le_succ_iff.mp hi' with hle | rfl
      · exact (hbest i' hle j hj len hends).trans hkept
      · rcases len with _ | len
        · exact Nat.zero_le _
        · obtain ⟨_, j', _, hj', _⟩ := id hends
          obtain ⟨j, rfl⟩ : ∃ k, j = k + 1 := ⟨j - 1, by omega⟩
          obtain ⟨⟨_, _, _, _, _, hbegin, _⟩, key, ha, hmem⟩ := hends.dropLast
          rw [hrow] at ha
          cases ha
          have hvisited : j ∈ bMatches b begin2 end2 row.key :=
            (mem_bMatches hb).mpr ⟨by omega, hj, hmem⟩
          exact (le_length hprev hj hends).trans (hmatched j hvisited)

/-- **What is found is a common block, and no common block of the range is longer.** -/
theorem longest_findLongestMatch
    (hb : Sorted b) :
    (findLongestMatch modified a b begin1 end1 begin2 end2).Sound
        a b begin1 end1 begin2 end2 ∧
      ∀ i j size, begin1 ≤ i → i + size ≤ end1 → begin2 ≤ j → j + size ≤ end2 →
        Common a b i j size →
          size ≤ (findLongestMatch modified a b begin1 end1 begin2 end2).size := by
  refine ⟨sound_findLongestMatch modified a b begin1 end1 begin2 end2, ?_⟩
  intro i j size hleft hleft_end hright hright_end hcommon
  rcases size with _ | size
  · exact Nat.zero_le _
  have hnone : RowLongest a b begin1 begin2 end2 begin1 [] :=
    ⟨List.nodup_nil, fun j len hlen _ ⟨i', _, hi', _, hbegin, _⟩ => by omega⟩
  have hbest : BestLongest a b begin1 begin2 end2 begin1 ⟨begin1, begin2, 0, some 0⟩ :=
    fun i' hi' j hj len ⟨i'', _, hi'', _, hbegin, _⟩ => by omega
  have hlongest := longest_matchRows modified hb (getElem?_range a begin1 end1) hnone
    hbest
  refine hlongest (i + (size + 1)) ?_ (j + (size + 1)) hright_end (size + 1)
    ⟨i, j, rfl, rfl, hleft, hright, hcommon⟩
  obtain ⟨key, ha, _⟩ := hcommon size (Nat.lt_succ_self size)
  have hlt : i + size < a.length := by
    by_contra hge
    rw [List.getElem?_eq_none (by omega)] at ha
    cases ha
  rw [List.length_take, List.length_drop]
  omega

/-- Two rows that stay next to each other. -/
theorem longest_findLongestMatch_twoRows :
    2 ≤ (findLongestMatch [] [⟨1, 0⟩, ⟨2, 1⟩, ⟨3, 2⟩] [⟨1, 1⟩, ⟨2, 2⟩, ⟨3, 0⟩]
      0 3 0 3).size := by
  have hsorted : Sorted [⟨1, 1⟩, ⟨2, 2⟩, ⟨3, 0⟩] := by simp [Sorted]
  refine (longest_findLongestMatch hsorted).2 0 1 2 (by omega) (by omega) (by omega)
    (by omega) ?_
  intro k hk
  obtain rfl | rfl : k = 0 ∨ k = 1 := by omega
  · exact ⟨1, rfl, by decide⟩
  · exact ⟨2, rfl, by decide⟩

end Longest

section Matches

variable (modified : List Chunk)
variable (a b : List Row)

/-- `find_longest_matches`. -/
def findLongestMatches (begin1 end1 begin2 end2 : Nat) : List Match :=
  if _hsize : (findLongestMatch modified a b begin1 end1 begin2 end2).size = 0 then []
  else
    let m := findLongestMatch modified a b begin1 end1 begin2 end2
    (if begin1 < m.i ∧ begin2 < m.j then findLongestMatches begin1 m.i begin2 m.j
      else []) ++
    m ::
    -- the left end of the rest is compared with the right bound
    (if m.i + m.size < end2 ∧ m.j + m.size < end2 then
        findLongestMatches (m.i + m.size) end1 (m.j + m.size) end2
      else [])
termination_by end1 - begin1
decreasing_by
  all_goals
    have hsound := sound_findLongestMatch modified a b begin1 end1 begin2 end2
    have hleft := hsound.left
    have hend := hsound.left_end (by omega)
    omega

/-- `m_longest_matches` of the calculator. -/
def longestMatches (startIndex : Nat) : List Match :=
  findLongestMatches modified a b startIndex a.length startIndex b.length ++
    [⟨a.length, b.length, 0, some 0⟩]

/-- Common blocks one after the other, from `a[i]` and `b[j]` on. -/
def Aligned (a b : List Row) : Nat → Nat → Nat → Nat → List Match → Prop
  | i, j, end1, end2, [] => i ≤ end1 ∧ j ≤ end2
  | i, j, end1, end2, m :: ms =>
      i ≤ m.i ∧ j ≤ m.j ∧ Common a b m.i m.j m.size ∧
        Aligned a b (m.i + m.size) (m.j + m.size) end1 end2 ms

variable {modified : List Chunk}
variable {a b : List Row}

theorem Aligned.mono
    {i j i' j' end1 end2 : Nat} {ms : List Match}
    (h : Aligned a b i j end1 end2 ms)
    (hi : i' ≤ i)
    (hj : j' ≤ j) :
    Aligned a b i' j' end1 end2 ms := by
  cases ms with
  | nil => exact ⟨hi.trans h.1, hj.trans h.2⟩
  | cons m ms => exact ⟨hi.trans h.1, hj.trans h.2.1, h.2.2⟩

theorem Aligned.le
    {i j end1 end2 : Nat} {ms : List Match}
    (h : Aligned a b i j end1 end2 ms) :
    i ≤ end1 ∧ j ≤ end2 := by
  induction ms generalizing i j with
  | nil =>
      exact h
  | cons m ms ih =>
      have hrest := ih h.2.2.2
      have hi := h.1
      have hj := h.2.1
      omega

theorem Aligned.append
    {i j middle1 middle2 end1 end2 : Nat} {ms ms' : List Match}
    (h : Aligned a b i j middle1 middle2 ms)
    (h' : Aligned a b middle1 middle2 end1 end2 ms') :
    Aligned a b i j end1 end2 (ms ++ ms') := by
  induction ms generalizing i j with
  | nil => exact h'.mono h.1 h.2
  | cons m ms ih => exact ⟨h.1, h.2.1, h.2.2.1, ih h.2.2.2⟩

/-- **The matches are common blocks, one after the other in both orders.** -/
theorem aligned_findLongestMatches
    (modified : List Chunk) {begin1 end1 begin2 end2 : Nat}
    (hbegin1 : begin1 ≤ end1)
    (hbegin2 : begin2 ≤ end2) :
    Aligned a b begin1 begin2 end1 end2
      (findLongestMatches modified a b begin1 end1 begin2 end2) := by
  induction begin1, end1, begin2, end2
    using findLongestMatches.induct modified a b with
  | case1 begin1 end1 begin2 end2 hsize =>
      rw [findLongestMatches, dif_pos hsize]
      exact ⟨hbegin1, hbegin2⟩
  | case2 begin1 end1 begin2 end2 hsize m ihleft ihright =>
      have hsound := sound_findLongestMatch modified a b begin1 end1 begin2 end2
      have hpos := Nat.pos_of_ne_zero hsize
      have hend1 := hsound.left_end hpos
      have hend2 := hsound.right_end hpos
      rw [findLongestMatches, dif_neg hsize]
      refine Aligned.append (?_ : Aligned a b begin1 begin2 m.i m.j _)
        ⟨Nat.le_refl _, Nat.le_refl _, hsound.common, ?_⟩
      · split
        · exact ihleft hsound.left hsound.right
        · exact ⟨hsound.left, hsound.right⟩
      · split
        · exact ihright hend1 hend2
        · exact ⟨hend1, hend2⟩

/--
**The blocks that are matched are common to both versions, and each begins after the
one before it has ended, in the one version and in the other.**
-/
theorem aligned_longestMatches
    {startIndex : Nat}
    (ha : startIndex ≤ a.length)
    (hb : startIndex ≤ b.length) :
    Aligned a b startIndex startIndex a.length b.length
      (longestMatches modified a b startIndex) :=
  (aligned_findLongestMatches modified ha hb).append
    ⟨Nat.le_refl _, Nat.le_refl _, fun _ hk => absurd hk (Nat.not_lt_zero _),
      Nat.le_refl _, Nat.le_refl _⟩

/-- The last row goes to the front. -/
theorem aligned_longestMatches_movedRow :
    Aligned [⟨3, 2⟩, ⟨1, 0⟩, ⟨2, 1⟩] [⟨1, 1⟩, ⟨2, 2⟩, ⟨3, 0⟩] 0 0 3 3
      (longestMatches [] [⟨3, 2⟩, ⟨1, 0⟩, ⟨2, 1⟩] [⟨1, 1⟩, ⟨2, 2⟩, ⟨3, 0⟩] 0) :=
  aligned_longestMatches (Nat.zero_le _) (Nat.zero_le _)

end Matches

end LongestCommonSubsequence

end ObjectStore
end NotVK
