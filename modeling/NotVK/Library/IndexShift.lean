import Mathlib.Data.Nat.Nth
import NotVK.Library.ListDiff

/-!
# Indices before and after a set of indices is taken out

A finite set `S` of indices leaves the other indices in order.  The `i`-th of
them is `shift S i`, and `unshift S i` of them are below `i`; the two are
adjoint, and inverse to each other outside `S`.

`kept S l` is what is left of a list without the elements at the indices in
`S`.  Taking out `S` and then `T` from what is left takes out
`S ∪ T.image (shift S)`.
-/

namespace NotVK
namespace Indices

open Diffs

universe u v

section IndexShift

/-- The `i`-th index outside `S`. -/
noncomputable def shift (S : Finset Nat) (i : Nat) : Nat :=
  Nat.nth (fun k => k ∉ S) i

/-- Number of indices outside `S` below `i`. -/
def unshift (S : Finset Nat) (i : Nat) : Nat :=
  Nat.count (fun k => k ∉ S) i

theorem infinite_notMem (S : Finset Nat) :
    (Set.ofPred fun k => k ∉ S).Infinite :=
  S.finite_toSet.infinite_compl

theorem shift_notMem (S : Finset Nat) (i : Nat) :
    shift S i ∉ S :=
  Nat.nth_mem_of_infinite (infinite_notMem S) i

@[simp] theorem unshift_shift (S : Finset Nat) (i : Nat) :
    unshift S (shift S i) = i :=
  Nat.count_nth_of_infinite (infinite_notMem S) i

theorem shift_unshift
    {S : Finset Nat} {i : Nat}
    (hi : i ∉ S) :
    shift S (unshift S i) = i :=
  Nat.nth_count (p := fun k => k ∉ S) hi

/-- Where an index goes, by the position that it comes from. -/
theorem shift_eq_iff
    {S : Finset Nat} {i j : Nat} :
    shift S i = j
      ↔
    j ∉ S ∧ unshift S j = i := by
  constructor
  · rintro rfl
    exact ⟨shift_notMem S i, unshift_shift S i⟩
  · rintro ⟨hj, rfl⟩
    exact shift_unshift hj

theorem shift_strictMono (S : Finset Nat) :
    StrictMono (shift S) :=
  Nat.nth_strictMono (infinite_notMem S)

theorem shift_injective (S : Finset Nat) :
    Function.Injective (shift S) :=
  (shift_strictMono S).injective

theorem unshift_mono (S : Finset Nat) :
    Monotone (unshift S) :=
  Nat.count_monotone _

theorem gc_unshift_shift (S : Finset Nat) :
    GaloisConnection (unshift S) (shift S) :=
  Nat.gc_count_nth (infinite_notMem S)

theorem shift_lt_iff
    {S : Finset Nat} {i n : Nat} :
    shift S i < n
      ↔
    i < unshift S n := by
  rw [← not_le, ← not_le, gc_unshift_shift S n i]

theorem unshift_injOn
    {S : Finset Nat} {i j : Nat}
    (hi : i ∉ S)
    (hj : j ∉ S)
    (h : unshift S i = unshift S j) :
    i = j :=
  Nat.count_injective (p := fun k => k ∉ S) hi hj h

theorem unshift_lt_unshift
    {S : Finset Nat} {i j : Nat}
    (hi : i ∉ S)
    (hij : i < j) :
    unshift S i < unshift S j :=
  Nat.count_strict_mono (p := fun k => k ∉ S) hi hij

theorem unshift_succ (S : Finset Nat) (i : Nat) :
    unshift S (i + 1) = unshift S i + if i ∈ S then 0 else 1 := by
  rw [unshift, Nat.count_succ, ← unshift]
  by_cases hi : i ∈ S <;> simp [hi]

/-- The indices below `i`, in the set and outside it. -/
theorem unshift_add_card (S : Finset Nat) (i : Nat) :
    unshift S i + (S.filter (fun k => k < i)).card = i := by
  have hin : S.filter (fun k => k < i) =
      (Finset.range i).filter (fun k => k ∈ S) := by
    ext k
    simp [and_comm]
  have hsplit :=
    Finset.card_filter_add_card_filter_not
      (s := Finset.range i) (fun k => k ∈ S)
  rw [Finset.card_range] at hsplit
  rw [hin, unshift, Nat.count_eq_card_filter_range]
  omega

/-- `shift` from the number of members that are passed. -/
theorem shift_eq_of_card
    {S : Finset Nat} {i n : Nat}
    (hnotMem : i + n ∉ S)
    (hcard : (S.filter (fun k => k < i + n)).card = n) :
    shift S i = i + n := by
  have hsplit := unshift_add_card S (i + n)
  exact shift_eq_iff.mpr ⟨hnotMem, by omega⟩

@[simp] theorem unshift_empty (i : Nat) :
    unshift ∅ i = i := by
  have hsplit := unshift_add_card ∅ i
  simpa using hsplit

@[simp] theorem shift_empty (i : Nat) :
    shift ∅ i = i :=
  shift_eq_iff.mpr ⟨Finset.notMem_empty i, unshift_empty i⟩

@[simp] theorem image_unshift_empty (T : Finset Nat) :
    T.image (unshift ∅) = T := by
  ext i
  simp

@[simp] theorem image_shift_empty (T : Finset Nat) :
    T.image (shift ∅) = T := by
  ext i
  simp

theorem unshift_of_forall_lt
    {S : Finset Nat} {n : Nat}
    (h : ∀ k ∈ S, k < n) :
    unshift S n + S.card = n := by
  have hsplit := unshift_add_card S n
  rwa [Finset.filter_true_of_mem h] at hsplit

theorem unshift_of_forall_ge
    {S : Finset Nat} {i : Nat}
    (h : ∀ k ∈ S, i ≤ k) :
    unshift S i = i := by
  have hsplit := unshift_add_card S i
  rw [Finset.filter_false_of_mem (fun k hk => by have := h k hk; omega)]
    at hsplit
  simpa using hsplit

theorem shift_of_forall_gt
    {S : Finset Nat} {i : Nat}
    (h : ∀ k ∈ S, i < k) :
    shift S i = i := by
  refine shift_eq_iff.mpr ⟨fun hi => (h i hi).ne rfl, ?_⟩
  exact unshift_of_forall_ge (fun k hk => (h k hk).le)

/-- A run of indices that begins at `a` makes room for itself. -/
theorem shift_Ico (a n i : Nat) :
    shift (Finset.Ico a (a + n)) i = if i < a then i else i + n := by
  split
  next hlt =>
    apply shift_of_forall_gt
    intro k hk
    rw [Finset.mem_Ico] at hk
    omega
  next hge =>
    apply shift_eq_of_card
    · rw [Finset.mem_Ico]
      omega
    · rw [Finset.filter_true_of_mem, Nat.card_Ico]
      · omega
      · intro k hk
        rw [Finset.mem_Ico] at hk
        omega

theorem shift_singleton (a i : Nat) :
    shift {a} i = if i < a then i else i + 1 := by
  have hsingleton : ({a} : Finset Nat) = Finset.Ico a (a + 1) := by
    ext k
    rw [Finset.mem_singleton, Finset.mem_Ico]
    omega
  rw [hsingleton, shift_Ico]

theorem unshift_singleton (a i : Nat) :
    unshift {a} i = if a < i then i - 1 else i := by
  have hsplit := unshift_add_card {a} i
  rw [Finset.filter_singleton] at hsplit
  split at hsplit
  next hlt => rw [if_pos hlt]; simp at hsplit; omega
  next hge => rw [if_neg hge]; simpa using hsplit

/-- An image under `shift`, read from where it lies. -/
theorem mem_image_shift
    {S T : Finset Nat} {j : Nat} :
    j ∈ T.image (shift S)
      ↔
    j ∉ S ∧ unshift S j ∈ T := by
  rw [Finset.mem_image]
  constructor
  · rintro ⟨i, hi, rfl⟩
    exact ⟨shift_notMem S i, by rwa [unshift_shift]⟩
  · rintro ⟨hj, hT⟩
    exact ⟨unshift S j, hT, shift_unshift hj⟩

/-- An image under `unshift` of indices outside the set. -/
theorem mem_image_unshift
    {S T : Finset Nat} {i : Nat} :
    i ∈ (T \ S).image (unshift S)
      ↔
    shift S i ∈ T := by
  rw [Finset.mem_image]
  constructor
  · rintro ⟨j, hj, rfl⟩
    rw [Finset.mem_sdiff] at hj
    rw [shift_unshift hj.2]
    exact hj.1
  · intro hi
    refine ⟨shift S i, ?_, unshift_shift S i⟩
    exact Finset.mem_sdiff.mpr ⟨hi, shift_notMem S i⟩

/-- Taking out `S`, and then what is left of `T`, takes out both. -/
theorem union_image_unshift (S T : Finset Nat) :
    S ∪ ((T \ S).image (unshift S)).image (shift S) = S ∪ T := by
  ext j
  rw [Finset.mem_union, Finset.mem_union, mem_image_shift, mem_image_unshift]
  by_cases hj : j ∈ S
  · simp [hj]
  · simp [hj, shift_unshift]

theorem shift_union (S T : Finset Nat) (i : Nat) :
    shift (S ∪ T.image (shift S)) i = shift S (shift T i) := by
  have hmem : ∀ k, k ∉ S ∪ T.image (shift S) → k ∈ Set.range (shift S) := by
    intro k hk
    have hS : k ∉ S := fun h => hk (Finset.mem_union_left _ h)
    exact ⟨unshift S k, shift_unshift hS⟩
  have hcomp :=
    Nat.nth_comp_of_strictMono (n := i) (shift_strictMono S) hmem
      (fun hfinite => absurd hfinite (infinite_notMem _))
  have hpred : (fun k => shift S k ∉ S ∪ T.image (shift S)) =
      (fun k => k ∉ T) := by
    funext k
    rw [Finset.mem_union, mem_image_shift, unshift_shift]
    simp [shift_notMem]
  change shift S (Nat.nth (fun k => shift S k ∉ S ∪ T.image (shift S)) i) =
    shift (S ∪ T.image (shift S)) i at hcomp
  rw [hpred] at hcomp
  exact hcomp.symm

theorem unshift_union (S T : Finset Nat) (j : Nat) :
    unshift (S ∪ T.image (shift S)) j = unshift T (unshift S j) := by
  have hleft := gc_unshift_shift (S ∪ T.image (shift S))
  have hright := (gc_unshift_shift S).compose (gc_unshift_shift T)
  exact hleft.l_unique hright (fun i => shift_union S T i)

end IndexShift

section Kept

variable {α : Type u}
variable {β : Type v}

/-- What is left of a list. -/
def kept (S : Finset Nat) (l : List α) : List α :=
  (l.zipIdx.filter (fun p => p.2 ∉ S)).map Prod.fst

theorem removeAt_eq_kept (indices : List Nat) (l : List α) :
    removeAt indices l = kept indices.toFinset l := by
  simp [removeAt, kept]

@[simp] theorem kept_nil (S : Finset Nat) :
    kept S ([] : List α) = [] := by
  rfl

theorem kept_concat (S : Finset Nat) (l : List α) (a : α) :
    kept S (l ++ [a]) = kept S l ++ if l.length ∈ S then [] else [a] := by
  by_cases hlast : l.length ∈ S <;>
    simp [kept, List.zipIdx_append, hlast]

theorem length_kept (S : Finset Nat) (l : List α) :
    (kept S l).length = unshift S l.length := by
  induction l using List.reverseRecOn with
  | nil =>
      simp [unshift]
  | append_singleton l a ih =>
      rw [kept_concat, List.length_append, ih, List.length_append,
        List.length_singleton, unshift_succ]
      by_cases hlast : l.length ∈ S <;> simp [hlast]

/-- The element at a position of what is left. -/
theorem kept_getElem? (S : Finset Nat) (l : List α) (i : Nat) :
    (kept S l)[i]? = l[shift S i]? := by
  induction l using List.reverseRecOn with
  | nil =>
      simp
  | append_singleton l a ih =>
      rw [kept_concat]
      rcases Nat.lt_trichotomy (shift S i) l.length with hlt | heq | hgt
      · have hi : i < (kept S l).length := by
          rw [length_kept]
          exact shift_lt_iff.mp hlt
        rw [List.getElem?_append_left hi, ih, List.getElem?_append_left hlt]
      · obtain ⟨hnotMem, hunshift⟩ := shift_eq_iff.mp heq
        rw [if_neg hnotMem, heq, ← hunshift, ← length_kept,
          List.getElem?_concat_length, List.getElem?_concat_length]
      · have hi : l.length + 1 ≤ shift S i := hgt
        rw [← gc_unshift_shift, unshift_succ, ← length_kept] at hi
        rw [List.getElem?_eq_none (l := l ++ [a]) (by simpa using hgt)]
        apply List.getElem?_eq_none
        by_cases hlast : l.length ∈ S <;> simp_all

@[simp] theorem kept_empty (l : List α) :
    kept ∅ l = l := by
  apply List.ext_getElem?
  intro i
  rw [kept_getElem?, shift_empty]

theorem kept_map (f : α → β) (S : Finset Nat) (l : List α) :
    kept S (l.map f) = (kept S l).map f := by
  apply List.ext_getElem?
  intro i
  rw [kept_getElem?, List.getElem?_map, List.getElem?_map, kept_getElem?]

/-- Elements at the end that are all taken out. -/
theorem kept_append_of_mem
    {S : Finset Nat} {l l' : List α}
    (h : ∀ i < l'.length, l.length + i ∈ S) :
    kept S (l ++ l') = kept S l := by
  induction l' using List.reverseRecOn with
  | nil =>
      rw [List.append_nil]
  | append_singleton l' a ih =>
      rw [List.length_append, List.length_singleton] at h
      rw [← List.append_assoc, kept_concat, List.length_append,
        if_pos (h l'.length (Nat.lt_succ_self _)), List.append_nil]
      exact ih (fun i hi => h i (Nat.lt_succ_of_lt hi))

/-- Elements at the end that all stay. -/
theorem kept_append_of_notMem
    {S : Finset Nat} {l l' : List α}
    (h : ∀ i < l'.length, l.length + i ∉ S) :
    kept S (l ++ l') = kept S l ++ l' := by
  induction l' using List.reverseRecOn with
  | nil =>
      rw [List.append_nil, List.append_nil]
  | append_singleton l' a ih =>
      rw [List.length_append, List.length_singleton] at h
      rw [← List.append_assoc, kept_concat, List.length_append,
        if_neg (h l'.length (Nat.lt_succ_self _)),
        ih (fun i hi => h i (Nat.lt_succ_of_lt hi)), List.append_assoc]

theorem kept_sublist (S : Finset Nat) (l : List α) :
    (kept S l).Sublist l := by
  have hsub := (List.filter_sublist (p := fun p => p.2 ∉ S) (l := l.zipIdx)).map Prod.fst
  rwa [List.zipIdx_map_fst] at hsub

theorem kept_congr
    {S T : Finset Nat} {l : List α}
    (h : ∀ i < l.length, (i ∈ S ↔ i ∈ T)) :
    kept S l = kept T l := by
  induction l using List.reverseRecOn with
  | nil =>
      rfl
  | append_singleton l a ih =>
      rw [List.length_append, List.length_singleton] at h
      rw [kept_concat, kept_concat, ih (fun i hi => h i (Nat.lt_succ_of_lt hi))]
      simp only [h l.length (Nat.lt_succ_self _)]

/-- What is left when the indices say which elements go. -/
theorem kept_eq_filter
    {S : Finset Nat} {l : List α} {p : α → Bool}
    (h : ∀ i x, l[i]? = some x → (i ∈ S ↔ p x = false)) :
    kept S l = l.filter p := by
  induction l using List.reverseRecOn with
  | nil =>
      rfl
  | append_singleton l a ih =>
      have hlast := h l.length a List.getElem?_concat_length
      have hrest : ∀ i x, l[i]? = some x → (i ∈ S ↔ p x = false) := by
        intro i x hx
        have hlt := (List.getElem?_eq_some_iff.mp hx).1
        exact h i x (by rw [List.getElem?_append_left hlt, hx])
      rw [kept_concat, ih hrest, List.filter_append]
      congr 1
      by_cases ha : p a = true
      · rw [if_neg (by simp [hlast, ha]), List.filter_cons_of_pos ha, List.filter_nil]
      · rw [if_pos (by simpa [hlast] using ha), List.filter_cons_of_neg ha,
          List.filter_nil]

theorem kept_range (S : Finset Nat) (n : Nat) :
    kept S (List.range n) = (List.range n).filter (fun i => i ∉ S) := by
  induction n with
  | zero =>
      rfl
  | succ n ih =>
      rw [List.range_succ, kept_concat, List.length_range, List.filter_append, ih]
      by_cases hn : n ∈ S <;> simp [hn]

/-- The indices that are left, in order. -/
theorem eq_kept_range
    {n : Nat} {taken left : List Nat}
    (hperm : (taken ++ left).Perm (List.range n))
    (hsorted : left.Pairwise (· ≤ ·)) :
    left = kept taken.toFinset (List.range n) := by
  have hnodup : (taken ++ left).Nodup := hperm.symm.nodup List.nodup_range
  obtain ⟨_, hleft, hdisjoint⟩ := List.nodup_append.mp hnodup
  have hfilter : left.Perm
      ((List.range n).filter (fun i => i ∉ taken.toFinset)) := by
    apply (List.perm_ext_iff_of_nodup hleft (List.nodup_range.filter _)).mpr
    intro i
    rw [List.mem_filter, decide_eq_true_eq, List.mem_toFinset, ← hperm.mem_iff,
      List.mem_append]
    constructor
    · intro hi
      exact ⟨Or.inr hi, fun htaken => hdisjoint i htaken i hi rfl⟩
    · rintro ⟨htaken | hi, hnot⟩
      · exact absurd htaken hnot
      · exact hi
  have hrange : ((List.range n).filter (fun i => i ∉ taken.toFinset)).Pairwise
      (· ≤ ·) :=
    List.Pairwise.filter _ (List.pairwise_lt_range.imp le_of_lt)
  rw [kept_range]
  exact hfilter.eq_of_pairwise (fun i j _ _ hij hji => Nat.le_antisymm hij hji) hsorted
    hrange

/-- Entries that know their index are what is left, when their indices are. -/
theorem map_eq_kept
    {S : Finset Nat} {l : List α} {rows : List β} {key : β → α} {index : β → Nat}
    (hat : ∀ r ∈ rows, l[index r]? = some (key r))
    (hindex : rows.map index = kept S (List.range l.length)) :
    rows.map key = kept S l := by
  have hsome : (rows.map key).map some = (kept S l).map some := by
    calc
      (rows.map key).map some
          = (rows.map index).map (fun i => l[i]?) := by
            rw [List.map_map, List.map_map]
            exact List.map_congr_left (fun r hr => (hat r hr).symm)
      _ = kept S ((List.range l.length).map (fun i => l[i]?)) := by
            rw [hindex, kept_map]
      _ = (kept S l).map some := by
            rw [← kept_map]
            congr 1
            apply List.ext_getElem (by simp)
            intro i _ _
            simp
  exact List.map_injective_iff.mpr (Option.some_injective α) hsome

/-- A gap that is taken out, and a block after it that stays. -/
theorem kept_take_block
    {S : Finset Nat} {l : List α} {i m size : Nat}
    (hS : ∀ k ∈ S, k < i)
    (him : i ≤ m)
    (hm : m ≤ l.length) :
    kept (S ∪ Finset.Ico i m) (l.take (m + size)) =
      kept S (l.take i) ++ (l.drop m).take size := by
  have hgap : l.take m = l.take i ++ (l.drop i).take (m - i) := by
    rw [← List.take_add, Nat.add_sub_cancel' him]
  have hstart : (l.take i).length = i := List.length_take_of_le (him.trans hm)
  have hend : (l.take m).length = m := List.length_take_of_le hm
  rw [List.take_add, kept_append_of_notMem, hgap, kept_append_of_mem]
  · congr 1
    apply kept_congr
    intro k hk
    rw [hstart] at hk
    have hout : k ∉ Finset.Ico i m := by
      rw [Finset.mem_Ico]
      omega
    rw [Finset.mem_union, or_iff_left hout]
  · intro k hk
    rw [List.length_take, List.length_drop] at hk
    rw [hstart, Finset.mem_union, Finset.mem_Ico]
    omega
  · intro k _
    rw [hend, Finset.mem_union, Finset.mem_Ico]
    rintro (hin | hin)
    · have := hS _ hin
      omega
    · omega

/-- Taking elements out twice. -/
theorem kept_kept (S T : Finset Nat) (l : List α) :
    kept T (kept S l) = kept (S ∪ T.image (shift S)) l := by
  apply List.ext_getElem?
  intro i
  rw [kept_getElem?, kept_getElem?, kept_getElem?, shift_union]

/-- The elements that two sets leave, by what the first one leaves. -/
theorem kept_union (S T : Finset Nat) (l : List α) :
    kept (S ∪ T) l = kept ((T \ S).image (unshift S)) (kept S l) := by
  rw [kept_kept, union_image_unshift]

end Kept

end Indices
end NotVK
