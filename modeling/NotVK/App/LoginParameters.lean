import NotVK.App.LoginRedirect

/-!
# The dictionary of a fragment

`decidePolicyFor` splits the fragment at `&`, every component at `=`, and reads
`param[0]` and `param[1]` of each without looking at its length.  A component
without `=` has one part only, so the subscript traps; a component with several
has more than two, and all but the first part of its value are dropped.

The fold goes through exactly on the fragments whose components all have a `=`,
and then the dictionary is read off the first parts of the values.
-/

namespace NotVK
namespace Login

open Forms

section Components

/-- Every component of the fragment has a `=`. -/
def KeyValue (fragment : String) : Prop :=
  ∀ component ∈ fragment.toList.splitOn '&', '=' ∈ component

instance : DecidablePred KeyValue :=
  fun fragment =>
    inferInstanceAs
      (Decidable (∀ component ∈ fragment.toList.splitOn '&', '=' ∈ component))

/-- One round of the fold goes through when there are two parts to read. -/
theorem exists_addParameter_iff
    {result : Dictionary} {param : List String} :
    (∃ dict, addParameter result param = some dict)
      ↔
    2 ≤ param.length := by
  rcases param with _ | ⟨key, _ | ⟨value, rest⟩⟩
  · simp [addParameter]
  · simp [addParameter]
  · simp [addParameter]

/-- The fold goes through when every round does. -/
theorem exists_foldlM_addParameter_iff
    {result : Dictionary} {params : List (List String)} :
    (∃ dict, params.foldlM addParameter result = some dict)
      ↔
    ∀ param ∈ params, 2 ≤ param.length := by
  induction params generalizing result with
  | nil =>
      simp
  | cons param params ih =>
      rw [List.forall_mem_cons, List.foldlM_cons]
      constructor
      · rintro ⟨dict, hdict⟩
        obtain ⟨next, hnext, hrest⟩ := Option.bind_eq_some_iff.mp hdict
        exact ⟨exists_addParameter_iff.mp ⟨next, hnext⟩, ih.mp ⟨dict, hrest⟩⟩
      · rintro ⟨hparam, hparams⟩
        obtain ⟨next, hnext⟩ : ∃ dict, addParameter result param = some dict :=
          exists_addParameter_iff.mpr hparam
        obtain ⟨dict, hrest⟩ :
            ∃ dict, params.foldlM addParameter next = some dict :=
          ih.mpr hparams
        exact ⟨dict, Option.bind_eq_some_iff.mpr ⟨next, hnext, hrest⟩⟩

theorem exists_parameters_iff {fragment : String} :
    (∃ dict, parameters fragment = some dict)
      ↔
    KeyValue fragment := by
  rw [parameters, exists_foldlM_addParameter_iff, KeyValue]
  simp only [componentsSeparatedBy, List.forall_mem_map, List.length_map,
    String.toList_ofList, two_le_length_splitOn_iff]

/--
**The subscripts of the fold stay in range if and only if every component has a
`=`.**
-/
theorem parameters_ne_none_iff (fragment : String) :
    parameters fragment ≠ none
      ↔
    KeyValue fragment := by
  rw [Option.ne_none_iff_exists', exists_parameters_iff]

/-- The empty fragment has one component, which is empty. -/
theorem parameters_empty_traps :
    ¬ ∀ fragment, parameters fragment ≠ none := by
  intro h
  exact h "" rfl

end Components

section Values

/-- Name and value of every component, around its first `=`. -/
def fragmentPairs (fragment : String) : List (String × String) :=
  (splitPairs fragment.toList).map
    (fun p => (String.ofList p.1, String.ofList p.2))

theorem map_charPair_fragmentPairs (fragment : String) :
    (fragmentPairs fragment).map charPair = splitPairs fragment.toList := by
  simp [fragmentPairs, charPair, Function.comp_def]

/-- The dictionary of a fragment whose components all have a `=`. -/
theorem parameters_eq
    {fragment : String}
    (h : KeyValue fragment) :
    parameters fragment =
      some (assignAll (fun _ => none)
        ((fragmentPairs fragment).map (fun p => (p.1, beforeEquals p.2)))) := by
  have hseparated : ∀ p ∈ fragmentPairs fragment,
      ('&' ∉ p.1.toList ∧ '&' ∉ p.2.toList) ∧ '=' ∉ p.1.toList := by
    intro p hp
    obtain ⟨q, hq, rfl⟩ := List.mem_map.mp hp
    simpa using splitPairs_separated hq
  have hne : fragmentPairs fragment ≠ [] := by
    simpa [fragmentPairs] using splitPairs_ne_nil fragment.toList
  have hparameters := parameters_joinPairs hne
    (fun p hp => (hseparated p hp).1) (fun p hp => (hseparated p hp).2)
  rw [map_charPair_fragmentPairs, joinPairs_splitPairs h,
    String.ofList_toList] at hparameters
  exact hparameters

/-- The value of the last pair with a key. -/
def lastValue (pairs : List (String × String)) (key : String) : Option String :=
  pairs.reverse.lookup key

theorem lookup_map_snd
    (f : String → String) (pairs : List (String × String)) (key : String) :
    (pairs.map (fun p => (p.1, f p.2))).lookup key =
      (pairs.lookup key).map f := by
  induction pairs with
  | nil =>
      rfl
  | cons p pairs ih =>
      rw [List.map_cons, List.lookup_cons, List.lookup_cons, ih]
      cases key == p.1 <;> rfl

/-- A key reads the first part of its last value. -/
theorem assignAll_beforeEquals_apply
    (pairs : List (String × String)) (key : String) :
    assignAll (fun _ => none)
        (pairs.map (fun p => (p.1, beforeEquals p.2))) key =
      (lastValue pairs key).map beforeEquals := by
  rw [assignAll_apply, Option.or_none, ← List.map_reverse, lookup_map_snd,
    lastValue]

theorem beforeEquals_eq_self_iff {value : String} :
    beforeEquals value = value
      ↔
    '=' ∉ value.toList := by
  rw [← String.toList_inj, beforeEquals, String.toList_ofList,
    List.takeWhile_eq_self_iff]
  constructor
  · intro h hmem
    simpa using h '=' hmem
  · exact all_ne_of_not_mem

/-- The dictionary maps every key to the whole of its last value. -/
def WholeValues (pairs : List (String × String)) : Prop :=
  ∃ dict,
    parameters (String.ofList (joinPairs (pairs.map charPair))) = some dict ∧
    ∀ key, dict key = lastValue pairs key

/-- No pairs at all are written as the empty fragment. -/
theorem not_wholeValues_nil : ¬ WholeValues [] := by
  rintro ⟨dict, hdict, _⟩
  cases hdict

/--
**The dictionary keeps the whole values if and only if there is a pair and no
key's last value has a `=`.**
-/
theorem wholeValues_iff
    {pairs : List (String × String)}
    (hkey : ∀ p ∈ pairs, '&' ∉ p.1.toList ∧ '=' ∉ p.1.toList)
    (hvalue : ∀ p ∈ pairs, '&' ∉ p.2.toList) :
    WholeValues pairs
      ↔
    pairs ≠ [] ∧
      ∀ key value, lastValue pairs key = some value → '=' ∉ value.toList := by
  by_cases hne : pairs = []
  · subst hne
    simp [not_wholeValues_nil]
  have hparameters := parameters_joinPairs hne
    (fun p hp => ⟨(hkey p hp).1, hvalue p hp⟩) (fun p hp => (hkey p hp).2)
  constructor
  · rintro ⟨dict, hdict, hlast⟩
    refine ⟨hne, fun key value hkeyvalue => ?_⟩
    have hread := hlast key
    rw [hparameters, Option.some.injEq] at hdict
    rw [← hdict, assignAll_beforeEquals_apply, hkeyvalue, Option.map_some,
      Option.some.injEq] at hread
    exact beforeEquals_eq_self_iff.mp hread
  · rintro ⟨_, hwhole⟩
    refine ⟨_, hparameters, fun key => ?_⟩
    rw [assignAll_beforeEquals_apply]
    cases hlast : lastValue pairs key with
    | none =>
        rfl
    | some value =>
        rw [Option.map_some, beforeEquals_eq_self_iff.mpr
          (hwhole key value hlast)]

theorem wholeValues_iff_token :
    WholeValues [("access_token", "a"), ("user_id", "1")]
      ↔
    [("access_token", "a"), ("user_id", "1")] ≠ [] ∧
      ∀ key value,
        lastValue [("access_token", "a"), ("user_id", "1")] key = some value →
        '=' ∉ value.toList :=
  wholeValues_iff (by simp) (by simp)

/-- A token that ends in a `=` loses it. -/
theorem paddedValue_cut :
    (∀ p ∈ [("access_token", "a=")], '&' ∉ p.1.toList ∧ '=' ∉ p.1.toList) ∧
    (∀ p ∈ [("access_token", "a=")], '&' ∉ p.2.toList) ∧
    ¬ WholeValues [("access_token", "a=")] := by
  refine ⟨by simp, by simp, ?_⟩
  rintro ⟨dict, hdict, hlast⟩
  have hread := hlast "access_token"
  cases hdict
  revert hread
  decide

end Values

end Login
end NotVK
