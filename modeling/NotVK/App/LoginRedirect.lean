import NotVK.Library.FormURLEncoding
import Mathlib.Logic.Function.Basic

/-!
# The login screen's navigation delegate

`webView(_:decidePolicyFor:decisionHandler:)` looks at the URL of a response.
When the OAuth server has redirected to `/blank.html`, the delegate splits the
fragment into a dictionary by hand, stores token and user id in the shared
session, answers `.cancel` and leaves the login screen.

The value of `decidePolicyFor` is the session after the call with the calls it
made, in order; none means that a subscript was out of range, which traps.
-/

namespace NotVK
namespace Login

open Forms

section Parameters

/-- `[String: String]`. -/
abbrev Dictionary := String → Option String

/-- `components(separatedBy:)` with a separator of one character. -/
def componentsSeparatedBy (separator : Char) (s : String) : List String :=
  (s.toList.splitOn separator).map String.ofList

/-- The closure given to `reduce`. -/
def addParameter
    (result : Dictionary) (param : List String) : Option Dictionary :=
  match param[0]?, param[1]? with
  | some key, some value => some (Function.update result key (some value))
  | _, _ => none

/-- The dictionary that `decidePolicyFor` makes of a fragment. -/
def parameters (fragment : String) : Option Dictionary :=
  ((componentsSeparatedBy '&' fragment).map
    (componentsSeparatedBy '=')).foldlM addParameter (fun _ => none)

end Parameters

section Delegate

structure Session where
  token : String
  userId : Int
deriving DecidableEq

/-- `Session.shared` at the start of the app. -/
def Session.initial : Session where
  token := ""
  userId := 0

/-- The value of a nonempty list of decimal digits. -/
def natOfDigits (digits : List Char) : Option Nat :=
  if digits ≠ [] ∧ digits.all Char.isDigit = true then
    some (digits.foldl (fun n d => n * 10 + (d.toNat - 48)) 0)
  else none

/-- `Int(_:)` on a string: an optional sign and digits, within 64 bits. -/
def intOfString (s : String) : Option Int :=
  let value : Option Int :=
    match s.toList with
    | '-' :: digits => (natOfDigits digits).map (fun n => -(n : Int))
    | '+' :: digits => (natOfDigits digits).map (fun n => (n : Int))
    | digits => (natOfDigits digits).map (fun n => (n : Int))
  value.filter (fun n => -(2 ^ 63) ≤ n ∧ n < 2 ^ 63)

/-- The parts of a URL that the delegate reads. -/
structure URL where
  path : String
  fragment : Option String
deriving DecidableEq

structure NavigationResponse where
  url : Option URL
deriving DecidableEq

/-- `WKNavigationResponsePolicy`. -/
inductive Policy where
  | cancel
  | allow
deriving DecidableEq

inductive Call where
  | decisionHandler (policy : Policy)
  | performSegue (identifier : String)
deriving DecidableEq

/-- The fragment that the first guard lets through. -/
def loginFragment (navigationResponse : NavigationResponse) : Option String :=
  match navigationResponse.url with
  | none => none
  | some url => if url.path = "/blank.html" then url.fragment else none

/-- `webView(_:decidePolicyFor:decisionHandler:)`. -/
def decidePolicyFor
    (session : Session) (navigationResponse : NavigationResponse) :
    Option (Session × List Call) :=
  match loginFragment navigationResponse with
  | none => some (session, [.decisionHandler .allow])
  | some fragment =>
      match parameters fragment with
      | none => none
      | some parameters =>
          match parameters "access_token", parameters "user_id" with
          | some token, some userId =>
              some ({ token := token, userId := (intOfString userId).getD 0 },
                [.decisionHandler .cancel, .performSegue "loginSegue"])
          | _, _ => some (session, [])

end Delegate

section Results

/-- Write the pairs into a dictionary, from left to right. -/
def assignAll (dict : Dictionary) (pairs : List (String × String)) : Dictionary :=
  pairs.foldl (fun dict p => Function.update dict p.1 (some p.2)) dict

/-- A key has the value of its last pair. -/
theorem assignAll_apply
    (dict : Dictionary) (pairs : List (String × String)) (key : String) :
    assignAll dict pairs key =
      (pairs.reverse.lookup key).or (dict key) := by
  induction pairs generalizing dict with
  | nil =>
      rfl
  | cons p pairs ih =>
      rw [assignAll, List.foldl_cons, ← assignAll, ih, List.reverse_cons,
        List.lookup_append, Option.or_assoc]
      congr 1
      rw [List.lookup_cons, List.lookup_nil]
      by_cases hkey : key = p.1
      · subst hkey
        simp
      · have hbeq : (key == p.1) = false := by simpa using hkey
        simp [hbeq, hkey]

/-- A key that occurs gets one of its values. -/
theorem exists_assignAll
    {pairs : List (String × String)} {key value : String}
    (h : (key, value) ∈ pairs) :
    ∃ v, (key, v) ∈ pairs ∧ assignAll (fun _ => none) pairs key = some v := by
  rw [assignAll_apply, Option.or_none]
  cases hlookup : pairs.reverse.lookup key with
  | none =>
      have hne := List.lookup_eq_none_iff.mp hlookup (key, value)
        (List.mem_reverse.mpr h)
      simp at hne
  | some v =>
      obtain ⟨before, rest, hsplit, _⟩ := List.lookup_eq_some_iff.mp hlookup
      refine ⟨v, ?_, rfl⟩
      rw [← List.mem_reverse, hsplit]
      simp

/-- The part of a value that `param[1]` holds. -/
def beforeEquals (value : String) : String :=
  String.ofList (value.toList.takeWhile (· ≠ '='))

/-- The first component of a split. -/
theorem getElem?_zero_splitOn (s : List Char) (separator : Char) :
    (s.splitOn separator)[0]? = some (s.takeWhile (· ≠ separator)) := by
  induction s with
  | nil =>
      simp
  | cons c s ih =>
      rw [List.splitOn_cons_eq_if_modifyHead]
      by_cases hc : c = separator
      · simp [hc]
      · have hbeq : (c == separator) = false := by simpa using hc
        cases hsplit : s.splitOn separator with
        | nil =>
            rw [hsplit] at ih
            cases ih
        | cons head rest =>
            rw [hsplit] at ih
            simp only [List.getElem?_cons_zero, Option.some.injEq] at ih
            simp [hbeq, hc, ih]

/-- The text of a pair of strings. -/
def charPair (p : String × String) : List Char × List Char :=
  (p.1.toList, p.2.toList)

/-- One round of the fold, on the components of `key=value`. -/
theorem addParameter_pairText
    (dict : Dictionary) {p : String × String}
    (hname : '=' ∉ p.1.toList) :
    addParameter dict
        (componentsSeparatedBy '=' (String.ofList (pairText (charPair p)))) =
      some (Function.update dict p.1 (some (beforeEquals p.2))) := by
  have hsplit : componentsSeparatedBy '='
      (String.ofList (pairText (charPair p))) =
      p.1 :: (p.2.toList.splitOn '=').map String.ofList := by
    rw [componentsSeparatedBy, String.toList_ofList,
      splitOn_pairText (p := charPair p) hname]
    simp [charPair]
  have hvalue := getElem?_zero_splitOn p.2.toList '='
  rw [hsplit]
  simp only [addParameter, List.getElem?_cons_zero, List.getElem?_cons_succ,
    List.getElem?_map, hvalue, Option.map_some, beforeEquals]

/-- The fold over the components of joined pairs never traps. -/
theorem parameters_joinPairs
    {pairs : List (String × String)}
    (hne : pairs ≠ [])
    (hamp : ∀ p ∈ pairs, '&' ∉ p.1.toList ∧ '&' ∉ p.2.toList)
    (hname : ∀ p ∈ pairs, '=' ∉ p.1.toList) :
    parameters (String.ofList (joinPairs (pairs.map charPair))) =
      some (assignAll (fun _ => none)
        (pairs.map (fun p => (p.1, beforeEquals p.2)))) := by
  have hcomponents :
      componentsSeparatedBy '&'
        (String.ofList (joinPairs (pairs.map charPair))) =
      pairs.map (fun p => String.ofList (pairText (charPair p))) := by
    rw [componentsSeparatedBy, String.toList_ofList, splitOn_joinPairs]
    · simp [Function.comp_def]
    · simpa using hne
    · intro q hq
      obtain ⟨p, hp, rfl⟩ := List.mem_map.mp hq
      exact hamp p hp
  rw [parameters, hcomponents, List.map_map]
  generalize (fun _ => none : Dictionary) = dict
  clear hne hamp hcomponents
  induction pairs generalizing dict with
  | nil =>
      rfl
  | cons p pairs ih =>
      rw [List.map_cons, List.foldlM_cons, Function.comp_apply,
        addParameter_pairText dict (hname p List.mem_cons_self)]
      exact ih (fun q hq => hname q (List.mem_cons_of_mem _ hq)) _

end Results

end Login
end NotVK
