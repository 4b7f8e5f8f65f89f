import NotVK.App.URLStorage
import Mathlib.Data.List.TakeWhile

/-!
# The access token from the login to the requests

The OAuth server sends its parameters form-encoded in the fragment.  The
delegate stores the value of `access_token` as it stands there, still encoded,
and `URLComponents` encodes it once more.  Whoever decodes the request once gets
the text that the fragment held, with spaces for `+`.
-/

namespace NotVK
namespace Requests

open Forms Login

section Redirect

/-- The form-encoded text of a parameter list. -/
def formSerialize (params : List (String × String)) : String :=
  String.ofList (joinPairs
    (params.map (fun p => (formEncode p.1.toList, formEncode p.2.toList))))

/-- The redirect of the OAuth server with these parameters. -/
def redirect (params : List (String × String)) : NavigationResponse where
  url := some { path := "/blank.html", fragment := some (formSerialize params) }

/-- The parameters of a successful login: one token, and a user id. -/
structure Grants (params : List (String × String)) (t : String) : Prop where
  token : ("access_token", t) ∈ params
  once : ∀ v, ("access_token", v) ∈ params → v = t
  userId : ∃ userId, ("user_id", userId) ∈ params

/-- Name and value as they stand in the fragment. -/
def encodedPair (p : String × String) : String × String :=
  (String.ofList (formEncode p.1.toList), String.ofList (formEncode p.2.toList))

theorem formSerialize_eq (params : List (String × String)) :
    formSerialize params =
      String.ofList (joinPairs ((params.map encodedPair).map charPair)) := by
  rw [formSerialize, List.map_map]
  simp [Function.comp_def, charPair, encodedPair]

/-- An encoded value has nothing after an `=`. -/
theorem beforeEquals_formEncode (s : List Char) :
    beforeEquals (String.ofList (formEncode s)) =
      String.ofList (formEncode s) := by
  have hall := all_ne_of_not_mem (not_mem_formEncode (s := s) (Or.inr rfl))
  rw [beforeEquals, String.toList_ofList, List.takeWhile_eq_self_iff.mpr hall]

/-- The delegate's dictionary holds the parameters still encoded. -/
theorem parameters_formSerialize
    {params : List (String × String)}
    (hne : params ≠ []) :
    parameters (formSerialize params) =
      some (assignAll (fun _ => none) (params.map encodedPair)) := by
  rw [formSerialize_eq, parameters_joinPairs]
  · rw [List.map_map]
    simp only [Function.comp_def, encodedPair, beforeEquals_formEncode]
    rfl
  · simpa using hne
  · intro p hp
    obtain ⟨q, _, rfl⟩ := List.mem_map.mp hp
    simp only [encodedPair, String.toList_ofList]
    exact ⟨not_mem_formEncode (Or.inl rfl), not_mem_formEncode (Or.inl rfl)⟩
  · intro p hp
    obtain ⟨q, _, rfl⟩ := List.mem_map.mp hp
    simp only [encodedPair, String.toList_ofList]
    exact not_mem_formEncode (Or.inr rfl)

/-- A name that is its own encoding is the encoding of no other name. -/
theorem encodedPair_fst_eq_iff
    {p : String × String} {name : String}
    (hname : formEncode name.toList = name.toList) :
    (encodedPair p).1 = name
      ↔
    p.1 = name := by
  rw [encodedPair, ← String.toList_inj, ← String.toList_inj,
    String.toList_ofList]
  constructor
  · intro h
    exact formEncode_injective (h.trans hname.symm)
  · intro h
    rw [h, hname]

/-- A name of the list has the encoded value of one of its pairs. -/
theorem exists_encodedPair
    {params : List (String × String)} {name value : String}
    (hname : formEncode name.toList = name.toList)
    (h : (name, value) ∈ params) :
    ∃ v, (name, v) ∈ params ∧
      assignAll (fun _ => none) (params.map encodedPair) name =
        some (String.ofList (formEncode v.toList)) := by
  have hmem : (name, (encodedPair (name, value)).2) ∈ params.map encodedPair := by
    refine List.mem_map.mpr ⟨(name, value), h, Prod.ext ?_ rfl⟩
    exact (encodedPair_fst_eq_iff hname).mpr rfl
  obtain ⟨w, hw, hassign⟩ := exists_assignAll hmem
  obtain ⟨p, hp, heq⟩ := List.mem_map.mp hw
  obtain ⟨hkey, hvalue⟩ := Prod.mk.inj heq
  have hpname : p.1 = name := (encodedPair_fst_eq_iff hname).mp hkey
  refine ⟨p.2, ?_, ?_⟩
  · rw [← hpname]
    exact hp
  · rw [hassign, ← hvalue]

/-- After the redirect the session holds the token as the fragment had it. -/
theorem decidePolicyFor_redirect
    {params : List (String × String)} {t : String}
    (h : Grants params t) (session : Session) :
    ∃ userId,
      decidePolicyFor session (redirect params) =
        some ({ token := String.ofList (formEncode t.toList), userId := userId },
          [.decisionHandler .cancel, .performSegue "loginSegue"]) := by
  have hne : params ≠ [] := List.ne_nil_of_mem h.token
  obtain ⟨v, hv, htoken⟩ := exists_encodedPair (by decide) h.token
  rw [h.once v hv] at htoken
  obtain ⟨userId, huserId⟩ := h.userId
  obtain ⟨w, _, hid⟩ := exists_encodedPair (by decide) huserId
  refine ⟨(intOfString (String.ofList (formEncode w.toList))).getD 0, ?_⟩
  simp only [decidePolicyFor, redirect, loginFragment, if_true,
    parameters_formSerialize hne, htoken, hid]

end Redirect

section Fidelity

/-- After the redirect every request carries the token. -/
def TokenFaithful
    (session : Session) (params : List (String × String)) (t : String) : Prop :=
  ∃ session' calls,
    decidePolicyFor session (redirect params) = some (session', calls) ∧
    CarriesToken (getURLForGroups session') t ∧
    CarriesToken (getURLforFriends session') t ∧
    ∀ friendId, CarriesToken (loadFriendPhoto session' friendId) t

/-- A request carries a token that was stored encoded only if it is plain. -/
theorem carriesToken_formEncode_iff
    {c : URLComponents} {token t : String}
    (h : SendsToken token c.queryItems)
    (htoken : token = String.ofList (formEncode t.toList)) :
    CarriesToken c.request t
      ↔
    ∀ d ∈ t.toList, formAllowed d = true := by
  rw [carriesToken_iff h, decodeUTF8_eq_some_iff, htoken,
    String.toList_ofList]
  exact formDecode_twice_encoded_iff (by decide) (by decide)

theorem plain_of_tokenFaithful
    {params : List (String × String)} {t : String} {session : Session}
    (h : Grants params t)
    (hfaithful : TokenFaithful session params t) :
    ∀ c ∈ t.toList, formAllowed c = true := by
  obtain ⟨session', calls, hdecide, hgroups, _, _⟩ := hfaithful
  obtain ⟨userId, hredirect⟩ := decidePolicyFor_redirect h session
  rw [hredirect] at hdecide
  cases hdecide
  exact (carriesToken_formEncode_iff
    (sendsToken_listComponents .getGroups _) rfl).mp hgroups

/--
**After a login with token `t` every request carries `t` if and only if `t` is
made of ASCII letters, digits, `*`, `-`, `.`, `_` and spaces.**
-/
theorem tokenFaithful_iff
    {params : List (String × String)} {t : String}
    (h : Grants params t) (session : Session) :
    TokenFaithful session params t
      ↔
    ∀ c ∈ t.toList, formAllowed c = true := by
  constructor
  · exact plain_of_tokenFaithful h
  · intro hplain
    obtain ⟨userId, hdecide⟩ := decidePolicyFor_redirect h session
    refine ⟨_, _, hdecide, ?_, ?_, fun friendId => ?_⟩
    · exact (carriesToken_formEncode_iff
        (sendsToken_listComponents .getGroups _) rfl).mpr hplain
    · exact (carriesToken_formEncode_iff
        (sendsToken_listComponents .getFriends _) rfl).mpr hplain
    · exact (carriesToken_formEncode_iff
        (sendsToken_photoComponents _ friendId) rfl).mpr hplain

/-- Parameters of a login whose token ends in an `=`. -/
def paddedToken : List (String × String) :=
  [("access_token", "a="), ("expires_in", "86400"), ("user_id", "1")]

theorem grants_paddedToken : Grants paddedToken "a=" where
  token := by decide
  once := by
    intro v hv
    simpa [paddedToken] using hv
  userId := ⟨"1", by decide⟩

theorem tokenFaithful_iff_paddedToken :
    TokenFaithful Session.initial paddedToken "a="
      ↔
    ∀ c ∈ "a=".toList, formAllowed c = true :=
  tokenFaithful_iff grants_paddedToken Session.initial

/-- The server's `a=` comes back as `a%3D`. -/
theorem paddedToken_not_faithful :
    Grants paddedToken "a=" ∧
    (∃ calls, decidePolicyFor Session.initial (redirect paddedToken) =
      some (⟨"a%3D", 1⟩, calls)) ∧
    ¬ TokenFaithful Session.initial paddedToken "a=" := by
  refine ⟨grants_paddedToken, ⟨_, rfl⟩, ?_⟩
  intro h
  have hplain := plain_of_tokenFaithful grants_paddedToken h '=' (by simp)
  cases hplain

end Fidelity

end Requests
end NotVK
