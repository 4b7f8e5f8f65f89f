import NotVK.Library.LabelledRun
import NotVK.App.LoginParameters

/-!
# Navigation responses during a login

WebKit asks the delegate about every response and waits for its
`decisionHandler`.  The delegate answers `.allow` when the first guard fails and
`.cancel` when it finds both parameters.  When the redirect to `/blank.html`
lacks one of them, the second guard returns without an answer: the server's
`error=access_denied` leads there.
-/

namespace NotVK
namespace Login

open Runs

section Decisions

/-- The session after one response. -/
def step
    (session : Session) (navigationResponse : NavigationResponse) :
    Option Session :=
  (decidePolicyFor session navigationResponse).map Prod.fst

/-- The answers given to WebKit. -/
def answers (calls : List Call) : List Policy :=
  calls.filterMap (fun call =>
    match call with
    | .decisionHandler policy => some policy
    | .performSegue _ => none)

def segues (calls : List Call) : List String :=
  calls.filterMap (fun call =>
    match call with
    | .decisionHandler _ => none
    | .performSegue identifier => some identifier)

/-- Some component of the fragment has the name `key`. -/
def Holds (fragment key : String) : Prop :=
  key ∈ (fragmentPairs fragment).map Prod.fst

instance (fragment key : String) : Decidable (Holds fragment key) :=
  inferInstanceAs (Decidable (key ∈ _))

/-- The fragment holds both parameters of a login. -/
def Granted (fragment : String) : Prop :=
  Holds fragment "access_token" ∧ Holds fragment "user_id"

instance : DecidablePred Granted :=
  fun _ => inferInstanceAs (Decidable (_ ∧ _))

/-- The response is the redirect of a login that was granted. -/
def IsLogin (navigationResponse : NavigationResponse) : Prop :=
  ∃ url, navigationResponse.url = some url ∧ url.path = "/blank.html" ∧
    ∃ fragment, url.fragment = some fragment ∧ Granted fragment

/-- Token and user id of a fragment that holds both. -/
def grantedSession (fragment : String) : Option Session :=
  match lastValue (fragmentPairs fragment) "access_token",
    lastValue (fragmentPairs fragment) "user_id" with
  | some token, some userId =>
      some {
        token := beforeEquals token
        userId := (intOfString (beforeEquals userId)).getD 0 }
  | _, _ => none

/-- The session that a login brings. -/
def loginSession (navigationResponse : NavigationResponse) : Option Session :=
  (loginFragment navigationResponse).bind grantedSession

/-- One response handled as WebKit and the login require. -/
structure Answered
    (session : Session) (navigationResponse : NavigationResponse)
    (session' : Session) (calls : List Call) : Prop where
  once : ∃ policy, answers calls = [policy] ∧
    (policy = .cancel ↔ IsLogin navigationResponse)
  segue : IsLogin navigationResponse → segues calls = ["loginSegue"]
  noSegue : ¬ IsLogin navigationResponse → segues calls = []
  frame : ¬ IsLogin navigationResponse → session' = session

/-- A run of responses without a trap, each of them answered. -/
def LoginRun
    (session : Session) (responses : List NavigationResponse) : Prop :=
  ∃ session', run step session responses = some session' ∧
    EveryStep step
      (fun before navigationResponse after =>
        ∃ calls, decidePolicyFor before navigationResponse =
            some (after, calls) ∧
          Answered before navigationResponse after calls)
      session responses ∧
    session' = ((responses.filterMap loginSession).getLast?).getD session

end Decisions

section OneResponse

theorem isLogin_iff {navigationResponse : NavigationResponse} :
    IsLogin navigationResponse
      ↔
    ∃ fragment, loginFragment navigationResponse = some fragment ∧
      Granted fragment := by
  constructor
  · rintro ⟨url, hurl, hpath, fragment, hfragment, hgranted⟩
    refine ⟨fragment, ?_, hgranted⟩
    simp [loginFragment, hurl, hpath, hfragment]
  · rintro ⟨fragment, hfragment, hgranted⟩
    unfold loginFragment at hfragment
    split at hfragment
    · cases hfragment
    · next url hurl =>
        split at hfragment
        · next hpath =>
            exact ⟨url, hurl, hpath, fragment, hfragment, hgranted⟩
        · cases hfragment

theorem lastValue_eq_none_iff
    {pairs : List (String × String)} {key : String} :
    lastValue pairs key = none
      ↔
    key ∉ pairs.map Prod.fst := by
  rw [lastValue, List.lookup_eq_none_iff]
  constructor
  · intro h hmem
    obtain ⟨p, hp, rfl⟩ := List.mem_map.mp hmem
    simpa using h p (List.mem_reverse.mpr hp)
  · intro h p hp
    have hne : key ≠ p.1 := by
      rintro rfl
      exact h (List.mem_map_of_mem (List.mem_reverse.mp hp))
    simpa using hne

theorem holds_iff_exists_lastValue {fragment key : String} :
    Holds fragment key
      ↔
    ∃ value, lastValue (fragmentPairs fragment) key = some value := by
  rw [← Option.ne_none_iff_exists', Ne, lastValue_eq_none_iff, not_not, Holds]

/-- Nothing happens to a response that the first guard sends away. -/
theorem decidePolicyFor_of_not_redirect
    {navigationResponse : NavigationResponse}
    (hfragment : loginFragment navigationResponse = none)
    (session : Session) :
    decidePolicyFor session navigationResponse =
      some (session, [.decisionHandler .allow]) := by
  rw [decidePolicyFor, hfragment]

/-- A redirect whose fragment holds both parameters is a login. -/
theorem decidePolicyFor_of_granted
    {navigationResponse : NavigationResponse} {fragment : String}
    {login : Session}
    (hfragment : loginFragment navigationResponse = some fragment)
    (hkeyValue : KeyValue fragment)
    (hgranted : grantedSession fragment = some login)
    (session : Session) :
    decidePolicyFor session navigationResponse =
      some (login, [.decisionHandler .cancel, .performSegue "loginSegue"]) := by
  rw [grantedSession] at hgranted
  rw [decidePolicyFor, hfragment]
  simp only [parameters_eq hkeyValue, assignAll_beforeEquals_apply]
  split at hgranted
  next token userId htoken huserId =>
    cases hgranted
    simp [htoken, huserId]
  next => cases hgranted

/-- The second guard returns without a call. -/
theorem decidePolicyFor_of_refused
    {navigationResponse : NavigationResponse} {fragment : String}
    (hfragment : loginFragment navigationResponse = some fragment)
    (hkeyValue : KeyValue fragment)
    (hrefused : grantedSession fragment = none)
    (session : Session) :
    decidePolicyFor session navigationResponse = some (session, []) := by
  rw [grantedSession] at hrefused
  rw [decidePolicyFor, hfragment]
  simp only [parameters_eq hkeyValue, assignAll_beforeEquals_apply]
  split at hrefused
  next => cases hrefused
  next hmissing =>
    split
    next first second hfirst hsecond =>
      obtain ⟨token, htoken, _⟩ := Option.map_eq_some_iff.mp hfirst
      obtain ⟨userId, huserId, _⟩ := Option.map_eq_some_iff.mp hsecond
      exact absurd huserId (hmissing token userId htoken)
    next => rfl

/-- A fragment brings a session exactly when it holds both parameters. -/
theorem grantedSession_eq_none_iff {fragment : String} :
    grantedSession fragment = none
      ↔
    ¬ Granted fragment := by
  rw [Granted, holds_iff_exists_lastValue, holds_iff_exists_lastValue,
    grantedSession]
  cases lastValue (fragmentPairs fragment) "access_token" with
  | none =>
      simp
  | some token =>
      cases lastValue (fragmentPairs fragment) "user_id" with
      | none =>
          simp
      | some userId =>
          simp

/-- `.allow` is the answer to a response that is no redirect. -/
theorem answered_allow
    {navigationResponse : NavigationResponse}
    (hfragment : loginFragment navigationResponse = none)
    (session : Session) :
    Answered session navigationResponse session
      [.decisionHandler .allow] := by
  have hlogin : ¬ IsLogin navigationResponse := by
    simp [isLogin_iff, hfragment]
  exact
    { once := ⟨.allow, rfl, by simp [hlogin]⟩
      segue := fun h => absurd h hlogin
      noSegue := fun _ => rfl
      frame := fun _ => rfl }

/-- `.cancel` and the segue are the answer to a login. -/
theorem answered_login
    {navigationResponse : NavigationResponse}
    (hlogin : IsLogin navigationResponse)
    (session login : Session) :
    Answered session navigationResponse login
      [.decisionHandler .cancel, .performSegue "loginSegue"] where
  once := ⟨.cancel, rfl, by simp [hlogin]⟩
  segue _ := rfl
  noSegue h := absurd hlogin h
  frame h := absurd hlogin h

theorem not_answered_nil
    {session session' : Session} {navigationResponse : NavigationResponse} :
    ¬ Answered session navigationResponse session' [] := by
  intro h
  obtain ⟨policy, honce, _⟩ := h.once
  cases honce

/-- The delegate answers a response unless the login was refused. -/
theorem answered_iff
    {navigationResponse : NavigationResponse}
    (hkeyValue : ∀ fragment,
      loginFragment navigationResponse = some fragment → KeyValue fragment)
    {session session' : Session}
    (hstep : step session navigationResponse = some session') :
    (∃ calls,
      decidePolicyFor session navigationResponse = some (session', calls) ∧
      Answered session navigationResponse session' calls)
      ↔
    ∀ fragment,
      loginFragment navigationResponse = some fragment → Granted fragment := by
  cases hfragment : loginFragment navigationResponse with
  | none =>
      have hdecide := decidePolicyFor_of_not_redirect hfragment session
      rw [step, hdecide] at hstep
      cases hstep
      exact iff_of_true ⟨_, hdecide, answered_allow hfragment session⟩
        (by simp)
  | some fragment =>
      have hkv := hkeyValue fragment hfragment
      cases hgranted : grantedSession fragment with
      | none =>
          have hrefused := grantedSession_eq_none_iff.mp hgranted
          refine iff_of_false ?_ (fun h => hrefused (h fragment rfl))
          rintro ⟨calls, hcalls, hanswered⟩
          rw [decidePolicyFor_of_refused hfragment hkv hgranted] at hcalls
          cases hcalls
          exact not_answered_nil hanswered
      | some login =>
          have hholds : Granted fragment := by
            by_contra hrefused
            rw [grantedSession_eq_none_iff.mpr hrefused] at hgranted
            cases hgranted
          have hlogin := isLogin_iff.mpr ⟨fragment, hfragment, hholds⟩
          have hdecide :=
            decidePolicyFor_of_granted hfragment hkv hgranted session
          rw [step, hdecide] at hstep
          cases hstep
          refine iff_of_true ⟨_, hdecide, answered_login hlogin session _⟩ ?_
          intro _ h
          cases h
          exact hholds

/-- A fragment that does not trap is made of key-value components. -/
theorem keyValue_of_step
    {session session' : Session} {navigationResponse : NavigationResponse}
    {fragment : String}
    (hstep : step session navigationResponse = some session')
    (hfragment : loginFragment navigationResponse = some fragment) :
    KeyValue fragment := by
  rw [← exists_parameters_iff, ← Option.ne_none_iff_exists']
  intro hnone
  rw [step, decidePolicyFor, hfragment] at hstep
  simp only [hnone] at hstep
  cases hstep

/-- A response that does not trap keeps the session or brings a new one. -/
theorem step_eq_some
    (session : Session) (navigationResponse : NavigationResponse)
    (session' : Session)
    (hstep : step session navigationResponse = some session') :
    session' = (loginSession navigationResponse).getD session := by
  rw [loginSession]
  cases hfragment : loginFragment navigationResponse with
  | none =>
      rw [step, decidePolicyFor_of_not_redirect hfragment] at hstep
      cases hstep
      rfl
  | some fragment =>
      have hkv := keyValue_of_step hstep hfragment
      rw [Option.bind_some]
      cases hgranted : grantedSession fragment with
      | none =>
          rw [step, decidePolicyFor_of_refused hfragment hkv hgranted] at hstep
          cases hstep
          rfl
      | some login =>
          rw [step, decidePolicyFor_of_granted hfragment hkv hgranted] at hstep
          cases hstep
          rfl

end OneResponse

section WholeLogin

/-- Responses with key-value fragments never trap. -/
theorem exists_step
    {navigationResponse : NavigationResponse}
    (hkeyValue : ∀ fragment,
      loginFragment navigationResponse = some fragment → KeyValue fragment)
    (session : Session) :
    ∃ session', step session navigationResponse = some session' := by
  cases hfragment : loginFragment navigationResponse with
  | none =>
      rw [step, decidePolicyFor_of_not_redirect hfragment]
      exact ⟨session, rfl⟩
  | some fragment =>
      have hkv := hkeyValue fragment hfragment
      cases hgranted : grantedSession fragment with
      | none =>
          rw [step, decidePolicyFor_of_refused hfragment hkv hgranted]
          exact ⟨session, rfl⟩
      | some login =>
          rw [step, decidePolicyFor_of_granted hfragment hkv hgranted]
          exact ⟨login, rfl⟩

theorem exists_run
    {responses : List NavigationResponse}
    (hkeyValue : ∀ navigationResponse ∈ responses, ∀ fragment,
      loginFragment navigationResponse = some fragment → KeyValue fragment)
    (session : Session) :
    ∃ session', run step session responses = some session' := by
  induction responses generalizing session with
  | nil =>
      exact ⟨session, rfl⟩
  | cons navigationResponse responses ih =>
      obtain ⟨next, hnext⟩ :=
        exists_step (hkeyValue _ List.mem_cons_self) session
      obtain ⟨session', hrest⟩ :=
        ih (fun r hr => hkeyValue r (List.mem_cons_of_mem _ hr)) next
      exact ⟨session', run_cons_some.mpr ⟨next, hnext, hrest⟩⟩

/--
**The delegate handles every run of responses as required if and only if no
redirect refuses the login.**
-/
theorem loginRun_iff
    {responses : List NavigationResponse}
    (hkeyValue : ∀ navigationResponse ∈ responses, ∀ fragment,
      loginFragment navigationResponse = some fragment → KeyValue fragment)
    (session : Session) :
    LoginRun session responses
      ↔
    ∀ navigationResponse ∈ responses, ∀ fragment,
      loginFragment navigationResponse = some fragment → Granted fragment := by
  obtain ⟨session', hrun⟩ := exists_run hkeyValue session
  constructor
  · rintro ⟨_, _, hanswered, _⟩ navigationResponse hmem
    obtain ⟨pre, post, rfl⟩ := List.append_of_mem hmem
    obtain ⟨before, hpre, hrest⟩ := run_append_some.mp hrun
    obtain ⟨after, hstep, _⟩ := run_cons_some.mp hrest
    exact (answered_iff (hkeyValue _ hmem) hstep).mp
      (hanswered.at_split hpre hstep)
  · intro hgranted
    have hlast : session' =
        ((responses.filterMap loginSession).getLast?).getD session :=
      run_lastWrite step_eq_some hrun
    refine ⟨session', hrun, ?_, hlast⟩
    apply everyStep_of_split
    intro pre navigationResponse post before after hsplit _ hstep
    have hmem : navigationResponse ∈ responses := by
      rw [hsplit]
      exact List.mem_append_right _ List.mem_cons_self
    exact (answered_iff (hkeyValue _ hmem) hstep).mpr (hgranted _ hmem)

/-- The redirect of a login with this fragment. -/
def blankRedirect (fragment : String) : NavigationResponse where
  url := some { path := "/blank.html", fragment := some fragment }

/-- The login page, then a login that is granted. -/
def grantedLogin : List NavigationResponse :=
  [{ url := some { path := "/authorize", fragment := none } },
    blankRedirect "access_token=a&expires_in=0&user_id=1"]

theorem keyValue_grantedLogin :
    ∀ navigationResponse ∈ grantedLogin, ∀ fragment,
      loginFragment navigationResponse = some fragment →
        KeyValue fragment := by
  simp only [grantedLogin, blankRedirect, List.forall_mem_cons]
  refine ⟨fun fragment h => ?_, fun fragment h => ?_, by simp⟩
  · cases h
  · cases h
    decide

theorem loginRun_iff_grantedLogin :
    LoginRun Session.initial grantedLogin
      ↔
    ∀ navigationResponse ∈ grantedLogin, ∀ fragment,
      loginFragment navigationResponse = some fragment → Granted fragment :=
  loginRun_iff keyValue_grantedLogin Session.initial

/-- The user denies the access, and WebKit waits for an answer. -/
theorem refusedLogin_not_answered :
    KeyValue "error=access_denied&state=" ∧
    decidePolicyFor Session.initial
        (blankRedirect "error=access_denied&state=") =
      some (Session.initial, []) ∧
    ¬ LoginRun Session.initial
        [blankRedirect "error=access_denied&state="] := by
  refine ⟨by decide, rfl, ?_⟩
  rintro ⟨_, _, hanswered, _⟩
  obtain ⟨⟨calls, hcalls, hone⟩, _⟩ := hanswered Session.initial rfl
  cases hcalls
  exact not_answered_nil hone

end WholeLogin

end Login
end NotVK
