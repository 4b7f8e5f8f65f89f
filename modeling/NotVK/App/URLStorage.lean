import NotVK.App.LoginRedirect

/-!
# Requests to the VK API

`URLStorage` and `VKRequestService.loadFriendPhoto` fill in a `URLComponents`
and take its URL.  Each of them sets every part anew, so a request depends on
the session only.  `URLComponents` percent-encodes the names and values of the
query items: it escapes `%`, `&` and `=`, and leaves `+` as it is.
-/

namespace NotVK
namespace Requests

open Forms Login

section URLComponents

structure URLQueryItem where
  name : String
  value : String
deriving DecidableEq

structure URLComponents where
  scheme : String
  host : String
  path : String
  queryItems : List URLQueryItem
deriving DecidableEq

/-- Characters of a query item that are not escaped. -/
def queryItemAllowed (c : Char) : Bool :=
  c.isAlphanum || "-._~!$'()*+,;:@/?".toList.contains c

def URLQueryItem.percentEncoded
    (item : URLQueryItem) : List Char × List Char :=
  (percentEncode queryItemAllowed item.name.toList,
    percentEncode queryItemAllowed item.value.toList)

def URLComponents.percentEncodedQuery (c : URLComponents) : String :=
  String.ofList (joinPairs (c.queryItems.map URLQueryItem.percentEncoded))

/-- A request is known by the parts of its URL. -/
structure URLRequest where
  scheme : String
  host : String
  path : String
  query : String
deriving DecidableEq

/-- `URLRequest(url: urlComponents.url!)`. -/
def URLComponents.request (c : URLComponents) : URLRequest where
  scheme := c.scheme
  host := c.host
  path := c.path
  query := c.percentEncodedQuery

end URLComponents

namespace VKDataSelector

def scheme : String := "https"
def host : String := "api.vk.com"
def apiVersion : String := "5.103"

inductive Method where
  | getGroups
  | getFriends
  | getPhotos
  | searchGroups
deriving DecidableEq

def Method.methodName : Method → String
  | .getGroups => "/method/groups.get"
  | .getFriends => "/method/friends.get"
  | .getPhotos => "/method/photos.get"
  | .searchGroups => "/method/groups.search"

end VKDataSelector

section Requests

/-- Components of a list request. -/
def listComponents
    (method : VKDataSelector.Method) (session : Session) : URLComponents where
  scheme := VKDataSelector.scheme
  host := VKDataSelector.host
  path := method.methodName
  queryItems :=
    [⟨"extended", "1"⟩, ⟨"fields", "description"⟩,
      ⟨"access_token", session.token⟩, ⟨"v", VKDataSelector.apiVersion⟩]

def getURLForGroups (session : Session) : URLRequest :=
  (listComponents .getGroups session).request

def getURLforFriends (session : Session) : URLRequest :=
  (listComponents .getFriends session).request

def photoComponents (session : Session) (friendId : String) : URLComponents where
  scheme := VKDataSelector.scheme
  host := VKDataSelector.host
  path := VKDataSelector.Method.getPhotos.methodName
  queryItems :=
    [⟨"access_token", session.token⟩, ⟨"extended", "1"⟩, ⟨"v", "5.103"⟩,
      ⟨"album_id", "profile"⟩, ⟨"owner_id", friendId⟩]

/-- The request of `loadFriendPhoto(friendId:completion:)`. -/
def loadFriendPhoto (session : Session) (friendId : String) : URLRequest :=
  (photoComponents session friendId).request

end Requests

section Query

/-- The query of the request has an `access_token` that form-decodes to `t`. -/
def CarriesToken (request : URLRequest) (t : String) : Prop :=
  ∃ value, ("access_token".toList, value) ∈ splitPairs request.query.toList ∧
    decodeUTF8 (formDecode value) = some t

/-- The separators of a query are escaped. -/
theorem not_mem_percentEncoded
    {s : List Char} {d : Char}
    (hd : d = '&' ∨ d = '=') :
    d ∉ percentEncode queryItemAllowed s := by
  intro h
  rcases hd with rfl | rfl <;>
    rcases mem_percentEncode h with h | h | h <;> revert h <;> decide

/-- The receiver splits the query into the encoded query items. -/
theorem splitPairs_percentEncodedQuery
    {c : URLComponents}
    (hne : c.queryItems ≠ []) :
    splitPairs c.percentEncodedQuery.toList =
      c.queryItems.map URLQueryItem.percentEncoded := by
  rw [URLComponents.percentEncodedQuery, String.toList_ofList]
  apply splitPairs_joinPairs
  · simpa using hne
  · intro p hp
    obtain ⟨item, _, rfl⟩ := List.mem_map.mp hp
    exact ⟨not_mem_percentEncoded (Or.inl rfl),
      not_mem_percentEncoded (Or.inl rfl)⟩
  · intro p hp
    obtain ⟨item, _, rfl⟩ := List.mem_map.mp hp
    exact not_mem_percentEncoded (Or.inr rfl)

/-- The query items hold the token once, under names that are not escaped. -/
structure SendsToken (token : String) (items : List URLQueryItem) : Prop where
  plainNames : ∀ item ∈ items, item.name.toList.all queryItemAllowed = true
  sends : ⟨"access_token", token⟩ ∈ items
  once : ∀ item ∈ items, item.name = "access_token" → item.value = token

theorem sendsToken_listComponents
    (method : VKDataSelector.Method) (session : Session) :
    SendsToken session.token (listComponents method session).queryItems where
  plainNames := by
    simp only [listComponents, List.forall_mem_cons]
    exact ⟨rfl, rfl, rfl, rfl, List.forall_mem_nil _⟩
  sends := by
    simp [listComponents]
  once := by
    simp [listComponents]

theorem sendsToken_photoComponents (session : Session) (friendId : String) :
    SendsToken session.token (photoComponents session friendId).queryItems where
  plainNames := by
    simp only [photoComponents, List.forall_mem_cons]
    exact ⟨rfl, rfl, rfl, rfl, rfl, List.forall_mem_nil _⟩
  sends := by
    simp [photoComponents]
  once := by
    simp [photoComponents]

/-- What the receiver reads as the token of a request. -/
theorem carriesToken_iff
    {c : URLComponents} {token t : String}
    (h : SendsToken token c.queryItems) :
    CarriesToken c.request t
      ↔
    decodeUTF8 (formDecode (percentEncode queryItemAllowed token.toList)) =
      some t := by
  have hne : c.queryItems ≠ [] := by
    intro hnil
    have hmem := h.sends
    rw [hnil] at hmem
    cases hmem
  have hname : ∀ item ∈ c.queryItems,
      percentEncode queryItemAllowed item.name.toList = item.name.toList :=
    fun item hitem => percentEncode_eq_self_iff.mpr
      (List.all_eq_true.mp (h.plainNames item hitem))
  unfold CarriesToken URLComponents.request
  rw [splitPairs_percentEncodedQuery hne]
  constructor
  · rintro ⟨value, hmem, hdecode⟩
    obtain ⟨item, hitem, heq⟩ := List.mem_map.mp hmem
    obtain ⟨hkey, rfl⟩ := Prod.mk.inj heq
    rw [hname item hitem] at hkey
    have hvalue := h.once item hitem (String.toList_injective hkey)
    rw [hvalue] at hdecode
    exact hdecode
  · intro hdecode
    refine ⟨_, List.mem_map.mpr ⟨_, h.sends, ?_⟩, hdecode⟩
    exact Prod.ext (hname _ h.sends) rfl

end Query

end Requests
end NotVK
