import NotVK.Library.JSONDecoding

/-!
# The decodable model classes

Every class of the model with its `CodingKeys` and its `init(from:)`.  Three
kinds of initializer occur:

* synthesised ones, which decode every stored property and `decodeIfPresent`
  the optional ones (`FriendItem`, `GroupItem`, `PhotoItems`, the counters);
* hand-written lenient ones, which require a few keys and put `try?` before the
  others (`NewsItem`, `NewsAttachment`, `NewsLink`);
* `NewsVideo`, which declares a key for each of its properties and decodes `id`.

A hand-written initializer starts from the default values that `init()` gives,
so a property it does not read keeps its default.
-/

namespace NotVK
namespace News

open Json

section Model

structure FriendItem where
  firstName : String
  lastName : String
  friendPhoto100 : Option String
  id : Int
deriving DecidableEq

structure GroupItem where
  id : Int
  name : String
  groupPhotoURL : String
deriving DecidableEq

structure PhotoItems where
  photoId : Int
  url : String
deriving DecidableEq

structure PhotoList where
  items : List PhotoItems
deriving DecidableEq

structure NewsComments where
  count : Int
  canPost : Int
deriving DecidableEq

structure NewsLikesNews where
  count : Int
  userLikes : Int
  canLike : Int
  canPublish : Int
deriving DecidableEq

structure NewsRepostsNews where
  count : Int
  userReposted : Int
deriving DecidableEq

structure NewsViews where
  count : Int
deriving DecidableEq

structure NewsFirstFrame where
  height : Int
  url : String
  width : Int
  withPadding : Option Int
deriving DecidableEq

structure NewsVideo where
  accessKey : String
  canComment : Int
  canLike : Int
  canRepost : Int
  canSubscribe : Int
  canAddToFaves : Int
  canAdd : Int
  comments : Int
  date : Int
  videoDescription : String
  duration : Int
  image : List NewsFirstFrame
  firstFrame : List NewsFirstFrame
  width : Int
  height : Int
  id : Int
  ownerID : Int
  title : String
  trackCode : String
  type : String
  views : Int
deriving DecidableEq

structure NewsLink where
  url : String
  title : String
  caption : Option String
  photo : Option PhotoItems
deriving DecidableEq

structure NewsAttachment where
  type : Option String
  photo : Option PhotoItems
  link : Option NewsLink
  video : Option NewsVideo
deriving DecidableEq

structure NewsItem where
  type : String
  sourceID : Int
  date : Int
  postType : Option String
  text : Option String
  attachments : Option (List NewsAttachment)
  photos : Option PhotoList
  comments : Option NewsComments
  likesNews : Option NewsLikesNews
  repostsNews : Option NewsRepostsNews
  views : Option NewsViews
  isFavorite : Bool
  postID : Int
deriving DecidableEq

structure NewsItems where
  items : List NewsItem
  profiles : List FriendItem
  groups : List GroupItem
  nextFrom : String
deriving DecidableEq

structure NewsResponseNews where
  response : NewsItems
deriving DecidableEq

/-- `VKItems<T>`. -/
structure VKItems (T : Type) where
  items : List T
deriving DecidableEq

/-- `VKResponse<T>`. -/
structure VKResponse (T : Type) where
  response : VKItems T
deriving DecidableEq

/-- `NewsVideo()`. -/
def NewsVideo.initial : NewsVideo where
  accessKey := ""
  canComment := 0
  canLike := 0
  canRepost := 0
  canSubscribe := 0
  canAddToFaves := 0
  canAdd := 0
  comments := 0
  date := 0
  videoDescription := ""
  duration := 0
  image := []
  firstFrame := []
  width := 0
  height := 0
  id := 0
  ownerID := 0
  title := ""
  trackCode := ""
  type := ""
  views := 0

/-- `NewsLink()`. -/
def NewsLink.initial : NewsLink where
  url := ""
  title := ""
  caption := some ""
  photo := none

/-- `NewsAttachment()`. -/
def NewsAttachment.initial : NewsAttachment where
  type := some ""
  photo := none
  link := none
  video := none

/-- `NewsItem()`. -/
def NewsItem.initial : NewsItem where
  type := ""
  sourceID := 0
  date := 0
  postType := some ""
  text := some ""
  attachments := some []
  photos := none
  comments := none
  likesNews := none
  repostsNews := none
  views := none
  isFavorite := false
  postID := 0

end Model

section Decoders

def FriendItem.decode : Decoder FriendItem := fun v => do
  let c ← container v
  let firstName ← c.decode decodeString "first_name"
  let lastName ← c.decode decodeString "last_name"
  let friendPhoto100 ← c.decodeIfPresent decodeString "photo_100"
  let id ← c.decode decodeInt "id"
  return ⟨firstName, lastName, friendPhoto100, id⟩

def GroupItem.decode : Decoder GroupItem := fun v => do
  let c ← container v
  let id ← c.decode decodeInt "id"
  let name ← c.decode decodeString "name"
  let groupPhotoURL ← c.decode decodeString "photo_50"
  return ⟨id, name, groupPhotoURL⟩

def PhotoItems.decode : Decoder PhotoItems := fun v => do
  let c ← container v
  let photoId ← c.decode decodeInt "id"
  let url ← c.decode decodeString "photo_604"
  return ⟨photoId, url⟩

def PhotoList.decode : Decoder PhotoList := fun v => do
  let c ← container v
  let items ← c.decode (decodeArray PhotoItems.decode) "items"
  return ⟨items⟩

def NewsComments.decode : Decoder NewsComments := fun v => do
  let c ← container v
  let count ← c.decode decodeInt "count"
  let canPost ← c.decode decodeInt "can_post"
  return ⟨count, canPost⟩

def NewsLikesNews.decode : Decoder NewsLikesNews := fun v => do
  let c ← container v
  let count ← c.decode decodeInt "count"
  let userLikes ← c.decode decodeInt "user_likes"
  let canLike ← c.decode decodeInt "can_like"
  let canPublish ← c.decode decodeInt "can_publish"
  return ⟨count, userLikes, canLike, canPublish⟩

def NewsRepostsNews.decode : Decoder NewsRepostsNews := fun v => do
  let c ← container v
  let count ← c.decode decodeInt "count"
  let userReposted ← c.decode decodeInt "user_reposted"
  return ⟨count, userReposted⟩

def NewsViews.decode : Decoder NewsViews := fun v => do
  let c ← container v
  let count ← c.decode decodeInt "count"
  return ⟨count⟩

/-- `NewsVideo.init(from:)` reads `id` and none of the other keys. -/
def NewsVideo.decode : Decoder NewsVideo := fun v => do
  let c ← container v
  let id ← c.decode decodeInt "id"
  return { NewsVideo.initial with id := id }

def NewsLink.decode : Decoder NewsLink := fun v => do
  let c ← container v
  let url ← c.decode decodeString "url"
  let title ← c.decode decodeString "title"
  return { NewsLink.initial with
    url := url
    title := title
    caption := tryOptional (c.decodeIfPresent decodeString "caption")
    photo := tryOptional (c.decodeIfPresent PhotoItems.decode "photo") }

def NewsAttachment.decode : Decoder NewsAttachment := fun v => do
  let c ← container v
  return { NewsAttachment.initial with
    type := tryOptional (c.decodeIfPresent decodeString "type")
    photo := tryOptional (c.decodeIfPresent PhotoItems.decode "photo")
    link := tryOptional (c.decodeIfPresent NewsLink.decode "link")
    video := tryOptional (c.decodeIfPresent NewsVideo.decode "video") }

/-- `NewsItem.init(from:)`; `is_favorite` has a key and is not read. -/
def NewsItem.decode : Decoder NewsItem := fun v => do
  let c ← container v
  let postID ← c.decode decodeInt "post_id"
  let sourceID ← c.decode decodeInt "source_id"
  let date ← c.decode decodeInt "date"
  let type ← c.decode decodeString "type"
  return { NewsItem.initial with
    postID := postID
    sourceID := sourceID
    date := date
    type := type
    likesNews := tryOptional (c.decodeIfPresent NewsLikesNews.decode "likes")
    comments := tryOptional (c.decodeIfPresent NewsComments.decode "comments")
    repostsNews :=
      tryOptional (c.decodeIfPresent NewsRepostsNews.decode "reposts")
    views := tryOptional (c.decodeIfPresent NewsViews.decode "views")
    postType := tryOptional (c.decodeIfPresent decodeString "post_type")
    text := tryOptional (c.decodeIfPresent decodeString "text")
    photos := tryOptional (c.decodeIfPresent PhotoList.decode "photos")
    attachments := tryOptional
      (c.decodeIfPresent (decodeArray NewsAttachment.decode) "attachments") }

def NewsItems.decode : Decoder NewsItems := fun v => do
  let c ← container v
  let items ← c.decode (decodeArray NewsItem.decode) "items"
  let profiles ← c.decode (decodeArray FriendItem.decode) "profiles"
  let groups ← c.decode (decodeArray GroupItem.decode) "groups"
  let nextFrom ← c.decode decodeString "next_from"
  return ⟨items, profiles, groups, nextFrom⟩

def NewsResponseNews.decode : Decoder NewsResponseNews := fun v => do
  let c ← container v
  let response ← c.decode NewsItems.decode "response"
  return ⟨response⟩

variable {T : Type}

def VKItems.decode (dec : Decoder T) : Decoder (VKItems T) := fun v => do
  let c ← container v
  let items ← c.decode (decodeArray dec) "items"
  return ⟨items⟩

def VKResponse.decode (dec : Decoder T) : Decoder (VKResponse T) := fun v => do
  let c ← container v
  let response ← c.decode (VKItems.decode dec) "response"
  return ⟨response⟩

end Decoders

end News
end NotVK
