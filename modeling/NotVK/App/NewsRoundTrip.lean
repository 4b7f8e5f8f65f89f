import NotVK.App.NewsModel

/-!
# What decoding gives back of a feed item

`CodingKeys` declare a format: each property of a class sits under its key, with
its own type, and a nil property is absent or null.  `RepresentsItem` and its
companions say that a JSON value holds a given item in that format, at every
level; other members may be there as well.

Decoding such a value gives `asDecoded x`: the item itself, except that
`is_favorite` is never read and that `NewsVideo.init(from:)` reads `id` alone.
The round trip is exact when these omissions do not show.
-/

namespace NotVK
namespace News

open Json

section Format

structure PhotoMembers
    (x : PhotoItems) (members : List (String × JSON)) : Prop where
  photoId : Holds members "id" RepresentsInt x.photoId
  url : Holds members "photo_604" RepresentsString x.url

def RepresentsPhoto (x : PhotoItems) : JSON → Prop :=
  IsObject (PhotoMembers x)

structure PhotoListMembers
    (x : PhotoList) (members : List (String × JSON)) : Prop where
  items : Holds members "items" (RepresentsList RepresentsPhoto) x.items

def RepresentsPhotoList (x : PhotoList) : JSON → Prop :=
  IsObject (PhotoListMembers x)

structure CommentsMembers
    (x : NewsComments) (members : List (String × JSON)) : Prop where
  count : Holds members "count" RepresentsInt x.count
  canPost : Holds members "can_post" RepresentsInt x.canPost

def RepresentsComments (x : NewsComments) : JSON → Prop :=
  IsObject (CommentsMembers x)

structure LikesMembers
    (x : NewsLikesNews) (members : List (String × JSON)) : Prop where
  count : Holds members "count" RepresentsInt x.count
  userLikes : Holds members "user_likes" RepresentsInt x.userLikes
  canLike : Holds members "can_like" RepresentsInt x.canLike
  canPublish : Holds members "can_publish" RepresentsInt x.canPublish

def RepresentsLikes (x : NewsLikesNews) : JSON → Prop :=
  IsObject (LikesMembers x)

structure RepostsMembers
    (x : NewsRepostsNews) (members : List (String × JSON)) : Prop where
  count : Holds members "count" RepresentsInt x.count
  userReposted : Holds members "user_reposted" RepresentsInt x.userReposted

def RepresentsReposts (x : NewsRepostsNews) : JSON → Prop :=
  IsObject (RepostsMembers x)

structure ViewsMembers
    (x : NewsViews) (members : List (String × JSON)) : Prop where
  count : Holds members "count" RepresentsInt x.count

def RepresentsViews (x : NewsViews) : JSON → Prop :=
  IsObject (ViewsMembers x)

structure FirstFrameMembers
    (x : NewsFirstFrame) (members : List (String × JSON)) : Prop where
  height : Holds members "height" RepresentsInt x.height
  url : Holds members "url" RepresentsString x.url
  width : Holds members "width" RepresentsInt x.width
  withPadding : HoldsOptional members "with_padding" RepresentsInt x.withPadding

def RepresentsFirstFrame (x : NewsFirstFrame) : JSON → Prop :=
  IsObject (FirstFrameMembers x)

structure VideoMembers
    (x : NewsVideo) (members : List (String × JSON)) : Prop where
  accessKey : Holds members "access_key" RepresentsString x.accessKey
  canComment : Holds members "can_comment" RepresentsInt x.canComment
  canLike : Holds members "can_like" RepresentsInt x.canLike
  canRepost : Holds members "can_repost" RepresentsInt x.canRepost
  canSubscribe : Holds members "can_subscribe" RepresentsInt x.canSubscribe
  canAddToFaves : Holds members "can_add_to_faves" RepresentsInt x.canAddToFaves
  canAdd : Holds members "can_add" RepresentsInt x.canAdd
  comments : Holds members "comments" RepresentsInt x.comments
  date : Holds members "date" RepresentsInt x.date
  videoDescription :
    Holds members "description" RepresentsString x.videoDescription
  duration : Holds members "duration" RepresentsInt x.duration
  image : Holds members "image" (RepresentsList RepresentsFirstFrame) x.image
  firstFrame :
    Holds members "first_frame" (RepresentsList RepresentsFirstFrame)
      x.firstFrame
  width : Holds members "width" RepresentsInt x.width
  height : Holds members "height" RepresentsInt x.height
  id : Holds members "id" RepresentsInt x.id
  ownerID : Holds members "owner_id" RepresentsInt x.ownerID
  title : Holds members "title" RepresentsString x.title
  trackCode : Holds members "track_code" RepresentsString x.trackCode
  type : Holds members "type" RepresentsString x.type
  views : Holds members "views" RepresentsInt x.views

def RepresentsVideo (x : NewsVideo) : JSON → Prop :=
  IsObject (VideoMembers x)

structure LinkMembers
    (x : NewsLink) (members : List (String × JSON)) : Prop where
  url : Holds members "url" RepresentsString x.url
  title : Holds members "title" RepresentsString x.title
  caption : HoldsOptional members "caption" RepresentsString x.caption
  photo : HoldsOptional members "photo" RepresentsPhoto x.photo

def RepresentsLink (x : NewsLink) : JSON → Prop :=
  IsObject (LinkMembers x)

structure AttachmentMembers
    (x : NewsAttachment) (members : List (String × JSON)) : Prop where
  type : HoldsOptional members "type" RepresentsString x.type
  photo : HoldsOptional members "photo" RepresentsPhoto x.photo
  link : HoldsOptional members "link" RepresentsLink x.link
  video : HoldsOptional members "video" RepresentsVideo x.video

def RepresentsAttachment (x : NewsAttachment) : JSON → Prop :=
  IsObject (AttachmentMembers x)

structure ItemMembers
    (x : NewsItem) (members : List (String × JSON)) : Prop where
  type : Holds members "type" RepresentsString x.type
  sourceID : Holds members "source_id" RepresentsInt x.sourceID
  date : Holds members "date" RepresentsInt x.date
  postType : HoldsOptional members "post_type" RepresentsString x.postType
  text : HoldsOptional members "text" RepresentsString x.text
  attachments :
    HoldsOptional members "attachments" (RepresentsList RepresentsAttachment)
      x.attachments
  photos : HoldsOptional members "photos" RepresentsPhotoList x.photos
  comments : HoldsOptional members "comments" RepresentsComments x.comments
  likesNews : HoldsOptional members "likes" RepresentsLikes x.likesNews
  repostsNews : HoldsOptional members "reposts" RepresentsReposts x.repostsNews
  views : HoldsOptional members "views" RepresentsViews x.views
  isFavorite : Holds members "is_favorite" RepresentsBool x.isFavorite
  postID : Holds members "post_id" RepresentsInt x.postID

/-- The value holds the item in the format that the `CodingKeys` declare. -/
def RepresentsItem (x : NewsItem) : JSON → Prop :=
  IsObject (ItemMembers x)

end Format

section RoundTrip

theorem isObject_ne_null
    {P : List (String × JSON) → Prop} :
    ¬ IsObject P .null := by
  rintro ⟨members, h, _⟩
  cases h

theorem reads_photo : Reads RepresentsPhoto PhotoItems.decode where
  ok := by
    rintro x _ ⟨members, rfl, h⟩
    simp only [PhotoItems.decode, container, ok_bind,
      reads_int.decode h.photoId, reads_string.decode h.url]
    rfl
  ne_null _ := isObject_ne_null

theorem reads_photoList : Reads RepresentsPhotoList PhotoList.decode where
  ok := by
    rintro x _ ⟨members, rfl, h⟩
    simp only [PhotoList.decode, container, ok_bind,
      (reads_list reads_photo).decode h.items]
    rfl
  ne_null _ := isObject_ne_null

theorem reads_comments : Reads RepresentsComments NewsComments.decode where
  ok := by
    rintro x _ ⟨members, rfl, h⟩
    simp only [NewsComments.decode, container, ok_bind,
      reads_int.decode h.count, reads_int.decode h.canPost]
    rfl
  ne_null _ := isObject_ne_null

theorem reads_likes : Reads RepresentsLikes NewsLikesNews.decode where
  ok := by
    rintro x _ ⟨members, rfl, h⟩
    simp only [NewsLikesNews.decode, container, ok_bind,
      reads_int.decode h.count, reads_int.decode h.userLikes,
      reads_int.decode h.canLike, reads_int.decode h.canPublish]
    rfl
  ne_null _ := isObject_ne_null

theorem reads_reposts : Reads RepresentsReposts NewsRepostsNews.decode where
  ok := by
    rintro x _ ⟨members, rfl, h⟩
    simp only [NewsRepostsNews.decode, container, ok_bind,
      reads_int.decode h.count, reads_int.decode h.userReposted]
    rfl
  ne_null _ := isObject_ne_null

theorem reads_views : Reads RepresentsViews NewsViews.decode where
  ok := by
    rintro x _ ⟨members, rfl, h⟩
    simp only [NewsViews.decode, container, ok_bind,
      reads_int.decode h.count]
    rfl
  ne_null _ := isObject_ne_null

theorem reads_link : Reads RepresentsLink NewsLink.decode where
  ok := by
    rintro x _ ⟨members, rfl, h⟩
    simp only [NewsLink.decode, container, ok_bind,
      reads_string.decode h.url, reads_string.decode h.title,
      reads_string.tryOptional h.caption, reads_photo.tryOptional h.photo]
    rfl
  ne_null _ := isObject_ne_null

/-- What is left of a video: its `id`. -/
def NewsVideo.asDecoded (x : NewsVideo) : NewsVideo :=
  { NewsVideo.initial with id := x.id }

def NewsAttachment.asDecoded (x : NewsAttachment) : NewsAttachment :=
  { x with video := x.video.map NewsVideo.asDecoded }

/-- What is left of an item. -/
def NewsItem.asDecoded (x : NewsItem) : NewsItem :=
  { x with
    isFavorite := false
    attachments := x.attachments.map (List.map NewsAttachment.asDecoded) }

theorem decode_video
    (x : NewsVideo) (v : JSON) (h : RepresentsVideo x v) :
    NewsVideo.decode v = .ok x.asDecoded := by
  obtain ⟨members, rfl, h⟩ := h
  simp only [NewsVideo.decode, container, ok_bind, reads_int.decode h.id]
  rfl

theorem decode_attachment
    (x : NewsAttachment) (v : JSON) (h : RepresentsAttachment x v) :
    NewsAttachment.decode v = .ok x.asDecoded := by
  obtain ⟨members, rfl, h⟩ := h
  have hvideo := decodeIfPresent_of_represents decode_video
    (fun _ => isObject_ne_null) h.video
  simp only [NewsAttachment.decode, container, ok_bind, hvideo, tryOptional,
    reads_string.decodeIfPresent h.type, reads_photo.decodeIfPresent h.photo,
    reads_link.decodeIfPresent h.link]
  rfl

/-- **Decoding a represented item gives what is left of it.** -/
theorem decode_item
    (x : NewsItem) (v : JSON) (h : RepresentsItem x v) :
    NewsItem.decode v = .ok x.asDecoded := by
  obtain ⟨members, rfl, h⟩ := h
  have hattachments := decodeIfPresent_of_represents
    (fun xs vs hxs => decodeArray_of_represents decode_attachment hxs)
    (by rintro xs ⟨vs, hvs, _⟩; cases hvs) h.attachments
  simp only [NewsItem.decode, container, ok_bind, hattachments, tryOptional,
    reads_int.decode h.postID, reads_int.decode h.sourceID,
    reads_int.decode h.date, reads_string.decode h.type,
    reads_likes.decodeIfPresent h.likesNews,
    reads_comments.decodeIfPresent h.comments,
    reads_reposts.decodeIfPresent h.repostsNews,
    reads_views.decodeIfPresent h.views,
    reads_string.decodeIfPresent h.postType,
    reads_string.decodeIfPresent h.text,
    reads_photoList.decodeIfPresent h.photos]
  rfl

/-- The video has its default value in every property but `id`. -/
def NewsVideo.OnlyId (x : NewsVideo) : Prop :=
  x = { NewsVideo.initial with id := x.id }

/-- Neither the item nor a video attached to it has what decoding leaves out. -/
def NewsItem.NothingLeftOut (x : NewsItem) : Prop :=
  x.isFavorite = false ∧
  ∀ attachments ∈ x.attachments, ∀ a ∈ attachments, ∀ video ∈ a.video,
    video.OnlyId

theorem list_map_eq_self_iff
    {α : Type} {f : α → α} {xs : List α} :
    xs.map f = xs ↔ ∀ x ∈ xs, f x = x := by
  induction xs with
  | nil =>
      simp
  | cons x xs ih =>
      simp [ih]

theorem NewsAttachment.asDecoded_eq_self_iff (x : NewsAttachment) :
    x.asDecoded = x ↔ ∀ video ∈ x.video, video.OnlyId := by
  obtain ⟨type, photo, link, video⟩ := x
  cases video with
  | none =>
      simp [NewsAttachment.asDecoded]
  | some video =>
      simp only [NewsAttachment.asDecoded, Option.map_some,
        NewsAttachment.mk.injEq, Option.some.injEq, true_and,
        Option.mem_def, forall_eq']
      exact eq_comm

theorem NewsItem.asDecoded_eq_self_iff (x : NewsItem) :
    x.asDecoded = x ↔ x.NothingLeftOut := by
  have hattachments :
      x.attachments.map (List.map NewsAttachment.asDecoded) = x.attachments
        ↔
      ∀ attachments ∈ x.attachments, ∀ a ∈ attachments, ∀ video ∈ a.video,
        video.OnlyId := by
    cases x.attachments with
    | none =>
        simp
    | some attachments =>
        simp [list_map_eq_self_iff, NewsAttachment.asDecoded_eq_self_iff]
  unfold NewsItem.NothingLeftOut
  rw [← hattachments]
  constructor
  · intro h
    exact ⟨(congrArg NewsItem.isFavorite h).symm,
      congrArg NewsItem.attachments h⟩
  · rintro ⟨hfavorite, hrest⟩
    unfold NewsItem.asDecoded
    rw [hrest, ← hfavorite]

/--
**Decoding gives back the represented item exactly when the item is no favorite
and its videos have nothing but an `id`.**
-/
theorem decode_eq_iff
    {x : NewsItem} {v : JSON}
    (h : RepresentsItem x v) :
    NewsItem.decode v = .ok x ↔ x.NothingLeftOut := by
  rw [decode_item x v h, Except.ok.injEq]
  exact x.asDecoded_eq_self_iff

/-- A post without optional parts. -/
def plainItem (isFavorite : Bool) : NewsItem where
  type := "post"
  sourceID := 1
  date := 2
  postType := none
  text := none
  attachments := none
  photos := none
  comments := none
  likesNews := none
  repostsNews := none
  views := none
  isFavorite := isFavorite
  postID := 3

def plainObject (isFavorite : Bool) : JSON :=
  .object
    [("type", .string "post"), ("source_id", .number ⟨1, 0⟩),
      ("date", .number ⟨2, 0⟩), ("is_favorite", .bool isFavorite),
      ("post_id", .number ⟨3, 0⟩)]

theorem plainObject_represents (isFavorite : Bool) :
    RepresentsItem (plainItem isFavorite) (plainObject isFavorite) := by
  refine ⟨_, rfl, ?_⟩
  constructor
  case type => exact ⟨_, rfl, rfl⟩
  case sourceID => exact ⟨_, rfl, _, rfl, rfl⟩
  case date => exact ⟨_, rfl, _, rfl, rfl⟩
  case isFavorite => exact ⟨_, rfl, rfl⟩
  case postID => exact ⟨_, rfl, _, rfl, rfl⟩
  all_goals exact Or.inl rfl

theorem decode_eq_iff_plain :
    NewsItem.decode (plainObject false) = .ok (plainItem false)
      ↔
    (plainItem false).NothingLeftOut :=
  decode_eq_iff (plainObject_represents false)

/-- A favorite comes back as no favorite. -/
theorem favorite_lost :
    RepresentsItem (plainItem true) (plainObject true) ∧
    NewsItem.decode (plainObject true) = .ok (plainItem false) ∧
    NewsItem.decode (plainObject true) ≠ .ok (plainItem true) := by
  refine ⟨plainObject_represents true, rfl, ?_⟩
  have hread : NewsItem.decode (plainObject true) = .ok (plainItem false) := rfl
  rw [hread]
  intro h
  cases h

end RoundTrip

end News
end NotVK
