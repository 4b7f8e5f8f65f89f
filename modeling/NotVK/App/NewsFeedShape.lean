import NotVK.App.NewsModel

/-!
# Which feeds the app accepts

`NewsResponseNews` is decoded through four layers of initializers.  Each of them
is turned into a condition on the shape of the JSON value, from the items up to
the response; the lenient keys never enter a condition, because `try?` takes
every failure below them.
-/

namespace NotVK
namespace News

open Json

section NewsFeedShape

/-- The four required members of an item. -/
def ItemShape (members : List (String × JSON)) : Prop :=
  HasKey members "post_id" IsInt ∧
  HasKey members "source_id" IsInt ∧
  HasKey members "date" IsInt ∧
  HasKey members "type" IsString

def ProfileShape (members : List (String × JSON)) : Prop :=
  HasKey members "first_name" IsString ∧
  HasKey members "last_name" IsString ∧
  HasOptionalKey members "photo_100" IsString ∧
  HasKey members "id" IsInt

def GroupShape (members : List (String × JSON)) : Prop :=
  HasKey members "id" IsInt ∧
  HasKey members "name" IsString ∧
  HasKey members "photo_50" IsString

def ItemsShape (members : List (String × JSON)) : Prop :=
  HasKey members "items" (IsArrayOf (IsObject ItemShape)) ∧
  HasKey members "profiles" (IsArrayOf (IsObject ProfileShape)) ∧
  HasKey members "groups" (IsArrayOf (IsObject GroupShape)) ∧
  HasKey members "next_from" IsString

/-- Shape of a response that holds a feed. -/
def FeedShape : JSON → Prop :=
  IsObject fun members =>
    HasKey members "response" (IsObject ItemsShape)

theorem succeeds_friendItem (v : JSON) :
    Succeeds (FriendItem.decode v) ↔ IsObject ProfileShape v := by
  unfold FriendItem.decode
  rw [succeeds_container_bind]
  simp only [succeeds_bind, succeeds_pure, and_true, exists_eq_ok_iff,
    exists_eq_ok_and_iff, succeeds_decode, succeeds_decodeIfPresent,
    succeeds_decodeInt, succeeds_decodeString]
  rfl

theorem succeeds_groupItem (v : JSON) :
    Succeeds (GroupItem.decode v) ↔ IsObject GroupShape v := by
  unfold GroupItem.decode
  rw [succeeds_container_bind]
  simp only [succeeds_bind, succeeds_pure, and_true, exists_eq_ok_iff,
    exists_eq_ok_and_iff, succeeds_decode, succeeds_decodeInt,
    succeeds_decodeString]
  rfl

/-- The keys under `try?` leave no trace in the condition. -/
theorem succeeds_newsItem (v : JSON) :
    Succeeds (NewsItem.decode v) ↔ IsObject ItemShape v := by
  unfold NewsItem.decode
  rw [succeeds_container_bind]
  simp only [succeeds_bind, succeeds_pure, and_true, exists_eq_ok_iff,
    exists_eq_ok_and_iff, succeeds_decode, succeeds_decodeInt,
    succeeds_decodeString]
  rfl

theorem succeeds_newsItems (v : JSON) :
    Succeeds (NewsItems.decode v) ↔ IsObject ItemsShape v := by
  unfold NewsItems.decode
  rw [succeeds_container_bind]
  simp only [succeeds_bind, succeeds_pure, and_true, exists_eq_ok_iff,
    exists_eq_ok_and_iff, succeeds_decode, succeeds_decodeArray,
    succeeds_decodeString, succeeds_newsItem, succeeds_friendItem,
    succeeds_groupItem]
  rfl

theorem succeeds_newsResponseNews (v : JSON) :
    Succeeds (NewsResponseNews.decode v) ↔ FeedShape v := by
  unfold NewsResponseNews.decode
  rw [succeeds_container_bind]
  simp only [succeeds_bind, succeeds_pure, and_true, exists_eq_ok_iff,
    succeeds_decode, succeeds_newsItems]
  rfl

/-- The keys that `NewsItem.init(from:)` reads without `try?`. -/
def NewsItem.requiredKeys : List String :=
  ["post_id", "source_id", "date", "type"]

theorem hasKey_congr
    {members members' : List (String × JSON)} {key : String}
    (P : JSON → Prop)
    (h : members.lookup key = members'.lookup key) :
    HasKey members key P ↔ HasKey members' key P := by
  unfold HasKey
  rw [h]

/-- Items that agree on the required keys are accepted or refused alike. -/
theorem succeeds_newsItem_congr
    {members members' : List (String × JSON)}
    (h : ∀ key ∈ NewsItem.requiredKeys,
      members.lookup key = members'.lookup key) :
    Succeeds (NewsItem.decode (.object members))
      ↔
    Succeeds (NewsItem.decode (.object members')) := by
  have hpost := h "post_id" (by simp [NewsItem.requiredKeys])
  have hsource := h "source_id" (by simp [NewsItem.requiredKeys])
  have hdate := h "date" (by simp [NewsItem.requiredKeys])
  have htype := h "type" (by simp [NewsItem.requiredKeys])
  simp [succeeds_newsItem, IsObject, ItemShape, hasKey_congr IsInt hpost,
    hasKey_congr IsInt hsource, hasKey_congr IsInt hdate,
    hasKey_congr IsString htype]

/--
**A feed is decoded exactly when it has the required shape, and no other key of
an item has a say in it.**
-/
theorem feed_accepted_iff :
    (∀ v : JSON, Succeeds (NewsResponseNews.decode v) ↔ FeedShape v) ∧
    (∀ members members' : List (String × JSON),
      (∀ key ∈ NewsItem.requiredKeys,
        members.lookup key = members'.lookup key) →
      (Succeeds (NewsItem.decode (.object members)) ↔
        Succeeds (NewsItem.decode (.object members')))) :=
  ⟨succeeds_newsResponseNews, fun _ _ h => succeeds_newsItem_congr h⟩

/-- A post whose optional parts are all malformed. -/
def oddPost : JSON :=
  .object
    [("post_id", .number ⟨7, 0⟩), ("source_id", .number ⟨-3, 0⟩),
      ("date", .number ⟨1595000000, 0⟩), ("type", .string "post"),
      ("likes", .string "many"), ("text", .number ⟨1, 0⟩),
      ("attachments", .array [.null, .object [("video", .array [])]])]

example :
    NewsItem.decode oddPost =
      .ok { NewsItem.initial with
        postID := 7
        sourceID := -3
        date := 1595000000
        type := "post"
        postType := none
        text := none
        attachments := none } := by
  rfl

end NewsFeedShape

end News
end NotVK
