import NotVK.Library.BoundedReach
import NotVK.ObjectStore.ObjectChangeSet
import NotVK.ObjectStore.RelatedTables
import NotVK.ObjectStore.TransactLogObserver

/-!
# Changes of linked objects

An object counts as modified when an object that it links to was modified, over at
most three links.  The checker searches in depth.  It keeps the path that it is on, so
that it does not run in circles, and the objects that it has found not to be modified.
An object is not kept as such when the search from it was cut short: each entry of the
path says whether something below it was.
-/

namespace NotVK
namespace ObjectStore

open BoundedReach

section Checker

/-- Where the links of objects lead. -/
structure Links where
  /-- `get_link_target(col)`. -/
  target : Int → Int → Int
  link : Int → Int → Int → Option Int
  linklist : Int → Int → Int → List Int

structure Path where
  objKey : Int
  colKey : Int
  depthExceeded : Bool

structure DeepChangeChecker where
  /-- The tables of `m_info`. -/
  tables : Int → Option ObjectChangeSet
  rootTable : Int
  relatedTables : List RelatedTable
  links : Links

/-- What changes from check to check. -/
structure Search where
  notModified : Int → Finset Int
  currentPath : Nat → Path

/-- The length of `m_current_path`. -/
def pathSize : Nat := 4

namespace Search

variable (s : Search)

/-- The entries from `first` to `last` are marked. -/
def exceed (first last : Nat) : Search :=
  { s with
    currentPath := fun i =>
      if first ≤ i ∧ i < last then { s.currentPath i with depthExceeded := true }
      else s.currentPath i }

def enter (depth : Nat) (obj col : Int) : Search :=
  { s with currentPath := Function.update s.currentPath depth ⟨obj, col, false⟩ }

/-- The entry for the same link of the same object, if the path has one. -/
def findMatch (obj col : Int) (depth : Nat) : Option Nat :=
  (List.range depth).find? (fun i =>
    (s.currentPath i).objKey = obj ∧ (s.currentPath i).colKey = col)

def remember (table key : Int) : Search :=
  { s with
    notModified := Function.update s.notModified table (insert key (s.notModified table)) }

end Search

namespace DeepChangeChecker

variable (c : DeepChangeChecker)

def modificationsContains (table key : Int) : Bool :=
  match c.tables table with
  | none => false
  | some changes => changes.modificationsContains key

def linkedObjectChanged
    (checkRow : Int → Int → Search → Bool × Search)
    (table key : Int) (depth : Nat) (link : OutgoingLink) (s : Search) :
    Bool × Search :=
  match s.findMatch key link.colKey depth with
  | some first => (false, s.exceed first depth)
  | none =>
      let s := s.enter depth key link.colKey
      let target := c.links.target table link.colKey
      if link.isList then
        anyOf (checkRow target) (c.links.linklist table key link.colKey) s
      else
        match c.links.link table key link.colKey with
        | none => (false, s)
        | some dst => checkRow target dst s

def checkOutgoingLinks
    (checkRow : Int → Int → Search → Bool × Search)
    (table key : Int) (depth : Nat) (s : Search) : Bool × Search :=
  match c.relatedTables.find? (fun it => it.tableKey = table) with
  | none => (false, s)
  | some it =>
      if it.links.isEmpty then (false, s)
      else anyOf (c.linkedObjectChanged checkRow table key depth) it.links s

/-- `check_row` at a depth that leaves so many entries of the path. -/
def checkRow : Nat → Int → Int → Search → Bool × Search
  | 0, _, _, s => (false, s.exceed 0 pathSize)
  | left + 1, table, key, s =>
      let depth := pathSize - (left + 1)
      if 0 < depth ∧ c.modificationsContains table key = true then (true, s)
      else if key ∈ s.notModified table then (false, s)
      else
        let r := c.checkOutgoingLinks (checkRow left) table key depth s
        if r.1 = false ∧
            (depth = 0 ∨ (r.2.currentPath (depth - 1)).depthExceeded = false) then
          (r.1, r.2.remember table key)
        else r

/-- `operator()`. -/
def check (key : Int) (s : Search) : Bool × Search :=
  if c.modificationsContains c.rootTable key then (true, s)
  else c.checkRow pathSize c.rootTable key s

def tableModified (table : Int) : Bool :=
  match c.tables table with
  | none => false
  | some changes => decide (changes.modifications ≠ ∅)

/-- The function that `get_modification_checker` returns. -/
def modificationCheck (key : Int) (s : Search) : Bool × Search :=
  if c.relatedTables.any (fun it => c.tableModified it.tableKey) = false then (false, s)
  else
    match c.relatedTables with
    | [it] => (c.modificationsContains it.tableKey key, s)
    | _ => c.check key s

/-- What is answered to one question after the other. -/
def answers (f : Int → Search → Bool × Search) : List Int → Search → List (Int × Bool)
  | [], _ => []
  | key :: keys, s => (key, (f key s).1) :: answers f keys (f key s).2

end DeepChangeChecker

end Checker

section Meaning

namespace DeepChangeChecker

variable (c : DeepChangeChecker)

def linksOf (table : Int) : List OutgoingLink :=
  match c.relatedTables.find? (fun it => it.tableKey = table) with
  | none => []
  | some it => it.links

/-- The objects that a link of an object leads to. -/
def destinations (x : Int × Int) (link : OutgoingLink) : List Int :=
  if link.isList then c.links.linklist x.1 x.2 link.colKey
  else (c.links.link x.1 x.2 link.colKey).toList

/-- One object links to the other. -/
def Edge (x y : Int × Int) : Prop :=
  ∃ link ∈ c.linksOf x.1,
    y.1 = c.links.target x.1 link.colKey ∧ y.2 ∈ c.destinations x link

def Modified (x : Int × Int) : Prop :=
  c.modificationsContains x.1 x.2 = true

/-- No modified object is reached in `n` links without entering `off`. -/
def Clear (off : Set (Int × Int)) (n : Nat) (x : Int × Int) : Prop :=
  ∀ y, Within c.Edge off n x y → ¬ c.Modified y

/-- The key of a column tells which table it is of. -/
def ColumnsTell : Prop :=
  ∀ t t' : Int, ∀ link ∈ c.linksOf t, ∀ link' ∈ c.linksOf t',
    link.colKey = link'.colKey → t = t'

variable {c}

theorem Clear.mono
    {off off' : Set (Int × Int)} {n m : Nat} {x : Int × Int}
    (h : c.Clear off m x)
    (hoff : off ⊆ off')
    (hn : n ≤ m) :
    c.Clear off' n x :=
  fun y hy => h y (hy.mono hoff hn)

/-- A search from an object is one from all that it links to. -/
theorem clear_of_edges
    {off : Set (Int × Int)} {n : Nat} {x : Int × Int}
    (hx : ¬ c.Modified x)
    (hedges : x ∉ off → ∀ y m, m < n → c.Edge x y → c.Clear (insert x off) m y) :
    c.Clear off n x := by
  intro z hz
  by_cases hzx : z = x
  · rwa [hzx]
  · obtain ⟨m, y, hm, hedge, hpath⟩ := hz.leave hzx
    exact hedges hz.start_notMem y m hm hedge z hpath

theorem checkOutgoingLinks_eq
    (checkRow : Int → Int → Search → Bool × Search)
    (table key : Int) (depth : Nat) (s : Search) :
    c.checkOutgoingLinks checkRow table key depth s =
      anyOf (c.linkedObjectChanged checkRow table key depth) (c.linksOf table) s := by
  rw [checkOutgoingLinks, linksOf]
  split
  next => rfl
  next it _ =>
    split
    next hempty =>
      rw [List.isEmpty_iff.mp hempty]
      rfl
    next => rfl

/-- A link that is not on the path is followed to each of its destinations. -/
theorem linkedObjectChanged_eq
    (checkRow : Int → Int → Search → Bool × Search)
    {x : Int × Int} {depth : Nat} {link : OutgoingLink} {s : Search}
    (hnone : s.findMatch x.2 link.colKey depth = none) :
    c.linkedObjectChanged checkRow x.1 x.2 depth link s =
      anyOf (checkRow (c.links.target x.1 link.colKey)) (c.destinations x link)
        (s.enter depth x.2 link.colKey) := by
  rw [linkedObjectChanged, hnone, destinations]
  simp only
  split
  next => rfl
  next =>
    split
    next hlink =>
      rw [hlink]
      rfl
    next dst hlink =>
      rw [hlink, Option.toList_some, anyOf_singleton]

end DeepChangeChecker

end Meaning

section OnPath

variable {c : DeepChangeChecker}
variable {P : List (Int × Int)} {x : Int × Int} {s t u : Search}

/-- The entries before `depth` are those that they were, and marks stay. -/
def Search.Stays (depth : Nat) (s t : Search) : Prop :=
  ∀ i < depth, (t.currentPath i).objKey = (s.currentPath i).objKey ∧
    (t.currentPath i).colKey = (s.currentPath i).colKey ∧
    ((t.currentPath i).depthExceeded = false → (s.currentPath i).depthExceeded = false)

/-- The search is on a path of objects, and what it has kept is right. -/
structure OnPath (c : DeepChangeChecker) (P : List (Int × Int)) (s : Search) : Prop where
  remembered : ∀ table key, key ∈ s.notModified table → c.Clear ∅ 3 (table, key)
  path : ∀ i x, P[i]? = some x → (s.currentPath i).objKey = x.2 ∧
    ∃ link ∈ c.linksOf x.1, (s.currentPath i).colKey = link.colKey

namespace Search

theorem Stays.refl (depth : Nat) (s : Search) :
    Stays depth s s :=
  fun _ _ => ⟨rfl, rfl, id⟩

theorem Stays.trans
    {depth : Nat}
    (h : Stays depth s t)
    (h' : Stays depth t u) :
    Stays depth s u := by
  intro i hi
  obtain ⟨hobj, hcol, hmark⟩ := h i hi
  obtain ⟨hobj', hcol', hmark'⟩ := h' i hi
  exact ⟨hobj'.trans hobj, hcol'.trans hcol, fun hfalse => hmark (hmark' hfalse)⟩

theorem Stays.mono
    {depth depth' : Nat}
    (h : Stays depth s t)
    (hle : depth' ≤ depth) :
    Stays depth' s t :=
  fun i hi => h i (Nat.lt_of_lt_of_le hi hle)

theorem stays_exceed (depth first last : Nat) :
    Stays depth s (s.exceed first last) := by
  intro i _
  simp only [exceed]
  split
  · exact ⟨rfl, rfl, fun h => absurd h (by simp)⟩
  · exact ⟨rfl, rfl, id⟩

theorem stays_enter (depth : Nat) (obj col : Int) :
    Stays depth s (s.enter depth obj col) := by
  intro i hi
  have hne : i ≠ depth := by omega
  simp only [enter, Function.update_of_ne hne]
  exact ⟨trivial, trivial, id⟩

theorem exceed_marked
    {first last i : Nat}
    (hfirst : first ≤ i)
    (hlast : i < last) :
    ((s.exceed first last).currentPath i).depthExceeded = true := by
  simp only [exceed]
  rw [if_pos ⟨hfirst, hlast⟩]

end Search

namespace OnPath

open DeepChangeChecker

/-- The path is as long as it was. -/
theorem stays
    (h : OnPath c P s)
    (hstays : Search.Stays P.length s t)
    (hremembered : t.notModified = s.notModified) :
    OnPath c P t := by
  refine ⟨?_, ?_⟩
  · rw [hremembered]
    exact h.remembered
  · intro i x hx
    have hi := (List.getElem?_eq_some_iff.mp hx).1
    obtain ⟨hobj, hcol, _⟩ := hstays i hi
    rw [hobj, hcol]
    exact h.path i x hx

theorem dropLast
    (h : OnPath c (P ++ [x]) s) :
    OnPath c P s := by
  refine ⟨h.remembered, ?_⟩
  intro i y hy
  have hi := (List.getElem?_eq_some_iff.mp hy).1
  apply h.path i y
  rwa [List.getElem?_append_left hi]

theorem enter
    (h : OnPath c P s)
    {link : OutgoingLink}
    (hlink : link ∈ c.linksOf x.1) :
    OnPath c (P ++ [x]) (s.enter P.length x.2 link.colKey) := by
  refine ⟨h.remembered, ?_⟩
  intro i y hy
  rcases Nat.lt_or_ge i P.length with hi | hi
  · rw [List.getElem?_append_left hi] at hy
    have hne : i ≠ P.length := by omega
    simp only [Search.enter, Function.update_of_ne hne]
    exact h.path i y hy
  · have hlast : i = P.length := by
      have hlt := (List.getElem?_eq_some_iff.mp hy).1
      rw [List.length_append, List.length_singleton] at hlt
      omega
    subst hlast
    rw [List.getElem?_concat_length] at hy
    cases hy
    simp only [Search.enter, Function.update_self]
    exact ⟨trivial, link, hlink, rfl⟩

/-- What is remembered is clear. -/
theorem remember
    (h : OnPath c P s)
    (hclear : c.Clear ∅ 3 x) :
    OnPath c P (s.remember x.1 x.2) := by
  refine ⟨?_, h.path⟩
  intro table key hkey
  simp only [Search.remember] at hkey
  rcases eq_or_ne table x.1 with rfl | hne
  · rw [Function.update_self, Finset.mem_insert] at hkey
    rcases hkey with rfl | hkey
    · exact hclear
    · exact h.remembered _ key hkey
  · rw [Function.update_of_ne hne] at hkey
    exact h.remembered table key hkey

/-- The path is cut where it comes back to an object that it has. -/
theorem of_findMatch
    (h : OnPath c P s)
    (hcols : c.ColumnsTell)
    {link : OutgoingLink} {first : Nat}
    (hlink : link ∈ c.linksOf x.1)
    (hmatch : s.findMatch x.2 link.colKey P.length = some first) :
    P[first]? = some x := by
  have hfound := List.find?_some hmatch
  have hmem := List.mem_range.mp (List.mem_of_find?_eq_some hmatch)
  rw [decide_eq_true_eq] at hfound
  have hat := List.getElem?_eq_getElem hmem
  obtain ⟨hobj, link', hlink', hcol⟩ := h.path first _ hat
  have htable : P[first].1 = x.1 :=
    hcols _ _ link' hlink' link hlink (hcol.symm.trans hfound.2)
  rw [hat, Prod.ext htable (hobj.symm.trans hfound.1)]

end OnPath

end OnPath

section Correct

open DeepChangeChecker

variable {c : DeepChangeChecker}
variable {P : List (Int × Int)} {x : Int × Int} {s t : Search}
variable {row : Int → Int → Search → Bool × Search}

/-- Paths of `n` links that enter no object of the path from `k` on were followed: they
fit below the whole path, or no search below the first `k` entries was cut short. -/
def Covers (P : List (Int × Int)) (s : Search) (k n : Nat) : Prop :=
  (k = 0 ∧ n + P.length ≤ 3) ∨
    (0 < k ∧ k ≤ P.length ∧ n ≤ 3 ∧ (s.currentPath (k - 1)).depthExceeded = false)

theorem Covers.next
    {k n m : Nat}
    (h : Covers P t k n)
    (hm : m < n)
    (hstays : Search.Stays (P.length + 1) s t)
    (x : Int × Int) :
    Covers (P ++ [x]) s k m := by
  rw [Covers, List.length_append, List.length_singleton]
  rcases h with ⟨rfl, hn⟩ | ⟨hk, hle, hn, hmark⟩
  · exact .inl ⟨rfl, by omega⟩
  · exact .inr ⟨hk, by omega, by omega, (hstays (k - 1) (by omega)).2.2 hmark⟩

theorem Covers.of_stays
    {k n : Nat}
    (h : Covers P t k n)
    (hstays : Search.Stays P.length s t) :
    Covers P s k n := by
  rcases h with h | ⟨hk, hle, hn, hmark⟩
  · exact .inl h
  · exact .inr ⟨hk, hle, hn, (hstays (k - 1) (by omega)).2.2 hmark⟩

theorem Covers.le
    {k n : Nat}
    (h : Covers P s k n) :
    k ≤ P.length ∧ n ≤ 3 := by
  rcases h with ⟨rfl, hn⟩ | ⟨_, hle, hn, _⟩
  · exact ⟨Nat.zero_le _, by omega⟩
  · exact ⟨hle, hn⟩

theorem mem_drop_concat
    {k : Nat}
    (hk : k ≤ P.length) (x : Int × Int) :
    {y | y ∈ (P ++ [x]).drop k} = insert x {y | y ∈ P.drop k} := by
  ext y
  rw [List.drop_append_of_le_length hk]
  simp [or_comm]

/-- A modified object is reached where the path leaves room for it. -/
def Found (c : DeepChangeChecker) (P : List (Int × Int)) (x : Int × Int) : Prop :=
  ∃ n y, n + P.length ≤ 3 ∧ Within c.Edge ∅ n x y ∧ c.Modified y

/-- What the check of an object may answer. -/
structure Correct
    (c : DeepChangeChecker) (P : List (Int × Int)) (x : Int × Int) (s : Search)
    (r : Bool × Search) : Prop where
  onPath : OnPath c P r.2
  stays : Search.Stays P.length s r.2
  found : r.1 = true → Found c P x
  clear : r.1 = false → ∀ k n, Covers P r.2 k n → c.Clear {y | y ∈ P.drop k} n x

/-- What the check of one link of an object may answer. -/
structure LinkCorrect
    (c : DeepChangeChecker) (P : List (Int × Int)) (x : Int × Int) (link : OutgoingLink)
    (s : Search) (r : Bool × Search) : Prop where
  onPath : OnPath c P r.2
  stays : Search.Stays P.length s r.2
  found : r.1 = true → Found c P x
  clear : r.1 = false → ∀ k n m key, Covers P r.2 k n → m < n → x ∉ P.drop k →
    key ∈ c.destinations x link →
    c.Clear (insert x {y | y ∈ P.drop k}) m (c.links.target x.1 link.colKey, key)

/-- A link that is followed already: what may lie behind it is behind a later entry. -/
theorem linkCorrect_cut
    (hcols : c.ColumnsTell)
    (hs : OnPath c P s)
    {link : OutgoingLink} {first : Nat}
    (hlink : link ∈ c.linksOf x.1)
    (hmatch : s.findMatch x.2 link.colKey P.length = some first) :
    LinkCorrect c P x link s (false, s.exceed first P.length) := by
  have hat := hs.of_findMatch hcols hlink hmatch
  have hfirst := (List.getElem?_eq_some_iff.mp hat).1
  refine ⟨hs.stays (Search.stays_exceed _ _ _) rfl, Search.stays_exceed _ _ _,
    fun h => (by cases h), ?_⟩
  intro _ k n m key hcovers _ hout _
  have hafter : k ≤ first := by
    rcases hcovers with ⟨rfl, _⟩ | ⟨hk, hle, _, hmark⟩
    · exact Nat.zero_le _
    · by_contra hbefore
      rw [Search.exceed_marked (by omega) (by omega)] at hmark
      cases hmark
  have hlater : (P.drop k)[first - k]? = some x := by
    rw [List.getElem?_drop, Nat.add_sub_cancel' hafter, hat]
  exact absurd (List.mem_of_getElem? hlater) hout

/-- A link that is followed now. -/
theorem linkCorrect_follow
    (hrow : ∀ y s, OnPath c (P ++ [x]) s → Correct c (P ++ [x]) y s (row y.1 y.2 s))
    (hs : OnPath c P s)
    {link : OutgoingLink}
    (hlink : link ∈ c.linksOf x.1) :
    LinkCorrect c P x link s
      (anyOf (row (c.links.target x.1 link.colKey)) (c.destinations x link)
        (s.enter P.length x.2 link.colKey)) := by
  have henter := hs.enter hlink
  generalize htarget : c.links.target x.1 link.colKey = target
  have hlength : (P ++ [x]).length = P.length + 1 := by simp
  have hkeeps : ∀ key ∈ c.destinations x link, ∀ s, OnPath c (P ++ [x]) s →
      OnPath c (P ++ [x]) (row target key s).2 ∧
        Search.Stays (P.length + 1) s (row target key s).2 := by
    intro key _ s hs
    have h := hrow (target, key) s hs
    exact ⟨h.onPath, hlength ▸ h.stays⟩
  obtain ⟨honPath, hstays⟩ := anyOf_keeps (Search.Stays.refl _)
    (fun _ _ _ h h' => h.trans h') hkeeps henter
  refine ⟨honPath.dropLast, ?_, ?_, ?_⟩
  · exact (Search.stays_enter _ _ _).trans (hstays.mono (Nat.le_succ _))
  · intro htrue
    obtain ⟨key, hkey, s', hs', hyes⟩ := anyOf_true
      (fun key hkey s hs => (hkeeps key hkey s hs).1) henter htrue
    obtain ⟨n, y, hn, hpath, hmodified⟩ := (hrow (target, key) s' hs').found hyes
    rw [hlength] at hn
    exact ⟨n + 1, y, by omega, .cons ⟨link, hlink, htarget.symm, hkey⟩ hpath, hmodified⟩
  · intro hfalse k n m key hcovers hm _ hkey
    obtain ⟨s', hs', hno, hkept⟩ := anyOf_false (Search.Stays.refl _)
      (fun _ _ _ h h' => h.trans h') hkeeps henter hfalse hkey
    have hclear := (hrow (target, key) s' hs').clear hno k m (hcovers.next hm hkept x)
    rw [mem_drop_concat hcovers.le.1] at hclear
    rw [htarget]
    exact hclear

theorem linkCorrect
    (hcols : c.ColumnsTell)
    (hrow : ∀ y s, OnPath c (P ++ [x]) s → Correct c (P ++ [x]) y s (row y.1 y.2 s))
    (hs : OnPath c P s)
    {link : OutgoingLink}
    (hlink : link ∈ c.linksOf x.1) :
    LinkCorrect c P x link s
      (c.linkedObjectChanged row x.1 x.2 P.length link s) := by
  cases hmatch : s.findMatch x.2 link.colKey P.length with
  | none =>
      rw [linkedObjectChanged_eq row hmatch]
      exact linkCorrect_follow hrow hs hlink
  | some first =>
      rw [linkedObjectChanged, hmatch]
      exact linkCorrect_cut hcols hs hlink hmatch

/-- The links of an object that is not modified itself. -/
theorem correct_links
    (hcols : c.ColumnsTell)
    (hrow : ∀ y s, OnPath c (P ++ [x]) s → Correct c (P ++ [x]) y s (row y.1 y.2 s))
    (hs : OnPath c P s)
    (hx : ¬ c.Modified x) :
    Correct c P x s (c.checkOutgoingLinks row x.1 x.2 P.length s) := by
  rw [checkOutgoingLinks_eq]
  have hlinks : ∀ link ∈ c.linksOf x.1, ∀ s, OnPath c P s →
      LinkCorrect c P x link s (c.linkedObjectChanged row x.1 x.2 P.length link s) :=
    fun link hlink s hs => linkCorrect hcols hrow hs hlink
  have hkeeps : ∀ link ∈ c.linksOf x.1, ∀ s, OnPath c P s →
      OnPath c P (c.linkedObjectChanged row x.1 x.2 P.length link s).2 ∧
        Search.Stays P.length s (c.linkedObjectChanged row x.1 x.2 P.length link s).2 :=
    fun link hlink s hs => ⟨(hlinks link hlink s hs).onPath, (hlinks link hlink s hs).stays⟩
  obtain ⟨honPath, hstays⟩ := anyOf_keeps (Search.Stays.refl _)
    (fun _ _ _ h h' => h.trans h') hkeeps hs
  refine ⟨honPath, hstays, ?_, ?_⟩
  · intro htrue
    obtain ⟨link, hlink, s', hs', hyes⟩ := anyOf_true
      (fun link hlink s hs => (hkeeps link hlink s hs).1) hs htrue
    exact (hlinks link hlink s' hs').found hyes
  · intro hfalse k n hcovers
    apply clear_of_edges hx
    rintro hout ⟨table, key⟩ m hm ⟨link, hlink, rfl, hkey⟩
    obtain ⟨s', hs', hno, hkept⟩ := anyOf_false (Search.Stays.refl _)
      (fun _ _ _ h h' => h.trans h') hkeeps hs hfalse hlink
    exact (hlinks link hlink s' hs').clear hno k n m key (hcovers.of_stays hkept) hm hout
      hkey

/-- The check of a row, by induction on what is left of the path. -/
theorem correct_checkRow
    (hcols : c.ColumnsTell)
    {left : Nat}
    (hleft : P.length + left = pathSize)
    (hs : OnPath c P s)
    (hroot : P = [] → ¬ c.Modified x) :
    Correct c P x s (c.checkRow left x.1 x.2 s) := by
  induction left generalizing P x s with
  | zero =>
      rw [checkRow]
      refine ⟨hs.stays (Search.stays_exceed _ _ _) rfl, Search.stays_exceed _ _ _,
        fun h => (by cases h), ?_⟩
      intro _ k n hcovers
      rw [pathSize] at hleft
      rcases hcovers with ⟨_, hn⟩ | ⟨hk, hle, _, hmark⟩
      · omega
      · rw [Search.exceed_marked (Nat.zero_le _) (by rw [pathSize]; omega)] at hmark
        cases hmark
  | succ left ih =>
      have hdepth : pathSize - (left + 1) = P.length := by omega
      have hroom : P.length ≤ 3 := by
        rw [pathSize] at hleft
        omega
      rw [checkRow, hdepth]
      simp only
      split
      next hmodified =>
        exact ⟨hs, .refl _ _, fun _ => ⟨0, x, by omega, .here (Set.notMem_empty x),
          hmodified.2⟩, fun h => by cases h⟩
      next hmodified =>
        have hx : ¬ c.Modified x := by
          intro hmod
          rcases List.eq_nil_or_concat P with rfl | ⟨_, _, rfl⟩
          · exact hroot rfl hmod
          · exact hmodified ⟨by simp, hmod⟩
        split
        next hremembered =>
          refine ⟨hs, .refl _ _, fun h => (by cases h), fun _ k n hcovers => ?_⟩
          exact (hs.remembered x.1 x.2 hremembered).mono (Set.empty_subset _) hcovers.le.2
        next =>
          have hrow : ∀ y s, OnPath c (P ++ [x]) s →
              Correct c (P ++ [x]) y s (c.checkRow left y.1 y.2 s) := by
            intro y s hs
            refine ih ?_ hs (fun h => absurd h (by simp))
            rw [List.length_append, List.length_singleton]
            omega
          have hlinks := correct_links hcols hrow hs hx
          split
          next hkept =>
            have hcovers : Covers P (c.checkOutgoingLinks (c.checkRow left) x.1 x.2
                P.length s).2 P.length 3 := by
              rcases hkept.2 with hzero | hmark
              · exact .inl ⟨hzero, by omega⟩
              · by_cases hzero : P.length = 0
                · exact .inl ⟨hzero, by omega⟩
                · exact .inr ⟨by omega, Nat.le_refl _, Nat.le_refl _, hmark⟩
            have hclear := hlinks.clear hkept.1 P.length 3 hcovers
            have hempty : {y | y ∈ P.drop P.length} = ∅ := by simp
            rw [hempty] at hclear
            exact ⟨hlinks.onPath.remember hclear, hlinks.stays, hlinks.found, hlinks.clear⟩
          next => exact hlinks

end Correct

section Answers

open DeepChangeChecker

variable {c : DeepChangeChecker} {s : Search}
variable {schema : Schema} {tables : Finset Int}

/-- An object links to another, by what the columns of its table are. -/
def ObjectEdge (schema : Schema) (c : DeepChangeChecker) (x y : Int × Int) : Prop :=
  ∃ link ∈ schema.linksOf x.1,
    y.1 = schema.target x.1 link.colKey ∧ y.2 ∈ c.destinations x link

/-- A modified object is at most `n` links away from an object of the root table. -/
def ModifiedNearby
    (schema : Schema) (c : DeepChangeChecker) (n : Nat) (key : Int) : Prop :=
  ∃ y, Within (ObjectEdge schema c) ∅ n (c.rootTable, key) y ∧ c.Modified y

/-- The checker of a table of a group, with the tables that are related to it. -/
structure ChecksTable
    (schema : Schema) (tables : Finset Int) (c : DeepChangeChecker) : Prop where
  related : c.relatedTables = schema.relatedTables tables c.rootTable
  target : c.links.target = schema.target
  closed : schema.Closed tables
  root : c.rootTable ∈ tables
  /-- The key of a column tells which table it is of. -/
  columns : ∀ t ∈ tables, ∀ t' ∈ tables, ∀ link ∈ schema.linksOf t,
    ∀ link' ∈ schema.linksOf t', link.colKey = link'.colKey → t = t'

namespace ChecksTable

/-- The related tables have their links, and other tables have none. -/
theorem linksOf_eq
    (h : ChecksTable schema tables c) (table : Int) :
    (table ∈ keys c.relatedTables ∧ c.linksOf table = schema.linksOf table) ∨
      (table ∉ keys c.relatedTables ∧ c.linksOf table = []) := by
  rw [linksOf]
  split
  next hnone =>
    refine .inr ⟨?_, rfl⟩
    intro hin
    obtain ⟨it, hit, hkey⟩ := List.mem_map.mp hin
    have hno := List.find?_eq_none.mp hnone it hit
    exact hno (decide_eq_true hkey)
  next it hsome =>
    have hit := List.mem_of_find?_eq_some hsome
    have hkey := List.find?_some hsome
    rw [decide_eq_true_eq] at hkey
    refine .inl ⟨hkey ▸ List.mem_map_of_mem hit, ?_⟩
    rw [← hkey]
    rw [h.related] at hit
    exact (added_relatedTables h.closed h.root).1.links it hit

theorem linksOf_related
    (h : ChecksTable schema tables c)
    {table : Int}
    (htable : table ∈ keys c.relatedTables) :
    c.linksOf table = schema.linksOf table := by
  rcases h.linksOf_eq table with ⟨_, heq⟩ | ⟨hout, _⟩
  · exact heq
  · exact absurd htable hout

theorem root_mem
    (h : ChecksTable schema tables c) :
    c.rootTable ∈ keys c.relatedTables := by
  rw [h.related]
  exact (added_relatedTables h.closed h.root).2

/-- A link of a related table leads to a related table. -/
theorem target_mem
    (h : ChecksTable schema tables c)
    {table : Int} {link : OutgoingLink}
    (htable : table ∈ keys c.relatedTables)
    (hlink : link ∈ schema.linksOf table) :
    schema.target table link.colKey ∈ keys c.relatedTables := by
  rw [h.related] at htable ⊢
  obtain ⟨it, hit, rfl⟩ := List.mem_map.mp htable
  have hclosed := (added_relatedTables h.closed h.root).1.closed it hit
  simpa using hclosed _ ⟨link, hlink, rfl⟩

theorem mem_tables
    (h : ChecksTable schema tables c)
    {table : Int}
    (htable : table ∈ keys c.relatedTables) :
    table ∈ tables := by
  rw [h.related] at htable
  obtain ⟨it, hit, rfl⟩ := List.mem_map.mp htable
  have hreached := (added_relatedTables h.closed h.root).1.reached it hit
  generalize it.tableKey = table at hreached ⊢
  induction hreached with
  | refl => exact h.root
  | tail _ hlink ih => exact h.closed _ ih _ hlink

theorem columnsTell
    (h : ChecksTable schema tables c) :
    c.ColumnsTell := by
  intro t t' link hlink link' hlink' hcol
  rcases h.linksOf_eq t with ⟨ht, heq⟩ | ⟨_, heq⟩
  · rcases h.linksOf_eq t' with ⟨ht', heq'⟩ | ⟨_, heq'⟩
    · rw [heq] at hlink
      rw [heq'] at hlink'
      exact h.columns t (h.mem_tables ht) t' (h.mem_tables ht') link hlink link' hlink' hcol
    · rw [heq'] at hlink'
      cases hlink'
  · rw [heq] at hlink
    cases hlink

/-- The checker goes along the links that there are. -/
theorem within_iff
    (h : ChecksTable schema tables c)
    {n : Nat} {x y : Int × Int}
    (hx : x.1 ∈ keys c.relatedTables) :
    Within c.Edge ∅ n x y ↔ Within (ObjectEdge schema c) ∅ n x y := by
  constructor
  · intro hpath
    refine (within_congr (P := fun z => z.1 ∈ keys c.relatedTables) ?_ hx hpath).1
    rintro z w hz ⟨link, hlink, htarget, hkey⟩
    rw [h.linksOf_related hz] at hlink
    rw [h.target] at htarget
    exact ⟨⟨link, hlink, htarget, hkey⟩, htarget ▸ h.target_mem hz hlink⟩
  · intro hpath
    refine (within_congr (P := fun z => z.1 ∈ keys c.relatedTables) ?_ hx hpath).1
    rintro z w hz ⟨link, hlink, htarget, hkey⟩
    refine ⟨⟨link, h.linksOf_related hz ▸ hlink, ?_, hkey⟩,
      htarget ▸ h.target_mem hz hlink⟩
    rw [h.target]
    exact htarget

/-- What is reached is of a related table. -/
theorem related_of_within
    (h : ChecksTable schema tables c)
    {n : Nat} {x y : Int × Int}
    (hx : x.1 ∈ keys c.relatedTables)
    (hpath : Within (ObjectEdge schema c) ∅ n x y) :
    y.1 ∈ keys c.relatedTables := by
  have hstays : ∀ z w, z.1 ∈ keys c.relatedTables → ObjectEdge schema c z w →
      ObjectEdge schema c z w ∧ w.1 ∈ keys c.relatedTables := by
    rintro z w hz ⟨link, hlink, htarget, hkey⟩
    exact ⟨⟨link, hlink, htarget, hkey⟩, htarget ▸ h.target_mem hz hlink⟩
  exact (within_congr hstays hx hpath).2

/-- One check in depth. -/
theorem check_iff
    (h : ChecksTable schema tables c)
    (hs : OnPath c [] s) (key : Int) :
    ((c.check key s).1 = true ↔ ModifiedNearby schema c 3 key) ∧
      OnPath c [] (c.check key s).2 := by
  rw [check]
  split
  next hmodified =>
    refine ⟨⟨fun _ => ?_, fun _ => rfl⟩, hs⟩
    exact ⟨_, .here (Set.notMem_empty _), hmodified⟩
  next hmodified =>
    have hcorrect := @correct_checkRow c [] (c.rootTable, key) s h.columnsTell pathSize rfl
      hs (fun _ => hmodified)
    refine ⟨⟨fun htrue => ?_, fun ⟨y, hpath, hy⟩ => ?_⟩, hcorrect.onPath⟩
    · obtain ⟨n, y, hn, hpath, hy⟩ := hcorrect.found htrue
      rw [h.within_iff h.root_mem] at hpath
      exact ⟨y, hpath.mono (Set.Subset.refl _) hn, hy⟩
    · rw [← h.within_iff h.root_mem] at hpath
      by_contra hfalse
      have hclear := hcorrect.clear (Bool.eq_false_iff.mpr hfalse) 0 3
        (.inl ⟨rfl, Nat.le_refl 3⟩)
      exact hclear y (hpath.mono (by simp) (Nat.le_refl 3)) hy

/-- How far links are followed: not at all from a table that has links to itself only. -/
def depth (c : DeepChangeChecker) : Nat :=
  if c.relatedTables.length = 1 then 0 else 3

theorem modificationCheck_iff
    (h : ChecksTable schema tables c)
    (hs : OnPath c [] s) (key : Int) :
    ((c.modificationCheck key s).1 = true ↔ ModifiedNearby schema c (depth c) key) ∧
      OnPath c [] (c.modificationCheck key s).2 := by
  rw [modificationCheck]
  split
  next hnone =>
    refine ⟨⟨fun h => (by cases h), fun ⟨y, hpath, hy⟩ => ?_⟩, hs⟩
    obtain ⟨it, hit, hkey⟩ := List.mem_map.mp (h.related_of_within h.root_mem hpath)
    have hmodified := List.any_eq_false.mp hnone it hit
    rw [hkey] at hmodified
    rw [Modified, modificationsContains] at hy
    rw [tableModified] at hmodified
    split at hy
    next => cases hy
    next changes hchanges =>
      rw [ObjectChangeSet.modificationsContains, decide_eq_true_eq] at hy
      obtain ⟨m, hm, _⟩ := hy
      simp only [hchanges, decide_eq_true_eq, not_not] at hmodified
      rw [hmodified] at hm
      cases hm
  next =>
    split
    next it hone =>
      have hroot := h.root_mem
      rw [hone] at hroot
      have htable : c.rootTable = it.tableKey := by simpa using hroot
      refine ⟨?_, hs⟩
      simp only [ModifiedNearby, depth, hone, List.length_singleton, if_true, within_zero,
        exists_eq_left, Modified, htable]
    next hmany =>
      have hlength : c.relatedTables.length ≠ 1 := by
        intro hlength
        obtain ⟨it, hone⟩ := List.length_eq_one_iff.mp hlength
        exact hmany it hone
      rw [depth, if_neg hlength]
      exact h.check_iff hs key

end ChecksTable

/-- The checker of a table that links to no other table. -/
theorem modificationCheck_singleton
    {it : RelatedTable}
    (hone : c.relatedTables = [it]) (key : Int) :
    (c.modificationCheck key s).1 = modificationChecker (c.tables it.tableKey) key := by
  rw [modificationCheck, hone]
  simp only [List.any_cons, List.any_nil, Bool.or_false, tableModified, modificationsContains,
    modificationChecker]
  cases c.tables it.tableKey with
  | none => simp
  | some changes =>
      by_cases hempty : changes.modifications = ∅
      · simp [hempty]
      · simp [hempty]

/-- A checker that was not asked anything yet. -/
theorem OnPath.start (path : Nat → Path) :
    OnPath c [] ⟨fun _ => ∅, path⟩ := by
  refine ⟨?_, ?_⟩
  · intro table key hkey
    cases hkey
  · intro i x hx
    cases hx

/--
**Whatever objects the modification checker of a table is asked for, in whatever order
and with whatever it has kept from the questions before, it says of each exactly whether
a modified object is at most three links away; or, when the table has no links to other
tables, whether it was modified itself.**
-/
theorem answers_exact
    (h : ChecksTable schema tables c) (path : Nat → Path) (asked : List Int) :
    ∀ answer ∈ answers c.modificationCheck asked ⟨fun _ => ∅, path⟩,
      (answer.2 = true ↔ ModifiedNearby schema c (ChecksTable.depth c) answer.1) := by
  have hs := OnPath.start (c := c) path
  generalize (⟨fun _ => ∅, path⟩ : Search) = s at hs
  induction asked generalizing s with
  | nil =>
      intro answer hanswer
      cases hanswer
  | cons key asked ih =>
      obtain ⟨hiff, hs'⟩ := h.modificationCheck_iff hs key
      intro answer hanswer
      rcases List.mem_cons.mp hanswer with rfl | hanswer
      · exact hiff
      · exact ih _ hs' answer hanswer

/-- Objects of table 1 link to one of table 2, and these list objects of table 1.  Object
201 of table 2 was modified. -/
def circleChecker : DeepChangeChecker where
  tables := fun table =>
    if table = 2 then some { ObjectChangeSet.empty with modifications := {(201, 20)} } else none
  rootTable := 1
  relatedTables := circle.relatedTables {1, 2, 3} 1
  links :=
    { target := circle.target
      link := fun _ key _ =>
        if key = 100 then some 200 else if key = 101 then some 201 else none
      linklist := fun _ key _ => if key = 200 then [100, 102, 101] else [] }

theorem checksTable_circle :
    ChecksTable circle {1, 2, 3} circleChecker where
  related := rfl
  target := rfl
  closed := circle_closed
  root := by decide
  columns := by decide

theorem answers_exact_circle :
    ¬ ModifiedNearby circle circleChecker 3 102 ∧
      ModifiedNearby circle circleChecker 3 100 ∧ ModifiedNearby circle circleChecker 3 101 := by
  have hexact := answers_exact checksTable_circle (fun _ => ⟨0, 0, false⟩) [102, 100, 101]
  have hanswers : answers circleChecker.modificationCheck [102, 100, 101]
      ⟨fun _ => ∅, fun _ => ⟨0, 0, false⟩⟩ = [(102, false), (100, true), (101, true)] := by
    decide
  have hdepth : ChecksTable.depth circleChecker = 3 := by decide
  rw [hanswers, hdepth] at hexact
  simpa using hexact

end Answers

end ObjectStore
end NotVK
