import Mathlib.Data.Finset.Card
import Mathlib.Data.List.Nodup
import Mathlib.Logic.Relation
import Mathlib.Tactic.Basic

/-!
# Tables that are linked to

`find_related_tables` goes from a table along its columns to the tables that they link
to.  A table is put on the list before its columns are looked at, and its links are
added to its entry while tables after it are found.
-/

namespace NotVK
namespace ObjectStore

section RelatedTables

inductive ColumnType where
  | link
  | linkList
  | other
deriving DecidableEq

structure Column where
  key : Int
  type : ColumnType
deriving DecidableEq

/-- The columns of tables, and the tables that they link to. -/
structure Schema where
  columns : Int → List Column
  target : Int → Int → Int

structure OutgoingLink where
  colKey : Int
  isList : Bool
deriving DecidableEq

structure RelatedTable where
  tableKey : Int
  links : List OutgoingLink
deriving DecidableEq

def Column.outgoing (col : Column) : Option OutgoingLink :=
  match col.type with
  | .link => some ⟨col.key, false⟩
  | .linkList => some ⟨col.key, true⟩
  | .other => none

/-- `out[out_index].links.push_back(link)`. -/
def pushLink (out : List RelatedTable) (index : Nat) (link : OutgoingLink) :
    List RelatedTable :=
  out.modify index (fun it => { it with links := it.links ++ [link] })

namespace Schema

variable (schema : Schema)

/-- `find_related_tables`, with a bound on how deep it goes. -/
def findRelatedTables : Nat → List RelatedTable → Int → List RelatedTable
  | 0, out, _ => out
  | fuel + 1, out, table =>
      if out.any (fun it => it.tableKey = table) then out
      else
        (schema.columns table).foldl
          (fun found col =>
            match col.outgoing with
            | none => found
            | some link =>
                findRelatedTables fuel (pushLink found out.length link)
                  (schema.target table link.colKey))
          (out ++ [⟨table, []⟩])

/-- All links of a table. -/
def linksOf (table : Int) : List OutgoingLink :=
  (schema.columns table).filterMap Column.outgoing

def LinksTo (table target : Int) : Prop :=
  ∃ link ∈ schema.linksOf table, schema.target table link.colKey = target

/-- Links lead to tables of the group. -/
def Closed (tables : Finset Int) : Prop :=
  ∀ table ∈ tables, ∀ target, schema.LinksTo table target → target ∈ tables

end Schema

end RelatedTables

section Added

open Relation

variable {schema : Schema}
variable {out new : List RelatedTable} {table : Int}

/-- The keys of the tables that were found. -/
def keys (out : List RelatedTable) : List Int :=
  out.map RelatedTable.tableKey

@[simp] theorem keys_append (out new : List RelatedTable) :
    keys (out ++ new) = keys out ++ keys new :=
  List.map_append

@[simp] theorem keys_nil : keys [] = [] :=
  rfl

@[simp] theorem keys_cons (it : RelatedTable) (out : List RelatedTable) :
    keys (it :: out) = it.tableKey :: keys out :=
  rfl

theorem pushLink_append
    (out new : List RelatedTable) (it : RelatedTable) (link : OutgoingLink) :
    pushLink (out ++ it :: new) out.length link =
      out ++ { it with links := it.links ++ [link] } :: new := by
  induction out with
  | nil => rfl
  | cons first out ih =>
      simpa [pushLink] using ih

/-- `new` has tables that are reached from `table`, each with all its links, and all that
these lead to are found. -/
structure Added
    (schema : Schema) (table : Int) (out new : List RelatedTable) : Prop where
  nodup : (keys (out ++ new)).Nodup
  links : ∀ it ∈ new, it.links = schema.linksOf it.tableKey
  closed : ∀ it ∈ new, ∀ target, schema.LinksTo it.tableKey target →
    target ∈ keys (out ++ new)
  reached : ∀ it ∈ new, ReflTransGen schema.LinksTo table it.tableKey

/-- The tables after a table whose links are being looked at. -/
structure Looking
    (schema : Schema) (table : Int) (out : List RelatedTable) (links : List OutgoingLink)
    (new : List RelatedTable) : Prop where
  added : Added schema table (out ++ [⟨table, links⟩]) new
  found : ∀ link ∈ links, schema.target table link.colKey ∈
    keys (out ++ ⟨table, links⟩ :: new)

theorem Looking.done
    (h : Looking schema table out (schema.linksOf table) new) :
    Added schema table out (⟨table, schema.linksOf table⟩ :: new) := by
  have hkeys : keys (out ++ [⟨table, schema.linksOf table⟩] ++ new) =
      keys (out ++ ⟨table, schema.linksOf table⟩ :: new) := by
    simp
  refine ⟨hkeys ▸ h.added.nodup, ?_, ?_, ?_⟩
  · intro it hit
    rcases List.mem_cons.mp hit with rfl | hit
    · rfl
    · exact h.added.links it hit
  · intro it hit target htarget
    rcases List.mem_cons.mp hit with rfl | hit
    · obtain ⟨link, hlink, rfl⟩ := htarget
      exact h.found link hlink
    · exact hkeys ▸ h.added.closed it hit target htarget
  · intro it hit
    rcases List.mem_cons.mp hit with rfl | hit
    · exact .refl
    · exact h.added.reached it hit

/-- What was found from a target of the next link is put after what was found before. -/
theorem Looking.next
    {links : List OutgoingLink} {link : OutgoingLink} {more : List RelatedTable}
    (h : Looking schema table out links new)
    (hlink : link ∈ schema.linksOf table)
    (hmore : Added schema (schema.target table link.colKey)
      (out ++ ⟨table, links ++ [link]⟩ :: new) more)
    (hfound : schema.target table link.colKey ∈
      keys (out ++ ⟨table, links ++ [link]⟩ :: new ++ more)) :
    Looking schema table out (links ++ [link]) (new ++ more) := by
  have hkeys : ∀ links', keys (out ++ ⟨table, links'⟩ :: new ++ more) =
      keys out ++ table :: (keys new ++ keys more) := by
    intro links'
    simp
  have hmono : ∀ links' target, target ∈ keys (out ++ ⟨table, links'⟩ :: new) →
      target ∈ keys out ++ table :: (keys new ++ keys more) := by
    intro links' target htarget
    rw [← hkeys links', keys_append]
    exact List.mem_append_left _ htarget
  have hnodup := hmore.nodup
  rw [hkeys] at hnodup hfound
  refine ⟨⟨?_, ?_, ?_, ?_⟩, ?_⟩
  · simpa using hnodup
  · intro it hit
    rcases List.mem_append.mp hit with hit | hit
    · exact h.added.links it hit
    · exact hmore.links it hit
  · intro it hit target htarget
    have hmem : target ∈ keys out ++ table :: (keys new ++ keys more) := by
      rcases List.mem_append.mp hit with hit | hit
      · apply hmono links
        have hin := h.added.closed it hit target htarget
        simpa using hin
      · rw [← hkeys]
        exact hmore.closed it hit target htarget
    simpa using hmem
  · intro it hit
    rcases List.mem_append.mp hit with hit | hit
    · exact h.added.reached it hit
    · exact .head ⟨link, hlink, rfl⟩ (hmore.reached it hit)
  · intro link' hlink'
    have hmem : schema.target table link'.colKey ∈
        keys out ++ table :: (keys new ++ keys more) := by
      rcases List.mem_append.mp hlink' with hlink' | hlink'
      · exact hmono links _ (h.found link' hlink')
      · rw [List.mem_singleton.mp hlink']
        exact hfound
    simpa using hmem

/-- The loop over the columns, when each search that it starts finds what it should. -/
theorem exists_looking
    (find : List RelatedTable → Int → List RelatedTable)
    {links : List OutgoingLink} (cols : List Column)
    (hfind : ∀ links new link, Looking schema table out links new →
      link ∈ schema.linksOf table →
      ∃ more, find (out ++ ⟨table, links ++ [link]⟩ :: new)
            (schema.target table link.colKey) =
          out ++ ⟨table, links ++ [link]⟩ :: new ++ more ∧
        Added schema (schema.target table link.colKey)
          (out ++ ⟨table, links ++ [link]⟩ :: new) more ∧
        schema.target table link.colKey ∈
          keys (out ++ ⟨table, links ++ [link]⟩ :: new ++ more))
    (h : Looking schema table out links new)
    (hcols : ∀ col ∈ cols, col ∈ schema.columns table) :
    ∃ new', cols.foldl
        (fun found col =>
          match col.outgoing with
          | none => found
          | some link =>
              find (pushLink found out.length link) (schema.target table link.colKey))
        (out ++ ⟨table, links⟩ :: new) =
        out ++ ⟨table, links ++ cols.filterMap Column.outgoing⟩ :: new' ∧
      Looking schema table out (links ++ cols.filterMap Column.outgoing) new' := by
  induction cols generalizing links new with
  | nil => exact ⟨new, by simp, by simpa using h⟩
  | cons col cols ih =>
      have hrest : ∀ col ∈ cols, col ∈ schema.columns table :=
        fun col hcol => hcols col (List.mem_cons_of_mem _ hcol)
      rw [List.foldl_cons]
      cases hcol : col.outgoing with
      | none =>
          rw [List.filterMap_cons_none hcol]
          exact ih h hrest
      | some link =>
          have hlink : link ∈ schema.linksOf table :=
            List.mem_filterMap.mpr ⟨col, hcols col List.mem_cons_self, hcol⟩
          obtain ⟨more, hmore, hadded, hfound⟩ := hfind links new link h hlink
          obtain ⟨new', hnew', hlooking⟩ := ih (h.next hlink hadded hfound) hrest
          have hlinks : links ++ link :: cols.filterMap Column.outgoing =
              links ++ [link] ++ cols.filterMap Column.outgoing := by
            simp
          rw [List.filterMap_cons_some hcol, hlinks]
          refine ⟨new', ?_, hlooking⟩
          rw [← hnew']
          simp only
          rw [pushLink_append, hmore, List.append_assoc]
          rfl

/-- The search, by induction on how deep it may go: it never needs more depth than there
are tables that were not found yet. -/
theorem exists_added
    {tables : Finset Int}
    (hclosed : schema.Closed tables)
    {fuel : Nat}
    (hnodup : (keys out).Nodup)
    (htable : table ∈ tables)
    (hfuel : (tables \ (keys out).toFinset).card < fuel) :
    ∃ new, schema.findRelatedTables fuel out table = out ++ new ∧
      Added schema table out new ∧ table ∈ keys (out ++ new) := by
  induction fuel generalizing out table with
  | zero => omega
  | succ fuel ih =>
      rw [Schema.findRelatedTables]
      split
      next hany =>
        obtain ⟨it, hit, hkey⟩ := List.any_eq_true.mp hany
        refine ⟨[], (List.append_nil out).symm, ⟨?_, ?_, ?_, ?_⟩, ?_⟩
        · simpa using hnodup
        · simp
        · simp
        · simp
        · rw [List.append_nil, ← of_decide_eq_true hkey]
          exact List.mem_map_of_mem hit
      next hany =>
        have hout : table ∉ keys out := by
          intro hin
          obtain ⟨it, hit, hkey⟩ := List.mem_map.mp hin
          exact hany (List.any_eq_true.mpr ⟨it, hit, decide_eq_true hkey⟩)
        have hstart : Looking schema table out [] [] := by
          refine ⟨⟨?_, by simp, by simp, by simp⟩, by simp⟩
          have hother : ∀ key ∈ keys out, key ≠ table := by
            rintro key hkey rfl
            exact hout hkey
          simpa [List.nodup_append] using ⟨hnodup, hother⟩
        have hloop := exists_looking (schema.findRelatedTables fuel)
          (schema.columns table) ?_ hstart (fun _ hcol => hcol)
        · obtain ⟨new, hnew, hlooking⟩ := hloop
          rw [List.nil_append] at hnew hlooking
          exact ⟨⟨table, schema.linksOf table⟩ :: new, hnew, hlooking.done, by simp⟩
        · intro links new link hlooking hlink
          apply ih
          · simpa using hlooking.added.nodup
          · exact hclosed table htable _ ⟨link, hlink, rfl⟩
          · refine Nat.lt_of_lt_of_le (Finset.card_lt_card ?_) (Nat.lt_succ_iff.mp hfuel)
            rw [Finset.ssubset_iff_of_subset]
            · exact ⟨table, by simp [htable, hout], by simp⟩
            · intro k hk
              simp only [Finset.mem_sdiff, List.mem_toFinset, keys_append, List.mem_append,
                not_or] at hk ⊢
              exact ⟨hk.1, hk.2.1⟩

end Added

section Related

open Relation

variable {schema : Schema} {root : Int} {tables : Finset Int}

/-- `set_table`: the tables that are related to a table of the group. -/
def Schema.relatedTables (schema : Schema) (tables : Finset Int) (root : Int) :
    List RelatedTable :=
  schema.findRelatedTables (tables.card + 1) [] root

theorem added_relatedTables
    (hclosed : schema.Closed tables)
    (hroot : root ∈ tables) :
    Added schema root [] (schema.relatedTables tables root) ∧
      root ∈ keys (schema.relatedTables tables root) := by
  have hnodup : (keys []).Nodup := List.nodup_nil
  have hfuel : (tables \ (keys []).toFinset).card < tables.card + 1 := by simp
  obtain ⟨new, hnew, hadded, hfound⟩ := exists_added hclosed hnodup hroot hfuel
  rw [Schema.relatedTables, hnew]
  exact ⟨hadded, hfound⟩

/--
**The related tables of a table are those that are reached from it along links, each
once and with all its links, however the links run in circles.**
-/
theorem relatedTables_exact
    (hclosed : schema.Closed tables)
    (hroot : root ∈ tables) :
    (keys (schema.relatedTables tables root)).Nodup ∧
      (∀ table, table ∈ keys (schema.relatedTables tables root)
        ↔ ReflTransGen schema.LinksTo root table) ∧
      ∀ it ∈ schema.relatedTables tables root, it.links = schema.linksOf it.tableKey := by
  obtain ⟨hadded, hfound⟩ := added_relatedTables hclosed hroot
  refine ⟨by simpa using hadded.nodup, ?_, hadded.links⟩
  intro table
  constructor
  · intro hin
    obtain ⟨it, hit, rfl⟩ := List.mem_map.mp hin
    exact hadded.reached it hit
  · intro hreached
    induction hreached with
    | refl => exact hfound
    | tail _ hlink ih =>
        obtain ⟨it, hit, rfl⟩ := List.mem_map.mp ih
        simpa using hadded.closed it hit _ hlink

/-- Tables 1 and 2 link to each other; no table links to table 3. -/
def circle : Schema where
  columns := fun table =>
    if table = 1 then [⟨9, .other⟩, ⟨10, .link⟩]
    else if table = 2 then [⟨20, .linkList⟩]
    else []
  target := fun table _ => if table = 1 then 2 else 1

theorem circle_closed :
    circle.Closed {1, 2, 3} := by
  rintro table htable target ⟨link, hlink, rfl⟩
  simp only [circle]
  split <;> decide

theorem relatedTables_exact_circle :
    circle.relatedTables {1, 2, 3} 1 = [⟨1, [⟨10, false⟩]⟩, ⟨2, [⟨20, true⟩]⟩] ∧
      ∀ table, ReflTransGen circle.LinksTo 1 table ↔ table = 1 ∨ table = 2 := by
  have hfound : circle.relatedTables {1, 2, 3} 1 = [⟨1, [⟨10, false⟩]⟩, ⟨2, [⟨20, true⟩]⟩] :=
    by decide
  have hroot : (1 : Int) ∈ ({1, 2, 3} : Finset Int) := by decide
  refine ⟨hfound, fun table => ?_⟩
  obtain ⟨_, hreached, _⟩ := relatedTables_exact circle_closed hroot
  rw [← hreached, hfound]
  simp

end Related

end ObjectStore
end NotVK
