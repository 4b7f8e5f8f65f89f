import NotVK.ObjectStore.ObservedChanges

/-!
# Changes from several versions to the last

New notifiers start from different versions.  The log is read once, with one set of
tables for each version that a notifier starts from.  The tables of a version are taken
over to the next, less those that nothing happened to.  At the end the changes are merged
from the last version back, so that each notifier has them from its own version on.
-/

namespace NotVK
namespace ObjectStore

open Runs TransactLogObserver

universe u v

section Merging

/-- One table of `prev` and `cur`, in the loop of `advance_to_final`; when one of them has
no tables at all, what it does first comes to the same. -/
def mergeEntry : Option ObjectChangeSet → Option ObjectChangeSet →
    Option (Option ObjectChangeSet)
  | pt, none => some pt
  | none, some ct => some (some ct)
  | some pt, some ct => if pt.isEmpty then some (some ct) else (pt.merge ct).map some

/-- The loop, for one table, from the last version back. -/
def mergeBack : List (Option ObjectChangeSet) → Option (List (Option ObjectChangeSet))
  | [] => some []
  | entry :: entries =>
      (mergeBack entries).bind (fun merged =>
        match merged with
        | [] => some [entry]
        | next :: _ => (mergeEntry entry next).map (fun first => first :: merged))

end Merging

section Incremental

variable {α : Type u} {β : Type v}

/-- A version that notifiers start from, and the log to the next version. -/
structure Source (α : Type u) (β : Type v) where
  /-- The tables that its notifiers ask for in `add_required_change_info`. -/
  required : List Int
  writes : List (Write α β)

namespace Source

/-- The observer of the log of a version, with nothing selected. -/
def start (source : Source α β) (s : TransactLogObserver × Group α β) :
    TransactLogObserver × Group α β :=
  ({ s.1 with
      tables := fun table =>
        if table ∈ source.required then some ((s.1.tables table).getD .empty)
        else s.1.tables table
      currentTable := none
      activeList := none },
    { s.2 with
      table := none
      list := none })

/-- `transaction::advance`. -/
def advance (source : Source α β) (s : TransactLogObserver × Group α β) :
    Option (TransactLogObserver × Group α β) :=
  (run TransactLogObserver.step (source.start s) source.writes).map
    (fun t => (t.1.parseComplete, t.2))

end Source

/-- `advance_incremental`: the lists and the tables that are left are followed further. -/
def next (t : TransactLogObserver × Group α β) : TransactLogObserver × Group α β :=
  ({ t.1 with
      tables := fun table => (t.1.tables table).map (fun _ => .empty)
      trackAll := false
      schemaChanged := false },
    t.2)

/-- The tables of each version before they are merged, and the last version. -/
def advanceAll : List (Source α β) → TransactLogObserver × Group α β →
    Option (List (Int → Option ObjectChangeSet) × Group α β)
  | [], s => some ([], s.2)
  | source :: sources, s =>
      (source.advance s).bind (fun t =>
        (advanceAll sources (next t)).map (fun r => (t.1.tables :: r.1, r.2)))

end Incremental

section MergedEntries

variable {ρ : Type u}
variable {old mid new : Int → Option ρ}
variable {x y z : Option ObjectChangeSet}
variable {entries merged : List (Option ObjectChangeSet)}

theorem ObjectChangeSet.eq_empty_of_isEmpty
    {s : ObjectChangeSet}
    (h : s.isEmpty = true) :
    s = .empty := by
  cases s
  simp_all [ObjectChangeSet.isEmpty, ObjectChangeSet.empty]

/-- A table that has no entry has one that says nothing. -/
theorem merge_of_mergeEntry
    (h : mergeEntry x y = some z) :
    (x.getD .empty).merge (y.getD .empty) = some (z.getD .empty) := by
  cases y with
  | none =>
      cases h
      rfl
  | some ct =>
      cases x with
      | none =>
          cases h
          by_cases hempty : ct.isEmpty = true
          · rw [ObjectChangeSet.eq_empty_of_isEmpty hempty]
            rfl
          · simp only [Option.getD_none, Option.getD_some, ObjectChangeSet.merge, hempty]
            rfl
      | some pt =>
          simp only [mergeEntry] at h
          split at h
          next hempty =>
            cases h
            rw [ObjectChangeSet.eq_empty_of_isEmpty hempty]
            by_cases hct : ct.isEmpty = true
            · rw [ObjectChangeSet.eq_empty_of_isEmpty hct]
              rfl
            · simp only [Option.getD_some, ObjectChangeSet.merge, hct]
              rfl
          next =>
            obtain ⟨c, hc, rfl⟩ := Option.map_eq_some_iff.mp h
            exact hc

theorem clearDidOccur_merge
    {a b c : ObjectChangeSet}
    (h : a.merge b = some c)
    (ha : a.clearDidOccur = false)
    (hb : b.clearDidOccur = false) :
    c.clearDidOccur = false := by
  rw [ObjectChangeSet.merge] at h
  split at h
  next =>
    cases h
    exact ha
  next =>
  split at h
  next =>
    cases h
    exact hb
  next =>
  rw [Option.ite_none_left_eq_some] at h
  obtain ⟨_, hc⟩ := h
  cases hc
  simp [ha, hb]

theorem mergeBack_cons
    (h : mergeBack (x :: entries) = some merged) :
    (entries = [] ∧ merged = [x]) ∨
      ∃ y rest z, mergeBack entries = some (y :: rest) ∧ mergeEntry x y = some z ∧
        merged = z :: y :: rest := by
  obtain ⟨rest, hrest, hfirst⟩ := Option.bind_eq_some_iff.mp h
  cases rest with
  | nil =>
      cases hfirst
      cases entries with
      | nil => exact .inl ⟨rfl, rfl⟩
      | cons entry entries =>
          obtain ⟨rest', _, hfirst'⟩ := Option.bind_eq_some_iff.mp hrest
          cases rest' with
          | nil => cases hfirst'
          | cons =>
              obtain ⟨_, _, hfirst'⟩ := Option.map_eq_some_iff.mp hfirst'
              cases hfirst'
  | cons y rest =>
      obtain ⟨z, hz, rfl⟩ := Option.map_eq_some_iff.mp hfirst
      exact .inr ⟨y, rest, z, hrest, hz, rfl⟩

/-- No entry says that the table was cleared. -/
def NoClear (entries : List (Option ObjectChangeSet)) : Prop :=
  ∀ entry ∈ entries, (entry.getD .empty).clearDidOccur = false

theorem noClear_mergeBack
    (hentries : NoClear entries)
    (h : mergeBack entries = some merged) :
    NoClear merged := by
  induction entries generalizing merged with
  | nil =>
      cases h
      exact hentries
  | cons x entries ih =>
      have hrest : NoClear entries :=
        fun entry hin => hentries entry (List.mem_cons_of_mem _ hin)
      rcases mergeBack_cons h with ⟨_, rfl⟩ | ⟨y, rest, z, hback, hz, rfl⟩
      · intro entry hin
        rw [List.mem_singleton.mp hin]
        exact hentries x List.mem_cons_self
      · have hmerged := ih hrest hback
        intro entry hin
        rcases List.mem_cons.mp hin with rfl | hin
        · exact clearDidOccur_merge (merge_of_mergeEntry hz)
            (hentries x List.mem_cons_self) (hmerged y List.mem_cons_self)
        · exact hmerged entry hin

/-- Entries of versions after each other; keys that went do not come back at the end. -/
inductive Chain (last : Int → Option ρ) :
    (Int → Option ρ) → List (Option ObjectChangeSet) → Prop
  | nil :
      Chain last last []
  | cons
      {old mid : Int → Option ρ} {entry : Option ObjectChangeSet}
      {entries : List (Option ObjectChangeSet)}
      (hentry : Exact old mid (entry.getD .empty))
      (hclear : NoClear entries)
      (hback : ∀ obj, old obj ≠ none → mid obj = none → last obj = none)
      (hrest : Chain last mid entries) :
      Chain last old (entry :: entries)

theorem exact_mergeBack
    (hchain : Chain new old entries)
    (hmerge : mergeBack entries = some merged) :
    ∀ entry, merged.head? = some entry → Exact old new (entry.getD .empty) := by
  induction hchain generalizing merged with
  | nil =>
      cases hmerge
      intro entry hentry
      cases hentry
  | cons hentry hclear hback hrest ih =>
      rcases mergeBack_cons hmerge with ⟨rfl, rfl⟩ | ⟨y, rest, z, hmerged, hz, rfl⟩
      · intro entry hin
        cases hin
        cases hrest
        exact hentry
      · intro entry hin
        cases hin
        exact hentry.merged (ih hmerged y rfl) (merge_of_mergeEntry hz)
          (noClear_mergeBack hclear hmerged y List.mem_cons_self) hback

end MergedEntries

section Required

variable {α : Type u} {β : Type v}
variable {table : Int}
variable {s t : TransactLogObserver × Group α β}
variable {source : Source α β} {sources : List (Source α β)}

/-- Nothing is known of the table yet. -/
def Unknown (table : Int) (s : TransactLogObserver × Group α β) : Prop :=
  ∀ changes, s.1.tables table = some changes → changes = .empty

theorem unknown_next (table : Int) (t : TransactLogObserver × Group α β) :
    Unknown table (next t) := by
  intro changes hchanges
  obtain ⟨_, _, rfl⟩ := Option.map_eq_some_iff.mp hchanges
  rfl

theorem starts_start
    (hunknown : Unknown table s)
    (hrequired : table ∈ source.required) :
    Starts table (source.start s) := by
  refine ⟨?_, rfl⟩
  simp only [Source.start, if_pos hrequired]
  cases hchanges : s.1.tables table with
  | none => rfl
  | some changes => rw [hunknown changes hchanges, Option.getD_some]

/-- The entry of one version, which is dropped when it says nothing. -/
theorem exact_advance
    (hunknown : Unknown table s)
    (hrequired : table ∈ source.required)
    (hnew : EveryStep TransactLogObserver.step (NewKeys table (s.2.row table))
      (source.start s) source.writes)
    (hadvance : source.advance s = some t) :
    Exact (s.2.row table) (t.2.row table) ((t.1.tables table).getD .empty) := by
  obtain ⟨t', hrun, rfl⟩ := Option.map_eq_some_iff.mp hadvance
  exact (run_follows (starts_start hunknown hrequired) hnew hrun).exact_parseComplete

/-- Each log makes objects under new keys, and a key that goes does not come back. -/
def Orderly (table : Int) (last : Int → Option (α × (Int → List β))) :
    List (Source α β) → TransactLogObserver × Group α β → Prop
  | [], _ => True
  | source :: sources, s =>
      EveryStep TransactLogObserver.step (NewKeys table (s.2.row table))
        (source.start s) source.writes ∧
      ∀ t, source.advance s = some t →
        (∀ obj, s.2.row table obj ≠ none → t.2.row table obj = none → last obj = none) ∧
          Orderly table last sources (next t)

theorem chain_advanceAll
    {infos : List (Int → Option ObjectChangeSet)} {g : Group α β}
    (hunknown : Unknown table s)
    (hrequired : ∀ source ∈ sources, table ∈ source.required)
    (horderly : Orderly table (g.row table) sources s)
    (hclear : NoClear (infos.tail.map (fun tables => tables table)))
    (hadvance : advanceAll sources s = some (infos, g)) :
    Chain (g.row table) (s.2.row table) (infos.map (fun tables => tables table)) := by
  induction sources generalizing s infos with
  | nil =>
      cases hadvance
      exact .nil
  | cons source sources ih =>
      obtain ⟨t, ht, hrest⟩ := Option.bind_eq_some_iff.mp hadvance
      obtain ⟨⟨more, g'⟩, hmore, hinfos⟩ := Option.map_eq_some_iff.mp hrest
      cases hinfos
      obtain ⟨hnew, hlater⟩ := horderly
      obtain ⟨hback, hlater⟩ := hlater t ht
      have hnone : NoClear (more.tail.map (fun tables => tables table)) := by
        intro entry hentry
        obtain ⟨tables, hin, rfl⟩ := List.mem_map.mp hentry
        exact hclear _ (List.mem_map_of_mem (List.mem_of_mem_tail hin))
      have hentry := exact_advance hunknown (hrequired source List.mem_cons_self) hnew ht
      have hrest := ih (unknown_next table t)
        (fun source' hin => hrequired source' (List.mem_cons_of_mem _ hin)) hlater hnone hmore
      exact .cons hentry hclear hback hrest

/--
**When the notifiers of every version ask for a table, those of the first version get
exactly what happened to its objects up to the last version, merged from the last
version back, over any number of versions.**
-/
theorem advanceAll_exact
    {infos : List (Int → Option ObjectChangeSet)} {g : Group α β}
    {merged : List (Option ObjectChangeSet)}
    (hunknown : Unknown table s)
    (hrequired : ∀ source ∈ sources, table ∈ source.required)
    (horderly : Orderly table (g.row table) sources s)
    (hclear : NoClear (infos.tail.map (fun tables => tables table)))
    (hadvance : advanceAll sources s = some (infos, g))
    (hmerge : mergeBack (infos.map (fun tables => tables table)) = some merged) :
    ∀ entry, merged.head? = some entry →
      Exact (s.2.row table) (g.row table) (entry.getD .empty) :=
  exact_mergeBack (chain_advanceAll hunknown hrequired horderly hclear hadvance) hmerge

/-- The objects of `beforeLog`, of which nothing is known yet. -/
def beforeSources : TransactLogObserver × Group Nat Int :=
  ({ beforeLog.1 with
      lists := []
      tables := fun _ => none },
    beforeLog.2)

/-- Nothing happens before the second version, and then one object is modified. -/
def twoSources (required : Int) : List (Source Nat Int) :=
  [⟨[7], []⟩, ⟨[required], [.selectTable 7, .modifyObject 0 1 11]⟩]

def afterSources (required : Int) :
    List (Int → Option ObjectChangeSet) × Group Nat Int :=
  (advanceAll (twoSources required) beforeSources).get rfl

theorem orderly_twoSources :
    Orderly 7 ((afterSources 7).2.row 7) (twoSources 7) beforeSources := by
  refine ⟨trivial, fun t ht => ⟨?_, ?_, fun u hu => ⟨?_, trivial⟩⟩⟩
  · cases ht
    intro obj hthere hgone
    exact absurd hgone hthere
  · apply newKeys_of_forall
    intro key content hmem
    simp at hmem
  · cases ht
    cases hu
    exact fun _ _ hgone => hgone

theorem advanceAll_exact_twoSources :
    ∃ merged, mergeBack ((afterSources 7).1.map (fun tables => tables 7)) = some merged ∧
      ∀ entry, merged.head? = some entry →
        Exact (beforeSources.2.row 7) ((afterSources 7).2.row 7) (entry.getD .empty) := by
  have hunknown : Unknown 7 beforeSources := by
    intro changes hchanges
    cases hchanges
  have hrequired : ∀ source ∈ twoSources 7, (7 : Int) ∈ source.required := by
    simp [twoSources]
  have hclear : NoClear ((afterSources 7).1.tail.map (fun tables => tables 7)) := by
    intro entry hentry
    obtain rfl : entry = _ := List.mem_singleton.mp hentry
    rfl
  have hadvance : advanceAll (twoSources 7) beforeSources =
      some ((afterSources 7).1, (afterSources 7).2) := rfl
  obtain ⟨merged, hmerge⟩ : ∃ merged,
      mergeBack ((afterSources 7).1.map (fun tables => tables 7)) = some merged :=
    ⟨_, rfl⟩
  exact ⟨merged, hmerge, advanceAll_exact hunknown hrequired orderly_twoSources hclear
    hadvance hmerge⟩

end Required

section Forgotten

variable {α : Type u} {β : Type v}
variable {table : Int}
variable {s t : TransactLogObserver × Group α β}
variable {source : Source α β} {sources : List (Source α β)}

/-- The table has no entry, and gets none. -/
def Unfollowed (table : Int) (s : TransactLogObserver × Group α β) : Prop :=
  s.1.tables table = none ∧ s.1.trackAll = false

theorem updateTable_unfollowed
    {o : TransactLogObserver} {f : ObjectChangeSet → ObjectChangeSet}
    (h : o.tables table = none) :
    (o.updateTable f).tables table = none := by
  by_cases hcurrent : o.currentTable = some table
  · rw [updateTable_tables hcurrent, h]
    rfl
  · rw [updateTable_tables_of_ne hcurrent, h]

@[simp] theorem next_trackAll (t : TransactLogObserver × Group α β) :
    (next t).1.trackAll = false :=
  rfl

theorem updateTable_trackAll
    {o : TransactLogObserver} {f : ObjectChangeSet → ObjectChangeSet} :
    (o.updateTable f).trackAll = o.trackAll := by
  rw [updateTable]
  split <;> rfl

theorem updateList_trackAll
    {o : TransactLogObserver} {f : CollectionChangeBuilder → CollectionChangeBuilder} :
    (o.updateList f).trackAll = o.trackAll := by
  rw [updateList]
  split <;> rfl

theorem unfollowed_step
    {w : Write α β}
    (h : Unfollowed table s)
    (hstep : TransactLogObserver.step s w = some t) :
    Unfollowed table t := by
  obtain ⟨hnone, htrack⟩ := h
  obtain ⟨g', _, hhandle⟩ := Option.bind_eq_some_iff.mp hstep
  obtain ⟨o', hhandle, rfl⟩ := Option.map_eq_some_iff.mp hhandle
  by_cases hw : w.EditsList
  · obtain ⟨_, f, hf, _⟩ := exists_told hw s.2
    rw [hf] at hhandle
    cases hhandle
    exact ⟨by simpa using hnone, by rwa [updateList_trackAll]⟩
  cases w with
  | insertGroupLevelTable | insertColumn =>
      cases hhandle
      exact ⟨hnone, htrack⟩
  | selectTable key =>
      cases hhandle
      refine ⟨?_, htrack⟩
      simpa [TransactLogObserver.selectTable, htrack] using hnone
  | createObject key content =>
      cases hhandle
      exact ⟨updateTable_unfollowed hnone, updateTable_trackAll.trans htrack⟩
  | modifyObject col key content =>
      cases hhandle
      exact ⟨updateTable_unfollowed hnone, updateTable_trackAll.trans htrack⟩
  | selectList col key =>
      cases hhandle
      exact ⟨updateTable_unfollowed hnone, updateTable_trackAll.trans htrack⟩
  | clearTable oldSize =>
      cases hhandle
      exact ⟨updateTable_unfollowed hnone, updateTable_trackAll.trans htrack⟩
  | removeObject key =>
      cases hhandle
      refine ⟨?_, ?_⟩
      · rw [removeObject_tables]
        exact updateTable_unfollowed hnone
      · rw [TransactLogObserver.removeObject]
        split
        next => exact htrack
        next => exact updateTable_trackAll.trans htrack
  | listInsert | listSet | listMove | listSwap | listErase | listClear =>
      exact absurd trivial hw

theorem unfollowed_advance
    (h : Unfollowed table s)
    (hrequired : table ∉ source.required)
    (hadvance : source.advance s = some t) :
    Unfollowed table t := by
  obtain ⟨t', hrun, rfl⟩ := Option.map_eq_some_iff.mp hadvance
  have hfirst : Unfollowed table (source.start s) := by
    refine ⟨?_, h.2⟩
    simp only [Source.start, if_neg hrequired]
    exact h.1
  have hlast : Unfollowed table t' := by
    refine run_invariant ?_ hfirst hrun
    intro _ _ _ h hstep
    exact unfollowed_step h hstep
  refine ⟨?_, hlast.2⟩
  simp [parseComplete, hlast.1]

theorem unfollowed_advanceAll
    {infos : List (Int → Option ObjectChangeSet)} {g : Group α β}
    (h : Unfollowed table s)
    (hrequired : ∀ source ∈ sources, table ∉ source.required)
    (hadvance : advanceAll sources s = some (infos, g)) :
    ∀ tables ∈ infos, tables table = none := by
  induction sources generalizing s infos with
  | nil =>
      cases hadvance
      simp
  | cons source sources ih =>
      obtain ⟨t, ht, hrest⟩ := Option.bind_eq_some_iff.mp hadvance
      obtain ⟨⟨more, g'⟩, hmore, hinfos⟩ := Option.map_eq_some_iff.mp hrest
      cases hinfos
      have ht' := unfollowed_advance h (hrequired source List.mem_cons_self) ht
      have hnext : Unfollowed table (next t) := ⟨by simp [next, ht'.1], next_trackAll t⟩
      intro tables htables
      rcases List.mem_cons.mp htables with rfl | htables
      · exact ht'.1
      · exact ih hnext (fun source' hin => hrequired source' (List.mem_cons_of_mem _ hin))
          hmore tables htables

theorem mergeBack_of_none
    {entries : List (Option ObjectChangeSet)}
    (h : ∀ entry ∈ entries, entry = none) :
    mergeBack entries = some entries := by
  induction entries with
  | nil => rfl
  | cons x entries ih =>
      rw [mergeBack, ih (fun entry hin => h entry (List.mem_cons_of_mem _ hin))]
      cases entries with
      | nil => rfl
      | cons y entries =>
          rw [h y (by simp)]
          rfl

/-- `parse_complete` drops what says nothing, and `advance_incremental` does not ask for it. -/
theorem unfollowed_next
    (hnothing : Unknown table t)
    (s : Group α β) :
    Unfollowed table (next (t.1.parseComplete, s)) ∧
      t.1.parseComplete.tables table = none := by
  have hdropped : t.1.parseComplete.tables table = none := by
    simp only [parseComplete]
    cases hchanges : t.1.tables table with
    | none => rfl
    | some changes =>
        rw [hnothing changes hchanges]
        rfl
  refine ⟨⟨?_, next_trackAll _⟩, hdropped⟩
  simp [next, hdropped]

/--
**A table that nothing has happened to when the log of the first version has been read is
forgotten, unless notifiers of a later version ask for it: whatever happens to it then,
those of the first version are told nothing.**
-/
theorem advanceAll_forgets
    {infos : List (Int → Option ObjectChangeSet)} {g : Group α β}
    (hfirst : run TransactLogObserver.step (source.start s) source.writes = some t)
    (hnothing : Unknown table t)
    (hrequired : ∀ source ∈ sources, table ∉ source.required)
    (hadvance : advanceAll (source :: sources) s = some (infos, g)) :
    mergeBack (infos.map (fun tables => tables table)) =
        some (infos.map (fun tables => tables table)) ∧
      ∀ tables ∈ infos, tables table = none := by
  obtain ⟨t', ht', hrest⟩ := Option.bind_eq_some_iff.mp hadvance
  rw [Source.advance, hfirst, Option.map_some] at ht'
  cases ht'
  obtain ⟨⟨more, g'⟩, hmore, hinfos⟩ := Option.map_eq_some_iff.mp hrest
  cases hinfos
  obtain ⟨hnext, hdropped⟩ := unfollowed_next hnothing t.2
  have hnone : ∀ tables ∈ t.1.parseComplete.tables :: more, tables table = none := by
    intro tables htables
    rcases List.mem_cons.mp htables with rfl | htables
    · exact hdropped
    · exact unfollowed_advanceAll hnext hrequired hmore tables htables
  refine ⟨mergeBack_of_none ?_, hnone⟩
  intro entry hentry
  obtain ⟨tables, htables, rfl⟩ := List.mem_map.mp hentry
  exact hnone tables htables

/-- The object is modified, and the notifiers of the first version are not told. -/
theorem advanceAll_forgets_twoSources :
    (∀ tables ∈ (afterSources 8).1, tables 7 = none) ∧
      beforeSources.2.row 7 1 ≠ (afterSources 8).2.row 7 1 := by
  obtain ⟨t, ht, hentry⟩ : ∃ t, run TransactLogObserver.step
      (Source.start ⟨[7], []⟩ beforeSources) [] = some t ∧ t.1.tables 7 = some .empty :=
    ⟨_, rfl, rfl⟩
  have hnothing : Unknown 7 t := by
    intro changes hchanges
    exact Option.some.inj (hchanges.symm.trans hentry)
  have hrequired : ∀ source ∈ (twoSources 8).tail, (7 : Int) ∉ source.required := by
    simp [twoSources]
  have hadvance : advanceAll (⟨[7], []⟩ :: (twoSources 8).tail) beforeSources =
      some ((afterSources 8).1, (afterSources 8).2) := rfl
  refine ⟨(advanceAll_forgets ht hnothing hrequired hadvance).2, ?_⟩
  intro hsame
  have hcontent : some 10 = some 11 := congrArg (Option.map Prod.fst) hsame
  cases hcontent

end Forgotten

end ObjectStore
end NotVK
