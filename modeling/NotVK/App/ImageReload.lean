import Mathlib.Data.List.Nodup
import NotVK.Library.FifoQueue
import NotVK.App.ImageCache

/-!
# A reloaded row finds its photo

The handler of a download enqueues the assignment to `images` before it enqueues
the reload of the row, and the main queue is served in order.  So when the
reload runs the photo is in `images`, whatever other downloads and `photo` calls
do in between, and the `photo` call for the reloaded row does not start another
download.

`ReloadInvariant` states this of the contents of the main queue: in front of a
reload stands a block that keeps the photo, unless the photo is there already.
What a URL serves may change from one step to the next.
-/

namespace NotVK
namespace Photos

open Runs Networking Fifo

section ReloadInvariant

variable {Image : Type}

/-- A photo of the URL is in `images`. -/
def System.Holds (s : System Image) (url : String) : Prop :=
  ∃ image, s.images url = some image

/-- The block puts a photo of the URL into `images`. -/
def MainBlock.Keeps (block : MainBlock Image) (url : String) : Prop :=
  ∃ image, block.entry = some (url, image)

/-- The block reloads a row for a download of the URL. -/
def MainBlock.ReloadsFor : MainBlock Image → String → Prop
  | .reloadRow _ _ url, u => url = u
  | _, _ => False

/-- Number of the download for which the block reloads a row. -/
def MainBlock.download : MainBlock Image → Option Nat
  | .reloadRow download _ _ => some download
  | _ => none

/-- The handler has enqueued its image and not yet the reload. -/
def DownloadPoint.BeforeReload : DownloadPoint Image → Prop
  | .imageQueued _ => True
  | .saved _ => True
  | _ => False

/-- Downloads whose reload has run or is on the main queue. -/
def System.reloads (s : System Image) : List Nat :=
  s.reloaded ++ s.mainQueue.filterMap MainBlock.download

/-- The handler of the download has run to its end. -/
def System.Succeeded (s : System Image) (download : Nat) : Prop :=
  ∃ d, s.downloads[download]? = some d ∧ d.point = .done true

/-- A reload stands behind the photo it needs, and there is one for each
download that succeeded. -/
structure ReloadInvariant (s : System Image) : Prop where
  mainQueue : s.live = true →
    AllProvided MainBlock.ReloadsFor MainBlock.Keeps s.Holds s.mainQueue
  handlers : s.live = true → ∀ d ∈ s.downloads, d.point.BeforeReload →
    Provided MainBlock.Keeps s.Holds s.mainQueue d.url
  nodup : s.reloads.Nodup
  succeeded : ∀ download ∈ s.reloads, s.Succeeded download
  reloads : s.live = true →
    ∀ download, s.Succeeded download → download ∈ s.reloads

variable {s : System Image}

theorem reloadInvariant_initial :
    ReloadInvariant (System.initial : System Image) where
  mainQueue _ := allProvided_nil
  handlers _ _ hd := by cases hd
  nodup := List.nodup_nil
  succeeded _ hk := by cases hk
  reloads _ _ hk := by
    obtain ⟨_, hd, _⟩ := hk
    cases hd

/-- The files and the log of arrived images do not matter. -/
theorem reloadInvariant_of_files
    (h : ReloadInvariant s) (disk : Disk) (downloaded : List (String × Image)) :
    ReloadInvariant { s with disk := disk, downloaded := downloaded } :=
  ⟨h.mainQueue, h.handlers, h.nodup, h.succeeded, h.reloads⟩

/-- Without the service nothing is promised but that no reload is repeated. -/
theorem reloadInvariant_dead
    {t : System Image}
    (hdead : t.live = false)
    (hnodup : t.reloads.Nodup)
    (hsucceeded : ∀ download ∈ t.reloads, t.Succeeded download) :
    ReloadInvariant t where
  mainQueue hlive := by simp [hdead] at hlive
  handlers hlive := by simp [hdead] at hlive
  nodup := hnodup
  succeeded := hsucceeded
  reloads hlive := by simp [hdead] at hlive

theorem not_reloadsFor_of_download
    {block : MainBlock Image}
    (hblock : block.download = none) (url : String) :
    ¬ block.ReloadsFor url := by
  cases block with
  | reloadRow download indexPath u => cases hblock
  | _ => exact id

theorem reloads_enqueue
    (s : System Image) {block : MainBlock Image}
    (hblock : block.download = none) :
    (s.enqueue block).reloads = s.reloads := by
  simp [System.reloads, System.enqueue, hblock]

/-- A block that reloads nothing may be enqueued at any time. -/
theorem reloadInvariant_enqueue
    (h : ReloadInvariant s) {block : MainBlock Image}
    (hblock : block.download = none) :
    ReloadInvariant (s.enqueue block) where
  mainQueue hlive := by
    apply (h.mainQueue hlive).concat
    intro url hreload
    exact absurd hreload (not_reloadsFor_of_download hblock url)
  handlers hlive d hd hpoint := (h.handlers hlive d hd hpoint).concat block
  nodup := by
    rw [reloads_enqueue s hblock]
    exact h.nodup
  succeeded := by
    rw [reloads_enqueue s hblock]
    exact h.succeeded
  reloads := by
    rw [reloads_enqueue s hblock]
    exact h.reloads

/-- A move of a handler makes only its own download succeed. -/
theorem succeeded_setPoint
    {download k : Nat} {d : Download Image} {point : DownloadPoint Image}
    (hd : s.downloads[download]? = some d)
    (hopen : d.point ≠ .done true) :
    (s.setPoint download point).Succeeded k
      ↔
    s.Succeeded k ∨ (k = download ∧ point = .done true) := by
  unfold System.Succeeded System.setPoint
  simp only [List.getElem?_modify, Option.map_eq_map, Option.map_eq_some_iff]
  by_cases hk : download = k
  · subst hk
    simp [hd, hopen]
  · have hk' : k ≠ download := fun heq => hk heq.symm
    simp [hk, hk']

/-- A handler may move where the photo it promises is on its way. -/
theorem reloadInvariant_setPoint
    (h : ReloadInvariant s) {download : Nat} {d : Download Image}
    {point : DownloadPoint Image}
    (hd : s.downloads[download]? = some d)
    (hopen : d.point ≠ .done true)
    (hpoint : point ≠ .done true)
    (hphoto : s.live = true → point.BeforeReload →
      Provided MainBlock.Keeps s.Holds s.mainQueue d.url) :
    ReloadInvariant (s.setPoint download point) where
  mainQueue := h.mainQueue
  handlers hlive d' hd' hbefore := by
    rcases mem_setPoint hd' with hold | ⟨e, he, rfl⟩
    · exact h.handlers hlive d' hold hbefore
    · rw [hd] at he
      cases he
      exact hphoto hlive hbefore
  nodup := h.nodup
  succeeded k hk :=
    (succeeded_setPoint hd hopen).mpr (Or.inl (h.succeeded k hk))
  reloads hlive k hk := by
    rcases (succeeded_setPoint hd hopen).mp hk with hold | ⟨_, hdone⟩
    · exact h.reloads hlive k hold
    · exact absurd hdone hpoint

/-- No reload has been enqueued for a download that has not succeeded. -/
theorem ReloadInvariant.not_mem_reloads
    (h : ReloadInvariant s) {download : Nat} {d : Download Image}
    (hd : s.downloads[download]? = some d)
    (hopen : d.point ≠ .done true) :
    download ∉ s.reloads := by
  intro hmem
  obtain ⟨e, he, hdone⟩ := h.succeeded download hmem
  rw [hd] at he
  cases he
  exact hopen hdone

/-- The last step of a handler enqueues its reload. -/
theorem reloadInvariant_queuesReload
    (h : ReloadInvariant s) {download : Nat} {d : Download Image}
    {image : Image}
    (hd : s.downloads[download]? = some d)
    (hpoint : d.point = .saved image) :
    ReloadInvariant ((s.setPoint download (.done true)).enqueue
      (.reloadRow download d.indexPath d.url)) := by
  have hopen : d.point ≠ .done true := by
    rw [hpoint]
    intro hdone
    cases hdone
  have hreloads : ((s.setPoint download (.done true)).enqueue
      (.reloadRow download d.indexPath d.url)).reloads =
        s.reloads ++ [download] := by
    simp [System.reloads, System.enqueue, System.setPoint, MainBlock.download]
  have hsucceeded : ∀ k, ((s.setPoint download (.done true)).enqueue
      (.reloadRow download d.indexPath d.url)).Succeeded k
        ↔
      s.Succeeded k ∨ (k = download ∧ DownloadPoint.done true = .done true) :=
    fun _ => succeeded_setPoint hd hopen
  refine ⟨fun hlive => ?_, fun hlive d' hd' hbefore => ?_, ?_, ?_, ?_⟩
  · apply (h.mainQueue hlive).concat
    rintro url rfl
    refine h.handlers hlive d (List.mem_of_getElem? hd) ?_
    rw [hpoint]
    trivial
  · rcases mem_setPoint hd' with hold | ⟨e, _, rfl⟩
    · exact (h.handlers hlive d' hold hbefore).concat _
    · cases hbefore
  · rw [hreloads, ← List.concat_eq_append]
    exact List.Nodup.concat (h.not_mem_reloads hd hopen) h.nodup
  · rw [hreloads]
    intro k hk
    rw [hsucceeded]
    rcases List.mem_append.mp hk with hk | hk
    · exact Or.inl (h.succeeded k hk)
    · exact Or.inr ⟨List.mem_singleton.mp hk, rfl⟩
  · rw [hreloads]
    intro hlive k hk
    rcases (hsucceeded k).mp hk with hk | ⟨rfl, _⟩
    · exact List.mem_append_left _ (h.reloads hlive k hk)
    · exact List.mem_append_right _ (List.mem_singleton_self k)

/-- Serving a block that does what it is there for. -/
theorem reloadInvariant_serve
    (h : ReloadInvariant s) {t : System Image} {block : MainBlock Image}
    (hqueue : s.mainQueue = block :: t.mainQueue)
    (hlive : t.live = s.live)
    (hdownloads : t.downloads = s.downloads)
    (hreloads : t.reloads = s.reloads)
    (hserve : ∀ url, s.Holds url ∨ block.Keeps url → t.Holds url) :
    ReloadInvariant t := by
  have hsucceeded : ∀ k, t.Succeeded k ↔ s.Succeeded k := by
    intro k
    unfold System.Succeeded
    rw [hdownloads]
  refine ⟨fun ht => ?_, fun ht d hd hbefore => ?_, ?_, ?_, fun ht => ?_⟩
  · have hold := h.mainQueue (hlive ▸ ht)
    rw [hqueue] at hold
    exact hold.serve hserve
  · have hold := h.handlers (hlive ▸ ht) d (hdownloads ▸ hd) hbefore
    rw [hqueue] at hold
    exact hold.serve hserve
  · rw [hreloads]
    exact h.nodup
  · intro k hk
    exact (hsucceeded k).mpr (h.succeeded k (hreloads ▸ hk))
  · intro k hk
    rw [hreloads]
    exact h.reloads (hlive ▸ ht) k ((hsucceeded k).mp hk)

theorem holds_keepImage
    {u url : String} (image : Image)
    (h : u ≠ url → s.Holds u) :
    (keepImage s url image).Holds u := by
  by_cases hu : u = url
  · subst hu
    exact ⟨image, keepImage_images_self ..⟩
  · unfold System.Holds
    rw [keepImage_images_of_ne s image hu]
    exact h hu

theorem reloadInvariant_keepImage
    (h : ReloadInvariant s) {block : MainBlock Image}
    {rest : List (MainBlock Image)} {url : String} {image : Image}
    (hqueue : s.mainQueue = block :: rest)
    (hentry : block.entry = some (url, image)) :
    ReloadInvariant (keepImage { s with mainQueue := rest } url image) := by
  have hblock : block.download = none := by
    cases block with
    | reloadRow download indexPath u => cases hentry
    | _ => rfl
  refine reloadInvariant_serve h hqueue rfl rfl ?_ ?_
  · simp [System.reloads, keepImage, hqueue, hblock]
  · intro u hu
    apply holds_keepImage
    intro huu
    rcases hu with hu | ⟨im, him⟩
    · exact hu
    · rw [hentry] at him
      cases him
      exact absurd rfl huu

/-- A reload that runs on a live service stays in the list of reloads. -/
theorem reloadInvariant_reloadRow
    (h : ReloadInvariant s) {download : Nat} {indexPath : IndexPath}
    {url : String} {rest : List (MainBlock Image)}
    (hqueue : s.mainQueue = .reloadRow download indexPath url :: rest) :
    ReloadInvariant
      { s with
        mainQueue := rest
        reloaded := s.reloaded ++ [download] } := by
  refine reloadInvariant_serve h hqueue rfl rfl ?_ ?_
  · simp [System.reloads, hqueue, MainBlock.download]
  · rintro u (hu | ⟨im, him⟩)
    · exact hu
    · cases him

/-- Without the service a block of the main queue goes away without a trace. -/
theorem reloadInvariant_dropBlock
    (h : ReloadInvariant s) {block : MainBlock Image}
    {rest : List (MainBlock Image)}
    (hqueue : s.mainQueue = block :: rest)
    (hdead : s.live = false) :
    ReloadInvariant { s with mainQueue := rest } := by
  have hsub : List.Sublist (System.reloads { s with mainQueue := rest })
      s.reloads := by
    apply List.Sublist.append_left
    rw [hqueue]
    exact (List.sublist_cons_self block rest).filterMap _
  exact reloadInvariant_dead hdead (h.nodup.sublist hsub)
    (fun k hk => h.succeeded k (hsub.subset hk))

end ReloadInvariant

section Steps

variable {Image : Type} {env : Environment Image} {s : System Image}

theorem reloadInvariant_runBlock
    (h : ReloadInvariant s) {block : MainBlock Image}
    {rest : List (MainBlock Image)}
    (hqueue : s.mainQueue = block :: rest) :
    ReloadInvariant (runBlock { s with mainQueue := rest } block) := by
  cases block with
  | keepCached url image =>
      exact reloadInvariant_keepImage h hqueue rfl
  | keepLoaded url image =>
      simp only [runBlock]
      split
      · exact reloadInvariant_keepImage h hqueue rfl
      next hdead =>
        exact reloadInvariant_dropBlock h hqueue (by simpa using hdead)
  | reloadRow download indexPath url =>
      simp only [runBlock]
      split
      · exact reloadInvariant_reloadRow h hqueue
      next hdead =>
        exact reloadInvariant_dropBlock h hqueue (by simpa using hdead)

/-- A new download waits for its data. -/
theorem reloadInvariant_photoLoads
    (h : ReloadInvariant s) (indexPath : IndexPath) (url : String) :
    ReloadInvariant
      { s with
        downloads := s.downloads ++
          [{ indexPath := indexPath, url := url, point := .requested }] } := by
  have hsucceeded : ∀ k, System.Succeeded
      { s with
        downloads := s.downloads ++
          [{ indexPath := indexPath, url := url, point := .requested }] } k
        ↔
      s.Succeeded k := by
    intro k
    unfold System.Succeeded
    simp only [List.getElem?_append]
    split
    next => rfl
    next hk =>
      have hnone : s.downloads[k]? = none :=
        List.getElem?_eq_none (Nat.le_of_not_lt hk)
      simp only [hnone]
      constructor
      · rintro ⟨d, hd, hdone⟩
        rw [List.mem_singleton.mp (List.mem_of_getElem? hd)] at hdone
        cases hdone
      · rintro ⟨d, hd, _⟩
        cases hd
  refine ⟨h.mainQueue, fun hlive d hd hbefore => ?_, h.nodup, ?_, ?_⟩
  · rcases List.mem_append.mp hd with hd | hd
    · exact h.handlers hlive d hd hbefore
    · rw [List.mem_singleton.mp hd] at hbefore
      cases hbefore
  · intro k hk
    exact (hsucceeded k).mpr (h.succeeded k hk)
  · intro hlive k hk
    exact h.reloads hlive k ((hsucceeded k).mp hk)

theorem reloadInvariant_step
    {s : System Image} {a : Action} {t : System Image}
    (h : ReloadInvariant s)
    (hstep : step env s a = some t) :
    ReloadInvariant t := by
  cases effect_of_step hstep with
  | photoFound hlive hfound => exact h
  | photoCached hlive hmiss hcache => exact reloadInvariant_enqueue h rfl
  | photoLoads hlive hmiss hurl => exact reloadInvariant_photoLoads h _ _
  | fails hd hpoint =>
      exact reloadInvariant_setPoint h hd (by simp [hpoint]) (by simp)
        (fun _ hbefore => hbefore.elim)
  | @receives download d image hd hpoint hserve =>
      have hmoved : ReloadInvariant (s.setPoint download (.received image)) :=
        reloadInvariant_setPoint h hd (by simp [hpoint]) (by simp)
          (fun _ hbefore => hbefore.elim)
      exact reloadInvariant_of_files hmoved s.disk _
  | @queuesImage download d image hd hpoint =>
      have hqueued : ReloadInvariant (s.enqueue (.keepLoaded d.url image)) :=
        reloadInvariant_enqueue h rfl
      refine reloadInvariant_setPoint hqueued hd (by simp [hpoint])
        (by simp) ?_
      intro _ _
      exact provided_concat_self ⟨image, rfl⟩
  | @savesImage download d image written now hd hpoint =>
      obtain ⟨disk, hdisk⟩ :=
        saveImageToCache_frame env s d.url image written now
      have hsaved := reloadInvariant_of_files h disk s.downloaded
      rw [hdisk]
      refine reloadInvariant_setPoint hsaved hd (by simp [hpoint])
        (by simp) ?_
      intro hlive _
      refine h.handlers hlive d (List.mem_of_getElem? hd) ?_
      rw [hpoint]
      trivial
  | queuesReload hd hpoint => exact reloadInvariant_queuesReload h hd hpoint
  | runsBlock hqueue => exact reloadInvariant_runBlock h hqueue
  | deallocates hfree => exact reloadInvariant_dead rfl h.nodup h.succeeded
  | restarts =>
      exact reloadInvariant_of_files reloadInvariant_initial s.disk _

/-- The service is neither deallocated nor ended with its process. -/
def Action.KeepsService : Action → Prop
  | .deallocate => False
  | .restart => False
  | _ => True

/-- What the steps of a service that stays cannot take back. -/
structure Continues (s t : System Image) : Prop where
  live : t.live = s.live
  holds : ∀ url, s.Holds url → t.Holds url
  reloaded : ∀ download, download ∈ s.reloaded → download ∈ t.reloaded

theorem Continues.refl (s : System Image) : Continues s s :=
  ⟨rfl, fun _ h => h, fun _ h => h⟩

theorem Continues.trans
    {s t u : System Image}
    (h : Continues s t) (h' : Continues t u) :
    Continues s u where
  live := h'.live.trans h.live
  holds url hurl := h'.holds url (h.holds url hurl)
  reloaded k hk := h'.reloaded k (h.reloaded k hk)

theorem continues_keepImage
    (s : System Image) (url : String) (image : Image) :
    Continues s (keepImage s url image) where
  live := rfl
  holds _ hu := holds_keepImage image fun _ => hu
  reloaded _ hk := hk

theorem continues_runBlock
    (s : System Image) (block : MainBlock Image) :
    Continues s (runBlock s block) := by
  cases block with
  | keepCached url image => exact continues_keepImage s url image
  | keepLoaded url image =>
      simp only [runBlock]
      split
      · exact continues_keepImage s url image
      · exact .refl s
  | reloadRow download indexPath url =>
      simp only [runBlock]
      split
      · exact ⟨rfl, fun _ h => h, fun _ h => List.mem_append_left _ h⟩
      · exact .refl s

@[simp] theorem runBlock_mainQueue
    (s : System Image) (block : MainBlock Image) :
    (runBlock s block).mainQueue = s.mainQueue := by
  cases block with
  | keepCached url image => rfl
  | _ =>
      simp only [runBlock]
      split <;> rfl

theorem continues_step
    {s : System Image} {a : Action} {t : System Image}
    (ha : a.KeepsService)
    (hstep : step env s a = some t) :
    Continues s t := by
  cases effect_of_step hstep with
  | @savesImage download d image written now hd hpoint =>
      obtain ⟨disk, hdisk⟩ :=
        saveImageToCache_frame env s d.url image written now
      rw [hdisk]
      exact ⟨rfl, fun _ h => h, fun _ h => h⟩
  | @runsBlock block rest hqueue =>
      have hrest : Continues s { s with mainQueue := rest } :=
        ⟨rfl, fun _ h => h, fun _ h => h⟩
      exact hrest.trans (continues_runBlock _ block)
  | deallocates hfree => exact ha.elim
  | restarts => exact ha.elim
  | _ => exact ⟨rfl, fun _ h => h, fun _ h => h⟩

/-- The main queue runs its first block. -/
theorem step_mainQueueRuns
    {s t : System Image}
    (hstep : step env s .mainQueueRuns = some t) :
    ∃ block, s.mainQueue = block :: t.mainQueue ∧
      t = runBlock { s with mainQueue := t.mainQueue } block := by
  cases effect_of_step hstep with
  | @runsBlock block rest hqueue =>
      refine ⟨block, ?_, ?_⟩ <;> rw [runBlock_mainQueue]
      exact hqueue

/-- Every other step may only enqueue. -/
theorem mainQueue_step
    {s : System Image} {a : Action} {t : System Image}
    (ha : a.KeepsService)
    (hother : a ≠ .mainQueueRuns)
    (hstep : step env s a = some t) :
    ∃ new, t.mainQueue = s.mainQueue ++ new := by
  cases effect_of_step hstep with
  | @savesImage download d image written now hd hpoint =>
      obtain ⟨disk, hdisk⟩ :=
        saveImageToCache_frame env s d.url image written now
      rw [hdisk]
      exact ⟨[], (List.append_nil _).symm⟩
  | runsBlock hqueue => exact absurd rfl hother
  | deallocates hfree => exact ha.elim
  | restarts => exact ha.elim
  | photoCached hlive hmiss hcache => exact ⟨_, rfl⟩
  | queuesImage hd hpoint => exact ⟨_, rfl⟩
  | queuesReload hd hpoint => exact ⟨_, rfl⟩
  | _ => exact ⟨[], (List.append_nil _).symm⟩

end Steps

section Reloads

variable {Image : Type} (env : Environment Image)

/-- One step, with what the URLs serve at that time. -/
def servingStep
    (s : System Image) (a : (String → Data) × Action) : Option (System Image) :=
  step { env with serve := a.1 } s a.2

/-- What the handler of a successful download still has to do. -/
def DownloadPoint.remaining
    (download : Nat) (written : Bool) (now : TimeInterval) :
    DownloadPoint Image → List Action
  | .received _ =>
      [.queueImage download, .saveImage download written now,
        .queueReload download]
  | .imageQueued _ => [.saveImage download written now, .queueReload download]
  | .saved _ => [.queueReload download]
  | _ => []

/-- What holds of the reloads in a state of the service. -/
structure ReloadsServed (s : System Image) : Prop where
  /-- The photo is in memory when the block of its reload runs. -/
  inMemory : ∀ download indexPath url rest, s.live = true →
    s.mainQueue = .reloadRow download indexPath url :: rest →
      ∃ image, s.images url = some image
  /-- From that reload on, `photo` finds it there and changes nothing. -/
  answered : ∀ download indexPath url rest, s.live = true →
    s.mainQueue = .reloadRow download indexPath url :: rest →
      ∀ as t, (∀ a ∈ as, a.2.KeepsService) →
        run (servingStep env)
          (runBlock { s with mainQueue := rest }
            (.reloadRow download indexPath url)) as = some t →
          ∃ image, ∀ indexPath' now,
            photo env t indexPath' url now = (some image, t)
  atMostOnce : ∀ download, s.reloaded.count download ≤ 1
  onlySucceeded : ∀ download ∈ s.reloaded, s.Succeeded download
  exactlyOnce : ∀ download, s.live = true → s.Succeeded download →
    (∀ block ∈ s.mainQueue, block.download ≠ some download) →
      s.reloaded.count download = 1
  /-- A handler that has an image can always run to its end. -/
  finishes : ∀ download d image written now,
    s.downloads[download]? = some d → d.point.image = some image →
      ∃ t, run (step env) s (d.point.remaining download written now) = some t ∧
        t.live = s.live ∧ t.Succeeded download
  /-- Then its reload has run once the blocks of the main queue have. -/
  eventually : ∀ download as t, s.live = true → s.Succeeded download →
    (∀ a ∈ as, a.2.KeepsService) → run (servingStep env) s as = some t →
      s.mainQueue.length ≤ as.countP (fun a => a.2 = .mainQueueRuns) →
        t.reloaded.count download = 1

variable {env}

theorem photo_of_holds
    {s : System Image} {url : String}
    (h : s.Holds url) :
    ∃ image, ∀ indexPath now,
      photo env s indexPath url now = (some image, s) := by
  obtain ⟨image, himage⟩ := h
  refine ⟨image, fun indexPath now => ?_⟩
  unfold photo
  rw [himage]

theorem reloadInvariant_run
    {s t : System Image} {as : List ((String → Data) × Action)}
    (h : ReloadInvariant s)
    (hrun : run (servingStep env) s as = some t) :
    ReloadInvariant t :=
  run_invariant (fun _ _ _ hs hstep => reloadInvariant_step hs hstep) h hrun

theorem continues_run
    {s t : System Image} {as : List ((String → Data) × Action)}
    (has : ∀ a ∈ as, a.2.KeepsService)
    (hrun : run (servingStep env) s as = some t) :
    Continues s t :=
  run_invariant_of_forall_mem
    (fun _ _ _ hs ha hstep => hs.trans (continues_step ha hstep))
    (.refl s) has hrun

/-- The reload of a live service finds the photo. -/
theorem ReloadInvariant.holds
    {s : System Image} (h : ReloadInvariant s)
    {download : Nat} {indexPath : IndexPath} {url : String}
    {rest : List (MainBlock Image)}
    (hlive : s.live = true)
    (hqueue : s.mainQueue = .reloadRow download indexPath url :: rest) :
    s.Holds url := by
  have hall := h.mainQueue hlive
  rw [hqueue] at hall
  exact hall.head rfl

/-- A download that succeeded has been reloaded or is about to be. -/
theorem ReloadInvariant.reloaded_or_queued
    {s : System Image} (h : ReloadInvariant s) {download : Nat}
    (hlive : s.live = true)
    (hsucceeded : s.Succeeded download) :
    download ∈ s.reloaded ∨
    ∃ indexPath url, .reloadRow download indexPath url ∈ s.mainQueue := by
  rcases List.mem_append.mp (h.reloads hlive download hsucceeded) with
    hdone | hqueued
  · exact Or.inl hdone
  · right
    obtain ⟨block, hblock, hdownload⟩ := List.mem_filterMap.mp hqueued
    cases block with
    | reloadRow k indexPath url =>
        cases hdownload
        exact ⟨indexPath, url, hblock⟩
    | _ => cases hdownload

theorem ReloadInvariant.count_eq_one
    {s : System Image} (h : ReloadInvariant s) {download : Nat}
    (hmem : download ∈ s.reloaded) :
    s.reloaded.count download = 1 :=
  List.count_eq_one_of_mem (List.Nodup.of_append_left h.nodup) hmem

/-- A reload on the queue runs after the blocks in front of it. -/
theorem mem_reloaded_of_queued
    {s t : System Image} {as : List ((String → Data) × Action)}
    {download : Nat} {indexPath : IndexPath} {url : String}
    (hlive : s.live = true)
    (has : ∀ a ∈ as, a.2.KeepsService)
    (hrun : run (servingStep env) s as = some t)
    (hmem : .reloadRow download indexPath url ∈ s.mainQueue)
    (hcount : s.mainQueue.length ≤
      as.countP (fun a => a.2 = .mainQueueRuns)) :
    download ∈ t.reloaded := by
  obtain ⟨front, back, hsplit⟩ := List.append_of_mem hmem
  have hfront : front.length < as.countP (fun a => a.2 = .mainQueueRuns) := by
    rw [hsplit, List.length_append, List.length_cons] at hcount
    omega
  have hlive' : t.live = true := (continues_run has hrun).live.trans hlive
  refine run_served System.mainQueue
    (G := fun a => a.2.KeepsService)
    (Q := fun u : System Image => u.live = true → download ∈ u.reloaded)
    ?_ ?_ ?_ has hrun hsplit hfront hlive'
  · intro u a v ha hserves hstep
    have hruns : a.2 = .mainQueueRuns := by simpa using hserves
    unfold servingStep at hstep
    rw [hruns] at hstep
    obtain ⟨block, hqueue, hv⟩ := step_mainQueueRuns hstep
    refine ⟨block, hqueue, ?_⟩
    rintro rfl hvlive
    have hulive : u.live = true := by
      rw [hv, (continues_runBlock _ _).live] at hvlive
      exact hvlive
    rw [hv]
    simp [runBlock, hulive]
  · intro u a v ha hserves hstep
    exact mainQueue_step ha (by simpa using hserves) hstep
  · intro u a v ha hu hstep hvlive
    have hnext := continues_step ha hstep
    exact hnext.reloaded download (hu (hnext.live ▸ hvlive))

theorem getElem?_setPoint_self
    {s : System Image} {download : Nat} {d : Download Image}
    (point : DownloadPoint Image)
    (hd : s.downloads[download]? = some d) :
    (s.setPoint download point).downloads[download]? =
      some { d with point := point } := by
  simp [System.setPoint, hd]

theorem finishes_saved
    {s : System Image} {download : Nat} {d : Download Image} {image : Image}
    (hd : s.downloads[download]? = some d)
    (hpoint : d.point = .saved image) :
    ∃ t, run (step env) s [.queueReload download] = some t ∧
      t.live = s.live ∧ t.Succeeded download := by
  have hstep : step env s (.queueReload download) =
      some ((s.setPoint download (.done true)).enqueue
        (.reloadRow download d.indexPath d.url)) := by
    simp only [step, hd, handlerStep, hpoint]
  exact ⟨_, run_cons_some.mpr ⟨_, hstep, rfl⟩, rfl, _,
    getElem?_setPoint_self (.done true) hd, rfl⟩

theorem finishes_imageQueued
    {s : System Image} {download : Nat} {d : Download Image} {image : Image}
    (written : Bool) (now : TimeInterval)
    (hd : s.downloads[download]? = some d)
    (hpoint : d.point = .imageQueued image) :
    ∃ t, run (step env) s
        [.saveImage download written now, .queueReload download] = some t ∧
      t.live = s.live ∧ t.Succeeded download := by
  have hstep : step env s (.saveImage download written now) =
      some ((saveImageToCache env s d.url image written now).setPoint
        download (.saved image)) := by
    simp only [step, hd, handlerStep, hpoint]
  obtain ⟨disk, hdisk⟩ := saveImageToCache_frame env s d.url image written now
  rw [hdisk] at hstep
  obtain ⟨t, hrun, hlive, hsucceeded⟩ :=
    finishes_saved (getElem?_setPoint_self
      (s := { s with disk := disk }) (.saved image) hd) rfl
  exact ⟨t, run_cons_some.mpr ⟨_, hstep, hrun⟩, hlive, hsucceeded⟩

theorem finishes_received
    {s : System Image} {download : Nat} {d : Download Image} {image : Image}
    (written : Bool) (now : TimeInterval)
    (hd : s.downloads[download]? = some d)
    (hpoint : d.point = .received image) :
    ∃ t, run (step env) s
        [.queueImage download, .saveImage download written now,
          .queueReload download] = some t ∧
      t.live = s.live ∧ t.Succeeded download := by
  have hstep : step env s (.queueImage download) =
      some ((s.setPoint download (.imageQueued image)).enqueue
        (.keepLoaded d.url image)) := by
    simp only [step, hd, handlerStep, hpoint]
  obtain ⟨t, hrun, hlive, hsucceeded⟩ :=
    finishes_imageQueued written now
      (getElem?_setPoint_self (s := s.enqueue (.keepLoaded d.url image))
        (.imageQueued image) hd) rfl
  exact ⟨t, run_cons_some.mpr ⟨_, hstep, hrun⟩, hlive, hsucceeded⟩

theorem finishes_remaining
    {s : System Image} {download : Nat} {d : Download Image} {image : Image}
    (written : Bool) (now : TimeInterval)
    (hd : s.downloads[download]? = some d)
    (himage : d.point.image = some image) :
    ∃ t, run (step env) s (d.point.remaining download written now) = some t ∧
      t.live = s.live ∧ t.Succeeded download := by
  cases hpoint : d.point with
  | received im => exact finishes_received written now hd hpoint
  | imageQueued im => exact finishes_imageQueued written now hd hpoint
  | saved im => exact finishes_saved hd hpoint
  | requested =>
      rw [hpoint] at himage
      cases himage
  | done succeeded =>
      rw [hpoint] at himage
      cases himage

/-- The invariant is enough for all of it. -/
theorem ReloadInvariant.reloadsServed
    {s : System Image} (h : ReloadInvariant s) :
    ReloadsServed env s where
  inMemory download indexPath url rest hlive hqueue := h.holds hlive hqueue
  answered download indexPath url rest hlive hqueue bs t hbs ht := by
    have hholds : System.Holds { s with mainQueue := rest } url :=
      h.holds hlive hqueue
    have hblock := continues_runBlock { s with mainQueue := rest }
      (.reloadRow download indexPath url)
    exact photo_of_holds
      ((continues_run hbs ht).holds url (hblock.holds url hholds))
  atMostOnce download :=
    List.nodup_iff_count_le_one.mp
      (List.Nodup.of_append_left h.nodup) download
  onlySucceeded download hmem :=
    h.succeeded download (List.mem_append_left _ hmem)
  exactlyOnce download hlive hsucceeded hnone := by
    rcases h.reloaded_or_queued hlive hsucceeded with
      hdone | ⟨indexPath, url, hmem⟩
    · exact h.count_eq_one hdone
    · exact absurd rfl (hnone _ hmem)
  finishes download d image written now hd himage :=
    finishes_remaining written now hd himage
  eventually download bs t hlive hsucceeded hbs ht hcount := by
    have ht' : ReloadInvariant t := reloadInvariant_run h ht
    rcases h.reloaded_or_queued hlive hsucceeded with
      hdone | ⟨indexPath, url, hmem⟩
    · exact ht'.count_eq_one ((continues_run hbs ht).reloaded download hdone)
    · exact ht'.count_eq_one
        (mem_reloaded_of_queued hlive hbs ht hmem hcount)

/-- The app has been started over these files. -/
def System.launched (disk : Disk) : System Image :=
  { System.initial with disk := disk }

theorem reloadInvariant_launched (disk : Disk) :
    ReloadInvariant (System.launched disk : System Image) :=
  reloadInvariant_of_files reloadInvariant_initial disk []

/-- **A reload finds its photo in memory, and there is one reload for each
download that succeeds.** -/
theorem reloadsServed_of_run
    (env : Environment Image) {disk : Disk}
    {as : List ((String → Data) × Action)} {s : System Image}
    (hrun : run (servingStep env) (System.launched disk) as = some s) :
    ReloadsServed env s :=
  (reloadInvariant_run (reloadInvariant_launched disk) hrun).reloadsServed

/-- Two downloads of one photo overlap, and the answer of the server changes. -/
def overlappingDownloads : List ((String → Data) × Action) :=
  [(fun _ => [1], .photo ⟨0, 0⟩ "https://a.b/c.png" 0),
    (fun _ => [1], .photo ⟨0, 1⟩ "https://a.b/c.png" 0),
    (fun _ => [1], .completes 1 true),
    (fun _ => [2], .completes 0 true),
    (fun _ => [2], .queueImage 1),
    (fun _ => [2], .queueImage 0),
    (fun _ => [2], .saveImage 0 true 5),
    (fun _ => [2], .queueReload 0),
    (fun _ => [2], .mainQueueRuns),
    (fun _ => [2], .mainQueueRuns)]

theorem reloadsServed_overlappingDownloads :
    ∃ s, run (servingStep ownPhotos) (System.launched fun _ => none)
        overlappingDownloads = some s ∧
      ReloadsServed ownPhotos s := by
  have hrun : ∃ s, run (servingStep ownPhotos)
      (System.launched fun _ => none) overlappingDownloads = some s :=
    ⟨_, rfl⟩
  obtain ⟨s, hs⟩ := hrun
  exact ⟨s, hs, reloadsServed_of_run ownPhotos hs⟩

end Reloads

end Photos
end NotVK
