import Mathlib.Data.List.Basic
import NotVK.App.URLSession

/-!
# ImageService

The photo cache has two levels.  The dictionary `images` is keyed by the whole
URL; a file in the `images` directory is named after the last nonempty component
of the URL.  A photo that is found on the disk is copied into `images`, and a
photo that is found nowhere is downloaded, put into `images`, written to the
disk, and its row is reloaded.

`photo(atIndexpath:byUrl:)` and the blocks of the main queue run on the main
thread, each as one step.  The completion handler of a download runs on another
thread and has three steps after the data has arrived: it enqueues the
assignment to `images`, writes the file, and enqueues the reload.
-/

namespace NotVK
namespace Photos

open Networking

section Environment

/-- What the service relies on of Foundation, UIKit and the network. -/
structure Environment (Image : Type) where
  /-- The first URL of `urls(for: .cachesDirectory, in: .userDomainMask)`. -/
  cachesDirectory : Option String
  /-- `URL(string:)` is not nil. -/
  isURL : String → Bool
  /-- Data that a URL serves, always the same. -/
  serve : String → Data
  /-- `UIImage(data:)`, and `UIImage(contentsOfFile:)` on the file's contents. -/
  uiImage : Data → Option Image
  pngData : Image → Option Data
  /-- `createFile(atPath:contents:)` can succeed at this path. -/
  creatable : String → Bool
  uiImage_pngData : ∀ image data,
    pngData image = some data → uiImage data = some image

variable {Image : Type} (env : Environment Image)

/-- `url.split(separator: "/")`, which omits empty components. -/
def pathComponents (url : String) : List (List Char) :=
  (url.toList.splitOn '/').filter (fun component => component ≠ [])

/-- `url.split(separator: "/").last ?? "default"`. -/
def hashName (url : String) : String :=
  match (pathComponents url).getLast? with
  | some component => String.ofList component
  | none => "default"

/-- `ImageService.pathName`. -/
def pathName : String := "images"

def getFilePath (url : String) : Option String :=
  match env.cachesDirectory with
  | none => none
  | some cachesDirectory =>
      some (cachesDirectory ++ "/" ++ (pathName ++ "/" ++ hashName url))

/-- Seconds, as in `TimeInterval`. -/
abbrev TimeInterval := Int

def cacheLifeTime : TimeInterval := 30 * 24 * 60 * 60

structure File where
  contents : Data
  modificationDate : TimeInterval
deriving DecidableEq

/-- Files of the caches directory by path. -/
abbrev Disk := String → Option File

/-- The file that `saveImageToCache(url:image:)` writes: its path and contents. -/
def fileToSave (url : String) (image : Image) : Option (String × Data) :=
  match getFilePath env url, env.pngData image with
  | some fileName, some data => some (fileName, data)
  | _, _ => none

/-- `getImageFromCache(url:)` at time `now`, less the block it enqueues. -/
def imageFromCache (disk : Disk) (now : TimeInterval) (url : String) :
    Option Image :=
  match getFilePath env url with
  | none => none
  | some fileName =>
      match disk fileName with
      | none => none
      | some info =>
          let lifeTime := now - info.modificationDate
          if lifeTime ≤ cacheLifeTime then env.uiImage info.contents else none

end Environment

section ImageService

structure IndexPath where
  inSection : Int
  row : Int
deriving DecidableEq

/-- Point reached by the task of a `loadPhoto` call and its handler. -/
inductive DownloadPoint (Image : Type) where
  | requested
  | received (image : Image)
  | imageQueued (image : Image)
  | saved (image : Image)
  | done (succeeded : Bool)

structure Download (Image : Type) where
  indexPath : IndexPath
  url : String
  point : DownloadPoint Image

/-- A block on the main queue. -/
inductive MainBlock (Image : Type) where
  /-- `self.images[url] = image`, from `getImageFromCache`. -/
  | keepCached (url : String) (image : Image)
  /-- `self?.images[url] = image`, from `loadPhoto`. -/
  | keepLoaded (url : String) (image : Image)
  /-- `self?.container.reloadRow(atIndexpath:)`, for the numbered download. -/
  | reloadRow (download : Nat) (indexPath : IndexPath) (url : String)

structure System (Image : Type) where
  /-- The service has not been deallocated. -/
  live : Bool
  images : String → Option Image
  disk : Disk
  /-- First in, first out. -/
  mainQueue : List (MainBlock Image)
  /-- Downloads since the start of the app, numbered by position. -/
  downloads : List (Download Image)
  /-- Downloads for which `reloadRow` has been called. -/
  reloaded : List Nat
  /-- Images that have arrived, each with the URL it was requested by. -/
  downloaded : List (String × Image)

def System.initial {Image : Type} : System Image where
  live := true
  images := fun _ => none
  disk := fun _ => none
  mainQueue := []
  downloads := []
  reloaded := []
  downloaded := []

inductive Action where
  | photo (indexPath : IndexPath) (url : String) (now : TimeInterval)
  | completes (download : Nat) (success : Bool)
  | queueImage (download : Nat)
  | saveImage (download : Nat) (written : Bool) (now : TimeInterval)
  | queueReload (download : Nat)
  | mainQueueRuns
  | deallocate
  | restart
deriving DecidableEq

variable {Image : Type} (env : Environment Image)

def System.enqueue
    (s : System Image) (block : MainBlock Image) : System Image :=
  { s with mainQueue := s.mainQueue ++ [block] }

/-- Move the handler of a download to its next point. -/
def System.setPoint
    (s : System Image) (download : Nat) (point : DownloadPoint Image) :
    System Image :=
  { s with
    downloads := s.downloads.modify download
      (fun d => { d with point := point }) }

/-- A download after the move is an old one or the one that moved. -/
theorem mem_setPoint
    {s : System Image} {download : Nat} {point : DownloadPoint Image}
    {d' : Download Image}
    (hd' : d' ∈ (s.setPoint download point).downloads) :
    d' ∈ s.downloads ∨
    ∃ d, s.downloads[download]? = some d ∧ d' = { d with point := point } := by
  obtain ⟨k, hk⟩ := List.mem_iff_getElem?.mp hd'
  simp only [System.setPoint, List.getElem?_modify] at hk
  obtain ⟨d, hd, rfl⟩ := Option.map_eq_some_iff.mp hk
  by_cases hdk : download = k
  · subst hdk
    exact Or.inr ⟨d, hd, by simp⟩
  · left
    simp only [hdk, if_false]
    exact List.mem_of_getElem? hd

def loadPhoto
    (s : System Image) (indexPath : IndexPath) (url : String) : System Image :=
  if env.isURL url then
    { s with
      downloads := s.downloads ++
        [{ indexPath := indexPath, url := url, point := .requested }] }
  else s

/-- The image that `photo(atIndexpath:byUrl:)` returns, and the state after. -/
def photo
    (s : System Image) (indexPath : IndexPath) (url : String)
    (now : TimeInterval) : Option Image × System Image :=
  match s.images url with
  | some photo => (some photo, s)
  | none =>
      match imageFromCache env s.disk now url with
      | some photo => (some photo, s.enqueue (.keepCached url photo))
      | none => (none, loadPhoto env s indexPath url)

def keepImage
    (s : System Image) (url : String) (image : Image) : System Image :=
  { s with images := Function.update s.images url (some image) }

@[simp] theorem keepImage_images_self
    (s : System Image) (url : String) (image : Image) :
    (keepImage s url image).images url = some image :=
  Function.update_self ..

theorem keepImage_images_of_ne
    (s : System Image) {u url : String} (image : Image) (hu : u ≠ url) :
    (keepImage s url image).images u = s.images u :=
  Function.update_of_ne hu ..

/-- Run one block of the main queue; a weak `self` may be nil by then. -/
def runBlock (s : System Image) : MainBlock Image → System Image
  | .keepCached url image => keepImage s url image
  | .keepLoaded url image => if s.live then keepImage s url image else s
  | .reloadRow download _ _ =>
      if s.live then { s with reloaded := s.reloaded ++ [download] } else s

/-- The block holds the service strongly. -/
def MainBlock.holdsSelf : MainBlock Image → Bool
  | .keepCached _ _ => true
  | _ => false

/-- The data of a download has arrived, or its task has failed. -/
def complete
    (s : System Image) (download : Nat) (d : Download Image) (success : Bool) :
    System Image :=
  if success then
    match env.uiImage (env.serve d.url) with
    | some image =>
        { s.setPoint download (.received image) with
          downloaded := s.downloaded ++ [(d.url, image)] }
    | none => s.setPoint download (.done false)
  else s.setPoint download (.done false)

/-- `createFile(atPath:contents:)` at time `now`. -/
def writeFile
    (s : System Image) (fileName : String) (data : Data)
    (now : TimeInterval) : System Image :=
  { s with disk := Function.update s.disk fileName (some ⟨data, now⟩) }

@[simp] theorem writeFile_disk_self
    (s : System Image) (fileName : String) (data : Data)
    (now : TimeInterval) :
    (writeFile s fileName data now).disk fileName = some ⟨data, now⟩ :=
  Function.update_self ..

theorem writeFile_disk_of_ne
    (s : System Image) {path fileName : String} (data : Data)
    (now : TimeInterval) (hpath : path ≠ fileName) :
    (writeFile s fileName data now).disk path = s.disk path :=
  Function.update_of_ne hpath ..

/-- `self?.saveImageToCache(url:image:)`; `createFile` may fail. -/
def saveImageToCache
    (s : System Image) (url : String) (image : Image) (written : Bool)
    (now : TimeInterval) : System Image :=
  match fileToSave env url image with
  | none => s
  | some (fileName, data) =>
      if s.live && written && env.creatable fileName then
        writeFile s fileName data now
      else s

/-- The file is all that `saveImageToCache` changes. -/
theorem saveImageToCache_frame
    (s : System Image) (url : String) (image : Image) (written : Bool)
    (now : TimeInterval) :
    ∃ disk, saveImageToCache env s url image written now =
      { s with disk := disk } := by
  unfold saveImageToCache
  split
  · exact ⟨s.disk, rfl⟩
  · split
    · exact ⟨_, rfl⟩
    · exact ⟨s.disk, rfl⟩

@[simp] theorem saveImageToCache_downloads
    (s : System Image) (url : String) (image : Image) (written : Bool)
    (now : TimeInterval) :
    (saveImageToCache env s url image written now).downloads = s.downloads := by
  obtain ⟨disk, hdisk⟩ := saveImageToCache_frame env s url image written now
  rw [hdisk]

@[simp] theorem saveImageToCache_downloaded
    (s : System Image) (url : String) (image : Image) (written : Bool)
    (now : TimeInterval) :
    (saveImageToCache env s url image written now).downloaded =
      s.downloaded := by
  obtain ⟨disk, hdisk⟩ := saveImageToCache_frame env s url image written now
  rw [hdisk]

/-- One step of the completion handler of a download. -/
def handlerStep
    (s : System Image) (download : Nat) (d : Download Image) :
    Action → Option (System Image)
  | .completes _ success =>
      match d.point with
      | .requested => some (complete env s download d success)
      | _ => none
  | .queueImage _ =>
      match d.point with
      | .received image =>
          some ((s.setPoint download (.imageQueued image)).enqueue
            (.keepLoaded d.url image))
      | _ => none
  | .saveImage _ written now =>
      match d.point with
      | .imageQueued image =>
          some ((saveImageToCache env s d.url image written now).setPoint
            download (.saved image))
      | _ => none
  | .queueReload _ =>
      match d.point with
      | .saved _ =>
          some ((s.setPoint download (.done true)).enqueue
            (.reloadRow download d.indexPath d.url))
      | _ => none
  | _ => none

/-- The process ends and the app is started again; the files stay. -/
def System.restart (s : System Image) : System Image :=
  { System.initial with disk := s.disk, downloaded := s.downloaded }

def step (s : System Image) (a : Action) : Option (System Image) :=
  match a with
  | .photo indexPath url now =>
      if s.live then some (photo env s indexPath url now).2 else none
  | .completes download _ | .queueImage download
  | .saveImage download _ _ | .queueReload download =>
      match s.downloads[download]? with
      | some d => handlerStep env s download d a
      | none => none
  | .mainQueueRuns =>
      match s.mainQueue with
      | block :: rest => some (runBlock { s with mainQueue := rest } block)
      | [] => none
  | .deallocate =>
      if s.mainQueue.any MainBlock.holdsSelf then none
      else some { s with live := false }
  | .restart => some s.restart

/-- What a step does, with what has to hold for it. -/
inductive Effect (s : System Image) : Action → System Image → Prop
  | photoFound
      {indexPath : IndexPath} {url : String} {now : TimeInterval}
      (hlive : s.live = true)
      (hfound : s.images url ≠ none ∨ env.isURL url = false) :
      Effect s (.photo indexPath url now) s
  | photoCached
      {indexPath : IndexPath} {url : String} {now : TimeInterval}
      {image : Image}
      (hlive : s.live = true)
      (hmiss : s.images url = none)
      (hcache : imageFromCache env s.disk now url = some image) :
      Effect s (.photo indexPath url now) (s.enqueue (.keepCached url image))
  | photoLoads
      {indexPath : IndexPath} {url : String} {now : TimeInterval}
      (hlive : s.live = true)
      (hmiss : s.images url = none)
      (hurl : env.isURL url = true) :
      Effect s (.photo indexPath url now)
        { s with
          downloads := s.downloads ++
            [{ indexPath := indexPath, url := url, point := .requested }] }
  | fails
      {download : Nat} {d : Download Image} {success : Bool}
      (hd : s.downloads[download]? = some d)
      (hpoint : d.point = .requested) :
      Effect s (.completes download success)
        (s.setPoint download (.done false))
  | receives
      {download : Nat} {d : Download Image} {image : Image}
      (hd : s.downloads[download]? = some d)
      (hpoint : d.point = .requested)
      (hserve : env.uiImage (env.serve d.url) = some image) :
      Effect s (.completes download true)
        { s.setPoint download (.received image) with
          downloaded := s.downloaded ++ [(d.url, image)] }
  | queuesImage
      {download : Nat} {d : Download Image} {image : Image}
      (hd : s.downloads[download]? = some d)
      (hpoint : d.point = .received image) :
      Effect s (.queueImage download)
        ((s.setPoint download (.imageQueued image)).enqueue
          (.keepLoaded d.url image))
  | savesImage
      {download : Nat} {d : Download Image} {image : Image}
      {written : Bool} {now : TimeInterval}
      (hd : s.downloads[download]? = some d)
      (hpoint : d.point = .imageQueued image) :
      Effect s (.saveImage download written now)
        ((saveImageToCache env s d.url image written now).setPoint
          download (.saved image))
  | queuesReload
      {download : Nat} {d : Download Image} {image : Image}
      (hd : s.downloads[download]? = some d)
      (hpoint : d.point = .saved image) :
      Effect s (.queueReload download)
        ((s.setPoint download (.done true)).enqueue
          (.reloadRow download d.indexPath d.url))
  | runsBlock
      {block : MainBlock Image} {rest : List (MainBlock Image)}
      (hqueue : s.mainQueue = block :: rest) :
      Effect s .mainQueueRuns (runBlock { s with mainQueue := rest } block)
  | deallocates
      (hfree : s.mainQueue.any MainBlock.holdsSelf = false) :
      Effect s .deallocate { s with live := false }
  | restarts :
      Effect s .restart s.restart

variable {env}

theorem effect_photo
    {s : System Image} (indexPath : IndexPath) (url : String)
    (now : TimeInterval)
    (hlive : s.live = true) :
    Effect env s (.photo indexPath url now)
      (photo env s indexPath url now).2 := by
  unfold photo
  split
  next image himage =>
    exact .photoFound hlive (Or.inl (by simp [himage]))
  next hmiss =>
    split
    next image hcache => exact .photoCached hlive hmiss hcache
    next =>
      unfold loadPhoto
      split
      next hurl => exact .photoLoads hlive hmiss hurl
      next hurl => exact .photoFound hlive (Or.inr (by simpa using hurl))

theorem effect_complete
    {s : System Image} {download : Nat} {d : Download Image}
    (hd : s.downloads[download]? = some d)
    (hpoint : d.point = .requested) (success : Bool) :
    Effect env s (.completes download success)
      (complete env s download d success) := by
  unfold complete
  split
  next hsuccess =>
    subst hsuccess
    split
    next image hserve => exact .receives hd hpoint hserve
    next => exact .fails hd hpoint
  next => exact .fails hd hpoint

/-- **The effects of a step are the listed ones.** -/
theorem effect_of_step
    {s t : System Image} {a : Action}
    (hstep : step env s a = some t) :
    Effect env s a t := by
  cases a with
  | photo indexPath url now =>
      simp only [step] at hstep
      split at hstep
      next hlive =>
        cases hstep
        exact effect_photo indexPath url now hlive
      next => cases hstep
  | mainQueueRuns =>
      simp only [step] at hstep
      split at hstep
      next block rest hqueue =>
        cases hstep
        exact .runsBlock hqueue
      next => cases hstep
  | deallocate =>
      simp only [step] at hstep
      split at hstep
      next => cases hstep
      next hfree =>
        cases hstep
        exact .deallocates (by simpa using hfree)
  | restart =>
      cases hstep
      exact .restarts
  | _ =>
      simp only [step] at hstep
      split at hstep
      next d hd =>
        simp only [handlerStep] at hstep
        split at hstep
        next hpoint =>
          cases hstep
          first
            | exact effect_complete hd hpoint _
            | exact .queuesImage hd hpoint
            | exact .savesImage hd hpoint
            | exact .queuesReload hd hpoint
        next => cases hstep
      next => cases hstep

end ImageService

end Photos
end NotVK
