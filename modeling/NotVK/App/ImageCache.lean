import NotVK.App.ImageService

/-!
# Where a cached photo comes from

The log `downloaded` records every image together with the URL it was requested
by.  The invariant `Provenance` says that the image under a URL in the
dictionary, and in every block and handler that will put it there, was
downloaded from that URL, and that every file was written for some downloaded
image.  The file does not say which URL that was: only its name does.

So the cache is coherent on a set of URLs exactly when no URL of the set shares
its file name with another one that can be cached.
-/

namespace NotVK
namespace Photos

open Runs Networking

section FileNames

variable {Image : Type} (env : Environment Image)

/-- The photo at this URL can be downloaded and written to the disk. -/
def Cacheable (url : String) : Prop :=
  env.isURL url = true ∧
  ∃ image fileName data,
    env.uiImage (env.serve url) = some image ∧
    fileToSave env url image = some (fileName, data) ∧
    env.creatable fileName = true

/-- A cacheable URL of the set shares its file name with no other URL of it. -/
def SeparateNames (U : Set String) : Prop :=
  ∀ u ∈ U, ∀ v ∈ U, Cacheable env u → hashName u = hashName v → u = v

variable {env}

theorem fileToSave_eq_some
    {url fileName : String} {image : Image} {data : Data} :
    fileToSave env url image = some (fileName, data)
      ↔
    getFilePath env url = some fileName ∧ env.pngData image = some data := by
  unfold fileToSave
  cases getFilePath env url <;> cases env.pngData image <;> simp

/-- Two URLs have the same file exactly when they have the same name. -/
theorem getFilePath_eq_iff
    {u v fileName : String}
    (hu : getFilePath env u = some fileName) :
    getFilePath env v = some fileName
      ↔
    hashName u = hashName v := by
  unfold getFilePath at hu ⊢
  cases hdir : env.cachesDirectory with
  | none =>
      rw [hdir] at hu
      cases hu
  | some cachesDirectory =>
      rw [hdir] at hu
      cases hu
      simp only [Option.some.injEq]
      constructor
      · intro h
        have hlist := congrArg String.toList h
        simp only [String.toList_append, List.append_cancel_left_eq] at hlist
        exact (String.toList_injective hlist).symm
      · intro h
        rw [h]

/-- What `getImageFromCache` returns is the image of the file. -/
theorem imageFromCache_eq_some
    {disk : Disk} {now : TimeInterval} {url : String} {image : Image} :
    imageFromCache env disk now url = some image
      ↔
    ∃ fileName info,
      getFilePath env url = some fileName ∧
      disk fileName = some info ∧
      now - info.modificationDate ≤ cacheLifeTime ∧
      env.uiImage info.contents = some image := by
  unfold imageFromCache
  cases getFilePath env url with
  | none => simp
  | some fileName =>
      cases hinfo : disk fileName with
      | none => simp [hinfo]
      | some info => simp [hinfo]

end FileNames

section Provenance

variable {Image : Type}

/-- Entry that a block will make in `images`. -/
def MainBlock.entry : MainBlock Image → Option (String × Image)
  | .keepCached url image => some (url, image)
  | .keepLoaded url image => some (url, image)
  | .reloadRow _ _ _ => none

/-- Image that a handler holds. -/
def DownloadPoint.image : DownloadPoint Image → Option Image
  | .requested => none
  | .received image => some image
  | .imageQueued image => some image
  | .saved image => some image
  | .done _ => none

/-- Every image was downloaded from the URL that it is kept under. -/
structure Provenance
    (env : Environment Image) (U : Set String) (s : System Image) : Prop where
  downloaded : ∀ url image, (url, image) ∈ s.downloaded →
    url ∈ U ∧ env.isURL url = true ∧
      env.uiImage (env.serve url) = some image
  downloads : ∀ d ∈ s.downloads,
    d.url ∈ U ∧ env.isURL d.url = true ∧
      ∀ image, d.point.image = some image → (d.url, image) ∈ s.downloaded
  mainQueue : ∀ block ∈ s.mainQueue, ∀ url image,
    block.entry = some (url, image) → (url, image) ∈ s.downloaded
  images : ∀ url image,
    s.images url = some image → (url, image) ∈ s.downloaded
  disk : ∀ fileName info, s.disk fileName = some info →
    env.creatable fileName = true ∧
    ∃ url image, (url, image) ∈ s.downloaded ∧
      fileToSave env url image = some (fileName, info.contents)

variable {env : Environment Image} {U : Set String} {s : System Image}

theorem provenance_initial :
    Provenance env U (System.initial : System Image) where
  downloaded _ _ h := by cases h
  downloads _ h := by cases h
  mainQueue _ h := by cases h
  images _ _ h := by cases h
  disk _ _ h := by cases h

theorem provenance_restart
    (h : Provenance env U s) :
    Provenance env U s.restart where
  downloaded := h.downloaded
  downloads _ hd := by cases hd
  mainQueue _ hb := by cases hb
  images _ _ hi := by cases hi
  disk := h.disk

theorem provenance_deallocate
    (h : Provenance env U s) :
    Provenance env U { s with live := false } :=
  ⟨h.downloaded, h.downloads, h.mainQueue, h.images, h.disk⟩

/-- A file holds an image that was downloaded from a cacheable URL. -/
theorem Provenance.file
    (h : Provenance env U s)
    {fileName : String} {info : File}
    (hfile : s.disk fileName = some info) :
    ∃ url image, (url, image) ∈ s.downloaded ∧ url ∈ U ∧
      Cacheable env url ∧ getFilePath env url = some fileName ∧
      env.uiImage info.contents = some image := by
  obtain ⟨hcreatable, url, image, hmem, hsave⟩ := h.disk fileName info hfile
  obtain ⟨hU, hurl, hserve⟩ := h.downloaded url image hmem
  obtain ⟨hpath, hpng⟩ := fileToSave_eq_some.mp hsave
  exact ⟨url, image, hmem, hU,
    ⟨hurl, image, fileName, info.contents, hserve, hsave, hcreatable⟩,
    hpath, env.uiImage_pngData image info.contents hpng⟩

/-- With separate names the file at the name of a URL holds that URL's photo. -/
theorem Provenance.imageFromCache
    (h : Provenance env U s) (hsep : SeparateNames env U)
    {url : String} (hU : url ∈ U) {now : TimeInterval} {image : Image}
    (hcache : imageFromCache env s.disk now url = some image) :
    (url, image) ∈ s.downloaded := by
  obtain ⟨fileName, info, hpath, hfile, _, himage⟩ :=
    imageFromCache_eq_some.mp hcache
  obtain ⟨u, im, hmem, hu, hcacheable, hupath, him⟩ := h.file hfile
  have hurl : u = url :=
    hsep u hu url hU hcacheable ((getFilePath_eq_iff hupath).mp hpath)
  have himage' : im = image := Option.some.inj (him.symm.trans himage)
  rw [← hurl, ← himage']
  exact hmem

theorem provenance_enqueue
    (h : Provenance env U s) {block : MainBlock Image}
    (hblock : ∀ url image,
      block.entry = some (url, image) → (url, image) ∈ s.downloaded) :
    Provenance env U (s.enqueue block) where
  downloaded := h.downloaded
  downloads := h.downloads
  mainQueue b hb := by
    rcases List.mem_append.mp hb with hb | hb
    · exact h.mainQueue b hb
    · rw [List.mem_singleton.mp hb]
      exact hblock
  images := h.images
  disk := h.disk

theorem provenance_keepImage
    (h : Provenance env U s) {url : String} {image : Image}
    (hmem : (url, image) ∈ s.downloaded) :
    Provenance env U (keepImage s url image) where
  downloaded := h.downloaded
  downloads := h.downloads
  mainQueue := h.mainQueue
  images v im hv := by
    by_cases hvu : v = url
    · subst hvu
      rw [keepImage_images_self] at hv
      cases hv
      exact hmem
    · rw [keepImage_images_of_ne s image hvu] at hv
      exact h.images v im hv
  disk := h.disk

/-- The handler of a download moves on with the image it holds, if any. -/
theorem provenance_setPoint
    (h : Provenance env U s) {download : Nat} {d : Download Image}
    {point : DownloadPoint Image}
    (hd : s.downloads[download]? = some d)
    (himage : ∀ image,
      point.image = some image → (d.url, image) ∈ s.downloaded) :
    Provenance env U (s.setPoint download point) where
  downloaded := h.downloaded
  downloads d' hd' := by
    rcases mem_setPoint hd' with hold | ⟨e, he, rfl⟩
    · exact h.downloads d' hold
    · rw [hd] at he
      cases he
      obtain ⟨hU, hurl, _⟩ := h.downloads d (List.mem_of_getElem? hd)
      exact ⟨hU, hurl, himage⟩
  mainQueue := h.mainQueue
  images := h.images
  disk := h.disk

theorem provenance_saveImageToCache
    (h : Provenance env U s) {url : String} {image : Image}
    (hmem : (url, image) ∈ s.downloaded)
    (written : Bool) (now : TimeInterval) :
    Provenance env U (saveImageToCache env s url image written now) := by
  unfold saveImageToCache
  split
  next => exact h
  next fileName data hsave =>
    split
    next hwrite =>
      refine ⟨h.downloaded, h.downloads, h.mainQueue, h.images, ?_⟩
      intro path info hinfo
      by_cases hpath : path = fileName
      · subst hpath
        have hcreatable : env.creatable path = true := by
          simp only [Bool.and_eq_true] at hwrite
          exact hwrite.2
        rw [writeFile_disk_self] at hinfo
        cases hinfo
        exact ⟨hcreatable, url, image, hmem, hsave⟩
      · rw [writeFile_disk_of_ne s data now hpath] at hinfo
        exact h.disk path info hinfo
    next => exact h

/-- A new download waits for its data. -/
theorem provenance_photoLoads
    (h : Provenance env U s) (indexPath : IndexPath) {url : String}
    (hU : url ∈ U) (hurl : env.isURL url = true) :
    Provenance env U
      { s with
        downloads := s.downloads ++
          [{ indexPath := indexPath, url := url, point := .requested }] } := by
  refine ⟨h.downloaded, ?_, h.mainQueue, h.images, h.disk⟩
  intro d hd
  rcases List.mem_append.mp hd with hd | hd
  · exact h.downloads d hd
  · rw [List.mem_singleton.mp hd]
    refine ⟨hU, hurl, ?_⟩
    intro image himage
    cases himage

/-- One more image in the log, downloaded from a URL of the set. -/
theorem provenance_downloaded
    (h : Provenance env U s) {url : String} {image : Image}
    (hU : url ∈ U) (hurl : env.isURL url = true)
    (hserve : env.uiImage (env.serve url) = some image) :
    Provenance env U
      { s with downloaded := s.downloaded ++ [(url, image)] } where
  downloaded u im hmem := by
    rcases List.mem_append.mp hmem with hmem | hmem
    · exact h.downloaded u im hmem
    · cases List.mem_singleton.mp hmem
      exact ⟨hU, hurl, hserve⟩
  downloads d hd := by
    obtain ⟨hdU, hdurl, himage⟩ := h.downloads d hd
    exact ⟨hdU, hdurl, fun im him => List.mem_append_left _ (himage im him)⟩
  mainQueue block hb u im hentry :=
    List.mem_append_left _ (h.mainQueue block hb u im hentry)
  images u im him := List.mem_append_left _ (h.images u im him)
  disk path info hinfo := by
    obtain ⟨hcreatable, u, im, hmem, hsave⟩ := h.disk path info hinfo
    exact ⟨hcreatable, u, im, List.mem_append_left _ hmem, hsave⟩

end Provenance

section Steps

variable {Image : Type}
variable {env : Environment Image} {U : Set String} {s : System Image}

/-- The image that a handler holds was downloaded from its URL. -/
theorem Provenance.image
    (h : Provenance env U s) {download : Nat} {d : Download Image}
    {image : Image}
    (hd : s.downloads[download]? = some d)
    (himage : d.point.image = some image) :
    (d.url, image) ∈ s.downloaded :=
  (h.downloads d (List.mem_of_getElem? hd)).2.2 image himage

theorem provenance_receives
    (h : Provenance env U s) {download : Nat} {d : Download Image}
    {image : Image}
    (hd : s.downloads[download]? = some d)
    (hserve : env.uiImage (env.serve d.url) = some image) :
    Provenance env U
      { s.setPoint download (.received image) with
        downloaded := s.downloaded ++ [(d.url, image)] } := by
  obtain ⟨hU, hurl, _⟩ := h.downloads d (List.mem_of_getElem? hd)
  have hlog := provenance_downloaded h hU hurl hserve
  refine provenance_setPoint hlog hd ?_
  rintro im ⟨⟩
  exact List.mem_append_right _ (List.mem_singleton_self _)

theorem provenance_queuesImage
    (h : Provenance env U s) {download : Nat} {d : Download Image}
    {image : Image}
    (hd : s.downloads[download]? = some d)
    (hpoint : d.point = .received image) :
    Provenance env U
      ((s.setPoint download (.imageQueued image)).enqueue
        (.keepLoaded d.url image)) := by
  have hmem := h.image hd (by rw [hpoint]; rfl)
  refine provenance_enqueue (provenance_setPoint h hd ?_) ?_
  · rintro im ⟨⟩
    exact hmem
  · rintro url im ⟨⟩
    exact hmem

theorem provenance_savesImage
    (h : Provenance env U s) {download : Nat} {d : Download Image}
    {image : Image} (written : Bool) (now : TimeInterval)
    (hd : s.downloads[download]? = some d)
    (hpoint : d.point = .imageQueued image) :
    Provenance env U
      ((saveImageToCache env s d.url image written now).setPoint
        download (.saved image)) := by
  have hmem := h.image hd (by rw [hpoint]; rfl)
  have hsaved := provenance_saveImageToCache h hmem written now
  refine provenance_setPoint hsaved (d := d) ?_ ?_
  · rw [saveImageToCache_downloads]
    exact hd
  · rintro im ⟨⟩
    rw [saveImageToCache_downloaded]
    exact hmem

theorem provenance_queuesReload
    (h : Provenance env U s) {download : Nat} {d : Download Image}
    (hd : s.downloads[download]? = some d) :
    Provenance env U
      ((s.setPoint download (.done true)).enqueue
        (.reloadRow download d.indexPath d.url)) := by
  refine provenance_enqueue (provenance_setPoint h hd ?_) ?_
  · rintro im ⟨⟩
  · rintro url im ⟨⟩

theorem provenance_runBlock
    {block : MainBlock Image} {rest : List (MainBlock Image)}
    (h : Provenance env U s) (hqueue : s.mainQueue = block :: rest) :
    Provenance env U (runBlock { s with mainQueue := rest } block) := by
  have hrest : Provenance env U { s with mainQueue := rest } := by
    refine ⟨h.downloaded, h.downloads, ?_, h.images, h.disk⟩
    intro b hb
    exact h.mainQueue b (by rw [hqueue]; exact List.mem_cons_of_mem _ hb)
  have hentry := h.mainQueue block (by rw [hqueue]; exact List.mem_cons_self)
  cases block with
  | keepCached url image =>
      exact provenance_keepImage hrest (hentry url image rfl)
  | keepLoaded url image =>
      simp only [runBlock]
      split
      · exact provenance_keepImage hrest (hentry url image rfl)
      · exact hrest
  | reloadRow download indexPath url =>
      simp only [runBlock]
      split
      · exact ⟨hrest.downloaded, hrest.downloads, hrest.mainQueue,
          hrest.images, hrest.disk⟩
      · exact hrest

/-- With separate names `photo` returns what was downloaded from its URL. -/
theorem photo_downloaded
    (h : Provenance env U s) (hsep : SeparateNames env U)
    {indexPath : IndexPath} {url : String} (hU : url ∈ U)
    {now : TimeInterval} {image : Image}
    (hphoto : (photo env s indexPath url now).1 = some image) :
    (url, image) ∈ s.downloaded := by
  unfold photo at hphoto
  split at hphoto
  next im him =>
    cases hphoto
    exact h.images url image him
  next =>
    split at hphoto
    next im him =>
      cases hphoto
      exact h.imageFromCache hsep hU him
    next => cases hphoto

/-- The action does not ask for a URL outside of the set. -/
def Action.AsksIn (U : Set String) : Action → Prop
  | .photo _ url _ => url ∈ U
  | _ => True

theorem provenance_step
    (hsep : SeparateNames env U)
    {s : System Image} {a : Action} {t : System Image}
    (h : Provenance env U s)
    (ha : a.AsksIn U)
    (hstep : step env s a = some t) :
    Provenance env U t := by
  cases effect_of_step hstep with
  | photoFound hlive hfound => exact h
  | photoCached hlive hmiss hcache =>
      apply provenance_enqueue h
      rintro u im ⟨⟩
      exact h.imageFromCache hsep ha hcache
  | photoLoads hlive hmiss hurl => exact provenance_photoLoads h _ ha hurl
  | fails hd hpoint =>
      apply provenance_setPoint h hd
      rintro im ⟨⟩
  | receives hd hpoint hserve => exact provenance_receives h hd hserve
  | queuesImage hd hpoint => exact provenance_queuesImage h hd hpoint
  | savesImage hd hpoint => exact provenance_savesImage h _ _ hd hpoint
  | queuesReload hd hpoint => exact provenance_queuesReload h hd
  | runsBlock hqueue => exact provenance_runBlock h hqueue
  | deallocates hfree => exact provenance_deallocate h
  | restarts => exact provenance_restart h

theorem provenance_run
    (hsep : SeparateNames env U)
    {as : List Action} {t : System Image}
    (has : ∀ a ∈ as, a.AsksIn U)
    (hrun : run (step env) System.initial as = some t) :
    Provenance env U t :=
  run_invariant_of_forall_mem
    (fun _ _ _ h ha hstep => provenance_step hsep h ha hstep)
    provenance_initial has hrun

end Steps

section Coherence

variable {Image : Type} (env : Environment Image)

/-- A `photo` call that returns an image returns one of its own URL. -/
def PhotoOfURL (s : System Image) (a : Action) (_ : System Image) : Prop :=
  ∀ indexPath url now, a = .photo indexPath url now →
    ∀ image, (photo env s indexPath url now).1 = some image →
      (url, image) ∈ s.downloaded

/-- The actions that leave the photo of `url` in its file and nowhere else. -/
def loadAndSave (url : String) : List Action :=
  [.photo ⟨0, 0⟩ url 0, .completes 0 true, .queueImage 0,
    .saveImage 0 true 0]

variable {env} {U : Set String}

theorem photosOfURL_of_separateNames
    (hsep : SeparateNames env U)
    {as : List Action} (has : ∀ a ∈ as, a.AsksIn U) :
    EveryStep (step env) (PhotoOfURL env) System.initial as := by
  apply everyStep_of_split
  rintro pre a post s t rfl hpre _ indexPath url now rfl image hphoto
  have hprefix : Provenance env U s := by
    apply provenance_run hsep _ hpre
    intro a ha
    exact has a (List.mem_append_left _ ha)
  have hU : url ∈ U :=
    has _ (List.mem_append_right _ List.mem_cons_self)
  exact photo_downloaded hprefix hsep hU hphoto

/-- After that the file is the only place that has the photo. -/
theorem run_loadAndSave
    {url fileName : String} {image : Image} {data : Data}
    (hurl : env.isURL url = true)
    (hserve : env.uiImage (env.serve url) = some image)
    (hsave : fileToSave env url image = some (fileName, data))
    (hcreatable : env.creatable fileName = true) :
    ∃ s, run (step env) System.initial (loadAndSave url) = some s ∧
      s.live = true ∧
      (∀ v, s.images v = none) ∧
      s.disk fileName = some ⟨data, 0⟩ ∧
      s.downloaded = [(url, image)] := by
  have hmiss : imageFromCache env (fun _ => none) 0 url = none := by
    unfold imageFromCache
    cases getFilePath env url <;> rfl
  simp [loadAndSave, step, System.initial, photo, hmiss, loadPhoto, hurl,
    handlerStep, complete, hserve, System.setPoint, System.enqueue,
    saveImageToCache, hsave, hcreatable, writeFile]

/-- A second URL with the same name gets the photo of the first. -/
theorem loadAndSave_then_photo
    {u v : String}
    (hcacheable : Cacheable env u)
    (hname : hashName u = hashName v)
    (huv : u ≠ v) :
    ¬ EveryStep (step env) (PhotoOfURL env) System.initial
      (loadAndSave u ++ [.photo ⟨0, 0⟩ v 0]) := by
  obtain ⟨hurl, image, fileName, data, hserve, hsave, hcreatable⟩ := hcacheable
  obtain ⟨hpath, hpng⟩ := fileToSave_eq_some.mp hsave
  obtain ⟨s, hrun, hlive, himages, hdisk, hlog⟩ :=
    run_loadAndSave hurl hserve hsave hcreatable
  have hcache : imageFromCache env s.disk 0 v = some image :=
    imageFromCache_eq_some.mpr
      ⟨fileName, ⟨data, 0⟩, (getFilePath_eq_iff hpath).mpr hname, hdisk,
        by simp [cacheLifeTime], env.uiImage_pngData image data hpng⟩
  have hphoto : (photo env s ⟨0, 0⟩ v 0).1 = some image := by
    simp [photo, himages, hcache]
  intro h
  have hstep : step env s (.photo ⟨0, 0⟩ v 0) =
      some (photo env s ⟨0, 0⟩ v 0).2 := by
    simp [step, hlive]
  have hmem := h.at_split hrun hstep ⟨0, 0⟩ v 0 rfl image hphoto
  rw [hlog] at hmem
  cases List.mem_singleton.mp hmem
  exact huv rfl

/--
**On a set of URLs, `photo` only ever returns images of the URL it was asked for
if and only if no cacheable URL of the set shares its file name with another.**
-/
theorem photosOfURL_iff
    (env : Environment Image) (U : Set String) :
    (∀ as : List Action, (∀ a ∈ as, a.AsksIn U) →
      EveryStep (step env) (PhotoOfURL env) System.initial as)
      ↔
    SeparateNames env U := by
  constructor
  · intro h u hu v hv hcacheable hname
    by_contra huv
    apply loadAndSave_then_photo hcacheable hname huv
    apply h
    intro a ha
    simp only [loadAndSave, List.cons_append, List.nil_append,
      List.mem_cons, List.not_mem_nil, or_false] at ha
    rcases ha with rfl | rfl | rfl | rfl | rfl
    · exact hu
    · trivial
    · trivial
    · trivial
    · exact hv
  · intro hsep as has
    exact photosOfURL_of_separateNames hsep has

/-- A network on which every URL serves a photo of its own. -/
def ownPhotos : Environment Data where
  cachesDirectory := some "/Library/Caches"
  isURL _ := true
  serve url := url.toList.map fun c => c.toNat.toUInt8
  uiImage data := some data
  pngData image := some image
  creatable _ := true
  uiImage_pngData _ _ h := h.symm

/-- The photos of two people whose files have the same name. -/
def sameNameRun : List Action :=
  loadAndSave "https://sun9-1.userapi.com/anna/photo.jpg" ++
    [.photo ⟨0, 0⟩ "https://sun9-2.userapi.com/boris/photo.jpg" 0]

/-- Boris gets the photo of Anna. -/
theorem sameNameRun_not_of_url :
    ∃ s, run (step ownPhotos) System.initial
        (loadAndSave "https://sun9-1.userapi.com/anna/photo.jpg") = some s ∧
      (photo ownPhotos s ⟨0, 0⟩
        "https://sun9-2.userapi.com/boris/photo.jpg" 0).1 =
        some (ownPhotos.serve "https://sun9-1.userapi.com/anna/photo.jpg") ∧
      ¬ EveryStep (step ownPhotos) (PhotoOfURL ownPhotos) System.initial
        sameNameRun := by
  refine ⟨_, rfl, by decide +kernel, ?_⟩
  apply loadAndSave_then_photo
  · exact ⟨rfl, _, _, _, rfl, rfl, rfl⟩
  · decide +kernel
  · decide

end Coherence

end Photos
end NotVK
