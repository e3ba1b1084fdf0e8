import Mathlib.Data.List.Basic
import TorrentApp.Downloader.Worker
import TorrentApp.Foundation.Machine

set_option autoImplicit false

/-!
# Visits to a detail page

One post's detail page, opened any number of times: each visit is a `DetailList`
with its own cell, detail, downloader and torrent requests, and all visits share
the torrent entry that the cache keeps for the post's url.  A visit lives on after
it is left as long as its completions are outstanding.  What the network and the
parser answer is in the labels.
-/

namespace TorrentApp.Detail.Page

open TorrentApp.Foundation
open TorrentApp.Downloader (TorrentInfo oneFile)

/-! ## One visit -/

/-- The properties of a `CosxcosDetail` that lead to a torrent. -/
structure CosxcosDetail where
  url : Option String
  torrentUrl : Option String
  magnet : Option String
  deriving DecidableEq, Repr

/-- The two ways a page asks for its torrent. -/
inductive Request where
  /-- `[Cosxcos downloadTorrent:torrentUrl asName:nil complete:…]` -/
  | torrentUrl (url : String)
  /-- `[TorrentMaker downloadTorrentFromMagnet:magnet complete:…]` -/
  | magnet (uri : String)
  deriving DecidableEq, Repr

/-- The subviews of a `DetailListFilesCell`. -/
structure FilesCell where
  /-- `clickToLoad` is a subview of the content view -/
  clickToLoadInCell : Bool
  clickToLoadHidden : Bool
  loadIndicatorInCell : Bool
  loadIndicatorAnimating : Bool
  /-- `filelist` has been created, which adds it to the content view -/
  filelistInCell : Bool
  deriving DecidableEq, Repr

/-- `-[DetailListFilesCell init]`. -/
def FilesCell.init : FilesCell where
  clickToLoadInCell := true
  clickToLoadHidden := false
  loadIndicatorInCell := true
  loadIndicatorAnimating := false
  filelistInCell := false

/-- `-[DetailListFilesCell downloadTorrent]`, up to the page's own method. -/
def FilesCell.downloadTorrent (cell : FilesCell) : FilesCell :=
  { cell with clickToLoadHidden := true, loadIndicatorAnimating := true }

/-- `-[DetailListFilesCell displayAndUpdateFilelist]`. -/
def FilesCell.displayAndUpdateFilelist (cell : FilesCell) : FilesCell :=
  { cell with
    loadIndicatorAnimating := false
    loadIndicatorInCell := false
    clickToLoadInCell := false
    filelistInCell := true }

/-- The load button is there to be tapped. -/
def FilesCell.clickToLoadVisible (cell : FilesCell) : Bool :=
  cell.clickToLoadInCell && !cell.clickToLoadHidden

/-- A `TorrentDownloader` as the page sees it: `torrentInfo` is nil when the file
did not parse. -/
structure TorrentDownloader where
  torrentInfo : Option TorrentInfo

/-- A visit of the page. -/
structure DetailList where
  detail : Option CosxcosDetail
  downloader : Option TorrentDownloader
  filesCell : FilesCell
  /-- `loadDetail:complete:` has not completed -/
  loading : Bool
  /-- the torrent requests that have not completed -/
  outstanding : List Request

/-- `-[DetailList viewDidLoad]`, up to the completion of `loadDetail:`. -/
def DetailList.viewDidLoad : DetailList where
  detail := none
  downloader := none
  filesCell := .init
  loading := true
  outstanding := []

/-- `self.downloader.torrentInfo`. -/
def DetailList.torrentInfo (page : DetailList) : Option TorrentInfo :=
  page.downloader.bind (·.torrentInfo)

/-- The completion of `loadDetail:`; `stored` is nil or the outcome of parsing the
torrent that `storedTorrent` found. -/
def DetailList.loadDetailComplete (page : DetailList) (detail : Option CosxcosDetail)
    (stored : Option (Option TorrentInfo)) : DetailList :=
  let page := { page with detail := detail, loading := false }
  match stored with
  | some info =>
      { page with
        downloader := some ⟨info⟩
        filesCell := page.filesCell.displayAndUpdateFilelist }
  | none => page

/-- The request that `-[DetailList downloadTorrent]` makes: the torrent url before
the magnet, and without either none. -/
def DetailList.request (page : DetailList) : Option Request :=
  match page.detail with
  | some detail =>
      match detail.torrentUrl, detail.magnet with
      | some url, _ => some (.torrentUrl url)
      | none, some uri => some (.magnet uri)
      | none, none => none
  | none => none

/-- A tap on the load button. -/
def DetailList.downloadTorrent (page : DetailList) : DetailList :=
  { page with
    filesCell := page.filesCell.downloadTorrent
    outstanding := page.outstanding ++ page.request.toList }

/-- The completion of a request: `parseTorrent:`, which looks at the path only;
`info` is the outcome of parsing the file it names. -/
def DetailList.parseTorrent (page : DetailList) (request : Request) (torrentPath : Option String)
    (info : Option TorrentInfo) : DetailList :=
  let page := { page with outstanding := page.outstanding.erase request }
  match torrentPath with
  | some _ =>
      { page with
        downloader := some ⟨info⟩
        filesCell := page.filesCell.displayAndUpdateFilelist }
  | none => page

/-! ## All visits -/

/-- The visits of the page and the cache entry they share. -/
structure State where
  pages : Nat → Option DetailList
  /-- the visit that is on screen -/
  front : Option Nat
  nextPage : Nat
  /-- the path last passed to `storeTorrent:` -/
  stored : Option String

def State.init : State where
  pages := fun _ => none
  front := none
  nextPage := 0
  stored := none

inductive Label where
  /-- the page is opened as visit `p` -/
  | viewDidLoad (p : Nat)
  /-- the page is popped off the screen -/
  | leave
  | loadDetailComplete (p : Nat) (detail : Option CosxcosDetail)
      (stored : Option (Option TorrentInfo))
  /-- a tap on the visible load button, and the request it led to -/
  | downloadTorrent (request : Option Request)
  | parseTorrent (p : Nat) (request : Request) (torrentPath : Option String)
      (info : Option TorrentInfo)
  deriving DecidableEq, Repr

/-- The visit `p` becomes `page`. -/
def State.setPage (s : State) (p : Nat) (page : DetailList) : State :=
  { s with pages := Function.update s.pages p (some page) }

/-- A stored torrent can be found only when the detail has a url and the cache has
an entry. -/
def State.MayFind (s : State) (detail : Option CosxcosDetail)
    (stored : Option (Option TorrentInfo)) : Bool :=
  stored.isNone || ((detail.bind (·.url)).isSome && s.stored.isSome)

/-- One step of the page. -/
def step (s : State) : Label → Option State
  | .viewDidLoad p =>
      if s.front = none ∧ p = s.nextPage then
        some { s.setPage p .viewDidLoad with front := some p, nextPage := p + 1 }
      else none
  | .leave => s.front.map fun _ => { s with front := none }
  | .loadDetailComplete p detail stored =>
      match s.pages p with
      | some page =>
          if page.loading = true ∧ s.MayFind detail stored = true then
            some (s.setPage p (page.loadDetailComplete detail stored))
          else none
      | none => none
  | .downloadTorrent request =>
      match s.front with
      | some p =>
          match s.pages p with
          | some page =>
              if page.filesCell.clickToLoadVisible = true ∧ request = page.request then
                some (s.setPage p page.downloadTorrent)
              else none
          | none => none
      | none => none
  | .parseTorrent p request torrentPath info =>
      match s.pages p with
      | some page =>
          if request ∈ page.outstanding then
            some { s.setPage p (page.parseTorrent request torrentPath info) with
              stored := torrentPath.or s.stored }
          else none
      | none => none

/-! ## Shapes of a visit -/

/-- With no request outstanding, the list of a parsed torrent is shown or the load
button can be tapped. -/
def DetailList.Usable (page : DetailList) : Prop :=
  page.outstanding = [] →
    (page.filesCell.filelistInCell = true ∧ page.torrentInfo ≠ none) ∨
      page.filesCell.clickToLoadVisible = true

/-- The page on screen is usable. -/
def State.Usable (s : State) : Prop :=
  ∀ p page, s.front = some p → s.pages p = some page → page.Usable

/-- What the methods keep of a visit: there is at most one request, made by a tap
that hid the button, no request before the detail is there, and the list takes
the place of the button. -/
structure DetailList.Consistent (page : DetailList) : Prop where
  single : page.outstanding.length ≤ 1
  requested : page.outstanding ≠ [] → page.filesCell.clickToLoadVisible = false ∧
    page.filesCell.filelistInCell = false
  loading : page.loading = true → page.detail = none ∧ page.outstanding = []
  replaced : page.filesCell.filelistInCell = !page.filesCell.clickToLoadInCell

theorem consistent_viewDidLoad : DetailList.viewDidLoad.Consistent where
  single := by decide
  requested := fun h => absurd rfl h
  loading := fun _ => ⟨rfl, rfl⟩
  replaced := rfl

theorem usable_viewDidLoad : DetailList.viewDidLoad.Usable := fun _ => Or.inr rfl

variable {page : DetailList}

/-- While the button can be tapped there is neither a request nor a list. -/
theorem DetailList.Consistent.of_visible (h : page.Consistent)
    (hvisible : page.filesCell.clickToLoadVisible = true) :
    page.outstanding = [] ∧ page.filesCell.filelistInCell = false := by
  constructor
  · by_contra hne
    rw [(h.requested hne).1] at hvisible
    cases hvisible
  · rw [h.replaced]
    have hin : page.filesCell.clickToLoadInCell = true := by
      rw [FilesCell.clickToLoadVisible, Bool.and_eq_true] at hvisible
      exact hvisible.1
    rw [hin]
    rfl

theorem consistent_downloadTorrent (h : page.Consistent)
    (hvisible : page.filesCell.clickToLoadVisible = true) : page.downloadTorrent.Consistent := by
  obtain ⟨hnone, hlist⟩ := h.of_visible hvisible
  refine ⟨?_, fun _ => ⟨?_, hlist⟩, fun hloading => ?_, h.replaced⟩
  · cases hr : page.request <;> simp [DetailList.downloadTorrent, hnone, hr]
  · simp [DetailList.downloadTorrent, FilesCell.downloadTorrent, FilesCell.clickToLoadVisible]
  · have hdetail := (h.loading hloading).1
    exact ⟨hdetail, by simp [DetailList.downloadTorrent, hnone, DetailList.request, hdetail]⟩

/-- A tap leaves the page usable exactly when it makes a request. -/
theorem usable_downloadTorrent_iff (h : page.Consistent)
    (hvisible : page.filesCell.clickToLoadVisible = true) :
    page.downloadTorrent.Usable ↔ page.request ≠ none := by
  obtain ⟨hnone, hlist⟩ := h.of_visible hvisible
  constructor
  · intro husable hrequest
    have hquiet : page.downloadTorrent.outstanding = [] := by
      simp [DetailList.downloadTorrent, hnone, hrequest]
    rcases husable hquiet with ⟨hshown, -⟩ | hbutton
    · have hsame : page.downloadTorrent.filesCell.filelistInCell =
          page.filesCell.filelistInCell := rfl
      rw [hsame, hlist] at hshown
      cases hshown
    · simp [DetailList.downloadTorrent, FilesCell.downloadTorrent, FilesCell.clickToLoadVisible]
        at hbutton
  · intro hrequest hquiet
    obtain ⟨request, hsome⟩ := Option.ne_none_iff_exists'.mp hrequest
    simp [DetailList.downloadTorrent, hsome] at hquiet

theorem consistent_loadDetailComplete (h : page.Consistent) (hloading : page.loading = true)
    (detail : Option CosxcosDetail) (stored : Option (Option TorrentInfo)) :
    (page.loadDetailComplete detail stored).Consistent := by
  have hnone := (h.loading hloading).2
  cases stored with
  | none => exact ⟨h.single, h.requested, Bool.noConfusion, h.replaced⟩
  | some info => exact ⟨h.single, fun hne => absurd hnone hne, Bool.noConfusion, rfl⟩

/-- The detail's arrival keeps the page usable exactly when no stored torrent that
does not parse was found. -/
theorem usable_loadDetailComplete_iff (h : page.Consistent) (hloading : page.loading = true)
    (husable : page.Usable) (detail : Option CosxcosDetail)
    (stored : Option (Option TorrentInfo)) :
    (page.loadDetailComplete detail stored).Usable ↔ stored ≠ some none := by
  have hnone := (h.loading hloading).2
  cases stored with
  | none => exact iff_of_true husable (by simp)
  | some info =>
      cases info with
      | none =>
          refine iff_of_false (fun hbad => ?_) (by simp)
          rcases hbad hnone with ⟨-, hinfo⟩ | hbutton
          · exact hinfo rfl
          · cases hbutton
      | some info => exact iff_of_true (fun _ => Or.inl ⟨rfl, by simp [DetailList.torrentInfo,
          DetailList.loadDetailComplete]⟩) (by simp)

/-- The one request there can be is the one that completes. -/
theorem DetailList.Consistent.outstanding_eq (h : page.Consistent) {request : Request}
    (hmem : request ∈ page.outstanding) : page.outstanding = [request] := by
  have hsingle := h.single
  cases hlist : page.outstanding with
  | nil => rw [hlist] at hmem; cases hmem
  | cons r rest =>
      rw [hlist] at hsingle hmem
      have hrest : rest = [] := List.length_eq_zero_iff.mp (by simpa using hsingle)
      subst hrest
      rw [List.mem_singleton.mp hmem]

theorem consistent_parseTorrent (h : page.Consistent) {request : Request}
    (hmem : request ∈ page.outstanding) (torrentPath : Option String)
    (info : Option TorrentInfo) :
    (page.parseTorrent request torrentPath info).Consistent := by
  have hone := h.outstanding_eq hmem
  have herase : page.outstanding.erase request = [] := by simp [hone]
  have hloading : page.loading ≠ true := by
    intro hloading
    rw [(h.loading hloading).2] at hmem
    cases hmem
  cases torrentPath with
  | none =>
      exact ⟨by simp [DetailList.parseTorrent, herase], fun hne => absurd herase hne,
        fun h => absurd h hloading, h.replaced⟩
  | some path =>
      exact ⟨by simp [DetailList.parseTorrent, herase], fun hne => absurd herase hne,
        fun h => absurd h hloading, rfl⟩

/-- A completion leaves the page usable exactly when it brings a path whose file
parses. -/
theorem usable_parseTorrent_iff (h : page.Consistent) {request : Request}
    (hmem : request ∈ page.outstanding) (torrentPath : Option String)
    (info : Option TorrentInfo) :
    (page.parseTorrent request torrentPath info).Usable ↔ torrentPath ≠ none ∧ info ≠ none := by
  have hone := h.outstanding_eq hmem
  have herase : page.outstanding.erase request = [] := by simp [hone]
  obtain ⟨hhidden, hlist⟩ := h.requested (by simp [hone])
  cases torrentPath with
  | none =>
      refine iff_of_false (fun husable => ?_) (by simp)
      rcases husable herase with ⟨hshown, -⟩ | hbutton
      · exact Bool.false_ne_true (hlist.symm.trans hshown)
      · exact Bool.false_ne_true (hhidden.symm.trans hbutton)
  | some path =>
      cases info with
      | none =>
          refine iff_of_false (fun husable => ?_) (by simp)
          rcases husable herase with ⟨-, hinfo⟩ | hbutton
          · exact hinfo rfl
          · cases hbutton
      | some info => exact iff_of_true (fun _ => Or.inl ⟨rfl, by simp [DetailList.torrentInfo,
          DetailList.parseTorrent]⟩) (by simp)

/-! ## When the page never gets stuck -/

/-- The steps that leave the page on screen usable: a stored torrent found there
parses, the button is tapped when the detail names a torrent url or a magnet, and
a request of that page completes with a path whose file parses. -/
def Served (s : State) : Label → Prop
  | .loadDetailComplete p _ stored => s.front = some p → stored ≠ some none
  | .downloadTorrent _ =>
      ∀ p page, s.front = some p → s.pages p = some page → page.request ≠ none
  | .parseTorrent p _ torrentPath info =>
      s.front = some p → torrentPath ≠ none ∧ info ≠ none
  | _ => True

/-- What a step does to the visits: it opens a new one, leaves the one on screen,
or takes one of them through one of its methods. -/
inductive PageStep (s s' : State) (l : Label) : Prop where
  | opened (p : Nat) (label : l = .viewDidLoad p) (off : s.front = none)
      (front : s'.front = some p)
      (pages : s'.pages = Function.update s.pages p (some .viewDidLoad))
  | left (label : l = .leave) (front : s'.front = none) (pages : s'.pages = s.pages)
  | changed (p : Nat) (page page' : DetailList) (before : s.pages p = some page)
      (pages : s'.pages = Function.update s.pages p (some page')) (front : s'.front = s.front)
      (keeps : page.Consistent → page'.Consistent)
      (served : page.Consistent → (s.front = some p → page.Usable) →
        ((s.front = some p → page'.Usable) ↔ Served s l))

theorem pageStep_of_step {s s' : State} {l : Label} (h : step s l = some s') : PageStep s s' l := by
  cases l with
  | viewDidLoad p =>
      simp only [step, Option.ite_none_right_eq_some, Option.some.injEq] at h
      obtain ⟨⟨hoff, -⟩, rfl⟩ := h
      exact .opened p rfl hoff rfl rfl
  | leave =>
      simp only [step, Option.map_eq_some_iff] at h
      obtain ⟨-, -, rfl⟩ := h
      exact .left rfl rfl rfl
  | loadDetailComplete p detail stored =>
      simp only [step] at h
      split at h
      · next page hpage =>
          simp only [Option.ite_none_right_eq_some, Option.some.injEq] at h
          obtain ⟨⟨hloading, -⟩, rfl⟩ := h
          refine .changed p page _ hpage rfl rfl
            (fun hc => consistent_loadDetailComplete hc hloading detail stored) ?_
          intro hc husable
          exact forall_congr' fun hfront =>
            usable_loadDetailComplete_iff hc hloading (husable hfront) detail stored
      · cases h
  | downloadTorrent request =>
      simp only [step] at h
      split at h
      · next p hfront =>
          split at h
          · next page hpage =>
              simp only [Option.ite_none_right_eq_some, Option.some.injEq] at h
              obtain ⟨⟨hvisible, -⟩, rfl⟩ := h
              refine .changed p page _ hpage rfl rfl
                (fun hc => consistent_downloadTorrent hc hvisible) fun hc _ => ?_
              have hiff := usable_downloadTorrent_iff hc hvisible
              constructor
              · intro husable q page' hq hpage'
                obtain rfl : p = q := Option.some.inj (hfront.symm.trans hq)
                obtain rfl : page = page' := Option.some.inj (hpage.symm.trans hpage')
                exact hiff.mp (husable hfront)
              · exact fun hserved _ => hiff.mpr (hserved p page hfront hpage)
          · cases h
      · cases h
  | parseTorrent p request torrentPath info =>
      simp only [step] at h
      split at h
      · next page hpage =>
          simp only [Option.ite_none_right_eq_some, Option.some.injEq] at h
          obtain ⟨hmem, rfl⟩ := h
          refine .changed p page _ hpage rfl rfl
            (fun hc => consistent_parseTorrent hc hmem torrentPath info) fun hc _ => ?_
          exact forall_congr' fun _ => usable_parseTorrent_iff hc hmem torrentPath info
      · cases h

/-- Every visit of a reachable state is consistent. -/
theorem consistent_of_run {tr : List Label} {s : State} (hrun : run step State.init tr = some s) :
    ∀ p page, s.pages p = some page → page.Consistent := by
  refine run_induction (motive := fun _ s => ∀ p page, s.pages p = some page → page.Consistent)
    (fun _ _ h => by cases h) ?_ hrun
  intro tr s l s' _ ih hstep q page hpage
  cases pageStep_of_step hstep with
  | left _ _ hpages => exact ih q page (hpages ▸ hpage)
  | opened p _ _ _ hpages =>
      rw [hpages] at hpage
      by_cases hq : q = p
      · subst hq
        rw [Function.update_self, Option.some.injEq] at hpage
        exact hpage ▸ consistent_viewDidLoad
      · rw [Function.update_of_ne hq] at hpage
        exact ih q page hpage
  | changed p old new hold hpages _ hkeeps _ =>
      rw [hpages] at hpage
      by_cases hq : q = p
      · subst hq
        rw [Function.update_self, Option.some.injEq] at hpage
        exact hpage ▸ hkeeps (ih q old hold)
      · rw [Function.update_of_ne hq] at hpage
        exact ih q page hpage

/-- The page on screen is usable after a step exactly when the step was served. -/
theorem usable_step_iff {tr : List Label} {s s' : State} {l : Label}
    (hrun : run step State.init tr = some s) (husable : s.Usable) (hstep : step s l = some s') :
    s'.Usable ↔ Served s l := by
  cases pageStep_of_step hstep with
  | left hlabel hfront _ =>
      subst hlabel
      refine iff_of_true (fun p page hp => ?_) trivial
      rw [hfront] at hp
      cases hp
  | opened p hlabel _ hfront hpages =>
      subst hlabel
      refine iff_of_true (fun q page hq hpage => ?_) trivial
      obtain rfl : p = q := Option.some.inj (hfront.symm.trans hq)
      rw [hpages, Function.update_self, Option.some.injEq] at hpage
      exact hpage ▸ usable_viewDidLoad
  | changed p page page' hpage hpages hfront _ hserved =>
      rw [← hserved (consistent_of_run hrun p page hpage) fun hp => husable p page hp hpage]
      constructor
      · intro h hp
        exact h p page' (hfront.trans hp) (by rw [hpages, Function.update_self])
      · intro h q page'' hq hpage''
        rw [hfront] at hq
        rw [hpages] at hpage''
        by_cases hqp : q = p
        · subst hqp
          rw [Function.update_self, Option.some.injEq] at hpage''
          exact hpage'' ▸ h hq
        · rw [Function.update_of_ne hqp] at hpage''
          exact husable q page'' hq hpage''

/-- The page on screen is usable in every state a run passes through exactly when
every step of the run was served. -/
theorem usable_iff_served {tr : List Label} {s : State} (hrun : run step State.init tr = some s) :
    Throughout step State.Usable State.init tr ↔ AllSteps step Served State.init tr :=
  throughout_iff_allSteps (fun _ _ h => by cases h)
    (fun _ _ _ _ hprefix husable hstep => usable_step_iff hprefix husable hstep) hrun

/-- A detail with a torrent url. -/
def post : CosxcosDetail := ⟨some "post", some "post.torrent", none⟩

/-- The torrent is downloaded on the first visit and found in the cache on the
second. -/
def twoVisits : List Label :=
  [.viewDidLoad 0, .loadDetailComplete 0 (some post) none,
    .downloadTorrent (some (.torrentUrl "post.torrent")),
    .parseTorrent 0 (.torrentUrl "post.torrent") (some "/tmp/a.torrent")
      (some oneFile), .leave, .viewDidLoad 1,
    .loadDetailComplete 1 (some post) (some (some oneFile))]

theorem twoVisits_usable : Throughout step State.Usable State.init twoVisits := by
  obtain ⟨s, hrun⟩ : ∃ s, run step State.init twoVisits = some s := ⟨_, rfl⟩
  refine (usable_iff_served hrun).mpr ?_
  refine ⟨trivial, fun _ => by simp, ?_, fun _ => by simp, trivial, trivial, fun _ => by simp,
    trivial⟩
  intro p page hp hpage
  cases hp
  cases hpage
  exact Option.some_ne_none _

/-- The download of the torrent fails. -/
def failedDownload : List Label :=
  [.viewDidLoad 0, .loadDetailComplete 0 (some post) none,
    .downloadTorrent (some (.torrentUrl "post.torrent")),
    .parseTorrent 0 (.torrentUrl "post.torrent") none none]

/-- After that run the page is stuck: no request is outstanding, no list is shown,
and the button is hidden. -/
theorem failedDownload_stuck : ∃ s page, run step State.init failedDownload = some s ∧
    s.front = some 0 ∧ s.pages 0 = some page ∧ page.outstanding = [] ∧ ¬ s.Usable := by
  refine ⟨_, _, rfl, rfl, rfl, rfl, fun husable => ?_⟩
  rcases husable 0 _ rfl rfl rfl with ⟨hshown, -⟩ | hbutton
  · cases hshown
  · cases hbutton

end TorrentApp.Detail.Page
