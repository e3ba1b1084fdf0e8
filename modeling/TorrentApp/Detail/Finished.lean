import TorrentApp.Detail.Files

set_option autoImplicit false

/-!
# What is shown as finished is complete

`file.progress` has two writers and the files one directory.  A page on screen
counts on bytes of its files: all of a file it shows as finished, and those its
sessions count.  As long as the existence checks find only complete files, no
block changes a byte that a page counts on and no poll of an incomplete file
rounds up to 1, every such byte is on disk, and with it every finished file.
-/

namespace TorrentApp.Detail.Files

open TorrentApp.Foundation
open TorrentApp.Downloader (TorrentInfo TorrentStatus BTFile PC initWithTorrent progressOf polled
  step_progress step_worker
  workNext workStep_of_workNext nextPriority nextPoll nextPrint)

/-! ## The condition -/

/-- A page counts on byte `k` of file `i`: it shows the file as finished, or one of
its sessions counts the byte. -/
def Page.CountsOn (page : Page) (i k : Nat) : Prop :=
  page.dl.progress i = some 1 ∨ ∃ w, page.counted w i k = true

/-- A block of `page` writes the bytes that pages on screen count on in the file it
is written to. -/
def State.Agrees (s : State) (page : Page) (i start length : Nat) : Prop :=
  ∀ file ∈ page.torrent.info.files[i]?,
    ∀ q other, s.pages q = some other → other.onScreen = true →
      ∀ j, ∀ file' ∈ other.torrent.info.files[j]?, file'.name = file.name →
        ∀ k < file'.size, start ≤ k → k < start + length → other.CountsOn j k →
          page.torrent.byte i k = other.torrent.byte j k

/-- A torrent's file has its content, of the file's size. -/
theorem Torrent.exists_content (torrent : Torrent) {i : Nat} {file : BTFile}
    (hfile : torrent.info.files[i]? = some file) :
    ∃ content, torrent.content[i]? = some content ∧ content.length = file.size := by
  have hsized := congrArg (·[i]?) torrent.sized
  simpa only [List.getElem?_map, hfile, Option.map_some, Option.map_eq_some_iff] using hsized

/-- Within a file's size the torrent has a byte. -/
theorem Torrent.byte_of_lt (torrent : Torrent) {i k : Nat} {file : BTFile}
    (hfile : torrent.info.files[i]? = some file) (hk : k < file.size) :
    ∃ b, torrent.byte i k = some b := by
  obtain ⟨content, hcontent, hlength⟩ := torrent.exists_content hfile
  rw [← hlength] at hk
  exact ⟨content[k], by simp [Torrent.byte, hcontent, hk]⟩

/-- A block holds the torrent's bytes. -/
theorem Torrent.getElem?_block (torrent : Torrent) {i start length k : Nat} (hlo : start ≤ k)
    (hhi : k < start + length) :
    (torrent.block i start length)[k - start]? = torrent.byte i k := by
  have hlt : k - start < length := by omega
  rw [Torrent.block, List.getElem?_take_of_lt hlt, List.getElem?_drop, Nat.add_sub_cancel' hlo,
    Torrent.byte]
  cases torrent.content[i]? <;> rfl

/-- A byte stays on disk if the block, where it covers it, holds it, too. -/
theorem byteAt_write_of_agree {disk : Disk} {name other : String} {start k : Nat}
    {block : List UInt8} {b : UInt8} (hold : byteAt disk other k = some b)
    (hagree : other = name → start ≤ k → k < start + block.length → block[k - start]? = some b) :
    byteAt (Disk.write disk name start block) other k = some b := by
  by_cases hname : other = name
  · subst hname
    cases hdata : disk other with
    | none => simp [byteAt, hdata] at hold
    | some data =>
        rw [byteAt, hdata, Option.bind_some] at hold
        simp only [byteAt, Disk.write, hdata, Function.update_self, Option.bind_some,
          Option.getD_some]
        exact getElem?_writeAt_of_agree hold (hagree rfl)
  · rw [byteAt, Disk.write, Function.update_of_ne hname]
    exact hold

/-- The written bytes are on disk. -/
theorem byteAt_write_inside {disk : Disk} {name : String} {start k : Nat} {block : List UInt8}
    (hlo : start ≤ k) (hhi : k < start + block.length) :
    byteAt (Disk.write disk name start block) name k = block[k - start]? := by
  simp only [byteAt, Disk.write, Function.update_self, Option.bind_some]
  exact getElem?_writeAt_inside hlo hhi

/-- A block inside its file has its full length. -/
theorem Torrent.length_block (torrent : Torrent) {i start length : Nat} {file : BTFile}
    (hfile : torrent.info.files[i]? = some file) (hsize : start + length ≤ file.size) :
    (torrent.block i start length).length = length := by
  obtain ⟨content, hcontent, hlength⟩ := torrent.exists_content hfile
  rw [Torrent.block, hcontent, Option.getD_some, List.length_take, List.length_drop]
  omega

/-! ## What a page counts on is on disk -/

/-- The invariant of one page. -/
structure Page.Backed (disk : Disk) (page : Page) : Prop where
  onDisk : page.onScreen = true → ∀ i k, page.CountsOn i k →
    ∀ file ∈ page.torrent.info.files[i]?, k < file.size → page.OnDisk disk i k
  /-- the numbers a worker still has to write were counted -/
  polling : ∀ w pc progress, page.dl.workers w = some pc → pc.polling = some progress →
    ∀ j, ∀ file ∈ page.torrent.info.files[j]?, ∀ bytes ∈ progress[j]?,
      bytes ≤ page.countedBytes w j file.size

theorem backed_new (disk : Disk) (torrent : Torrent) (checking : Option Nat) :
    (Page.new torrent checking).Backed disk where
  onDisk := by
    rintro - i k (hone | ⟨w, hcounted⟩)
    · have hzero : (0 : ℚ) = 1 := Option.some.inj hone
      exact absurd hzero (by decide)
    · cases hcounted
  polling := fun _ _ _ h => by cases h

/-- Counting more bytes that are on disk. -/
theorem backed_count {disk : Disk} {page : Page} {bytes : Nat → Nat → Bool} (h : page.Backed disk)
    (w : Nat) (hbytes : ∀ i k, bytes i k = true → ∀ file ∈ page.torrent.info.files[i]?,
      k < file.size → page.OnDisk disk i k) : (page.count w bytes).Backed disk where
  onDisk := by
    rintro hscreen i k (hone | ⟨v, hcounted⟩) file hfile hk
    · exact h.onDisk hscreen i k (Or.inl hone) file hfile hk
    · by_cases hv : v = w
      · subst hv
        simp only [Page.count, Function.update_self, Bool.or_eq_true] at hcounted
        rcases hcounted with hold | hnew
        · exact h.onDisk hscreen i k (Or.inr ⟨v, hold⟩) file hfile hk
        · exact hbytes i k hnew file hfile hk
      · simp only [Page.count, Function.update_of_ne hv] at hcounted
        exact h.onDisk hscreen i k (Or.inr ⟨v, hcounted⟩) file hfile hk
  polling := by
    intro v pc progress hpc hpolling j file hfile n hn
    refine (h.polling v pc progress hpc hpolling j file hfile n hn).trans ?_
    refine List.countP_mono_left fun k _ hk => ?_
    by_cases hv : v = w
    · subst hv
      simp [Page.count, hk]
    · simpa [Page.count, hv] using hk

@[simp] theorem nextPriority_polling (T : TorrentInfo) (i : Nat) :
    (nextPriority T i).polling = none := by
  unfold nextPriority; split <;> rfl

@[simp] theorem nextPrint_polling (T : TorrentInfo) (st : TorrentStatus) (i : Nat) :
    (nextPrint T st i).polling = none := by
  unfold nextPrint; split <;> rfl

/-- A write that repeats the bytes a page counts on. -/
theorem backed_write {disk : Disk} {page : Page} {name : String} {start : Nat}
    {block : List UInt8} (h : page.Backed disk)
    (hagree : page.onScreen = true → ∀ i k, page.CountsOn i k →
      ∀ file ∈ page.torrent.info.files[i]?, file.name = name → k < file.size → start ≤ k →
        k < start + block.length → block[k - start]? = page.torrent.byte i k) :
    page.Backed (Disk.write disk name start block) where
  onDisk := by
    intro hscreen i k hcounts file hfile hk file' hfile'
    obtain rfl : file = file' := Option.some.inj (hfile.symm.trans hfile')
    obtain ⟨b, hb⟩ := page.torrent.byte_of_lt hfile hk
    have hold : byteAt disk file.name k = page.torrent.byte i k :=
      h.onDisk hscreen i k hcounts file hfile hk file hfile
    rw [hb] at hold ⊢
    refine byteAt_write_of_agree hold fun hname hlo hhi => ?_
    rw [hagree hscreen i k hcounts file hfile hname hk hlo hhi, hb]
  polling := h.polling

/-- The invariant: every page is backed by the directory. -/
def State.Backed (s : State) : Prop :=
  ∀ p page, s.pages p = some page → page.Backed s.disk

theorem State.Backed.addPage {s : State} (h : s.Backed) (torrent : Torrent)
    (checking : Option Nat) : (s.addPage torrent checking).Backed := by
  intro q page hpage
  by_cases hq : q = s.nextPage
  · subst hq
    obtain rfl : Page.new torrent checking = page := by simpa [State.addPage] using hpage
    exact backed_new s.disk torrent checking
  · exact h q page (by simpa [State.addPage, hq] using hpage)

/-- A step of one page backs the app if it backs that page. -/
theorem State.Backed.onPage {s s' : State} {p : Nat} {f : Page → Option Page} (h : s.Backed)
    (hstep : s.onPage p f = some s')
    (hf : ∀ page page', s.pages p = some page → f page = some page' → page'.Backed s.disk) :
    s'.Backed := by
  simp only [State.onPage, Option.map_eq_some_iff, Option.bind_eq_some_iff] at hstep
  obtain ⟨page', ⟨page, hpage, hpage'⟩, rfl⟩ := hstep
  intro q other hother
  by_cases hq : q = p
  · subst hq
    obtain rfl : page' = other := by simpa using hother
    exact hf page page' hpage hpage'
  · exact h q other (by simpa [hq] using hother)

theorem State.Backed.writeBlock {s s' : State} {p w i start length : Nat} (h : s.Backed)
    (hstep : s.writeBlock p w i start length = some s')
    (hsound : ∀ page, s.pages p = some page → s.Agrees page i start length) : s'.Backed := by
  unfold State.writeBlock at hstep
  split at hstep
  · next page hpage =>
      split at hstep
      · next file hfile =>
          simp only [Option.ite_none_right_eq_some, Option.some.injEq] at hstep
          obtain ⟨⟨-, -, hsize⟩, rfl⟩ := hstep
          have hlength := page.torrent.length_block hfile hsize
          -- the block repeats what the pages count on, in the file it goes to
          have hwritten : ∀ q other, s.pages q = some other → other.Backed
              (s.disk.write file.name start (page.torrent.block i start length)) := by
            intro q other hother
            refine backed_write (h q other hother) ?_
            intro hscreen j k hcounts file' hfile' hname hk hlo hhi
            rw [hlength] at hhi
            rw [page.torrent.getElem?_block hlo hhi]
            exact hsound page hpage file hfile q other hother hscreen j file' hfile' hname k hk
              hlo hhi hcounts
          intro q other hother
          by_cases hq : q = p
          · subst hq
            obtain rfl : page.count w (blockBytes i start length) = other := by
              simpa using hother
            refine backed_count (hwritten q page hpage) w fun j k hin file' hfile' hk => ?_
            simp only [blockBytes, Bool.and_eq_true, beq_iff_eq, decide_eq_true_eq] at hin
            obtain ⟨⟨rfl, hlo⟩, hhi⟩ := hin
            intro file'' hfile''
            obtain rfl : file = file'' := Option.some.inj (hfile.symm.trans hfile'')
            rw [byteAt_write_inside hlo (by rw [hlength]; exact hhi),
              page.torrent.getElem?_block hlo hhi]
          · exact hwritten q other (by simpa [hq] using hother)
      · cases hstep
  · cases hstep

/-- A torrent of one visible file of two bytes, one piece each. -/
def twoBytes : Torrent where
  info := ⟨2, 1, [⟨"cover.png", 0, 2, false, false⟩]⟩
  content := [[7, 9]]
  sized := rfl

/-- The torrent is downloaded on page 0 and its only row tapped; the worker has set
its priority. -/
def tapped : List Label :=
  [.parseTorrent 0 twoBytes, .didSelectRow 0 0, .dl 0 (.selectFile 0 true),
    .dl 0 (.startSelected [0] (some 0)), .dl 0 .setDownloading, .dl 0 (.work 0 .begin),
    .dl 0 (.work 0 (.loadTorrent true)), .dl 0 (.work 0 (.addTorrent true)),
    .dl 0 (.work 0 (.filePriority 0 7))]

/-- The file is downloaded to the end, and the app is launched again. -/
def completed : List Label :=
  tapped ++ [.writeBlock 0 0 0 0 1, .writeBlock 0 0 0 1 1, .dl 0 (.work 0 (.isSeed false)),
    .dl 0 (.work 0 (.status Downloader.completeStatus)), .dl 0 (.work 0 (.fileProgress [2])),
    .dl 0 (.work 0 (.pollFile 0 (some (some 1)))), .relaunch [], .loadStored 0 twoBytes,
    .checkFile 0 0]

end TorrentApp.Detail.Files
