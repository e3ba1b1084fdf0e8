import TorrentApp.Torrent.Bdecode
import TorrentApp.Torrent.FileStorage

set_option autoImplicit false

/-!
# Opening a torrent file

`+[TorrentInfo infoWithfile:]` in three stages: `load_file` reads the file through
the C library, `decode:` hands the buffer to `bdecode`, `makeTorrentInfo:` the node
to libtorrent.  Every stage reports by an integer.  What the C library answers is a
parameter, and so is `torrent_info`'s reading of a node; the calls on the stream and
the places where the buffer is indexed are logged.
-/

namespace TorrentApp.Torrent

/-! ## The C library -/

/-- What the calls on the stream of one path answer. -/
structure Stdio where
  fopen : Bool
  fseekEnd : Int
  ftell : Int
  fseekSet : Int
  /-- the bytes that `fread` stores when it is asked for `n` -/
  fread : (n : Nat) → { bytes : List UInt8 // bytes.length ≤ n }

inductive Event where
  | fopen (opened : Bool)
  | fseek
  | ftell
  | fread (n : Nat)
  | fclose
  /-- the address of element `i` of a vector of `size` elements is taken -/
  | index (i size : Nat)
  deriving DecidableEq, Repr

/-- What `load_file` returns and leaves in `v`. -/
structure Loaded where
  status : Int
  v : List UInt8
  events : List Event
  deriving DecidableEq, Repr

/-- `load_file`, on a vector that is empty. -/
def load_file (io : Stdio) (limit : Int) : Loaded :=
  if !io.fopen then ⟨-1, [], [.fopen false]⟩
  else if io.fseekEnd ≠ 0 then ⟨-1, [], [.fopen true, .fseek, .fclose]⟩
  else if io.ftell < 0 then ⟨-1, [], [.fopen true, .fseek, .ftell, .fclose]⟩
  else if limit < io.ftell then ⟨-2, [], [.fopen true, .fseek, .ftell, .fclose]⟩
  else if io.fseekSet ≠ 0 then ⟨-1, [], [.fopen true, .fseek, .ftell, .fseek, .fclose]⟩
  else
    let s := io.ftell.toNat
    if s = 0 then ⟨0, [], [.fopen true, .fseek, .ftell, .fseek, .fclose]⟩
    else
      let bytes := (io.fread s).val
      -- `resize` filled the rest with 0
      let v := bytes ++ List.replicate (s - bytes.length) 0
      let r := toInt bytes.length
      let events := [.fopen true, .fseek, .ftell, .fseek, .index 0 s, .fread s, .fclose]
      if r < 0 then ⟨-1, v, events⟩
      else if r ≠ io.ftell then ⟨-3, v, events⟩
      else ⟨0, v, events⟩

/-! ## The stages of `initWithPath:` -/

/-- What `readFile:buf:` prints to `stderr`. -/
inductive Message where
  | fileReadError
  | fileTooBig
  | failedToLoadFile
  deriving DecidableEq, Repr

/-- What the `switch` over the status prints: its cases fall through. -/
def switchMessages (status : Int) : List Message :=
  if status = -1 then [.fileReadError, .fileTooBig, .failedToLoadFile]
  else if status = -2 then [.fileTooBig, .failedToLoadFile]
  else if status = -3 then [.failedToLoadFile]
  else []

structure FileRead where
  result : Int
  buf : List UInt8
  events : List Event
  messages : List Message
  deriving DecidableEq, Repr

/-- `-[TorrentInfo readFile:buf:]`. -/
def readFile (io : Stdio) : FileRead :=
  let loaded := load_file io (40 * 1000000)
  { result :=
      if loaded.status = -1 ∨ loaded.status = -2 ∨ loaded.status = -3 then 1 else 0
    buf := loaded.v
    events := loaded.events
    messages := switchMessages loaded.status }

/-- `depth_limit` and `item_limit` of `decode:node:`. -/
def decodeDepthLimit : Nat := 1000

def decodeItemLimit : Nat := 1000000

/-- `-[TorrentInfo decode:node:]`: the node, and the two addresses taken. -/
def decode (buf : List UInt8) : Except BdecodeError BdecodeNode × List Event :=
  (bdecode buf decodeDepthLimit decodeItemLimit, [.index 0 buf.length, .index 0 buf.length])

structure Opened where
  info : Option TorrentInfo
  events : List Event
  messages : List Message
  deriving DecidableEq, Repr

variable {ε : Type*}

/-- `-[TorrentInfo initWithPath:]`, up to the fields no one here reads;
`parse_torrent_file` is what `torrent_info(node, ec)` makes of a node. -/
def infoWithfile (parse_torrent_file : BdecodeNode → Except ε FileStorage) (io : Stdio) :
    Opened :=
  let read := readFile io
  if read.result ≠ 0 then ⟨none, read.events, read.messages⟩
  else
    let decoded := decode read.buf
    let events := read.events ++ decoded.2
    match decoded.1 with
    | .error _ => ⟨none, events, read.messages⟩
    | .ok node =>
        match parse_torrent_file node with
        | .error _ => ⟨none, events, read.messages⟩
        | .ok st => ⟨some (.ofStorage st), events, read.messages⟩

/-! ## What `load_file` does -/

/-- The file was opened and its size found to be within the limit. -/
def Stdio.Sized (io : Stdio) (limit : Int) : Prop :=
  io.fopen = true ∧ io.fseekEnd = 0 ∧ 0 ≤ io.ftell ∧ io.ftell ≤ limit ∧ io.fseekSet = 0

/-- The bytes of the file, when it is read whole. -/
def Stdio.bytes (io : Stdio) : List UInt8 := (io.fread io.ftell.toNat).val

/-- A file that reports no bytes. -/
def Stdio.Empty (io : Stdio) : Prop :=
  io.fopen = true ∧ io.fseekEnd = 0 ∧ io.ftell = 0 ∧ io.fseekSet = 0

instance (io : Stdio) : Decidable io.Empty := inferInstanceAs (Decidable (_ ∧ _ ∧ _ ∧ _))

/-- The calls on the stream. -/
def streamCalls (events : List Event) : List Event :=
  events.filter fun
    | .index _ _ => false
    | _ => true

/-- A stream is closed once, as the last call on it, if it was opened. -/
def ClosedOnce (events : List Event) : Prop :=
  streamCalls events = [.fopen false] ∨
    ∃ calls, streamCalls events = .fopen true :: (calls ++ [.fclose]) ∧
      .fclose ∉ calls ∧ ∀ opened, .fopen opened ∉ calls

/-- Every index is inside its vector. -/
def InBounds (events : List Event) : Prop :=
  ∀ i size, .index i size ∈ events → i < size

variable {io : Stdio} {limit : Int}

theorem inBounds_of_streamCalls {events : List Event} (h : streamCalls events = events) :
    InBounds events := by
  intro i size hi
  rw [← h, streamCalls, List.mem_filter] at hi
  exact absurd hi.2 Bool.false_ne_true

/-- Every error of the first half gives up before the buffer is touched. -/
theorem load_file_unsized (h : ¬ io.Sized limit) :
    ((load_file io limit).status = -1 ∨ (load_file io limit).status = -2) ∧
      InBounds (load_file io limit).events := by
  rw [load_file]
  split
  · exact ⟨by decide, inBounds_of_streamCalls rfl⟩
  rename_i hopen
  split
  · exact ⟨by decide, inBounds_of_streamCalls rfl⟩
  rename_i hend
  split
  · exact ⟨by decide, inBounds_of_streamCalls rfl⟩
  rename_i hneg
  split
  · exact ⟨by decide, inBounds_of_streamCalls rfl⟩
  rename_i hbig
  split
  · exact ⟨by decide, inBounds_of_streamCalls rfl⟩
  rename_i hset
  refine absurd ⟨?_, ?_, ?_, ?_, ?_⟩ h
  · simpa using hopen
  · simpa using hend
  · omega
  · omega
  · simpa using hset

theorem load_file_sized (h : io.Sized limit) :
    load_file io limit =
      if io.ftell.toNat = 0 then ⟨0, [], [.fopen true, .fseek, .ftell, .fseek, .fclose]⟩
      else
        { status :=
            if toInt io.bytes.length < 0 then -1
            else if toInt io.bytes.length ≠ io.ftell then -3 else 0
          v := io.bytes ++ List.replicate (io.ftell.toNat - io.bytes.length) 0
          events := [.fopen true, .fseek, .ftell, .fseek, .index 0 io.ftell.toNat,
            .fread io.ftell.toNat, .fclose] } := by
  obtain ⟨hopen, hend, hneg, hbig, hset⟩ := h
  rw [load_file, hopen, if_neg (by decide), if_neg (by simp [hend]), if_neg (by omega),
    if_neg (by omega), if_neg (by simp [hset])]
  dsimp only
  split
  · rfl
  · unfold Stdio.bytes
    by_cases hr : toInt (io.fread io.ftell.toNat).val.length < 0
    · rw [if_pos hr, if_pos hr]
    · rw [if_neg hr, if_neg hr]
      by_cases hs : toInt (io.fread io.ftell.toNat).val.length ≠ io.ftell
      · rw [if_pos hs, if_pos hs]
      · rw [if_neg hs, if_neg hs]

/-- A stream that was opened is closed exactly once, whatever fails. -/
theorem closedOnce_load_file (io : Stdio) (limit : Int) :
    ClosedOnce (load_file io limit).events := by
  have hread : ∀ status v n, ClosedOnce (Loaded.events ⟨status, v,
      [.fopen true, .fseek, .ftell, .fseek, .index 0 n, .fread n, .fclose]⟩) := fun _ _ n =>
    Or.inr ⟨[.fseek, .ftell, .fseek, .fread n], rfl, by simp, by simp⟩
  rw [load_file]
  split
  · exact Or.inl rfl
  split
  · exact Or.inr ⟨[.fseek], rfl, by simp, by simp⟩
  split
  · exact Or.inr ⟨[.fseek, .ftell], rfl, by simp, by simp⟩
  split
  · exact Or.inr ⟨[.fseek, .ftell], rfl, by simp, by simp⟩
  split
  · exact Or.inr ⟨[.fseek, .ftell, .fseek], rfl, by simp, by simp⟩
  dsimp only
  split
  · exact Or.inr ⟨[.fseek, .ftell, .fseek], rfl, by simp, by simp⟩
  split
  · exact hread _ _ _
  split
  · exact hread _ _ _
  · exact hread _ _ _

/-! ## What `readFile:buf:` passes on -/

/-- The file was read whole, within the limit of `readFile:buf:`. -/
def Stdio.ReadWhole (io : Stdio) : Prop :=
  io.Sized (40 * 1000000) ∧ (io.bytes.length : Int) = io.ftell

theorem length_bytes_le (io : Stdio) : io.bytes.length ≤ io.ftell.toNat :=
  (io.fread io.ftell.toNat).property

/-- Every error becomes the result 1, and only an error. -/
theorem readFile_result (io : Stdio) : (readFile io).result = 0 ↔ io.ReadWhole := by
  have hlength := length_bytes_le io
  rw [readFile]
  dsimp only
  by_cases h : io.Sized (40 * 1000000)
  · have hrange : toInt io.bytes.length = io.bytes.length := by
      apply toInt_natCast
      have := h.2.2.2.1
      omega
    have hneg := h.2.2.1
    have hcount : ¬ toInt io.bytes.length < 0 := by
      rw [hrange]
      omega
    rw [load_file_sized h]
    by_cases hzero : io.ftell.toNat = 0
    · rw [if_pos hzero, if_neg (by decide)]
      exact ⟨fun _ => ⟨h, by omega⟩, fun _ => rfl⟩
    · rw [if_neg hzero]
      dsimp only
      rw [if_neg hcount, hrange]
      by_cases hwhole : (io.bytes.length : Int) = io.ftell
      · rw [if_neg (not_not_intro hwhole), if_neg (by decide)]
        exact ⟨fun _ => ⟨h, hwhole⟩, fun _ => rfl⟩
      · rw [if_pos hwhole, if_pos (by decide)]
        exact ⟨fun hone => absurd hone (by decide), fun hread => absurd hread.2 hwhole⟩
  · obtain ⟨hstatus, -⟩ := load_file_unsized h
    rw [if_pos (by omega)]
    exact ⟨fun hone => absurd hone (by decide), fun hread => absurd hread.1 h⟩

/-- A file that is read whole is what the buffer holds. -/
theorem readFile_buf (h : io.ReadWhole) : (readFile io).buf = io.bytes := by
  obtain ⟨hsized, hwhole⟩ := h
  change (load_file io (40 * 1000000)).v = _
  rw [load_file_sized hsized]
  split
  · rename_i hzero
    symm
    apply List.eq_nil_of_length_eq_zero
    omega
  · rw [show io.ftell.toNat - io.bytes.length = 0 by omega, List.replicate_zero, List.append_nil]

theorem inBounds_readFile (io : Stdio) : InBounds (readFile io).events := by
  change InBounds (load_file io (40 * 1000000)).events
  by_cases h : io.Sized (40 * 1000000)
  · rw [load_file_sized h]
    split
    · exact inBounds_of_streamCalls rfl
    · rename_i hpos
      intro i size hi
      simp only [List.mem_cons, reduceCtorEq, Event.index.injEq, false_or, List.not_mem_nil,
        or_false] at hi
      omega
  · exact (load_file_unsized h).2

/-! ## All or nothing -/

variable {parse_torrent_file : BdecodeNode → Except ε FileStorage}

/-- What a file has to be for a torrent to come of it. -/
def Accepted (parse_torrent_file : BdecodeNode → Except ε FileStorage) (io : Stdio) : Prop :=
  io.ReadWhole ∧ ∃ node st, bdecode io.bytes decodeDepthLimit decodeItemLimit = .ok node ∧
    parse_torrent_file node = .ok st

/-- Opening a torrent file is all or nothing. -/
structure AllOrNothing (parse_torrent_file : BdecodeNode → Except ε FileStorage) (io : Stdio) :
    Prop where
  opens : (infoWithfile parse_torrent_file io).info.isSome ↔ Accepted parse_torrent_file io
  closed : ClosedOnce (infoWithfile parse_torrent_file io).events
  indexed : InBounds (infoWithfile parse_torrent_file io).events

/-- What comes of the buffer of a file that was read whole. -/
theorem info_of_readWhole (h : io.ReadWhole) :
    (infoWithfile parse_torrent_file io).info =
      match bdecode io.bytes decodeDepthLimit decodeItemLimit with
      | .error _ => none
      | .ok node =>
          match parse_torrent_file node with
          | .error _ => none
          | .ok st => some (.ofStorage st) := by
  rw [infoWithfile, if_neg (not_not_intro ((readFile_result io).mpr h)), readFile_buf h, decode]
  cases bdecode io.bytes decodeDepthLimit decodeItemLimit with
  | error e => rfl
  | ok node =>
    dsimp only
    cases parse_torrent_file node with
    | error e => rfl
    | ok st => rfl

theorem info_of_not_readWhole (h : ¬ io.ReadWhole) :
    infoWithfile parse_torrent_file io =
      ⟨none, (readFile io).events, (readFile io).messages⟩ := by
  rw [infoWithfile, if_pos (fun hzero => h ((readFile_result io).mp hzero))]

theorem infoWithfile_isSome (io : Stdio) :
    (infoWithfile parse_torrent_file io).info.isSome ↔ Accepted parse_torrent_file io := by
  by_cases h : io.ReadWhole
  · rw [info_of_readWhole h, Accepted]
    cases hnode : bdecode io.bytes decodeDepthLimit decodeItemLimit with
    | error e => simp
    | ok node =>
      cases hst : parse_torrent_file node with
      | error e => simp [hst]
      | ok st => simp [h, hst]
  · rw [info_of_not_readWhole h]
    constructor
    · intro hsome
      cases hsome
    · intro haccepted
      exact absurd haccepted.1 h

/-- The two addresses of `decode:node:` follow the events of a file read whole. -/
theorem events_of_readWhole (h : io.ReadWhole) :
    (infoWithfile parse_torrent_file io).events =
      (readFile io).events ++ [.index 0 io.bytes.length, .index 0 io.bytes.length] := by
  rw [infoWithfile, if_neg (not_not_intro ((readFile_result io).mpr h)), readFile_buf h, decode]
  dsimp only
  split
  · rfl
  · split <;> rfl

theorem closedOnce_infoWithfile (io : Stdio) :
    ClosedOnce (infoWithfile parse_torrent_file io).events := by
  have hread : ClosedOnce (readFile io).events := closedOnce_load_file io _
  by_cases h : io.ReadWhole
  · rw [events_of_readWhole h]
    simpa [ClosedOnce, streamCalls] using hread
  · rw [info_of_not_readWhole h]
    exact hread

/-- A file that reports no bytes is read whole, and its buffer has no element 0. -/
theorem readWhole_of_empty (h : io.Empty) : io.ReadWhole ∧ io.bytes = [] := by
  obtain ⟨hopen, hend, htell, hset⟩ := h
  have hlength := length_bytes_le io
  have hnil : io.bytes = [] := by
    apply List.eq_nil_of_length_eq_zero
    omega
  refine ⟨⟨⟨hopen, hend, by omega, by omega, hset⟩, ?_⟩, hnil⟩
  rw [hnil, htell]
  rfl

theorem inBounds_infoWithfile_iff (io : Stdio) :
    InBounds (infoWithfile parse_torrent_file io).events ↔ ¬ io.Empty := by
  constructor
  · intro h hempty
    obtain ⟨hread, hnil⟩ := readWhole_of_empty hempty
    have hzero : (0 : Nat) < io.bytes.length := by
      apply h 0
      rw [events_of_readWhole hread]
      simp
    rw [hnil] at hzero
    exact absurd hzero (by decide)
  · intro hempty
    by_cases h : io.ReadWhole
    · rw [events_of_readWhole h]
      intro i size hi
      rcases List.mem_append.mp hi with hread | hdecode
      · exact inBounds_readFile io i size hread
      · have hpos : 0 < io.bytes.length := by
          by_contra hzero
          obtain ⟨⟨hopen, hend, hneg, -, hset⟩, hwhole⟩ := h
          exact hempty ⟨hopen, hend, by omega, hset⟩
        simp only [List.mem_cons, Event.index.injEq, List.not_mem_nil, or_false] at hdecode
        omega
    · rw [info_of_not_readWhole h]
      exact inBounds_readFile io

/-- Opening a file is all or nothing for every answer of the C library but one: a file
that reports no bytes. -/
theorem allOrNothing_iff (parse_torrent_file : BdecodeNode → Except ε FileStorage)
    (io : Stdio) : AllOrNothing parse_torrent_file io ↔ ¬ io.Empty := by
  constructor
  · intro h
    exact (inBounds_infoWithfile_iff io).mp h.indexed
  · intro h
    exact ⟨infoWithfile_isSome io, closedOnce_infoWithfile io,
      (inBounds_infoWithfile_iff io).mpr h⟩

/-- An ordinary file that holds `content`. -/
def Stdio.ofBytes (content : List UInt8) : Stdio where
  fopen := true
  fseekEnd := 0
  ftell := content.length
  fseekSet := 0
  fread n := ⟨content.take n, List.length_take_le n content⟩

/-- Of an empty file `decode:node:` takes the address of element 0. -/
theorem not_allOrNothing_emptyFile :
    ¬ AllOrNothing (fun _ => Except.error InfoError.no_files_in_torrent) (Stdio.ofBytes []) := by
  intro h
  have hlt : (0 : Nat) < 0 := h.indexed 0 0 (by decide)
  exact absurd hlt (by decide)

end TorrentApp.Torrent
