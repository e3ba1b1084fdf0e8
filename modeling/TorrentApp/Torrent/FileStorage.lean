import TorrentApp.Foundation.Blocks
import TorrentApp.Downloader.Worker

set_option autoImplicit false

/-!
# `file_storage` and what a `TorrentInfo` shows of it

libtorrent keeps the files of a torrent one behind the other on a line of
`total_size` bytes, cut into pieces of `piece_length` bytes.  `TorrentInfo` asks
`map_file` for the pieces of each file three times, and `BTFilePiecesInfo` works
an end piece out for itself.
-/

namespace TorrentApp.Torrent

open TorrentApp.Foundation

/-! ## Machine integers -/

/-- A wider integer stored into an `int`. -/
def toInt (x : Int) : Int := Int.bmod x (2 ^ 32)

theorem toInt_of_range {x : Int} (hlo : -2 ^ 31 ≤ x) (hhi : x < 2 ^ 31) : toInt x = x :=
  Int.bmod_eq_of_le (by omega) (by omega)

theorem toInt_natCast {n : Nat} (h : n < 2 ^ 31) : toInt n = n :=
  toInt_of_range (by omega) (by omega)

theorem toInt_lt (x : Int) : toInt x < 2 ^ 31 := by
  have h : toInt x < (2 ^ 32 + 1) / 2 := Int.bmod_lt (by decide)
  omega

theorem le_toInt (x : Int) : -2 ^ 31 ≤ toInt x := by
  have h : -((2 ^ 32 : Nat) / 2 : Int) ≤ toInt x := Int.le_bmod (by decide)
  omega

theorem toInt_natCast_le (n : Nat) : toInt n ≤ n := by
  rw [toInt, Int.bmod_def]
  split
  · omega
  · omega

/-- `offset` and `size` of an `internal_file_entry` are bit fields of 48 bits. -/
def fieldLimit : Nat := 2 ^ 48

/-! ## The storage -/

/-- The fields of `internal_file_entry` that a `BTFile` shows. -/
structure InternalFileEntry where
  path : String
  offset : Nat
  size : Nat
  pad_file : Bool
  hidden_attribute : Bool
  executable_attribute : Bool
  deriving DecidableEq, Repr

structure FileStorage where
  piece_length : Nat
  num_pieces : Nat
  files : List InternalFileEntry
  total_size : Nat
  deriving DecidableEq, Repr

def FileStorage.num_files (st : FileStorage) : Nat := st.files.length

/-- What `extract_single_file` passes to `add_file_borrow`. -/
structure NewFile where
  path : String
  file_size : Nat
  pad_file : Bool
  hidden_attribute : Bool
  executable_attribute : Bool
  deriving DecidableEq, Repr

/-- `file_storage::add_file_borrow`. -/
def FileStorage.add_file (st : FileStorage) (new : NewFile) : FileStorage :=
  let e : InternalFileEntry :=
    { path := new.path
      offset := st.total_size % fieldLimit
      size := new.file_size % fieldLimit
      pad_file := new.pad_file
      hidden_attribute := new.hidden_attribute
      executable_attribute := new.executable_attribute }
  { st with files := st.files ++ [e], total_size := st.total_size + e.size }

structure PeerRequest where
  piece : Int
  start : Int
  length : Int
  deriving DecidableEq, Repr

/-- `file_storage::map_file`. -/
def FileStorage.map_file (st : FileStorage) (file_index file_offset : Nat) (size : Int) :
    PeerRequest :=
  match st.files[file_index]? with
  | none => ⟨st.num_pieces, 0, 0⟩
  | some file =>
      let offset := file_offset + file.offset
      if st.total_size ≤ offset then ⟨st.num_pieces, 0, 0⟩
      else
        { piece := toInt (offset / st.piece_length : Nat)
          start := toInt (offset % st.piece_length : Nat)
          length :=
            if (st.total_size : Int) < offset + size then toInt (st.total_size - offset : Nat)
            else size }

/-! ## What `torrent_info` accepts -/

/-- A storage as `torrent_info` leaves it when it reports no error and the files
take less than the 48 bits of their offsets. -/
structure AcceptedStorage extends FileStorage where
  piece_length_pos : 0 < piece_length
  piece_length_int : piece_length < 2 ^ 31
  abut : Abut InternalFileEntry.offset InternalFileEntry.size 0 files
  total_eq : total_size = (files.map InternalFileEntry.size).sum
  size_field : ∀ f ∈ files, f.size < fieldLimit
  num_pieces_eq : num_pieces = (total_size + piece_length - 1) / piece_length
  num_pieces_int : num_pieces < 2 ^ 31

inductive InfoError where
  | torrent_missing_piece_length
  | no_files_in_torrent
  | too_many_pieces_in_torrent
  deriving DecidableEq, Repr

/-- `(std::numeric_limits<int>::max)()`. -/
def intMax : Nat := 2 ^ 31 - 1

/-- The storage of a torrent's files before its pieces are counted. -/
def FileStorage.filled (piece_length : Nat) (files : List NewFile) : FileStorage :=
  files.foldl FileStorage.add_file ⟨piece_length, 0, [], 0⟩

/-- The part of `torrent_info::parse_info_section` that fills the storage: the piece
length, the files, and the checks on the number of pieces. -/
def parse_info_section (piece_length : Int) (files : List NewFile) :
    Except InfoError FileStorage :=
  let pl := toInt piece_length
  if pl ≤ 0 then .error .torrent_missing_piece_length
  else
    let st := FileStorage.filled pl.toNat files
    if st.num_files = 0 then .error .no_files_in_torrent
    else if (intMax - st.piece_length) * st.piece_length ≤ st.total_size then
      .error .too_many_pieces_in_torrent
    else
      let num_pieces := (st.total_size + st.piece_length - 1) / st.piece_length
      if intMax / 20 ≤ num_pieces then .error .too_many_pieces_in_torrent
      else .ok { st with num_pieces := num_pieces }

/-- What the loop over the files keeps while the offsets fit their field. -/
structure FileStorage.Laid (st : FileStorage) : Prop where
  abut : Abut InternalFileEntry.offset InternalFileEntry.size 0 st.files
  total_eq : st.total_size = (st.files.map InternalFileEntry.size).sum
  size_field : ∀ f ∈ st.files, f.size < fieldLimit

theorem FileStorage.Laid.add_file {st : FileStorage} (h : st.Laid) (new : NewFile)
    (hfits : st.total_size < fieldLimit) : (st.add_file new).Laid where
  abut := by
    apply h.abut.append
    change st.total_size % fieldLimit = _
    rw [Nat.mod_eq_of_lt hfits, h.total_eq, Nat.zero_add]
  total_eq := by
    simp only [FileStorage.add_file, List.map_append, List.sum_append, List.map_cons,
      List.map_nil, List.sum_singleton, h.total_eq]
  size_field := by
    intro f hf
    rcases List.mem_append.mp hf with hold | hnew
    · exact h.size_field f hold
    · rw [List.mem_singleton.mp hnew]
      exact Nat.mod_lt _ (by decide)

theorem FileStorage.total_size_le_foldl (files : List NewFile) (st : FileStorage) :
    st.total_size ≤ (files.foldl FileStorage.add_file st).total_size := by
  induction files generalizing st with
  | nil => exact le_refl _
  | cons new rest ih => exact (Nat.le_add_right _ _).trans (ih (st.add_file new))

theorem FileStorage.Laid.foldl {files : List NewFile} {st : FileStorage} (h : st.Laid)
    (hfits : (files.foldl FileStorage.add_file st).total_size < fieldLimit) :
    (files.foldl FileStorage.add_file st).Laid := by
  induction files generalizing st with
  | nil => exact h
  | cons new rest ih =>
    have hbefore : st.total_size < fieldLimit :=
      (FileStorage.total_size_le_foldl (new :: rest) st).trans_lt hfits
    exact ih (h.add_file new hbefore) hfits

theorem FileStorage.foldl_piece_length (files : List NewFile) (st : FileStorage) :
    (files.foldl FileStorage.add_file st).piece_length = st.piece_length := by
  induction files generalizing st with
  | nil => rfl
  | cons new rest ih => exact ih (st.add_file new)

/-- The checks of `parse_info_section` leave an accepted storage behind. -/
theorem parse_info_section_accepted {piece_length : Int} {files : List NewFile}
    {st : FileStorage} (h : parse_info_section piece_length files = .ok st)
    (hfits : st.total_size < fieldLimit) :
    ∃ accepted : AcceptedStorage, accepted.toFileStorage = st := by
  simp only [parse_info_section] at h
  split at h
  · cases h
  · rename_i hpl
    split at h
    · cases h
    · split at h
      · cases h
      · split at h
        · cases h
        · rename_i hnum
          cases h
          have hlaid : (FileStorage.filled (toInt piece_length).toNat files).Laid :=
            FileStorage.Laid.foldl ⟨trivial, rfl, fun f hf => by cases hf⟩ hfits
          have hpiece : (FileStorage.filled (toInt piece_length).toNat files).piece_length =
              (toInt piece_length).toNat := FileStorage.foldl_piece_length files _
          have hlt := toInt_lt piece_length
          generalize FileStorage.filled (toInt piece_length).toNat files = filled at *
          refine ⟨{ toFileStorage := { filled with
                      num_pieces := (filled.total_size + filled.piece_length - 1) /
                        filled.piece_length }
                    piece_length_pos := ?_
                    piece_length_int := ?_
                    abut := hlaid.abut
                    total_eq := hlaid.total_eq
                    size_field := hlaid.size_field
                    num_pieces_eq := rfl
                    num_pieces_int := ?_ }, rfl⟩
          · rw [hpiece]
            omega
          · rw [hpiece]
            omega
          · exact (Nat.lt_of_not_le hnum).trans (by decide)

/-! ## What is shown -/

structure BTFilePiecesInfo where
  startPiece : Int
  endPiece : Int
  startPieceOffset : Int
  length : Int
  deriving DecidableEq, Repr

/-- `-[BTFilePiecesInfo initWithPeerRequest:pieceLength:]`. -/
def BTFilePiecesInfo.initWithPeerRequest (pr : PeerRequest) (pl : Nat) : BTFilePiecesInfo where
  startPiece := pr.piece
  endPiece := pr.piece + pr.length.tdiv pl
  startPieceOffset := pr.start
  length := pr.length

/-- A `BTFile`: what the downloader reads of it, and its places in the torrent. -/
structure BTFile extends Downloader.BTFile where
  executable : Bool
  firstPiece : Int
  lastPiece : Int
  piecesInfo : BTFilePiecesInfo
  deriving DecidableEq, Repr

/-- `-[BTFile initWithFileStorage:index:]`. -/
def BTFile.initWithFileStorage (st : FileStorage) (i : Fin st.num_files) : BTFile :=
  let file := st.files.get i
  { name := file.path
    offset := file.offset
    size := file.size
    isPadFile := file.pad_file
    hidden := file.hidden_attribute
    executable := file.executable_attribute
    firstPiece := (st.map_file i 0 0).piece
    -- the larger of `size - 1` and 0
    lastPiece := (st.map_file i (file.size - 1) 0).piece
    piecesInfo :=
      .initWithPeerRequest (st.map_file i 0 (toInt file.size)) st.piece_length }

/-- `-[TorrentInfo parseFiles:]`. -/
def parseFiles (st : FileStorage) : List BTFile :=
  List.ofFn (BTFile.initWithFileStorage st)

/-- The properties that `parseBaseInfo:` and `parseFiles:` set. -/
structure TorrentInfo where
  piecesCount : Nat
  pieceSize : Nat
  files : List BTFile
  deriving DecidableEq, Repr

/-- What `-[TorrentInfo initWithPath:]` builds from `t.files()`. -/
def TorrentInfo.ofStorage (st : FileStorage) : TorrentInfo where
  piecesCount := st.num_pieces
  pieceSize := st.piece_length
  files := parseFiles st

/-- The torrent as the downloader reads it. -/
def TorrentInfo.forDownload (info : TorrentInfo) : Downloader.TorrentInfo where
  piecesCount := info.piecesCount
  pieceSize := info.pieceSize
  files := info.files.map BTFile.toBTFile

/-- Index `i` of `torrentInfo.files` is file `i` of the storage. -/
theorem map_parseFiles {α : Type*} (st : FileStorage) (f : BTFile → α)
    (g : InternalFileEntry → α)
    (h : ∀ i, f (BTFile.initWithFileStorage st i) = g (st.files.get i)) :
    (parseFiles st).map f = st.files.map g := by
  rw [parseFiles, List.map_ofFn]
  have hcomp : (f ∘ BTFile.initWithFileStorage st) = fun i => g (st.files.get i) := funext h
  rw [hcomp]
  exact List.ofFn_getElem_eq_map st.files g

end TorrentApp.Torrent
