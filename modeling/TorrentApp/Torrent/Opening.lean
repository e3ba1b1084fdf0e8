import TorrentApp.Torrent.LoadFile
import TorrentApp.Torrent.Pieces

set_option autoImplicit false

/-!
# Displaying and downloading the same file

The page shows a torrent that `infoWithfile:` read; the worker has libtorrent read
the file again, with `torrent_info(path, ec, 0)`.  The two go through a `load_file`
and limits of their own, and hand the node to the same parser.
-/

namespace TorrentApp.Torrent

open TorrentApp.Foundation.Bencode

/-! ## `torrent_info(path, ec, 0)` -/

/-- What a `libtorrent::file` on one path answers; `none` stands for a call that sets
`ec`. -/
structure LibFile where
  open_ : Bool
  get_size : Option Nat
  /-- the bytes that `readv` stores when it is asked for `n` -/
  readv : (n : Nat) → Option { bytes : List UInt8 // bytes.length ≤ n }

structure LibLoaded where
  status : Int
  v : List UInt8
  /-- `ec` is set -/
  failed : Bool
  deriving DecidableEq, Repr

/-- The `load_file` of `torrent_info.cpp`. -/
def LibFile.load_file (f : LibFile) : LibLoaded :=
  if !f.open_ then ⟨-1, [], true⟩
  else
    match f.get_size with
    | none => ⟨-1, [], true⟩
    | some s =>
        if s = 0 then ⟨0, [], false⟩
        else
          match f.readv s with
          | none => ⟨-3, List.replicate s 0, true⟩
          | some bytes =>
              let v := bytes.val ++ List.replicate (s - bytes.val.length) 0
              if bytes.val.length ≠ s then ⟨-3, v, false⟩ else ⟨0, v, false⟩

/-- What `ec` says. -/
inductive LoadError (ε : Type*) where
  | system
  | bdecode (e : BdecodeError)
  | torrent (e : ε)
  deriving DecidableEq, Repr

/-- A `torrent_info`, by its files, and the `ec` it was built with. -/
structure Constructed (ε : Type*) where
  ec : Option (LoadError ε)
  files : FileStorage
  deriving DecidableEq, Repr

/-- The files of a `torrent_info` that parsed nothing. -/
def noFiles : FileStorage := ⟨0, 0, [], 0⟩

/-- The default limits of `bdecode`. -/
def defaultDepthLimit : Nat := 100

def defaultTokenLimit : Nat := 1000000

variable {ε : Type*}

/-- `torrent_info::torrent_info(std::string const&, error_code&, int)`. -/
def torrent_info (parse_torrent_file : BdecodeNode → Except ε FileStorage) (f : LibFile) :
    Constructed ε :=
  let loaded := f.load_file
  let ec := if loaded.failed then some LoadError.system else none
  if loaded.status < 0 then ⟨ec, noFiles⟩
  else if loaded.v = [] then ⟨ec, noFiles⟩
  else
    match bdecode loaded.v defaultDepthLimit defaultTokenLimit with
    | .error e => ⟨some (.bdecode e), noFiles⟩
    | .ok node =>
        match parse_torrent_file node with
        | .error e => ⟨some (.torrent e), noFiles⟩
        | .ok st => ⟨none, st⟩

/-- An ordinary file that holds `content`. -/
def LibFile.ofBytes (content : List UInt8) : LibFile where
  open_ := true
  get_size := some content.length
  readv n := some ⟨content.take n, List.length_take_le n content⟩

theorem load_file_ofBytes (content : List UInt8) :
    (LibFile.ofBytes content).load_file = ⟨0, content, false⟩ := by
  rw [LibFile.load_file, if_neg (by simp [LibFile.ofBytes])]
  cases content with
  | nil => rfl
  | cons c rest => simp [LibFile.ofBytes]

theorem torrent_info_ofBytes {parse_torrent_file : BdecodeNode → Except ε FileStorage}
    {content : List UInt8} (hsome : content ≠ []) :
    torrent_info parse_torrent_file (.ofBytes content) =
      match bdecode content defaultDepthLimit defaultTokenLimit with
      | .error e => ⟨some (.bdecode e), noFiles⟩
      | .ok node =>
          match parse_torrent_file node with
          | .error e => ⟨some (.torrent e), noFiles⟩
          | .ok st => ⟨none, st⟩ := by
  rw [torrent_info, load_file_ofBytes]
  dsimp only
  rw [if_neg (by decide), if_neg hsome]

/-! ## One file, two readings -/

/-- If the page shows a torrent, libtorrent reads one with the same files: as many, in
the same order, of the same sizes. -/
def SameTorrent (parse_torrent_file : BdecodeNode → Except ε FileStorage)
    (content : List UInt8) : Prop :=
  ∀ info, (infoWithfile parse_torrent_file (.ofBytes content)).info = some info →
    (torrent_info parse_torrent_file (.ofBytes content)).ec = none ∧
      info.forDownload.files.map (fun file => file.size) =
        (torrent_info parse_torrent_file (.ofBytes content)).files.files.map
          InternalFileEntry.size

variable {parse_torrent_file : BdecodeNode → Except ε FileStorage} {content : List UInt8}

/-- What is known of a file whose torrent is shown. -/
theorem shown {info : TorrentInfo}
    (h : (infoWithfile parse_torrent_file (.ofBytes content)).info = some info) :
    content.length ≤ 40 * 1000000 ∧ ∃ node st,
      bdecode content decodeDepthLimit decodeItemLimit = .ok node ∧
        parse_torrent_file node = .ok st ∧ info = .ofStorage st := by
  have haccepted : Accepted parse_torrent_file (.ofBytes content) := by
    rw [← infoWithfile_isSome, h]
    rfl
  obtain ⟨hread, node, st, hnode, hst⟩ := haccepted
  have hbytes : (Stdio.ofBytes content).bytes = content := List.take_length
  have hsize : (content.length : Int) ≤ 40 * 1000000 := hread.1.2.2.2.1
  rw [info_of_readWhole hread, hnode] at h
  dsimp only at h
  rw [hst, Option.some.injEq] at h
  rw [hbytes] at hnode
  exact ⟨by omega, node, st, hnode, hst, h.symm⟩

/-- Both readings agree on a torrent that is shown exactly when it is nested less deep
than libtorrent's default limit; neither size nor number of items tell them apart. -/
theorem sameTorrent_iff {info : TorrentInfo}
    (h : (infoWithfile parse_torrent_file (.ofBytes content)).info = some info) :
    SameTorrent parse_torrent_file content ↔ BeginsWithValue 99 1000000 content := by
  obtain ⟨hsize, node, st, hnode, hst, hinfo⟩ := shown h
  have hlimit : (40 * 1000000 : Nat) ≤ max_offset := by decide
  have hdefault : (∃ node, bdecode content defaultDepthLimit defaultTokenLimit = .ok node) ↔
      content.length ≤ max_offset ∧ BeginsWithValue 99 1000000 content :=
    bdecode_ok_iff (by decide) (by decide)
  have hsome : content ≠ [] := by
    rintro rfl
    cases hnode
  constructor
  · intro hsame
    obtain ⟨hec, -⟩ := hsame info h
    refine (hdefault.mp ?_).2
    rw [torrent_info_ofBytes hsome] at hec
    cases hread : bdecode content defaultDepthLimit defaultTokenLimit with
    | error e =>
      rw [hread] at hec
      cases hec
    | ok node' => exact ⟨node', rfl⟩
  · intro hbegins info' hinfo'
    obtain rfl : info' = info := Option.some.inj (hinfo'.symm.trans h)
    obtain ⟨node', hread⟩ := hdefault.mpr ⟨by omega, hbegins⟩
    -- the two limits on the depth leave the same node
    have hsame : node' = node := by
      have hmore : bdecode content decodeDepthLimit defaultTokenLimit = .ok node' :=
        bdecode_mono (by decide) hread
      exact Except.ok.inj (hmore.symm.trans hnode)
    rw [torrent_info_ofBytes hsome, hread, hsame]
    dsimp only
    rw [hst, hinfo]
    refine ⟨rfl, ?_⟩
    change ((parseFiles st).map BTFile.toBTFile).map (fun file => file.size) = _
    rw [List.map_map]
    exact map_parseFiles st _ InternalFileEntry.size fun i => rfl

/-- ASCII text as bytes. -/
def ascii (text : String) : List UInt8 := text.toList.map fun c => c.toNat.toUInt8

/-- The entry `info` of a torrent of one file that fills one piece. -/
def infoEntry : List UInt8 :=
  ascii "4:infod6:lengthi16384e4:name9:cover.png12:piece lengthi16384e6:pieces20:" ++
    List.replicate 20 0 ++ [endByte]

/-- What `parse_torrent_file` makes of `infoEntry`. -/
def parseInfoEntry (_ : BdecodeNode) : Except InfoError FileStorage :=
  parse_info_section 16384 [⟨"cover.png", 16384, false, false, false⟩]

/-- A torrent that holds nothing but its `info`. -/
def plainTorrent : List UInt8 := dictByte :: (infoEntry ++ [endByte])

/-- A torrent with lists nested 99 deep under a key that nobody reads. -/
def deepTorrent : List UInt8 :=
  ascii "d1:a" ++ List.replicate 99 listByte ++ List.replicate 99 endByte ++ infoEntry ++ [endByte]

/-- The plain torrent is the same both ways. -/
theorem sameTorrent_plain :
    (infoWithfile parseInfoEntry (.ofBytes plainTorrent)).info =
        some (.ofStorage onePiece.toFileStorage) ∧
      (SameTorrent parseInfoEntry plainTorrent ↔ BeginsWithValue 99 1000000 plainTorrent) := by
  have hshown : (infoWithfile parseInfoEntry (.ofBytes plainTorrent)).info =
      some (.ofStorage onePiece.toFileStorage) := by decide +kernel
  exact ⟨hshown, sameTorrent_iff hshown⟩

/-- The deep torrent is shown, and libtorrent refuses it. -/
theorem not_sameTorrent_deep : ¬ SameTorrent parseInfoEntry deepTorrent := by
  intro h
  have hshown : (infoWithfile parseInfoEntry (.ofBytes deepTorrent)).info =
      some (.ofStorage onePiece.toFileStorage) := by decide +kernel
  have hrefused : (torrent_info parseInfoEntry (.ofBytes deepTorrent)).ec =
      some (.bdecode .depth_exceeded) := by decide +kernel
  rw [(h _ hshown).1] at hrefused
  cases hrefused

end TorrentApp.Torrent
