import TorrentApp.Torrent.PieceRebuild
import TorrentApp.Foundation.Machine

set_option autoImplicit false

/-!
# The calls that change the order

What the members of `piece_picker` do to the order of the pieces: each changes a
field that the effective priority depends on, and then moves the piece, or leaves the
whole line stale for `update_pieces`.  A line that is not stale is sorted.
-/

namespace TorrentApp.Torrent.Picker

open TorrentApp.Foundation

/-- Why a call does not come to its end: an assertion of the source, or a check of its callers,
excludes it, or it reads or writes outside of the line. -/
inductive Stop where
  | excluded
  | out_of_line
  deriving DecidableEq, Repr

/-- The counters of a `downloading_piece`, and the blocks that its piece has. -/
structure DownloadingCounts where
  requested : Nat
  finished : Nat
  writing : Nat
  num_blocks : Nat
  deriving DecidableEq, Repr

/-- The state that `update_piece_state` wants a piece to be in. -/
def PiecePos.new_state (p : PiecePos) (dp : DownloadingCounts) : DownloadState :=
  let sum := dp.requested + dp.finished + dp.writing
  if p.filtered then .piece_zero_prio
  else if sum = 0 then .piece_open
  else if sum < dp.num_blocks then
    if p.download_state.reverse then .piece_downloading_reverse else .piece_downloading
  else if 0 < dp.requested then
    if p.download_state.reverse then .piece_full_reverse else .piece_full
  else .piece_finished

namespace PieceOrder

/-- `TORRENT_ASSERT`. -/
def torrent_assert (c : Bool) : Except Stop Unit := if c then .ok () else .error .excluded

def within : Option PieceOrder → Except Stop PieceOrder
  | some s => .ok s
  | none => .error .out_of_line

/-- `m_piece_map[i] = p`. -/
def setPiece (s : PieceOrder) (i : Nat) (p : PiecePos) : PieceOrder :=
  { s with m_piece_map := Function.update s.m_piece_map i p }

/-! ## Moving a piece whose priority was `prev` -/

/-- `update(prev_priority, p.index)`. -/
def updateFrom (s : PieceOrder) (prev i : Nat) : Except Stop PieceOrder :=
  match s.slot i with
  | some elem_index => within (s.update prev elem_index)
  | none => .error .out_of_line

/-- The end of `inc_refcount`, `restore_piece`, `set_piece_priority`, `write_failed` and
`mark_as_canceled`. -/
def reposition (s : PieceOrder) (prev : Option Nat) (i : Nat) : Except Stop PieceOrder :=
  if s.priority i = prev ∨ s.m_dirty then .ok s
  else
    match prev with
    | none => within (s.add i)
    | some prev => s.updateFrom prev i

/-- The end of `update_piece_state` and `abort_download`. -/
def addOrUpdate (s : PieceOrder) (prev : Option Nat) (i : Nat) : Except Stop PieceOrder :=
  if s.m_dirty then .ok s
  else
    match prev with
    | none => if (s.priority i).isSome then within (s.add i) else .ok s
    | some prev => s.updateFrom prev i

/-- The end of `dec_refcount`, and of the places that put an open piece into a download. -/
def updateListed (s : PieceOrder) (prev : Option Nat) (i : Nat) : Except Stop PieceOrder :=
  if s.m_dirty then .ok s
  else
    match prev with
    | none => .ok s
    | some prev => s.updateFrom prev i

/-! ## Peers -/

def max_peer_count : Nat := 65535

/-- `++p.peer_count`, which has 16 bits. -/
def countUp (s : PieceOrder) (i : Nat) : PieceOrder :=
  s.setPiece i { s.m_piece_map i with
    peer_count := ((s.m_piece_map i).peer_count + 1) % (max_peer_count + 1) }

/-- `--p.peer_count`. -/
def countDown (s : PieceOrder) (i : Nat) : PieceOrder :=
  s.setPiece i { s.m_piece_map i with
    peer_count := ((s.m_piece_map i).peer_count + max_peer_count) % (max_peer_count + 1) }

/-- `piece_picker::inc_refcount_all`. -/
def inc_refcount_all (s : PieceOrder) : PieceOrder :=
  { s with m_seeds := s.m_seeds + 1, m_dirty := s.m_dirty || s.m_seeds + 1 == 1 }

/-- `piece_picker::dec_refcount_all`. -/
def dec_refcount_all (s : PieceOrder) : PieceOrder :=
  if 0 < s.m_seeds then
    { s with m_seeds := s.m_seeds - 1, m_dirty := s.m_dirty || s.m_seeds - 1 == 0 }
  else { (List.range s.num_pieces).foldl countDown s with m_dirty := true }

/-- `piece_picker::break_one_seed`. -/
def break_one_seed (s : PieceOrder) : Except Stop PieceOrder := do
  torrent_assert (0 < s.m_seeds)
  return { (List.range s.num_pieces).foldl countUp { s with m_seeds := s.m_seeds - 1 } with
    m_dirty := true }

/-- A seed is broken up where a piece without peers loses one. -/
def breakFor (s : PieceOrder) (i : Nat) : Except Stop PieceOrder :=
  if (s.m_piece_map i).peer_count = 0 then s.break_one_seed else .ok s

/-- `piece_picker::inc_refcount` of a piece. -/
def inc_refcount (s : PieceOrder) (i : Nat) : Except Stop PieceOrder :=
  (s.countUp i).reposition (s.priority i) i

/-- `piece_picker::dec_refcount` of a piece. -/
def dec_refcount (s : PieceOrder) (i : Nat) : Except Stop PieceOrder := do
  let s ← s.breakFor i
  (s.countDown i).updateListed (s.priority i) i

/-- The pieces whose bit is set. -/
def set_bits (bitmask : List Bool) : List Nat :=
  (List.range bitmask.length).filter fun i => bitmask.getD i false

/-- How many pieces a bitmask may set at most to have them moved one at a time. -/
def few (bitmask : List Bool) : Nat := min 50 (bitmask.length / 2)

/-- `piece_picker::inc_refcount` of a bitmask. -/
def inc_refcount_bits (s : PieceOrder) (bitmask : List Bool) : Except Stop PieceOrder :=
  if set_bits bitmask = [] then .ok s
  else if bitmask.all id && bitmask.length == s.num_pieces then .ok s.inc_refcount_all
  else if !s.m_dirty && (set_bits bitmask).length < few bitmask then
    (set_bits bitmask).foldlM inc_refcount s
  else .ok { (set_bits bitmask).foldl countUp s with m_dirty := true }

/-- `piece_picker::dec_refcount` of a bitmask.  Its loop over few pieces reads the priority before
a seed may be broken up, but then the line is stale and the priority not used. -/
def dec_refcount_bits (s : PieceOrder) (bitmask : List Bool) : Except Stop PieceOrder :=
  if set_bits bitmask = [] then .ok s
  else if bitmask.all id && bitmask.length == s.num_pieces then .ok s.dec_refcount_all
  else if !s.m_dirty && (set_bits bitmask).length < few bitmask then
    (set_bits bitmask).foldlM dec_refcount s
  else do
    let s ← (set_bits bitmask).foldlM (fun s i => do return (← s.breakFor i).countDown i) s
    return { s with m_dirty := true }

/-! ## Downloads -/

/-- `piece_picker::update_piece_state`. -/
def update_piece_state (s : PieceOrder) (i : Nat) (dp : DownloadingCounts) :
    Except Stop PieceOrder := do
  let p := s.m_piece_map i
  torrent_assert (p.download_state != .piece_open)
  let new_state := p.new_state dp
  if new_state = p.download_state ∨ new_state = .piece_open then return s
  else (s.setPiece i { p with download_state := new_state }).addOrUpdate (s.priority i) i

/-- An open piece becomes a downloading one, in `mark_as_downloading`, `mark_as_writing` and
`mark_as_finished`. -/
def start_download (s : PieceOrder) (i : Nat) (reverse : Bool) : Except Stop PieceOrder := do
  let p := s.m_piece_map i
  torrent_assert (p.download_state == .piece_open && !p.have_piece)
  let state : DownloadState :=
    if reverse then .piece_downloading_reverse else .piece_downloading
  (s.setPiece i { p with download_state := state }).updateListed (s.priority i) i

/-- A request of a reverse peer in `mark_as_downloading`; no other request of the piece is open,
so the piece is not full. -/
def make_reverse (s : PieceOrder) (i : Nat) : Except Stop PieceOrder := do
  let p := s.m_piece_map i
  torrent_assert (p.download_state != .piece_full)
  (s.setPiece i { p with download_state := p.download_state.make_reverse }).updateListed
    (s.priority i) i

/-- A request of another peer in `mark_as_downloading`. -/
def unreverse (s : PieceOrder) (i : Nat) : Except Stop PieceOrder :=
  let p := s.m_piece_map i
  (s.setPiece i { p with download_state := p.download_state.unreverse }).updateListed
    (s.priority i) i

/-- What `erase_download_piece` does to the piece. -/
def erase_download_piece (s : PieceOrder) (i : Nat) : PieceOrder :=
  s.setPiece i { s.m_piece_map i with download_state := .piece_open }

/-- `piece_picker::restore_piece`, and where `write_failed` and `mark_as_canceled` leave nothing
of a download. -/
def restore_piece (s : PieceOrder) (i : Nat) : Except Stop PieceOrder :=
  (s.erase_download_piece i).reposition (s.priority i) i

/-- Where `abort_download` leaves nothing of a download. -/
def abort_download (s : PieceOrder) (i : Nat) : Except Stop PieceOrder :=
  (s.erase_download_piece i).addOrUpdate (s.priority i) i

/-! ## Pieces that are there, and priorities -/

/-- `piece_picker::we_have`. -/
def we_have (s : PieceOrder) (i : Nat) : Except Stop PieceOrder :=
  let info_index := s.slot i
  let priority := s.priority i
  if (s.m_piece_map i).have_piece then .ok s
  else
    let t := s.setPiece i { s.m_piece_map i with download_state := .piece_open, index := none }
    match priority, info_index with
    | some priority, some info_index =>
        if s.m_dirty then .ok t else within (t.remove priority info_index)
    | _, _ => .ok t

/-- `piece_picker::we_dont_have`; its caller asks for pieces that are there only. -/
def we_dont_have (s : PieceOrder) (i : Nat) : Except Stop PieceOrder := do
  torrent_assert (s.m_piece_map i).have_piece
  let s := s.setPiece i { s.m_piece_map i with index := some 0 }
  if s.m_dirty then return s
  else if (s.priority i).isSome then within (s.add i)
  else return s

/-- `piece_picker::set_piece_priority`; `dp` are the counters of a piece that is downloading. -/
def set_piece_priority (s : PieceOrder) (i new_piece_priority : Nat) (dp : DownloadingCounts) :
    Except Stop PieceOrder := do
  torrent_assert (new_piece_priority < priority_levels)
  if new_piece_priority = (s.m_piece_map i).piece_priority.val then return s
  else
    let p := { s.m_piece_map i with piece_priority := priority_bits new_piece_priority }
    let t ← (s.setPiece i p).reposition (s.priority i) i
    if (t.m_piece_map i).downloading then t.update_piece_state i dp else return t

/-! ## Runs -/

/-- `if (m_dirty) update_pieces()`, with which `pick_pieces` begins its sequential and its
rarest-first branch; its time-critical branch walks the line as it is. -/
def refresh (s : PieceOrder) : Except Stop PieceOrder :=
  if s.m_dirty then within s.update_pieces else .ok s

/-- `piece_picker::init`. -/
def init (s : PieceOrder) (total_num_pieces : Nat) : PieceOrder :=
  { s with
    num_pieces := total_num_pieces
    m_piece_map := fun i =>
      { peer_count := 0
        download_state := .piece_open
        piece_priority :=
          if i < s.num_pieces then (s.m_piece_map i).piece_priority else priority_bits 4
        index := some 0 }
    m_dirty := true }

inductive PieceCall where
  | inc_refcount
  | dec_refcount
  | update_piece_state (dp : DownloadingCounts)
  | start_download (reverse : Bool)
  | make_reverse
  | unreverse
  | restore_piece
  | abort_download
  | we_have
  | we_dont_have
  | set_piece_priority (new_piece_priority : Nat) (dp : DownloadingCounts)

inductive Call where
  | piece (index : Nat) (call : PieceCall)
  | inc_refcount_bits (bitmask : List Bool)
  | dec_refcount_bits (bitmask : List Bool)
  | inc_refcount_all
  | dec_refcount_all
  | refresh

def callPiece (s : PieceOrder) (i : Nat) : PieceCall → Except Stop PieceOrder
  | .inc_refcount => s.inc_refcount i
  | .dec_refcount => s.dec_refcount i
  | .update_piece_state dp => s.update_piece_state i dp
  | .start_download reverse => s.start_download i reverse
  | .make_reverse => s.make_reverse i
  | .unreverse => s.unreverse i
  | .restore_piece => s.restore_piece i
  | .abort_download => s.abort_download i
  | .we_have => s.we_have i
  | .we_dont_have => s.we_dont_have i
  | .set_piece_priority new_piece_priority dp => s.set_piece_priority i new_piece_priority dp

def call (s : PieceOrder) : Call → Except Stop PieceOrder
  | .piece index c => do
      torrent_assert (index < s.num_pieces)
      s.callPiece index c
  | .inc_refcount_bits bitmask => do
      torrent_assert (bitmask.length ≤ s.num_pieces)
      s.inc_refcount_bits bitmask
  | .dec_refcount_bits bitmask => do
      torrent_assert (bitmask.length ≤ s.num_pieces)
      s.dec_refcount_bits bitmask
  | .inc_refcount_all => return s.inc_refcount_all
  | .dec_refcount_all => return s.dec_refcount_all
  | .refresh => s.refresh

/-- A call that comes to its end. -/
def step (s : PieceOrder) (c : Call) : Option PieceOrder := (s.call c).toOption

end PieceOrder

end TorrentApp.Torrent.Picker
