import TorrentApp.Foundation.Buckets
import Mathlib.Algebra.GroupWithZero.Nat
import Mathlib.Logic.Function.Basic

set_option autoImplicit false

/-!
# The order the pieces are picked in

`piece_picker` keeps the pieces that may be picked in one line, sorted by their
effective priority, with the ends of the priority ranges in a second vector and the
slot of each piece in the piece map.  A piece whose priority changes is moved through
the ranges one exchange at a time, and a stale line is built anew by counting.
-/

namespace TorrentApp.Torrent.Picker

open TorrentApp.Foundation

/-! ## A piece -/

/-- `piece_pos::state_t`. -/
inductive DownloadState where
  | piece_downloading
  | piece_full
  | piece_finished
  | piece_zero_prio
  | piece_open
  | piece_downloading_reverse
  | piece_full_reverse
  deriving DecidableEq, Repr

/-- `piece_pos::reverse`. -/
def DownloadState.reverse (state : DownloadState) : Bool :=
  state == .piece_downloading_reverse || state == .piece_full_reverse

/-- `piece_pos::unreverse`. -/
def DownloadState.unreverse : DownloadState → DownloadState
  | .piece_downloading_reverse => .piece_downloading
  | .piece_full_reverse => .piece_full
  | state => state

/-- `piece_pos::make_reverse`. -/
def DownloadState.make_reverse : DownloadState → DownloadState
  | .piece_downloading => .piece_downloading_reverse
  | .piece_full => .piece_full_reverse
  | state => state

/-- What `piece_pos::priority` takes off: of pieces that are otherwise alike, a download comes
first, and one from reverse peers last. -/
def DownloadState.adjustment (state : DownloadState) : Nat :=
  if state.reverse then 1 else if state ≠ .piece_open then 3 else 2

theorem mod_priority_lt (n : Nat) : n % 8 < 8 := Nat.mod_lt n (Nat.succ_pos 7)

/-- What the 3 bits of `piece_priority` keep of a number. -/
def priority_bits (n : Nat) : Fin 8 := ⟨n % 8, mod_priority_lt n⟩

/-- `piece_pos`; its `piece_priority` has 3 bits, and its `index` is `none` where the source has
`we_have_index`. -/
structure PiecePos where
  peer_count : Nat
  download_state : DownloadState
  piece_priority : Fin 8
  index : Option Nat
  deriving DecidableEq, Repr

/-- `piece_pos::have`. -/
def PiecePos.have_piece (p : PiecePos) : Bool := p.index.isNone

/-- `piece_pos::filtered`. -/
def PiecePos.filtered (p : PiecePos) : Bool := p.piece_priority.val == 0

/-- `piece_pos::downloading`. -/
def PiecePos.downloading (p : PiecePos) : Bool := p.download_state != .piece_open

def priority_levels : Nat := 8

def prio_factor : Nat := 3

/-- `piece_pos::priority`, `none` where the source has -1: the piece is not to be picked. -/
def PiecePos.priority (m_seeds : Nat) (p : PiecePos) : Option Nat :=
  if p.filtered || p.have_piece || p.peer_count + m_seeds == 0
      || p.download_state == .piece_full || p.download_state == .piece_finished then none
  else
    let availability := p.peer_count + 1
    some (availability * (priority_levels - p.piece_priority.val) * prio_factor -
      p.download_state.adjustment)

/-! ## The line -/

/-- The members of `piece_picker` that keep the order, and the numbers that `random` will
return. -/
structure PieceOrder where
  num_pieces : Nat
  m_piece_map : Nat → PiecePos
  m_seeds : Nat
  m_pieces : List Nat
  m_priority_boundries : List Nat
  m_dirty : Bool
  random : Nat → Nat

namespace PieceOrder

/-- The effective priority of a piece. -/
def priority (s : PieceOrder) (i : Nat) : Option Nat := (s.m_piece_map i).priority s.m_seeds

/-- The slot that the piece map has for a piece. -/
def slot (s : PieceOrder) (i : Nat) : Option Nat := (s.m_piece_map i).index

/-- A number from `random`. -/
def drawn (s : PieceOrder) : PieceOrder := { s with random := fun k => s.random (k + 1) }

/-- `m_pieces[slot] = piece`, and `m_piece_map[piece].index = slot`; the slot behind the line is
the one that `add` has pushed. -/
def put (s : PieceOrder) (slot piece : Nat) : PieceOrder :=
  { s with
    m_pieces :=
      if slot < s.m_pieces.length then s.m_pieces.set slot piece else s.m_pieces ++ [piece]
    m_piece_map :=
      Function.update s.m_piece_map piece { s.m_piece_map piece with index := some slot } }

/-- `priority_range`. -/
def priority_range (s : PieceOrder) (prio : Nat) : Option (Nat × Nat) := do
  let first ← if prio = 0 then some 0 else s.m_priority_boundries[prio - 1]?
  let last ← s.m_priority_boundries[prio]?
  some (first, last)

/-- The loop of `add` over the boundries from a priority on.  `index` is what `new_index` held:
it goes to the next end of a bucket, `none` is the -1 of the pushed slot. -/
def addLoop : List Nat → Option Nat → Nat → PieceOrder → Option (PieceOrder × List Nat)
  | [], none, _, s => some (s, [])
  | [], some index, new_index, s =>
      if new_index ≤ s.m_pieces.length then some (s.put new_index index, []) else none
  | b :: rest, index, new_index, s =>
      -- an empty bucket is passed, and behind the last one the loop ends
      if b = new_index ∨ rest = [] then do
        let (s, ends) ← addLoop rest index b s
        some (s, (b + 1) :: ends)
      else
        match index with
        | none => none
        | some index =>
            if b ≤ s.m_pieces.length then do
              let temp := s.m_pieces[b]?
              let (s, ends) ← addLoop rest temp b (s.put b index)
              some (s, (b + 1) :: ends)
            else none

/-- `add` from the choice of the slot on. -/
def addAt (s : PieceOrder) (priority new_index index : Nat) : Option PieceOrder :=
  if new_index ≤ s.m_pieces.length then do
    let temp := s.m_pieces[new_index]?
    let (s', ends) ←
      addLoop (s.m_priority_boundries.drop priority) temp new_index (s.put new_index index)
    some { s' with m_priority_boundries := s.m_priority_boundries.take priority ++ ends }
  else none

/-- `m_priority_boundries.resize(priority + 1, m_pieces.size())` where it is shorter. -/
def withBucket (s : PieceOrder) (priority : Nat) : PieceOrder :=
  { s with
    m_priority_boundries := s.m_priority_boundries.rightpad (priority + 1) s.m_pieces.length }

/-- `piece_picker::add`. -/
def add (s : PieceOrder) (index : Nat) : Option PieceOrder := do
  let priority ← s.priority index
  let s := s.withBucket priority
  let (range_start, range_end) ← s.priority_range priority
  if range_end = range_start then s.addAt priority range_start index
  else
    s.drawn.addAt priority (s.random 0 % (range_end - range_start + 1) + range_start) index

/-- The loop of `remove` over the boundries from a priority on; `elem_index` is the slot that
has become free. -/
def removeLoop : List Nat → Nat → PieceOrder → Option (PieceOrder × List Nat)
  | [], _, s => some ({ s with m_pieces := s.m_pieces.dropLast }, [])
  | b :: rest, elem_index, s =>
      if b = 0 then none
      else if b - 1 = elem_index then do
        let (s, ends) ← removeLoop rest elem_index s
        some (s, (b - 1) :: ends)
      else do
        let piece ← s.m_pieces[b - 1]?
        let (s, ends) ← removeLoop rest (b - 1) (s.put elem_index piece)
        some (s, (b - 1) :: ends)

/-- `piece_picker::remove`. -/
def remove (s : PieceOrder) (priority elem_index : Nat) : Option PieceOrder :=
  if elem_index < s.m_pieces.length ∧ priority < s.m_priority_boundries.length then do
    let (s', ends) ← removeLoop (s.m_priority_boundries.drop priority) elem_index s
    some { s' with m_priority_boundries := s.m_priority_boundries.take priority ++ ends }
  else none

/-- The loop of `update` towards lower priorities, over the boundries below a priority, the
highest first. -/
def lowerLoop : List Nat → Nat → Nat → PieceOrder → Option (PieceOrder × Nat × List Nat)
  | [], elem_index, _, s => some (s, elem_index, [])
  | b :: rest, elem_index, temp, s => do
      let new_index := b
      let next ← s.m_pieces[new_index]?
      let s := if temp ≠ next then s.put elem_index next else s
      let (s, elem_index, ends) ← lowerLoop rest new_index next s
      some (s, elem_index, (b + 1) :: ends)

/-- The loop of `update` towards higher priorities, over the boundries from a priority on. -/
def raiseLoop : List Nat → Nat → Nat → PieceOrder → Option (PieceOrder × Nat × List Nat)
  | [], elem_index, _, s => some (s, elem_index, [])
  | b :: rest, elem_index, temp, s =>
      if b = 0 then none
      else do
        let new_index := b - 1
        let next ← s.m_pieces[new_index]?
        let s := if temp ≠ next then s.put elem_index next else s
        let (s, elem_index, ends) ← raiseLoop rest new_index next s
        some (s, elem_index, (b - 1) :: ends)

/-- `piece_picker::shuffle`. -/
def shuffle (s : PieceOrder) (priority elem_index : Nat) : Option PieceOrder := do
  let (range_start, range_end) ← s.priority_range priority
  if range_start < range_end then do
    let other_index := s.random 0 % (range_end - range_start) + range_start
    let s := s.drawn
    if other_index = elem_index then some s
    else do
      let x ← s.m_pieces[other_index]?
      let y ← s.m_pieces[elem_index]?
      let p1 := s.m_piece_map x
      let p2 := s.m_piece_map y
      some { s with
        m_piece_map := Function.update
          (Function.update s.m_piece_map x { p1 with index := p2.index })
          y { p2 with index := p1.index }
        m_pieces := (s.m_pieces.set other_index y).set elem_index x }
  else none

/-- `piece_picker::update`. -/
def update (s : PieceOrder) (priority elem_index : Nat) : Option PieceOrder := do
  let index ← s.m_pieces[elem_index]?
  match s.priority index with
  | none => s.remove priority elem_index
  | some new_priority =>
      if new_priority = priority then some s
      else do
        let s := s.withBucket new_priority
        let boundries := s.m_priority_boundries
        if new_priority < priority then
          if priority ≤ boundries.length then do
            let (s, elem_index, ends) ←
              lowerLoop ((boundries.take priority).drop new_priority).reverse elem_index index s
            let s := { s.put elem_index index with
              m_priority_boundries :=
                boundries.take new_priority ++ ends.reverse ++ boundries.drop priority }
            s.shuffle new_priority elem_index
          else none
        else do
          let (s, elem_index, ends) ←
            raiseLoop ((boundries.take new_priority).drop priority) elem_index index s
          let s := { s.put elem_index index with
            m_priority_boundries :=
              boundries.take priority ++ ends ++ boundries.drop new_priority }
          s.shuffle new_priority elem_index

/-! ## The line built anew -/

/-- The first pass of `update_pieces`: a piece is numbered within its bucket, and counted. -/
def countStep (s : PieceOrder) (i : Nat) : PieceOrder :=
  match s.priority i with
  | none => s
  | some prio =>
      let boundries := s.m_priority_boundries.rightpad (prio + 1) 0
      { s with
        m_piece_map := Function.update s.m_piece_map i
          { s.m_piece_map i with index := some (boundries.getD prio 0) }
        m_priority_boundries := boundries.modify prio (· + 1) }

/-- The second pass: the counts become ends. -/
def sumUp : Nat → List Nat → List Nat
  | _, [] => []
  | index, n :: rest => (n + index) :: sumUp (n + index) rest

/-- Where the bucket of a priority starts. -/
def range_start (s : PieceOrder) (prio : Nat) : Option Nat :=
  if prio = 0 then some 0 else s.m_priority_boundries[prio - 1]?

/-- The third pass: a piece is put where its bucket starts, behind those before it. -/
def fillStep (s : PieceOrder) (i : Nat) : Option PieceOrder :=
  match s.priority i with
  | none => some s
  | some prio => do
      let first ← s.range_start prio
      let index ← s.slot i
      let new_index := first + index
      if new_index < s.m_pieces.length then
        some { s with m_pieces := s.m_pieces.set new_index i }
      else none

/-- `std::random_shuffle` of `n` items: each place in turn gets one of those from it on. -/
def random_shuffle : Nat → (Nat → Nat) → List Nat → List Nat × (Nat → Nat)
  | 0, random, xs => (xs, random)
  | _ + 1, random, [] => ([], random)
  | n + 1, random, x :: xs =>
      let j := random 0 % (xs.length + 1)
      let r := random_shuffle n (fun k => random (k + 1)) (((x :: xs).set j x).drop 1)
      ((x :: xs).getD j x :: r.1, r.2)

/-- The fourth pass: each bucket is shuffled. -/
def shuffleBuckets : List Nat → Nat → PieceOrder → Option PieceOrder
  | [], _, s => some s
  | b :: rest, start, s =>
      if start = b then shuffleBuckets rest start s
      else if start < b ∧ b ≤ s.m_pieces.length then
        let r := random_shuffle (b - start) s.random ((s.m_pieces.take b).drop start)
        shuffleBuckets rest b { s with
          m_pieces := s.m_pieces.take start ++ r.1 ++ s.m_pieces.drop b
          random := r.2 }
      else none

/-- The last pass: the slots of the pieces from `index` on are noted. -/
def noteSlots : List Nat → Nat → PieceOrder → PieceOrder
  | [], _, s => s
  | piece :: rest, index, s =>
      noteSlots rest (index + 1) { s with
        m_piece_map :=
          Function.update s.m_piece_map piece { s.m_piece_map piece with index := some index } }

/-- `piece_picker::update_pieces`. -/
def update_pieces (s : PieceOrder) : Option PieceOrder := do
  let s := { s with m_priority_boundries := List.replicate (max 1 s.m_priority_boundries.length) 0 }
  let s := (List.range s.num_pieces).foldl countStep s
  let boundries := sumUp 0 s.m_priority_boundries
  let total := s.m_priority_boundries.sum
  let s := { s with
    m_priority_boundries := boundries
    m_pieces := (s.m_pieces.take total).rightpad total 0 }
  let s ← (List.range s.num_pieces).foldlM fillStep s
  let s ← shuffleBuckets s.m_priority_boundries 0 s
  some { noteSlots s.m_pieces 0 s with m_dirty := false }

end PieceOrder

end TorrentApp.Torrent.Picker
