import Mathlib.Data.List.Nodup
import TorrentApp.Foundation.Blocks
import TorrentApp.Torrent.Disk

set_option autoImplicit false

/-!
# The part file

The pieces of files that are not wanted are kept in one file of slots, each of the
size of a piece.  A map from pieces to slots says where a piece is; slots that have
been freed are handed out again.
-/

namespace TorrentApp.Torrent

open TorrentApp.Foundation

/-- `round_up`: to even kilobytes. -/
def round_up (n : Nat) : Nat := (n + 1023) / 1024 * 1024

structure PartFile where
  m_free_slots : List Nat
  m_num_allocated : Nat
  m_max_pieces : Nat
  m_piece_size : Nat
  m_header_size : Nat
  m_dirty_metadata : Bool
  m_piece_map : List (Nat × Nat)
  deriving DecidableEq, Repr

namespace PartFile

/-- `m_piece_map.find`. -/
def find (pf : PartFile) (piece : Nat) : Option Nat := pf.m_piece_map.lookup piece

/-- Where a slot begins. -/
def slot_offset (pf : PartFile) (slot : Nat) : Nat := pf.m_header_size + slot * pf.m_piece_size

/-- `part_file::allocate_slot`. -/
def allocate_slot (pf : PartFile) (piece : Nat) : Nat × PartFile :=
  match pf.m_free_slots with
  | slot :: rest =>
      (slot, { pf with
        m_free_slots := rest
        m_piece_map := (piece, slot) :: pf.m_piece_map
        m_dirty_metadata := true })
  | [] =>
      (pf.m_num_allocated, { pf with
        m_num_allocated := pf.m_num_allocated + 1
        m_piece_map := (piece, pf.m_num_allocated) :: pf.m_piece_map
        m_dirty_metadata := true })

/-- `part_file::free_piece`. -/
def free_piece (pf : PartFile) (piece : Nat) : PartFile :=
  match pf.find piece with
  | none => pf
  | some slot =>
      { pf with
        m_free_slots := pf.m_free_slots ++ [slot]
        m_piece_map := pf.m_piece_map.erase (piece, slot)
        m_dirty_metadata := true }

/-- `part_file::writev`, with the part file as it lies on the disk. -/
def writev (pf : PartFile) (part : Option (List UInt8)) (block : List UInt8)
    (piece offset : Nat) (a : Access) : Except Errno Nat × PartFile × Option (List UInt8) :=
  match a.opened with
  | some e => (.error e, pf, part)
  | none =>
      let at_slot := match pf.find piece with
        | some slot => (slot, pf)
        | none => pf.allocate_slot piece
      let moved := pwrite (part.getD []) (pf.slot_offset at_slot.1 + offset) block a
      (moved.1, at_slot.2, some moved.2)

/-- `part_file::readv` of `n` bytes, and the bytes. -/
def readv (pf : PartFile) (part : Option (List UInt8)) (n piece offset : Nat) (a : Access) :
    Except Errno Nat × List UInt8 × Option (List UInt8) :=
  match pf.find piece with
  | none => (.error .no_such_file_or_directory, [], part)
  | some slot =>
      match a.opened with
      | some e => (.error e, [], part)
      | none =>
          let moved := pread (part.getD []) (pf.slot_offset slot + offset) n a
          (moved.1, moved.2, some (part.getD []))

/-! ## Slots -/

/-- The slots that pieces have. -/
def slots (pf : PartFile) : List Nat := pf.m_piece_map.map Prod.snd

/-- Each slot that was ever handed out is free or has one piece, a piece has one slot,
and there is no slot that the header has no room for. -/
structure Valid (pf : PartFile) : Prop where
  piece_size_pos : 0 < pf.m_piece_size
  header_size_eq : pf.m_header_size = round_up ((2 + pf.m_max_pieces) * 4)
  partition : (pf.m_free_slots ++ pf.slots).Perm (List.range pf.m_num_allocated)
  pieces_nodup : (pf.m_piece_map.map Prod.fst).Nodup
  pieces_lt : ∀ e ∈ pf.m_piece_map, e.1 < pf.m_max_pieces
  allocated_le : pf.m_num_allocated ≤ pf.m_max_pieces

theorem mem_of_find {pf : PartFile} {piece slot : Nat} (h : pf.find piece = some slot) :
    (piece, slot) ∈ pf.m_piece_map := by
  obtain ⟨xs, ys, hsplit, -⟩ := List.lookup_eq_some_iff.mp h
  rw [hsplit]
  exact List.mem_append_right xs List.mem_cons_self

theorem not_mem_of_find {pf : PartFile} {piece : Nat} (h : pf.find piece = none) :
    ∀ e ∈ pf.m_piece_map, e.1 ≠ piece := by
  intro e he heq
  have hne := List.lookup_eq_none_iff.mp h e he
  rw [heq, bne_self_eq_false] at hne
  cases hne

namespace Valid

variable {pf : PartFile}

theorem slots_nodup (h : pf.Valid) : pf.slots.Nodup :=
  (List.nodup_append.mp (h.partition.nodup_iff.mpr List.nodup_range)).2.1

theorem find_iff (h : pf.Valid) {piece slot : Nat} :
    pf.find piece = some slot ↔ (piece, slot) ∈ pf.m_piece_map := by
  refine ⟨mem_of_find, fun hmem => ?_⟩
  cases hfind : pf.find piece with
  | none => exact absurd rfl (not_mem_of_find hfind _ hmem)
  | some found =>
    have hsame : (piece, found) = (piece, slot) :=
      List.inj_on_of_nodup_map h.pieces_nodup (mem_of_find hfind) hmem rfl
    exact congrArg (fun e => some e.2) hsame

/-- Two pieces never share a slot. -/
theorem find_inj (h : pf.Valid) {p q slot : Nat} (hp : pf.find p = some slot)
    (hq : pf.find q = some slot) : p = q := by
  have hsame : (p, slot) = (q, slot) :=
    List.inj_on_of_nodup_map h.slots_nodup (mem_of_find hp) (mem_of_find hq) rfl
  exact congrArg Prod.fst hsame

theorem slot_lt (h : pf.Valid) {piece slot : Nat} (hp : pf.find piece = some slot) :
    slot < pf.m_num_allocated := by
  have hmem : slot ∈ pf.m_free_slots ++ pf.slots :=
    List.mem_append_right _ (List.mem_map_of_mem (mem_of_find hp))
  exact List.mem_range.mp (h.partition.mem_iff.mp hmem)

/-- While no slot is free, every slot that was handed out has a piece of its own. -/
theorem num_allocated_lt (h : pf.Valid) {piece : Nat} (hpiece : piece < pf.m_max_pieces)
    (hnew : pf.find piece = none) (hfree : pf.m_free_slots = []) :
    pf.m_num_allocated < pf.m_max_pieces := by
  have hcount := h.partition.length_eq
  rw [hfree, List.nil_append, slots, List.length_map, List.length_range] at hcount
  have hnodup : (piece :: pf.m_piece_map.map Prod.fst).Nodup := by
    refine List.nodup_cons.mpr ⟨?_, h.pieces_nodup⟩
    intro hmem
    obtain ⟨e, he, heq⟩ := List.mem_map.mp hmem
    exact not_mem_of_find hnew e he heq
  have hsub : piece :: pf.m_piece_map.map Prod.fst ⊆ List.range pf.m_max_pieces := by
    intro q hq
    rcases List.mem_cons.mp hq with rfl | hq
    · exact List.mem_range.mpr hpiece
    · obtain ⟨e, he, rfl⟩ := List.mem_map.mp hq
      exact List.mem_range.mpr (h.pieces_lt e he)
  have hlength := hnodup.length_le_of_subset hsub
  rw [List.length_cons, List.length_map, List.length_range] at hlength
  omega

theorem allocate_slot (h : pf.Valid) {piece : Nat} (hpiece : piece < pf.m_max_pieces)
    (hnew : pf.find piece = none) : (pf.allocate_slot piece).2.Valid := by
  have hkeys : piece ∉ pf.m_piece_map.map Prod.fst := by
    intro hmem
    obtain ⟨e, he, heq⟩ := List.mem_map.mp hmem
    exact not_mem_of_find hnew e he heq
  have hpartition := h.partition
  cases hfree : pf.m_free_slots with
  | nil =>
    have hroom := h.num_allocated_lt hpiece hnew hfree
    rw [hfree, List.nil_append] at hpartition
    simp only [PartFile.allocate_slot, hfree]
    constructor
    · exact h.piece_size_pos
    · exact h.header_size_eq
    · change (pf.m_num_allocated :: pf.slots).Perm (List.range (pf.m_num_allocated + 1))
      rw [List.range_succ]
      exact (List.Perm.cons _ hpartition).trans (List.perm_append_singleton _ _).symm
    · exact List.nodup_cons.mpr ⟨hkeys, h.pieces_nodup⟩
    · intro e he
      rcases List.mem_cons.mp he with rfl | he
      · exact hpiece
      · exact h.pieces_lt e he
    · exact hroom
  | cons slot rest =>
    rw [hfree] at hpartition
    simp only [PartFile.allocate_slot, hfree]
    constructor
    · exact h.piece_size_pos
    · exact h.header_size_eq
    · change (rest ++ slot :: pf.slots).Perm (List.range pf.m_num_allocated)
      exact List.perm_middle.trans hpartition
    · exact List.nodup_cons.mpr ⟨hkeys, h.pieces_nodup⟩
    · intro e he
      rcases List.mem_cons.mp he with rfl | he
      · exact hpiece
      · exact h.pieces_lt e he
    · exact h.allocated_le

theorem free_piece (h : pf.Valid) (piece : Nat) : (pf.free_piece piece).Valid := by
  rw [PartFile.free_piece]
  cases hfind : pf.find piece with
  | none => exact h
  | some slot =>
    dsimp only
    have hrest := List.perm_cons_erase (mem_of_find hfind)
    have hslots : pf.slots.Perm (slot :: (pf.m_piece_map.erase (piece, slot)).map Prod.snd) :=
      hrest.map Prod.snd
    have hkeys := (hrest.map Prod.fst).nodup_iff.mp h.pieces_nodup
    constructor
    · exact h.piece_size_pos
    · exact h.header_size_eq
    · change (pf.m_free_slots ++ [slot] ++ (pf.m_piece_map.erase (piece, slot)).map Prod.snd).Perm
        (List.range pf.m_num_allocated)
      rw [List.append_assoc, List.singleton_append]
      exact (hslots.symm.append_left _).trans h.partition
    · exact (List.nodup_cons.mp hkeys).2
    · exact fun e he => h.pieces_lt e (List.mem_of_mem_erase he)
    · exact h.allocated_le

end Valid

/-! ## What the part file holds -/

/-- The byte that the part file holds for a place of the torrent. -/
def image (pf : PartFile) (part : Option (List UInt8)) : Image UInt8 := fun x => do
  let slot ← pf.find (x / pf.m_piece_size)
  let content ← part
  content[pf.slot_offset slot + x % pf.m_piece_size]?

theorem image_eq_some {pf : PartFile} {part : Option (List UInt8)} {x : Nat} {b : UInt8} :
    pf.image part x = some b ↔ ∃ slot content, pf.find (x / pf.m_piece_size) = some slot ∧
      part = some content ∧ content[pf.slot_offset slot + x % pf.m_piece_size]? = some b := by
  simp only [image, Option.bind_eq_bind, Option.bind_eq_some_iff, exists_and_left]

/-- The sizes that the constructor sets. -/
def SameSizes (pf pf' : PartFile) : Prop :=
  pf'.m_max_pieces = pf.m_max_pieces ∧ pf'.m_piece_size = pf.m_piece_size ∧
    pf'.m_header_size = pf.m_header_size

/-- The slot that `writev` writes to, and the map that leads to it. -/
theorem slot_for {pf : PartFile} (h : pf.Valid) {piece : Nat} (hpiece : piece < pf.m_max_pieces)
    {found : Nat × PartFile} (hfound : found = match pf.find piece with
      | some slot => (slot, pf)
      | none => pf.allocate_slot piece) :
    found.2.Valid ∧ pf.SameSizes found.2 ∧ found.2.find piece = some found.1 ∧
      ∀ q slot, pf.find q = some slot → found.2.find q = some slot := by
  cases hfind : pf.find piece with
  | some slot =>
    rw [hfind] at hfound
    subst hfound
    exact ⟨h, ⟨rfl, rfl, rfl⟩, hfind, fun q slot hq => hq⟩
  | none =>
    rw [hfind] at hfound
    subst hfound
    have hvalid := h.allocate_slot hpiece hfind
    obtain ⟨slot, hmap, hslot, hsizes⟩ : ∃ slot,
        (pf.allocate_slot piece).2.m_piece_map = (piece, slot) :: pf.m_piece_map ∧
        (pf.allocate_slot piece).1 = slot ∧ pf.SameSizes (pf.allocate_slot piece).2 := by
      rw [allocate_slot]
      split
      · exact ⟨_, rfl, rfl, rfl, rfl, rfl⟩
      · exact ⟨_, rfl, rfl, rfl, rfl, rfl⟩
    refine ⟨hvalid, hsizes, ?_, ?_⟩
    · rw [hvalid.find_iff, hmap, hslot]
      exact List.mem_cons_self
    · intro q slot' hq
      rw [hvalid.find_iff, hmap]
      exact List.mem_cons_of_mem _ (mem_of_find hq)

/-- The places of one piece in its slot. -/
theorem place_in_piece (piece : Nat) {ps k : Nat} (hk : k < ps) :
    (piece * ps + k) / ps = piece ∧ (piece * ps + k) % ps = k := by
  constructor
  · rw [Nat.add_comm, Nat.add_mul_div_right k piece (by omega), Nat.div_eq_of_lt hk, Nat.zero_add]
  · rw [Nat.add_comm, Nat.add_mul_mod_self_right, Nat.mod_eq_of_lt hk]

/-- Different slots lie apart. -/
theorem slots_apart {pf : PartFile} {s t k l : Nat} (hne : s ≠ t) (hk : k < pf.m_piece_size)
    (hl : l ≤ pf.m_piece_size) :
    pf.slot_offset s + k < pf.slot_offset t ∨ pf.slot_offset t + l ≤ pf.slot_offset s + k := by
  rw [slot_offset, slot_offset]
  rcases Nat.lt_or_gt_of_ne hne with hlt | hgt
  · left
    have := Nat.mul_le_mul_right pf.m_piece_size (Nat.succ_le_of_lt hlt)
    rw [Nat.succ_mul] at this
    omega
  · right
    have := Nat.mul_le_mul_right pf.m_piece_size (Nat.succ_le_of_lt hgt)
    rw [Nat.succ_mul] at this
    omega

section Io

variable {pf pf' : PartFile} {part part' : Option (List UInt8)} {piece offset : Nat} {a : Access}
  {ret : Except Errno Nat} {block : List UInt8}

/-- `writev` puts a first part of the block in its place, and the part file keeps all
else that it holds. -/
theorem writev_spec (h : pf.Valid) (hpiece : piece < pf.m_max_pieces)
    (hin : offset + block.length ≤ pf.m_piece_size)
    (hrun : pf.writev part block piece offset a = (ret, pf', part')) :
    pf'.Valid ∧ pf.SameSizes pf' ∧ ∃ n ≤ block.length, (∀ m, ret = .ok m → m = n) ∧
      ((pf.image part).put (piece * pf.m_piece_size + offset) (block.take n)).Within
        (pf'.image part') := by
  rw [writev] at hrun
  split at hrun
  · cases hrun
    refine ⟨h, ⟨rfl, rfl, rfl⟩, 0, Nat.zero_le _, fun m hm => (by cases hm), ?_⟩
    rw [List.take_zero, Image.put_nil]
    exact fun x b hb => hb
  · obtain ⟨found, hfound⟩ : ∃ found, found = match pf.find piece with
      | some slot => (slot, pf)
      | none => pf.allocate_slot piece := ⟨_, rfl⟩
    rw [← hfound] at hrun
    obtain ⟨hvalid, hsizes, hslot, hkept⟩ := slot_for h hpiece hfound
    obtain ⟨ret', content', hwrite⟩ : ∃ ret' content',
        pwrite (part.getD []) (pf.slot_offset found.1 + offset) block a = (ret', content') :=
      ⟨_, _, rfl⟩
    dsimp only at hrun
    rw [hwrite] at hrun
    cases hrun
    obtain ⟨n, hn, rfl, hret⟩ := pwrite_spec hwrite
    refine ⟨hvalid, hsizes, n, hn, hret, ?_⟩
    obtain ⟨-, hps, hheader⟩ := hsizes
    have hlength : (block.take n).length = n := List.length_take_of_le hn
    have hslot_offset : ∀ s, found.2.slot_offset s = pf.slot_offset s := by
      intro s
      rw [slot_offset, slot_offset, hps, hheader]
    intro x b hb
    rw [image_eq_some]
    by_cases hinside : piece * pf.m_piece_size + offset ≤ x ∧
        x < piece * pf.m_piece_size + offset + n
    · -- a place of the block
      obtain ⟨k, rfl⟩ : ∃ k, x = piece * pf.m_piece_size + (offset + k) :=
        ⟨x - (piece * pf.m_piece_size + offset), by omega⟩
      have hplace : offset + k < pf.m_piece_size := by omega
      obtain ⟨hdiv, hmod⟩ := place_in_piece piece hplace
      rw [Image.put_inside hinside.1 (by rw [hlength]; exact hinside.2)] at hb
      refine ⟨found.1, _, ?_, rfl, ?_⟩
      · rw [hps, hdiv]
        exact hslot
      · rw [hps, hmod, hslot_offset,
          getElem?_written_inside (by omega) (by rw [hlength]; omega), ← hb]
        congr 1
        omega
    · rw [Image.put_outside (by rw [hlength]; omega)] at hb
      obtain ⟨slot, content, hfind, rfl, hbyte⟩ := image_eq_some.mp hb
      refine ⟨slot, _, ?_, rfl, ?_⟩
      · rw [hps]
        exact hkept _ _ hfind
      · rw [hps, hslot_offset]
        refine getElem?_written_outside hbyte ?_
        rw [hlength]
        by_cases hsame : slot = found.1
        · -- the same slot, in front of the block or behind it
          have hq : x / pf.m_piece_size = piece :=
            hvalid.find_inj (hkept _ _ hfind) (hsame ▸ hslot)
          have hx := Nat.div_add_mod x pf.m_piece_size
          rw [hq, Nat.mul_comm] at hx
          rw [hsame]
          omega
        · have hapart := slots_apart hsame (Nat.mod_lt x h.piece_size_pos) hin
          rcases hapart with hbefore | hafter
          · left
            omega
          · right
            omega

/-- A part file that is not there holds what an empty one does. -/
theorem image_getD (pf : PartFile) (part : Option (List UInt8)) :
    pf.image (some (part.getD [])) = pf.image part := by
  cases part with
  | some content => rfl
  | none =>
    funext x
    simp only [image, Option.getD_none, List.getElem?_nil, Option.bind_eq_bind, Option.bind_none,
      Option.bind_some, Option.bind_fun_none]

/-- `readv` reads what the part file holds. -/
theorem readv_spec {n : Nat} (hin : offset + n ≤ pf.m_piece_size)
    (hrun : pf.readv part n piece offset a = (ret, block, part')) :
    pf.image part' = pf.image part ∧ block.length ≤ n ∧ (∀ k b, block[k]? = some b →
        pf.image part (piece * pf.m_piece_size + offset + k) = some b) ∧
      ∀ m, ret = .ok m → m = block.length := by
  have hnone : (∀ k b, ([] : List UInt8)[k]? = some b →
      pf.image part (piece * pf.m_piece_size + offset + k) = some b) := by
    intro k b hb
    cases hb
  rw [readv] at hrun
  split at hrun
  · cases hrun
    exact ⟨rfl, Nat.zero_le n, hnone, fun m hm => (by cases hm)⟩
  · rename_i slot hfind
    split at hrun
    · cases hrun
      exact ⟨rfl, Nat.zero_le n, hnone, fun m hm => (by cases hm)⟩
    · obtain ⟨ret', block', hread⟩ : ∃ ret' block',
          pread (part.getD []) (pf.slot_offset slot + offset) n a = (ret', block') := ⟨_, _, rfl⟩
      dsimp only at hrun
      rw [hread] at hrun
      cases hrun
      obtain ⟨hlength, hbytes, hret⟩ := pread_spec hread
      refine ⟨pf.image_getD part, hlength, ?_, hret⟩
      intro k b hb
      have hk : k < block'.length := (List.getElem?_eq_some_iff.mp hb).1
      have hplace : offset + k < pf.m_piece_size := by omega
      obtain ⟨hdiv, hmod⟩ := place_in_piece piece hplace
      rw [← pf.image_getD part, image_eq_some, Nat.add_assoc, hdiv, hmod]
      refine ⟨slot, _, hfind, rfl, ?_⟩
      rw [← Nat.add_assoc]
      exact hbytes k b hb

/-- Where the part file holds every byte, `readv` gets them all when all goes well. -/
theorem readv_fine {n : Nat} (hn : 0 < n) (hin : offset + n ≤ pf.m_piece_size)
    (hall : ∀ k < n, ∃ b, pf.image part (piece * pf.m_piece_size + offset + k) = some b) :
    (pf.readv part n piece offset .fine).1 = .ok n := by
  have hbyte : ∀ k < n, ∃ slot content b, pf.find piece = some slot ∧ part = some content ∧
      content[pf.slot_offset slot + offset + k]? = some b := by
    intro k hk
    obtain ⟨b, hb⟩ := hall k hk
    have hplace : offset + k < pf.m_piece_size := by omega
    obtain ⟨hdiv, hmod⟩ := place_in_piece piece hplace
    rw [image_eq_some, Nat.add_assoc, hdiv, hmod] at hb
    obtain ⟨slot, content, hfind, hpart, hbyte⟩ := hb
    exact ⟨slot, content, b, hfind, hpart, by rwa [Nat.add_assoc]⟩
  obtain ⟨slot, content, -, hfind, rfl, -⟩ := hbyte 0 hn
  have hlength : (readAt content (pf.slot_offset slot + offset) n).length = n := by
    apply length_readAt
    intro k hk
    obtain ⟨slot', content', b, hfind', hpart', hb⟩ := hbyte k hk
    cases hfind.symm.trans hfind'
    cases hpart'
    exact ⟨b, hb⟩
  rw [readv, hfind]
  dsimp only [Access.fine, Option.getD_some]
  rw [show (⟨none, none, none, none, none, none⟩ : Access) = .fine from rfl, pread_fine, hlength]

end Io

/-! ## `export_file` -/

/-- How an export ends.  The program tells a failure from the rest, and nothing else. -/
inductive ExportEnd where
  /-- every byte that the part file held for the file was copied -/
  | copied
  /-- the loop went on behind a short read, or returned without an error -/
  | partly
  | failed (e : Errno)
  deriving DecidableEq, Repr

/-- The loop of `export_file`, from `piece` on for as many pieces as `count`.  `file` is
the file exported to. -/
def exportPieces (part : Option (List UInt8)) : Nat → Nat → Nat → Nat → Nat →
    PartFile → List UInt8 → List Access → ExportEnd × PartFile × List UInt8 × List Access
  | 0, _, _, _, _, pf, file, accesses => (.copied, pf, file, accesses)
  | count + 1, piece, piece_offset, file_offset, size, pf, file, accesses =>
      let block_to_copy := min (pf.m_piece_size - piece_offset) size
      match pf.find piece with
      | none =>
          exportPieces part count (piece + 1) 0 (file_offset + block_to_copy)
            (size - block_to_copy) pf file accesses
      | some slot =>
          let a := accesses.headD .fine
          match a.opened, part with
          | some e, _ => (.failed e, pf, file, accesses.tail)
          | none, none => (.failed .no_such_file_or_directory, pf, file, accesses.tail)
          | none, some content =>
              let start := pf.slot_offset slot + piece_offset
              match pread content start block_to_copy a with
              | (.error e, _) => (.failed e, pf, file, accesses.tail)
              | (.ok n, block) =>
                  if n = 0 then (.partly, pf, file, accesses.tail)
                  else
                    let b := accesses.tail.headD .fine
                    match pwrite file file_offset block b with
                    | (.error e, file') => (.failed e, pf, file', accesses.tail.tail)
                    | (.ok m, file') =>
                        if m ≠ n then (.partly, pf, file', accesses.tail.tail)
                        else
                          let pf' := if block_to_copy = pf.m_piece_size then pf.free_piece piece
                            else pf
                          let rest := exportPieces part count (piece + 1) 0
                            (file_offset + block_to_copy) (size - block_to_copy) pf' file'
                            accesses.tail.tail
                          if rest.1 = .copied ∧
                              n < (readAt content start block_to_copy).length then
                            (.partly, rest.2)
                          else rest

/-- `part_file::export_file` of the file at `offset`. -/
def export_file (pf : PartFile) (part : Option (List UInt8)) (file : List UInt8)
    (offset size : Nat) (accesses : List Access) :
    ExportEnd × PartFile × List UInt8 × List Access :=
  let piece := offset / pf.m_piece_size
  let last := (offset + size + pf.m_piece_size - 1) / pf.m_piece_size
  exportPieces part (last - piece) piece (offset - piece * pf.m_piece_size) 0 size pf file accesses

theorem sameSizes_free_piece (pf : PartFile) (piece : Nat) :
    pf.SameSizes (pf.free_piece piece) := by
  rw [free_piece]
  split
  · exact ⟨rfl, rfl, rfl⟩
  · exact ⟨rfl, rfl, rfl⟩

theorem Valid.find_free_piece {pf : PartFile} (h : pf.Valid) {piece q slot : Nat}
    (hne : q ≠ piece) (hq : pf.find q = some slot) :
    (pf.free_piece piece).find q = some slot := by
  rw [(h.free_piece piece).find_iff, PartFile.free_piece]
  split
  · exact mem_of_find hq
  · refine (List.mem_erase_of_ne ?_).mpr (mem_of_find hq)
    exact fun heq => hne (congrArg Prod.fst heq)

/-- Freeing a piece takes away the places of that piece only. -/
theorem Valid.image_free_piece {pf : PartFile} (h : pf.Valid) {part : Option (List UInt8)}
    {piece x : Nat} {b : UInt8} (hne : x / pf.m_piece_size ≠ piece)
    (hb : pf.image part x = some b) : (pf.free_piece piece).image part x = some b := by
  obtain ⟨-, hps, hheader⟩ := pf.sameSizes_free_piece piece
  obtain ⟨slot, content, hfind, hpart, hbyte⟩ := image_eq_some.mp hb
  refine image_eq_some.mpr ⟨slot, content, ?_, hpart, ?_⟩
  · rw [hps]
    exact h.find_free_piece hne hfind
  · rw [slot_offset, hps, hheader]
    exact hbyte

/-- What an export from the place `offset + done` on does to the part file and to the
file, `size` bytes being left. -/
structure Exported (part : Option (List UInt8)) (offset done size : Nat) (pf : PartFile)
    (file : List UInt8) (ended : ExportEnd) (pf' : PartFile) (file' : List UInt8) : Prop where
  valid : pf'.Valid
  sizes : pf.SameSizes pf'
  dirty : pf' = pf ∨ pf'.m_dirty_metadata = true
  outside : ∀ x b, x < offset + done ∨ offset + done + size ≤ x →
    pf.image part x = some b → pf'.image part x = some b
  front : ∀ k b, k < done → file[k]? = some b → file'[k]? = some b
  copied : ended = .copied → ∀ k b, done ≤ k → k < done + size →
    pf.image part (offset + k) = some b → file'[k]? = some b

/-- An export that stops has copied nothing that is promised. -/
theorem Exported.stop {part : Option (List UInt8)} {offset done size : Nat} {pf : PartFile}
    {file file' : List UInt8} {ended : ExportEnd} (h : pf.Valid) (hended : ended ≠ .copied)
    (hfront : ∀ k b, k < done → file[k]? = some b → file'[k]? = some b) :
    Exported part offset done size pf file ended pf file' :=
  ⟨h, ⟨rfl, rfl, rfl⟩, Or.inl rfl, fun _ _ _ hb => hb, hfront, fun hc => absurd hc hended⟩

/-- One block is copied, its piece is freed if it was the whole of it, and the export
goes on behind it. -/
theorem Exported.step {part : Option (List UInt8)} {piece n offset done size : Nat}
    {pf pf1 pf' : PartFile} {file file' block : List UInt8} {ended : ExportEnd} (h : pf.Valid)
    (hpf1 : pf1 = if n = pf.m_piece_size then pf.free_piece piece else pf)
    (hwhole : n = pf.m_piece_size →
      offset + done = piece * pf.m_piece_size ∧ pf.m_piece_size ≤ size)
    (hblock : block.length ≤ n) (hn : n ≤ size)
    (hcopied : ended = .copied → ∀ k b, done ≤ k → k < done + n →
      pf.image part (offset + k) = some b → block[k - done]? = some b)
    (hrest : Exported part offset (done + n) (size - n) pf1 (written file done block) ended pf'
      file') :
    Exported part offset done size pf file ended pf' file' := by
  have hnextPiece : (piece + 1) * pf.m_piece_size = piece * pf.m_piece_size + pf.m_piece_size :=
    Nat.succ_mul _ _
  have hsizes : pf.SameSizes pf1 := by
    rw [hpf1]
    split
    · exact pf.sameSizes_free_piece piece
    · exact ⟨rfl, rfl, rfl⟩
  have hkept : ∀ x b, (n = pf.m_piece_size → x < offset + done ∨ offset + done + n ≤ x) →
      pf.image part x = some b → pf1.image part x = some b := by
    intro x b hx hb
    rw [hpf1]
    split
    · rename_i hall
      refine h.image_free_piece ?_ hb
      obtain ⟨hstart, -⟩ := hwhole hall
      intro hpiece
      have hlo := Nat.div_mul_le_self x pf.m_piece_size
      have hhi := Nat.lt_mul_div_succ x h.piece_size_pos
      rw [hpiece, Nat.mul_comm, hnextPiece] at hhi
      rw [hpiece] at hlo
      have := hx hall
      omega
    · exact hb
  have hdirty : pf1 = pf ∨ pf1.m_dirty_metadata = true := by
    rw [hpf1]
    split
    · rw [free_piece]
      split
      · exact Or.inl rfl
      · exact Or.inr rfl
    · exact Or.inl rfl
  refine ⟨hrest.valid, ?_, ?_, ?_, ?_, ?_⟩
  · obtain ⟨hmax, hps, hheader⟩ := hsizes
    obtain ⟨hmax', hps', hheader'⟩ := hrest.sizes
    exact ⟨hmax'.trans hmax, hps'.trans hps, hheader'.trans hheader⟩
  · rcases hrest.dirty with rfl | hset
    · exact hdirty
    · exact Or.inr hset
  · intro x b hx hb
    refine hrest.outside x b (by omega) (hkept x b (fun _ => ?_) hb)
    omega
  · intro k b hk hb
    exact hrest.front k b (by omega) (getElem?_written_outside hb (Or.inl hk))
  · intro hended k b hlo hhi hb
    by_cases hin : k < done + n
    · have hbyte := hcopied hended k b hlo hin hb
      obtain ⟨hlength, -⟩ := List.getElem?_eq_some_iff.mp hbyte
      exact hrest.front k b hin ((getElem?_written_inside hlo (by omega)).trans hbyte)
    · exact hrest.copied hended k b (by omega) (by omega) (hkept _ b (fun _ => by omega) hb)

/-- Where the loop of `export_file` stands: `size` bytes are left from `place` on, which lies
`piece_offset` bytes behind the start of the first of `count` pieces that hold them. -/
def ExportAt (pf : PartFile) (count piece piece_offset place size : Nat) : Prop :=
  size = 0 ∨ piece * pf.m_piece_size + piece_offset = place ∧ piece_offset < pf.m_piece_size ∧
    place + size ≤ (piece + count) * pf.m_piece_size

section ExportAt

variable {pf : PartFile} {count piece piece_offset place size : Nat}

/-- The next piece begins where this block ends, or there is nothing left. -/
theorem ExportAt.next (h : pf.ExportAt (count + 1) piece piece_offset place size)
    (hpos : 0 < pf.m_piece_size) :
    pf.ExportAt count (piece + 1) 0 (place + min (pf.m_piece_size - piece_offset) size)
      (size - min (pf.m_piece_size - piece_offset) size) := by
  have hnextPiece : (piece + 1) * pf.m_piece_size = piece * pf.m_piece_size + pf.m_piece_size :=
    Nat.succ_mul _ _
  rcases h with hzero | ⟨hstart, hin, hend⟩
  · left
    omega
  · by_cases hmore : pf.m_piece_size - piece_offset < size
    · right
      refine ⟨by omega, hpos, ?_⟩
      rw [show piece + 1 + count = piece + (count + 1) by omega]
      omega
    · left
      omega

/-- A block of a whole piece begins where the piece does. -/
theorem ExportAt.whole (h : pf.ExportAt count piece piece_offset place size)
    (hpos : 0 < pf.m_piece_size)
    (hall : min (pf.m_piece_size - piece_offset) size = pf.m_piece_size) :
    place = piece * pf.m_piece_size ∧ pf.m_piece_size ≤ size := by
  rcases h with hzero | ⟨hstart, hin, -⟩
  · omega
  · omega

end ExportAt

end PartFile

end TorrentApp.Torrent
