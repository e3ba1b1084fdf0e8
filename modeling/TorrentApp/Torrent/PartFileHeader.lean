import TorrentApp.Torrent.PartFile

set_option autoImplicit false

/-!
# The header of the part file

The map from pieces to slots is kept in front of the slots.  Between two flushes the
header may be behind the map; what is flushed is what the constructor loads.
-/

namespace TorrentApp.Torrent

open TorrentApp.Foundation

namespace PartFile

/-! ## The header -/

/-- `write_uint32`. -/
def write_uint32 (n : Nat) : List UInt8 :=
  [.ofNat (n / 2 ^ 24), .ofNat (n / 2 ^ 16), .ofNat (n / 2 ^ 8), .ofNat n]

/-- `read_uint32`. -/
def read_uint32 (bytes : List UInt8) : Nat :=
  (bytes.take 4).foldl (fun ret b => ret * 256 + b.toNat) 0

/-- What stands in the header for a piece without a slot. -/
def noSlot : Nat := 0xffffffff

/-- The header that `flush_metadata_impl` writes. -/
def header (pf : PartFile) : List UInt8 :=
  write_uint32 pf.m_max_pieces ++ (write_uint32 pf.m_piece_size ++
    ((List.range pf.m_max_pieces).flatMap
      (fun piece => write_uint32 ((pf.find piece).getD noSlot)) ++
      List.replicate (pf.m_header_size - (8 + 4 * pf.m_max_pieces)) 0))

/-- `part_file::flush_metadata_impl`. -/
def flush_metadata (pf : PartFile) (part : Option (List UInt8)) (a : Access) :
    Option Errno × Option (List UInt8) :=
  if pf.m_dirty_metadata = false then (none, part)
  else if pf.m_piece_map = [] then
    match a.error with
    | some (.other value) => (some (.other value), part)
    | _ => (none, none)
  else
    match a.opened with
    | some e => (some e, part)
    | none =>
        match pwrite (part.getD []) 0 pf.header a with
        | (.error e, content) => (some e, some content)
        | (.ok _, content) => (none, some content)

/-- A part file without pieces. -/
def empty (num_pieces piece_size : Nat) : PartFile where
  m_free_slots := []
  m_num_allocated := 0
  m_max_pieces := num_pieces
  m_piece_size := piece_size
  m_header_size := round_up ((2 + num_pieces) * 4)
  m_dirty_metadata := false
  m_piece_map := []

/-- The pieces and slots that a header names. -/
def parseSlots (num_pieces : Nat) (header : List UInt8) : List (Nat × Nat) :=
  (List.range num_pieces).filterMap fun i =>
    let slot := read_uint32 (header.drop (8 + 4 * i))
    if slot = noSlot then none
    else if num_pieces ≤ slot then none
    else some (i, slot)

/-- `m_num_allocated` behind the last of the slots. -/
def countSlots (entries : List (Nat × Nat)) : Nat :=
  entries.foldl (fun n e => if n ≤ e.2 then e.2 + 1 else n) 0

/-- The constructor `part_file::part_file`. -/
def load (num_pieces piece_size : Nat) (part : Option (List UInt8)) (a : Access) : PartFile :=
  let pf := empty num_pieces piece_size
  match a.opened, part with
  | none, some content =>
      match pread content 0 pf.m_header_size a with
      | (.error _, _) => pf
      | (.ok n, header) =>
          if n < pf.m_header_size then pf
          else if read_uint32 header ≠ num_pieces ∨ read_uint32 (header.drop 4) ≠ piece_size then
            pf
          else
            let entries := parseSlots num_pieces header
            { pf with
              m_piece_map := entries
              m_num_allocated := countSlots entries
              m_free_slots := (List.range (countSlots entries)).filter fun slot =>
                slot ∉ entries.map Prod.snd }
  | _, _ => pf

@[simp] theorem length_write_uint32 (n : Nat) : (write_uint32 n).length = 4 := rfl

theorem length_flatMap_write_uint32 (f : Nat → Nat) (l : List Nat) :
    (l.flatMap fun x => write_uint32 (f x)).length = 4 * l.length := by
  induction l with
  | nil => rfl
  | cons x l ih =>
    rw [List.flatMap_cons, List.length_append, ih, length_write_uint32, List.length_cons]
    omega

namespace Valid

variable {pf : PartFile}

theorem header_room (h : pf.Valid) : 8 + 4 * pf.m_max_pieces ≤ pf.m_header_size := by
  rw [h.header_size_eq, round_up]
  omega

theorem length_header (h : pf.Valid) : pf.header.length = pf.m_header_size := by
  have hroom := h.header_room
  rw [header, List.length_append, List.length_append, List.length_append, length_write_uint32,
    length_write_uint32, length_flatMap_write_uint32, List.length_range, List.length_replicate]
  omega

end Valid

/-- The header never reaches a slot, and an empty part file is removed: flushing keeps
what the part file holds. -/
theorem Valid.flush_metadata {pf : PartFile} (h : pf.Valid) {part part' : Option (List UInt8)}
    {a : Access} {e : Option Errno} (hrun : pf.flush_metadata part a = (e, part')) :
    (pf.image part).Within (pf.image part') := by
  intro x b hb
  obtain ⟨slot, content, hfind, rfl, hbyte⟩ := image_eq_some.mp hb
  rw [PartFile.flush_metadata] at hrun
  split at hrun
  · cases hrun
    exact hb
  · split at hrun
    · rename_i hnone
      have hmem := mem_of_find hfind
      rw [hnone] at hmem
      cases hmem
    · split at hrun
      · cases hrun
        exact hb
      · have hkept : ∀ ret content', pwrite content 0 pf.header a = (ret, content') →
            pf.image (some content') x = some b := by
          intro ret content' hwrite
          obtain ⟨n, hn, rfl, -⟩ := pwrite_spec hwrite
          refine image_eq_some.mpr ⟨slot, _, hfind, rfl, ?_⟩
          refine getElem?_written_outside hbyte (Or.inr ?_)
          rw [h.length_header] at hn
          rw [List.length_take, slot_offset]
          omega
        split at hrun
        · rename_i hwrite
          cases hrun
          exact hkept _ _ hwrite
        · rename_i hwrite
          cases hrun
          exact hkept _ _ hwrite

/-- While nothing is to be flushed, a valid part file can be loaded, and either it is
this one or this one has no pieces. -/
def Saved (pf : PartFile) (part : Option (List UInt8)) : Prop :=
  pf.m_dirty_metadata = false →
    (load pf.m_max_pieces pf.m_piece_size part .fine).Valid ∧
      (load pf.m_max_pieces pf.m_piece_size part .fine = pf ∨ pf.m_piece_map = [])

/-- With a piece in the map, what is loaded is this part file. -/
theorem Saved.load_eq {pf : PartFile} {part : Option (List UInt8)} (h : pf.Saved part)
    (hclean : pf.m_dirty_metadata = false) {q slot : Nat} (hfind : pf.find q = some slot) :
    load pf.m_max_pieces pf.m_piece_size part .fine = pf := by
  rcases (h hclean).2 with hload | hnone
  · exact hload
  · have hmem := mem_of_find hfind
    rw [hnone] at hmem
    cases hmem

/-- Only the header of the part file is loaded. -/
theorem load_congr {num_pieces piece_size : Nat} {content content' : List UInt8}
    (h : readAt content' 0 (round_up ((2 + num_pieces) * 4)) =
      readAt content 0 (round_up ((2 + num_pieces) * 4))) :
    load num_pieces piece_size (some content') .fine =
      load num_pieces piece_size (some content) .fine := by
  simp only [load, show Access.fine.opened = none from rfl, pread_fine, empty, h]

/-- A part file that has pieces was loaded from a whole header. -/
theorem le_length_of_load {num_pieces piece_size q slot : Nat} {part : Option (List UInt8)}
    (h : (load num_pieces piece_size part .fine).find q = some slot) :
    ∃ content, part = some content ∧ round_up ((2 + num_pieces) * 4) ≤ content.length := by
  cases part with
  | none => cases h
  | some content =>
    refine ⟨content, rfl, ?_⟩
    by_contra hshort
    have hlength : (readAt content 0 (round_up ((2 + num_pieces) * 4))).length <
        round_up ((2 + num_pieces) * 4) := by
      rw [readAt, List.drop_zero, List.length_take]
      omega
    have hload : load num_pieces piece_size (some content) .fine = empty num_pieces piece_size := by
      simp only [load, show Access.fine.opened = none from rfl, pread_fine]
      exact if_pos hlength
    rw [hload] at h
    cases h

/-- Where nothing is to be flushed, a write behind the header changes nothing that is
loaded. -/
theorem Saved.written {pf : PartFile} {content block : List UInt8} {start q slot : Nat}
    (h : pf.Valid) (hsaved : pf.Saved (some content)) (hfind : pf.find q = some slot)
    (hstart : pf.m_header_size ≤ start) : pf.Saved (some (written content start block)) := by
  intro hclean
  have hload := hsaved.load_eq hclean hfind
  have hsize := h.header_size_eq
  obtain ⟨c, hc, hlength⟩ := le_length_of_load (by rw [hload]; exact hfind)
  cases hc
  have hsame : load pf.m_max_pieces pf.m_piece_size (some (Torrent.written content start block))
      .fine = load pf.m_max_pieces pf.m_piece_size (some content) .fine := by
    apply load_congr
    rw [← hsize]
    rw [← hsize] at hlength
    apply List.ext_getElem?
    intro k
    by_cases hk : k < pf.m_header_size
    · rw [getElem?_readAt hk, getElem?_readAt hk, Nat.zero_add,
        List.getElem?_eq_getElem (by omega : k < content.length)]
      exact getElem?_written_outside (List.getElem?_eq_getElem _) (Or.inl (by omega))
    · have hle := fun data : List UInt8 => length_readAt_le data 0 pf.m_header_size
      rw [List.getElem?_eq_none ((hle _).trans (by omega)),
        List.getElem?_eq_none ((hle _).trans (by omega))]
  rw [hsame]
  exact hsaved hclean

theorem Saved.writev {pf pf' : PartFile} {part part' : Option (List UInt8)} {block : List UInt8}
    {piece offset : Nat} {a : Access} {ret : Except Errno Nat} (h : pf.Valid)
    (hsaved : pf.Saved part) (hrun : pf.writev part block piece offset a = (ret, pf', part')) :
    pf'.Saved part' := by
  rw [PartFile.writev] at hrun
  split at hrun
  · cases hrun
    exact hsaved
  · dsimp only at hrun
    split at hrun
    · rename_i slot hfind
      cases hrun
      intro hclean
      obtain ⟨content, rfl, -⟩ := le_length_of_load
        (by rw [hsaved.load_eq hclean hfind]; exact hfind)
      refine hsaved.written h hfind ?_ hclean
      dsimp only [slot_offset]
      omega
    · cases hrun
      intro hclean
      rw [allocate_slot] at hclean
      split at hclean
      · cases hclean
      · cases hclean

theorem Saved.readv {pf : PartFile} {part part' : Option (List UInt8)} {block : List UInt8}
    {n piece offset : Nat} {a : Access} {ret : Except Errno Nat}
    (hsaved : pf.Saved part) (hrun : pf.readv part n piece offset a = (ret, block, part')) :
    pf.Saved part' := by
  rw [PartFile.readv] at hrun
  split at hrun
  · cases hrun
    exact hsaved
  · rename_i slot hfind
    split at hrun
    · cases hrun
      exact hsaved
    · cases hrun
      intro hclean
      obtain ⟨content, rfl, -⟩ := le_length_of_load
        (by rw [hsaved.load_eq hclean hfind]; exact hfind)
      exact hsaved hclean

theorem Saved.flush_metadata {pf : PartFile} {part part' : Option (List UInt8)} {a : Access}
    {e : Option Errno} (hsaved : pf.Saved part) (hrun : pf.flush_metadata part a = (e, part')) :
    pf.Saved part' := by
  intro hclean
  rw [PartFile.flush_metadata, if_pos hclean] at hrun
  cases hrun
  exact hsaved hclean

end PartFile

end TorrentApp.Torrent
