import TorrentApp.Downloader.Swarm
import TorrentApp.Torrent.FileProgress

set_option autoImplicit false

/-!
# The progress that is reported

`torrent::file_progress` answers `h.file_progress()`: to the bytes of the pieces
that have passed it adds the blocks of the pieces in the download queue.  The file
says exactly what it adds, and when the answer is one that the downloader's turns
can rely on.
-/

namespace TorrentApp.Torrent

open TorrentApp.Foundation

/-! ## The blocks of the pieces in the queue -/

/-- `block_info::state`; a requested block comes with the bytes that its peer has sent of it. -/
inductive BlockState where
  | state_none
  | state_requested (bytes_downloaded : Nat)
  | state_writing
  | state_finished
  deriving DecidableEq, Repr

/-- `piece_picker::blocks_in_piece`, of a picker that the torrent has set up. -/
def FileStorage.blocks_in_piece (st : FileStorage) (block_size index : Nat) : Nat :=
  let blocks_per_piece := (st.piece_length + block_size - 1) / block_size
  let blocks_in_last_piece := (st.total_size % st.piece_length + block_size - 1) / block_size
  if index + 1 = st.num_pieces ∧ blocks_in_last_piece ≠ 0 then blocks_in_last_piece
  else blocks_per_piece

/-- How much of a block `torrent::file_progress` counts. -/
def BlockState.counted (block_size : Nat) : BlockState → Nat
  | .state_none => 0
  | .state_requested bytes_downloaded => bytes_downloaded
  | .state_writing => block_size
  | .state_finished => block_size

/-- A piece of `get_download_queue`, with the states of its blocks. -/
structure DownloadingPiece where
  index : Nat
  info : List BlockState
  deriving DecidableEq, Repr

/-- The loop that splits a block on multiple files, until the block or the files end. -/
def splitBlock : List InternalFileEntry → Nat → Nat → Nat → List Nat →
    List InternalFileEntry × Nat × List Nat
  | [], i, _, _, fp => ([], i, fp)
  | f :: rest, i, offset, block, fp =>
      if block = 0 then (f :: rest, i, fp)
      else
        let slice := min (f.offset + f.size - offset) block
        let fp := fp.modify i (· + slice)
        if offset + slice = f.offset + f.size then
          splitBlock rest (i + 1) (offset + slice) (block - slice) fp
        else (f :: rest, i, fp)

/-- The loop over the blocks of a piece, from `offset` on. -/
def countBlocks (block_size : Nat) : List BlockState → List InternalFileEntry → Nat → Nat →
    List Nat → Option (List Nat)
  | [], _, _, _, fp => some fp
  | b :: info, files, i, offset, fp => do
      let (files, i) ← seekFile offset files i
      let block := b.counted block_size
      if block = 0 then countBlocks block_size info files i (offset + block_size) fp
      else if (files.map fun f => f.offset + f.size).headD 0 < offset + block then
        let (files, i, fp) := splitBlock files i offset block fp
        countBlocks block_size info files i (offset + block_size) fp
      else countBlocks block_size info files i (offset + block_size) (fp.modify i (· + block))

/-- The loop over the download queue. -/
def countQueue (st : FileStorage) (block_size : Nat) : List DownloadingPiece → List Nat →
    Option (List Nat)
  | [], fp => some fp
  | q :: queue, fp => do
      let offset := q.index * st.piece_length
      let file := st.file_index_at_offset offset
      let fp ← countBlocks block_size q.info (st.files.drop file) file offset fp
      countQueue st block_size queue fp

/-- `torrent::file_progress` of a torrent with metadata. -/
def FileStorage.file_progress (st : FileStorage) (block_size : Nat) (is_seed : Bool)
    (num_have : Nat) (m_file_progress : List Nat) (piece_granularity : Bool)
    (queue : List DownloadingPiece) : Option (List Nat) :=
  if is_seed then some (st.files.map InternalFileEntry.size)
  else if num_have = 0 then some (List.replicate st.num_files 0)
  else if piece_granularity then some m_file_progress
  else countQueue st block_size queue m_file_progress

section

variable {st : AcceptedStorage} {marked : Nat → Bool} {files : List InternalFileEntry}
  {i offset block start : Nat} {fp : List Nat}

/-- The bytes of a block that lie in the torrent are counted. -/
theorem splitBlock_spec (hfiles : st.files.drop i = files)
    (habut : Abut InternalFileEntry.offset InternalFileEntry.size start files)
    (hsum : start + (files.map InternalFileEntry.size).sum = st.total_size)
    (hlo : start ≤ offset) (hin : ∀ f ∈ files.head?, offset ≤ f.offset + f.size)
    (hend : files = [] → st.total_size ≤ offset)
    (hfree : ∀ x, offset ≤ x → x < offset + block → marked x = false) (h : st.Counts marked fp) :
    ∃ files' j fp', splitBlock files i offset block fp = (files', j, fp') ∧
      st.files.drop j = files' ∧
      (∀ f ∈ files'.head?, f.offset ≤ offset + block) ∧
      (files' = [] → st.total_size ≤ offset + block) ∧
      st.Counts (mark marked offset block) fp' := by
  induction files generalizing i start offset block marked fp with
  | nil =>
    refine ⟨[], i, fp, rfl, hfiles, fun f hf => (by cases hf), fun _ => ?_, ?_⟩
    · have := hend rfl
      omega
    · refine counts_congr h fun x hx => (mark_outside ?_).symm
      have := hend rfl
      omega
  | cons f rest ih =>
    obtain ⟨-, hrest⟩ := getElem?_of_drop_eq hfiles
    have hstart := habut.1
    have hplace := hin f rfl
    rw [List.map_cons, List.sum_cons] at hsum
    rw [splitBlock]
    by_cases hzero : block = 0
    · rw [if_pos hzero, hzero, mark_zero]
      exact ⟨f :: rest, i, fp, rfl, hfiles, fun g hg => by cases hg; omega,
        fun h => (by cases h), h⟩
    · rw [if_neg hzero]
      obtain ⟨slice, hslice⟩ : ∃ slice, slice = min (f.offset + f.size - offset) block := ⟨_, rfl⟩
      have hhead := counts_head h hfiles (show f.offset ≤ offset by omega)
        (show offset + slice ≤ f.offset + f.size by omega) (fun x hlo hx => hfree x hlo (by omega))
      dsimp only
      rw [← hslice]
      by_cases hmore : offset + slice = f.offset + f.size
      · rw [if_pos hmore]
        obtain ⟨files', j, fp', hsplit, hdrop, hbefore, hpast, hcounts⟩ := ih hrest habut.2
          (by omega) (show start + f.size ≤ offset + slice by omega)
          (fun g hg => by
            cases rest with
            | nil => cases hg
            | cons g' rest' =>
              cases hg
              have := habut.2.1
              omega)
          (fun hnil => by
            rw [hnil, List.map_nil, List.sum_nil] at hsum
            omega)
          (fun x hlo (hx : x < offset + slice + (block - slice)) =>
            (mark_outside (by omega)).trans (hfree x (by omega) (by omega))) hhead
        rw [mark_mark, show slice + (block - slice) = block by omega] at hcounts
        rw [show offset + slice + (block - slice) = offset + block by omega] at hbefore hpast
        exact ⟨files', j, fp', hsplit, hdrop, hbefore, hpast, hcounts⟩
      · rw [if_neg hmore]
        rw [show slice = block by omega] at hhead ⊢
        exact ⟨f :: rest, i, _, rfl, hfiles, fun g hg => by cases hg; omega,
          fun h => (by cases h), hhead⟩

/-- The bytes that are counted of the blocks from `offset` on: of each block the first ones. -/
def blocksMarked (block_size : Nat) (info : List BlockState) (offset x : Nat) : Bool :=
  decide (offset ≤ x) && decide ((x - offset) % block_size <
    (info.map (BlockState.counted block_size)).getD ((x - offset) / block_size) 0)

theorem blocksMarked_cons {block_size x : Nat} {b : BlockState} {info : List BlockState}
    (hsize : 0 < block_size) (hb : b.counted block_size ≤ block_size) :
    blocksMarked block_size (b :: info) offset x = true ↔
      offset ≤ x ∧ x < offset + b.counted block_size ∨
        blocksMarked block_size info (offset + block_size) x = true := by
  simp only [blocksMarked, Bool.and_eq_true, decide_eq_true_eq, List.map_cons]
  by_cases hfirst : x < offset + block_size
  · have hdiv : (x - offset) / block_size = 0 := Nat.div_eq_of_lt (by omega)
    have hmod : (x - offset) % block_size = x - offset := Nat.mod_eq_of_lt (by omega)
    rw [hdiv, hmod, List.getD_cons_zero]
    omega
  · have hback : x - offset = x - (offset + block_size) + block_size := by omega
    rw [hback, Nat.add_mod_right, Nat.add_div_right _ hsize, List.getD_cons_succ]
    omega

/-- The blocks of a piece add their bytes as far as these lie in the torrent. -/
theorem countBlocks_spec {block_size : Nat} {info : List BlockState} (hsize : 0 < block_size)
    (hinfo : ∀ b ∈ info, b.counted block_size ≤ block_size)
    (hfit : offset + info.length * block_size < st.total_size + block_size)
    (hfiles : st.files.drop i = files) (hbefore : ∀ f ∈ files.head?, f.offset ≤ offset)
    (hend : files = [] → st.total_size ≤ offset)
    (hfree : ∀ x, offset ≤ x → marked x = false) (h : st.Counts marked fp) :
    ∃ fp', countBlocks block_size info files i offset fp = some fp' ∧
      st.Counts (fun x => marked x || blocksMarked block_size info offset x) fp' := by
  induction info generalizing files i offset marked fp with
  | nil =>
    refine ⟨fp, rfl, counts_congr h fun x _ => ?_⟩
    rw [blocksMarked, List.map_nil, List.getD_nil, decide_eq_false (Nat.not_lt_zero _),
      Bool.and_false, Bool.or_false]
  | cons b info ih =>
    rw [List.length_cons, Nat.add_mul, Nat.one_mul] at hfit
    have hstarts : offset < st.total_size := by omega
    obtain ⟨f, rest, rfl⟩ : ∃ f rest, files = f :: rest :=
      List.exists_cons_of_ne_nil fun hnil => by have := hend hnil; omega
    have hf := (getElem?_of_drop_eq hfiles).1
    have habut := st.abut.drop hf
    have hsum := st.sum_drop hf
    rw [hfiles] at habut hsum
    obtain ⟨g, more, j, hseek, hdrop, hlo, hhi⟩ :=
      seekFile_spec hfiles habut (hbefore f rfl) (by omega)
    have hg := (getElem?_of_drop_eq hdrop).1
    have habutg := st.abut.drop hg
    have hsumg := st.sum_drop hg
    rw [hdrop] at habutg hsumg
    have hle : b.counted block_size ≤ block_size := hinfo b List.mem_cons_self
    have hmarked : ∀ x < st.total_size,
        (mark marked offset (b.counted block_size) x ||
          blocksMarked block_size info (offset + block_size) x) =
        (marked x || blocksMarked block_size (b :: info) offset x) := by
      intro x _
      rw [Bool.eq_iff_iff, Bool.or_eq_true, Bool.or_eq_true, mark_eq_true,
        blocksMarked_cons hsize hle, or_assoc]
    obtain ⟨block, hblock⟩ : ∃ block, block = b.counted block_size := ⟨_, rfl⟩
    rw [← hblock] at hle hmarked
    rw [countBlocks]
    simp only [hseek, Option.bind_eq_bind, Option.bind_some, ← hblock]
    -- each case goes on behind the block, with the bytes of the block counted
    have hnext : ∀ {files' : List InternalFileEntry} {j : Nat} {fp' : List Nat},
        st.files.drop j = files' → (∀ f ∈ files'.head?, f.offset ≤ offset + block_size) →
        (files' = [] → st.total_size ≤ offset + block_size) →
        st.Counts (mark marked offset block) fp' →
        ∃ fp'', countBlocks block_size info files' j (offset + block_size) fp' = some fp'' ∧
          st.Counts (fun x => marked x || blocksMarked block_size (b :: info) offset x) fp'' := by
      intro files' j fp' hfiles' hbefore' hend' hcounts
      obtain ⟨fp'', hcount, hcounts'⟩ := ih (fun b hb => hinfo b (List.mem_cons_of_mem _ hb))
        (by omega) hfiles' hbefore' hend'
        (fun x hx => (mark_outside (by omega)).trans (hfree x (by omega))) hcounts
      exact ⟨fp'', hcount, counts_congr hcounts' hmarked⟩
    by_cases hzero : block = 0
    · rw [if_pos hzero]
      refine hnext hdrop (fun g' hg' => by cases hg'; omega) (fun hnil => (by cases hnil)) ?_
      rwa [hzero, mark_zero]
    · rw [if_neg hzero, show ((g :: more).map fun f => f.offset + f.size).headD 0 =
        g.offset + g.size from rfl]
      by_cases hsplit : g.offset + g.size < offset + block
      · rw [if_pos hsplit]
        obtain ⟨files', k, fp', hsplit', hdrop', hbefore', hpast, hcounts⟩ := splitBlock_spec
          hdrop habutg hsumg hlo (fun g' hg' => by cases hg'; omega)
          (fun hnil => (by cases hnil)) (fun x hx _ => hfree x hx) h
        rw [hsplit']
        exact hnext hdrop' (fun g' hg' => by have := hbefore' g' hg'; omega)
          (fun hnil => by have := hpast hnil; omega) hcounts
      · rw [if_neg hsplit]
        exact hnext hdrop (fun g' hg' => by cases hg'; omega) (fun hnil => (by cases hnil))
          (counts_head h hdrop hlo (by omega) fun x hx _ => hfree x hx)

/-! ## Adding to what is there -/

theorem zipWith_modify (base fp : List Nat) (i k : Nat) :
    (List.zipWith (· + ·) base fp).modify i (· + k) =
      List.zipWith (· + ·) base (fp.modify i (· + k)) := by
  induction base generalizing fp i with
  | nil => rw [List.zipWith_nil_left, List.zipWith_nil_left, List.modify_nil]
  | cons b base ih =>
    cases fp with
    | nil => rw [List.modify_nil, List.zipWith_nil_right, List.modify_nil]
    | cons n fp =>
      cases i with
      | zero => simp [Nat.add_assoc]
      | succ i => simp [ih]

theorem zipWith_map_zero {σ : Type*} (fp : List Nat) (l : List σ) (h : fp.length = l.length) :
    List.zipWith (· + ·) fp (l.map fun _ => 0) = fp := by
  induction l generalizing fp with
  | nil => rw [List.map_nil, List.zipWith_nil_right, List.length_eq_zero_iff.mp h]
  | cons x l ih =>
    cases fp with
    | nil => cases h
    | cons n fp => rw [List.map_cons, List.zipWith_cons_cons, ih fp (Nat.succ.inj h), Nat.add_zero]

theorem zipWith_map_add {σ : Type*} (fp : List Nat) (l : List σ) (a b : σ → Nat) :
    List.zipWith (· + ·) (List.zipWith (· + ·) fp (l.map a)) (l.map b) =
      List.zipWith (· + ·) fp (l.map fun x => a x + b x) := by
  induction l generalizing fp with
  | nil => simp only [List.map_nil, List.zipWith_nil_right]
  | cons x l ih =>
    cases fp with
    | nil => rfl
    | cons n fp =>
      simp only [List.map_cons, List.zipWith_cons_cons]
      rw [ih, Nat.add_assoc]

theorem splitBlock_add (base : List Nat) (files : List InternalFileEntry)
    (i offset block : Nat) (fp : List Nat) :
    splitBlock files i offset block (List.zipWith (· + ·) base fp) =
      ((splitBlock files i offset block fp).1, (splitBlock files i offset block fp).2.1,
        List.zipWith (· + ·) base (splitBlock files i offset block fp).2.2) := by
  induction files generalizing i offset block fp with
  | nil => rfl
  | cons f rest ih =>
    rw [splitBlock, splitBlock]
    split
    · rfl
    · dsimp only
      rw [zipWith_modify]
      split
      · exact ih _ _ _ _
      · rfl

/-- The blocks are added to what the counts were before. -/
theorem countBlocks_add (base : List Nat) (block_size : Nat) (info : List BlockState)
    (files : List InternalFileEntry) (i offset : Nat) (fp : List Nat) :
    countBlocks block_size info files i offset (List.zipWith (· + ·) base fp) =
      (countBlocks block_size info files i offset fp).map (List.zipWith (· + ·) base) := by
  induction info generalizing files i offset fp with
  | nil => rfl
  | cons b info ih =>
    rw [countBlocks, countBlocks]
    cases hseek : seekFile offset files i with
    | none => rfl
    | some r =>
      simp only [Option.bind_eq_bind, Option.bind_some]
      split
      · exact ih _ _ _ _
      · split
        · rw [splitBlock_add]
          exact ih _ _ _ _
        · rw [zipWith_modify]
          exact ih _ _ _ _

end

/-! ## The queue -/

/-- A piece of the queue with all its blocks, of which the peers have sent no more than there
is. -/
structure DownloadingPiece.Proper (st : FileStorage) (block_size : Nat) (q : DownloadingPiece) :
    Prop where
  index : q.index < st.num_pieces
  info : q.info.length = st.blocks_in_piece block_size q.index
  sent : ∀ b ∈ q.info, b.counted block_size ≤ block_size

/-- The bytes that are counted of the blocks of a piece. -/
def DownloadingPiece.marked (st : FileStorage) (block_size : Nat) (q : DownloadingPiece) :
    Nat → Bool :=
  blocksMarked block_size q.info (q.index * st.piece_length)

section

variable {st : AcceptedStorage} {block_size : Nat} {queue : List DownloadingPiece}
  {q : DownloadingPiece} {fp : List Nat}

/-- The blocks of a piece begin inside of it. -/
theorem blocks_begin_inside (hsize : 0 < block_size) (hq : q.Proper st.toFileStorage block_size) :
    q.index * st.piece_length + q.info.length * block_size < st.total_size + block_size := by
  have hpos := st.piece_length_pos
  obtain ⟨hbegin, -⟩ := st.piece_size_eq hq.index
  have hceil : ∀ n, (n + block_size - 1) / block_size * block_size < n + block_size := by
    intro n
    have hle := Nat.div_mul_le_self (n + block_size - 1) block_size
    omega
  have hnext : (q.index + 1) * st.piece_length = q.index * st.piece_length + st.piece_length := by
    rw [Nat.add_mul, Nat.one_mul]
  rw [hq.info, FileStorage.blocks_in_piece]
  have hcount := st.num_pieces_of_pos (by omega)
  have hrest := Nat.div_add_mod st.total_size st.piece_length
  rw [Nat.mul_comm] at hrest
  split
  · rename_i hlast
    have hpart := hceil (st.total_size % st.piece_length)
    -- the last piece, and it is shorter than the others
    have hne : st.total_size % st.piece_length ≠ 0 := by
      intro hzero
      refine hlast.2 ?_
      rw [hzero, Nat.zero_add]
      exact Nat.div_eq_of_lt (by omega)
    have hquot : (st.total_size - 1) / st.piece_length = st.total_size / st.piece_length := by
      have hlt := Nat.mod_lt st.total_size hpos
      rw [Nat.div_eq_iff hpos]
      omega
    have hindex : q.index = st.total_size / st.piece_length := by omega
    rw [← hindex] at hrest
    omega
  · have hpart := hceil st.piece_length
    have hfull : (q.index + 1) * st.piece_length ≤ st.total_size := by
      by_cases hindex : q.index + 1 < st.num_pieces
      · exact (st.piece_size_eq hindex).1.le
      · have hindex' : q.index + 1 = st.num_pieces := by have := hq.index; omega
        have hzero : st.total_size % st.piece_length = 0 := by
          rename_i hlast
          have hlast' : (st.total_size % st.piece_length + block_size - 1) / block_size = 0 := by
            by_contra h
            exact hlast ⟨hindex', h⟩
          rw [Nat.div_eq_zero_iff] at hlast'
          omega
        rw [hzero, Nat.add_zero] at hrest
        have hnum : st.num_pieces = st.total_size / st.piece_length := by
          rw [st.num_pieces_eq, Nat.div_eq_iff hpos]
          omega
        rw [hindex', hnum, hrest]
    omega

theorem countBlocks_piece (hfits : st.total_size ≤ fieldLimit) (hsize : 0 < block_size)
    (hq : q.Proper st.toFileStorage block_size) (hlength : fp.length = st.num_files) :
    countBlocks block_size q.info
        (st.files.drop (st.file_index_at_offset (q.index * st.piece_length)))
        (st.file_index_at_offset (q.index * st.piece_length)) (q.index * st.piece_length) fp =
      some (List.zipWith (· + ·) fp (st.files.map fun f =>
        countIn (q.marked st.toFileStorage block_size) f.offset f.size)) := by
  obtain ⟨hbegin, -⟩ := st.piece_size_eq hq.index
  obtain ⟨f, hf, hlo, hhi⟩ := st.file_index_at_offset_eq hbegin hfits
  have hzero : st.Counts (fun _ => false) (st.files.map fun _ => 0) :=
    List.map_congr_left fun f _ => (countIn_eq_zero fun x _ _ => rfl).symm
  obtain ⟨fp', hcount, hcounts⟩ := countBlocks_spec hsize hq.sent (blocks_begin_inside hsize hq)
    rfl
    (fun g hg => by
      rw [List.head?_drop, hf] at hg
      cases hg
      exact hlo)
    (fun hnil => by
      rw [← List.head?_drop, hnil] at hf
      cases hf)
    (fun _ _ => rfl) hzero
  have hadd := countBlocks_add fp block_size q.info
    (st.files.drop (st.file_index_at_offset (q.index * st.piece_length)))
    (st.file_index_at_offset (q.index * st.piece_length)) (q.index * st.piece_length)
    (st.files.map fun _ => 0)
  rw [zipWith_map_zero fp st.files hlength, hcount, Option.map_some, hcounts] at hadd
  exact hadd

/-- What the loop over the queue adds: the bytes of the blocks of each piece. -/
theorem countQueue_eq (hfits : st.total_size ≤ fieldLimit) (hsize : 0 < block_size)
    (hproper : ∀ q ∈ queue, q.Proper st.toFileStorage block_size)
    (hlength : fp.length = st.num_files) :
    countQueue st.toFileStorage block_size queue fp =
      some (List.zipWith (· + ·) fp (st.files.map fun f => (queue.map fun q =>
        countIn (q.marked st.toFileStorage block_size) f.offset f.size).sum)) := by
  induction queue generalizing fp with
  | nil =>
    simp only [List.map_nil, List.sum_nil]
    rw [countQueue, zipWith_map_zero fp st.files hlength]
  | cons q queue ih =>
    rw [countQueue]
    simp only [countBlocks_piece hfits hsize (hproper q List.mem_cons_self) hlength,
      Option.bind_eq_bind, Option.bind_some]
    rw [ih (fun r hr => hproper r (List.mem_cons_of_mem _ hr))
      (by rw [List.length_zipWith, List.length_map, hlength]; exact Nat.min_self _),
      zipWith_map_add]
    simp only [List.map_cons, List.sum_cons]

end

/-! ## What the downloader is told -/

section

variable {st : AcceptedStorage} {block_size : Nat} {have_piece : Nat → Bool}
  {queue : List DownloadingPiece} {m_file_progress : List Nat}

/-- The exact answer: beside the bytes of the pieces that have passed, those of the blocks of
every piece in the queue. -/
theorem file_progress_eq (hfits : st.total_size ≤ fieldLimit) (hsize : 0 < block_size)
    (hproper : ∀ q ∈ queue, q.Proper st.toFileStorage block_size) {num_have : Nat}
    (hhave : num_have ≠ 0) (h : st.Counts (st.inPieces have_piece) m_file_progress) :
    st.file_progress block_size false num_have m_file_progress false queue =
      some (st.files.map fun f => countIn (st.inPieces have_piece) f.offset f.size +
        (queue.map fun q =>
          countIn (q.marked st.toFileStorage block_size) f.offset f.size).sum) := by
  have hlength : m_file_progress.length = st.num_files := by
    rw [h, List.length_map]
    rfl
  rw [FileStorage.file_progress, if_neg Bool.false_ne_true, if_neg hhave,
    if_neg Bool.false_ne_true, countQueue_eq hfits hsize hproper hlength, h,
    List.zipWith_map_left, List.zipWith_map_right, List.zipWith_self]

/-- A piece that has passed and waits in the queue for its last block to be written is counted
twice: three bytes of a file are reported as six. -/
example : spread.file_progress 2 false 1 [3, 0, 1] false
    [⟨0, [.state_finished, .state_writing]⟩] = some [6, 0, 2] := by decide +kernel

theorem blocks_in_piece_le (hsize : 0 < block_size) (hdvd : block_size ∣ st.piece_length)
    (p : Nat) : st.blocks_in_piece block_size p * block_size ≤ st.piece_length := by
  obtain ⟨c, hc⟩ := hdvd
  have hceil : (st.piece_length + block_size - 1) / block_size = c := by
    rw [hc, Nat.add_sub_assoc hsize, Nat.mul_add_div hsize,
      Nat.div_eq_of_lt (by omega), Nat.add_zero]
  have hrest := (Nat.mod_lt st.total_size st.piece_length_pos).le
  have hlast : (st.total_size % st.piece_length + block_size - 1) / block_size ≤ c := by
    rw [← hceil]
    exact Nat.div_le_div_right (by omega)
  have hle : st.blocks_in_piece block_size p ≤ c := by
    rw [FileStorage.blocks_in_piece, hceil]
    split
    · exact hlast
    · exact le_rfl
  rw [hc, Nat.mul_comm block_size]
  exact Nat.mul_le_mul_right _ hle

/-- The marked bytes of a piece lie in the piece, if blocks do not cross the ends of pieces. -/
theorem marked_in_piece (hdvd : block_size ∣ st.piece_length) {q : DownloadingPiece}
    (hq : q.Proper st.toFileStorage block_size) (hsize : 0 < block_size) {x : Nat}
    (hx : q.marked st.toFileStorage block_size x = true) : x / st.piece_length = q.index := by
  rw [DownloadingPiece.marked, blocksMarked, Bool.and_eq_true, decide_eq_true_eq,
    decide_eq_true_eq] at hx
  obtain ⟨hlo, hcounted⟩ := hx
  have hblock : (x - q.index * st.piece_length) / block_size < q.info.length := by
    by_contra hpast
    rw [List.getD_eq_getElem?_getD,
      List.getElem?_eq_none (by rw [List.length_map]; omega)] at hcounted
    exact absurd hcounted (Nat.not_lt_zero _)
  have hblocks := blocks_in_piece_le hsize hdvd q.index
  rw [← hq.info] at hblocks
  have hend := Nat.lt_mul_of_div_lt hblock hsize
  rw [div_piece_length, Nat.add_mul, Nat.one_mul]
  omega

/-- The files as the downloader reads them. -/
theorem files_forDownload (st : FileStorage) :
    (TorrentInfo.ofStorage st).forDownload.files =
      st.files.map fun f => ⟨f.path, f.offset, f.size, f.pad_file, f.hidden_attribute⟩ :=
  map_parseFiles st BTFile.toBTFile _ fun _ => rfl

theorem countsBytes_map {told : InternalFileEntry → Nat}
    (htold : ∀ f ∈ st.files, countIn (st.inPieces have_piece) f.offset f.size ≤ told f ∧
      told f ≤ f.size) :
    Downloader.CountsBytes (TorrentInfo.ofStorage st.toFileStorage).forDownload have_piece
      (st.files.map told) := by
  rw [Downloader.CountsBytes, files_forDownload, List.forall₂_map_left_iff,
    List.forall₂_map_right_iff, List.forall₂_same]
  exact htold

/-- In every state that the progress reaches, and while no piece that has passed is left in
the queue, the downloader is told at least the verified bytes and at most the size of each
file. -/
theorem file_progress_countsBytes (hfits : st.total_size ≤ fieldLimit) {start : Nat → Bool}
    {fp : List Nat} (hinit : st.init_progress start = some fp) {tr : List PieceLabel}
    {s : ProgressState} (hrun : run (ProgressState.step st.toFileStorage) ⟨fp, start⟩ tr = some s)
    (hsize : 0 < block_size) (hdvd : block_size ∣ st.piece_length)
    (hproper : ∀ q ∈ queue, q.Proper st.toFileStorage block_size)
    (hnodup : (queue.map DownloadingPiece.index).Nodup)
    (hpassed : ∀ q ∈ queue, s.have_piece q.index = false) {num_have : Nat}
    (hhave : num_have = 0 → ∀ p < st.num_pieces, s.have_piece p = false) {is_seed : Bool}
    (hseed : is_seed = true → ∀ p < st.num_pieces, s.have_piece p = true)
    (piece_granularity : Bool) :
    ∃ progress, st.file_progress block_size is_seed num_have s.m_file_progress piece_granularity
        queue = some progress ∧
      Downloader.CountsBytes (TorrentInfo.ofStorage st.toFileStorage).forDownload s.have_piece
        progress := by
  obtain ⟨fp', hinit', hcounts⟩ := ProgressState.file_progress_counts st hfits start
  obtain rfl : fp = fp' := Option.some.inj (hinit.symm.trans hinit')
  have h := (hcounts hrun).1
  clear hcounts hrun
  obtain ⟨m_file_progress, have_piece⟩ := s
  dsimp only at *
  have hle : ∀ f : InternalFileEntry, countIn (st.inPieces have_piece) f.offset f.size ≤ f.size :=
    fun f => countIn_le _ _ _
  cases is_seed with
  | true => exact ⟨_, rfl, countsBytes_map fun f _ => ⟨hle f, le_rfl⟩⟩
  | false =>
    by_cases hnone : num_have = 0
    · refine ⟨st.files.map fun _ => 0, ?_, countsBytes_map fun f hf => ?_⟩
      · rw [FileStorage.file_progress, if_neg Bool.false_ne_true, if_pos hnone, List.map_const']
        rfl
      · have hend := (st.abut.bounds hf).2
        rw [Nat.zero_add, ← st.total_eq] at hend
        refine ⟨Nat.le_of_eq (countIn_eq_zero fun x _ hx => ?_), Nat.zero_le _⟩
        exact hhave hnone _ (st.div_lt_num_pieces (by omega))
    · cases piece_granularity with
      | true =>
        refine ⟨m_file_progress, ?_, ?_⟩
        · rw [FileStorage.file_progress, if_neg Bool.false_ne_true, if_neg hnone, if_pos rfl]
        · rw [h]
          exact countsBytes_map fun f _ => ⟨le_rfl, hle f⟩
      | false =>
        refine ⟨_, file_progress_eq hfits hsize hproper hnone h,
          countsBytes_map fun f _ => ⟨Nat.le_add_right _ _, ?_⟩⟩
        refine countIn_sum_le (fun q hq x hx => ?_) ?_ _ _
        · by_contra hmarked
          have hdiv := marked_in_piece hdvd (hproper q hq) hsize
            (Bool.eq_true_of_not_eq_false hmarked)
          rw [FileStorage.inPieces, hdiv, hpassed q hq] at hx
          cases hx
        · rw [List.Nodup, List.pairwise_map] at hnodup
          refine (List.Pairwise.and_mem.mp hnodup).imp fun {q r} hqr x hx => ?_
          by_contra hmarked
          refine hqr.2.2 ?_
          rw [← marked_in_piece hdvd (hproper q hqr.1) hsize hx,
            marked_in_piece hdvd (hproper r hqr.2.1) hsize (Bool.eq_true_of_not_eq_false hmarked)]

end

/-- The first piece has passed; of the second one a block is there and half of the other. -/
def spreadQueue : List DownloadingPiece := [⟨1, [.state_finished, .state_requested 1]⟩]

theorem spreadQueue_proper :
    ∀ q ∈ spreadQueue, q.Proper spread.toFileStorage 2 := by
  intro q hq
  rw [List.mem_singleton.mp hq]
  exact ⟨by decide, by decide, by decide⟩

theorem file_progress_eq_spread :
    spread.file_progress 2 false 1 [3, 0, 1] false spreadQueue =
      some (spread.files.map fun f =>
        countIn (spread.inPieces (Function.update (fun _ => false) 0 true))
          f.offset f.size + (spreadQueue.map fun q =>
            countIn (q.marked spread.toFileStorage 2) f.offset f.size).sum) :=
  file_progress_eq (by decide) (by decide) spreadQueue_proper (by decide) rfl

theorem file_progress_countsBytes_spread :
    ∃ progress, spread.file_progress 2 false 1 [3, 0, 1] false spreadQueue =
        some progress ∧
      Downloader.CountsBytes (TorrentInfo.ofStorage spread.toFileStorage).forDownload
        (Function.update (fun _ => false) 0 true) progress :=
  file_progress_countsBytes (by decide) (show spread.init_progress
      (fun _ => false) = some [0, 0, 0] from rfl)
    (show run (ProgressState.step spread.toFileStorage) ⟨[0, 0, 0], fun _ => false⟩
      [⟨0, [0, 1]⟩] = some ⟨[3, 0, 1], Function.update (fun _ => false) 0 true⟩ from rfl)
    (by decide) (by decide) spreadQueue_proper (by decide)
    (fun q hq => by rw [List.mem_singleton.mp hq]; rfl) (fun h => (by cases h))
    (fun h => (by cases h)) false

end TorrentApp.Torrent
