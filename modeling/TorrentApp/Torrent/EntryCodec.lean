import TorrentApp.Torrent.Entry

set_option autoImplicit false

/-!
# Round trips of `bencode` and `bdecode`

Entries that `bencode` writes as they are, texts that it would write, and the two
ways round: from an entry to its text and back, and from a buffer to an entry and
back.
-/

namespace TorrentApp.Torrent

open TorrentApp.Foundation
open TorrentApp.Foundation.Bencode

/-! ## Canonical texts -/

/-- No leading zeros, no negative zero, and the number fits 64 bits. -/
def CanonicalInt (i : IntText widths) : Prop :=
  IsDecimal i.digits ∧ (i.negative = true → decimal 0 i.digits ≠ 0) ∧
    decimal 0 i.digits ≤ int64Max

/-- No leading zeros in the length. -/
def CanonicalStr (s : StrText widths) : Prop := IsDecimal s.header

mutual

/-- A text that `bencode` writes: canonical scalars, and each key of a dictionary behind the
one before. -/
def CanonicalTree : Tree widths → Prop
  | .int i => CanonicalInt i
  | .str s => CanonicalStr s
  | .list items => CanonicalItems items
  | .dict entries =>
      entries.Pairwise (fun a b => a.1.payload < b.1.payload) ∧ CanonicalEntries entries

def CanonicalItems : List (Tree widths) → Prop
  | [] => True
  | t :: ts => CanonicalTree t ∧ CanonicalItems ts

def CanonicalEntries : List (StrText widths × Tree widths) → Prop
  | [] => True
  | (k, t) :: rest => CanonicalStr k ∧ CanonicalTree t ∧ CanonicalEntries rest

end

/-! ## Encodable entries -/

/-- A string whose length `bdecode` has room for. -/
def ShortEnough (bytes : List UInt8) : Prop := bytes.length < 10 ^ (max_header + 1)

mutual

/-- An entry that is written as it is: nothing undefined or preformatted in it, every number
one that can be negated, every string short enough to be read. -/
def Encodable : Entry → Prop
  | .undefined => False
  | .int value => value.natAbs ≤ int64Max
  | .string bytes => ShortEnough bytes
  | .list items => EncodableItems items
  | .dict entries => SortedMap entries ∧ EncodableEntries entries
  | .preformatted _ => False

def EncodableItems : List Entry → Prop
  | [] => True
  | e :: es => Encodable e ∧ EncodableItems es

def EncodableEntries : List (List UInt8 × Entry) → Prop
  | [] => True
  | (k, e) :: rest => ShortEnough k ∧ Encodable e ∧ EncodableEntries rest

end

mutual

/-- How many containers are open at the deepest point. -/
def entryDepth : Entry → Nat
  | .list items => entryItemsDepth items + 1
  | .dict entries => entryMapDepth entries + 1
  | _ => 0

def entryItemsDepth : List Entry → Nat
  | [] => 0
  | e :: es => max (entryDepth e) (entryItemsDepth es)

def entryMapDepth : List (List UInt8 × Entry) → Nat
  | [] => 0
  | (_, e) :: rest => max (entryDepth e) (entryMapDepth rest)

end

mutual

/-- How many tokens `bdecode` makes of an entry. -/
def entryCount : Entry → Nat
  | .list items => entryItemsCount items + 2
  | .dict entries => entryMapCount entries + 2
  | _ => 1

def entryItemsCount : List Entry → Nat
  | [] => 0
  | e :: es => entryCount e + entryItemsCount es

def entryMapCount : List (List UInt8 × Entry) → Nat
  | [] => 0
  | (_, e) :: rest => 1 + (entryCount e + entryMapCount rest)

end

theorem encodableItems_iff {es : List Entry} :
    EncodableItems es ↔ ∀ e ∈ es, Encodable e := by
  induction es with
  | nil => simp [EncodableItems]
  | cons e es ih => rw [EncodableItems, ih, List.forall_mem_cons]

theorem encodableEntries_iff {d : List (List UInt8 × Entry)} :
    EncodableEntries d ↔ ∀ e ∈ d, ShortEnough e.1 ∧ Encodable e.2 := by
  induction d with
  | nil => simp [EncodableEntries]
  | cons e d ih =>
    obtain ⟨k, e⟩ := e
    rw [EncodableEntries, ih, List.forall_mem_cons, and_assoc]

/-! ## Writing -/

/-- A call that has written `text` and counted its bytes. -/
def Wrote (out : Option (Nat × List UInt8)) (text : List UInt8) : Prop :=
  out = some (text.length, text)

theorem Wrote.bencode {e : Entry} {text : List UInt8} (h : Wrote (bencode_recursive e) text) :
    bencode e = some text := by
  rw [Torrent.bencode, h, Option.map_some]

theorem wrote_string {bytes text : List UInt8} (h : write_integer bytes.length = some text) :
    Wrote (writeString bytes) (text ++ colonByte :: bytes) := by
  rw [Wrote, writeString, h, List.length_append, List.length_cons, ← Nat.add_assoc]
  rfl

theorem wrote_int {value : Int} {text : List UInt8} (h : write_integer value = some text) :
    Wrote (bencode_recursive (.int value)) (intByte :: (text ++ [endByte])) := by
  rw [Wrote, bencode_recursive, h, List.length_cons, List.length_append]
  rfl

theorem wrote_list {items : List Entry} {text : List UInt8} (h : Wrote (bencodeItems items) text) :
    Wrote (bencode_recursive (.list items)) (listByte :: (text ++ [endByte])) := by
  rw [Wrote, bencode_recursive, h, List.length_cons, List.length_append]
  rfl

theorem wrote_dict {entries : List (List UInt8 × Entry)} {text : List UInt8}
    (h : Wrote (bencodeEntries entries) text) :
    Wrote (bencode_recursive (.dict entries)) (dictByte :: (text ++ [endByte])) := by
  rw [Wrote, bencode_recursive, h, List.length_cons, List.length_append]
  rfl

theorem wrote_items_cons {e : Entry} {es : List Entry} {text rest : List UInt8}
    (h : Wrote (bencode_recursive e) text) (hrest : Wrote (bencodeItems es) rest) :
    Wrote (bencodeItems (e :: es)) (text ++ rest) := by
  rw [Wrote, bencodeItems, h, hrest, List.length_append]
  rfl

theorem wrote_entries_cons {k key text rest : List UInt8} {e : Entry}
    {entries : List (List UInt8 × Entry)} (hkey : Wrote (writeString k) key)
    (h : Wrote (bencode_recursive e) text) (hrest : Wrote (bencodeEntries entries) rest) :
    Wrote (bencodeEntries ((k, e) :: entries)) (key ++ (text ++ rest)) := by
  rw [Wrote, bencodeEntries, hkey, h, hrest, List.length_append, List.length_append,
    ← Nat.add_assoc]
  rfl

/-- `write_integer` writes the sign and the text without leading zeros. -/
theorem write_integer_eq {ds : List UInt8} {value : Int} (hds : IsDecimal ds)
    (hlength : ds.length ≤ 19) (hvalue : value.natAbs = decimal 0 ds)
    (hleast : -(int64Max : Int) ≤ value) :
    write_integer value = some ((if value < 0 then [minusByte] else []) ++ ds) := by
  rcases hds with rfl | ⟨hne, hdigits, hhead⟩
  · have hzero : value = 0 := Int.natAbs_eq_zero.mp (hvalue.trans (by decide))
    subst hzero
    decide
  · have hpos := decimal_pos hne hdigits hhead
    have hnonzero : value ≠ 0 := by
      rintro rfl
      rw [← hvalue] at hpos
      cases hpos
    rw [write_integer, integer_to_str, if_neg (Int.not_lt.mpr hleast), if_neg hnonzero,
      if_neg hnonzero, hvalue]
    by_cases hneg : value < 0
    · simp only [if_pos hneg]
      rw [printDigits_decimal [] hdigits hhead (by omega), List.append_nil, List.singleton_append]
    · simp only [if_neg hneg]
      rw [printDigits_decimal [] hdigits hhead (by omega), List.append_nil, List.nil_append]

/-- A string is written behind its length. -/
theorem writeString_payload {s : StrText widths} (h : CanonicalStr s) :
    Wrote (writeString s.payload) s.bytes := by
  have hwidth : s.header.length ≤ 19 := Nat.le_trans s.header_le (by decide)
  exact wrote_string (write_integer_eq h hwidth (by rw [s.header_eq]; rfl) (by omega))

theorem exists_strText {bytes : List UInt8} (h : ShortEnough bytes) :
    ∃ s : StrText widths, s.payload = bytes ∧ CanonicalStr s := by
  obtain ⟨header, hdecimal, hvalue, hshort⟩ := exists_isDecimal bytes.length
  have hwidth : header.length ≤ max_header + 1 := hshort _ (by decide) h
  exact ⟨⟨header, bytes, hdecimal.ne_nil, hdecimal.numeric, hwidth, hvalue⟩, rfl, hdecimal⟩

/-- A canonical number is written as it stands. -/
theorem write_int64Value {i : IntText widths} (h : CanonicalInt i) :
    Wrote (bencode_recursive (.int (int64Value i))) i.bytes := by
  obtain ⟨hdecimal, hsign, hfits⟩ := h
  have hmax : int64Max < 10 ^ 19 := by decide
  have hlength : i.digits.length ≤ 19 := hdecimal.length_le (by decide) (by omega)
  have hvalue : int64Value i = if i.negative = true then -(decimal 0 i.digits : Int)
      else decimal 0 i.digits := by
    rw [int64Value, if_pos hfits, IntText.value]
  have habs : (int64Value i).natAbs = decimal 0 i.digits := by
    rw [hvalue]
    split <;> omega
  have hneg : int64Value i < 0 ↔ i.negative = true := by
    rw [hvalue]
    split
    · rename_i hnegative
      have := hsign hnegative
      exact iff_of_true (by omega) hnegative
    · rename_i hpositive
      exact iff_of_false (by omega) hpositive
  have hwritten := wrote_int (write_integer_eq hdecimal hlength habs (by omega))
  rw [IntText.bytes, IntText.sign]
  simp only [hneg] at hwritten
  exact hwritten

theorem exists_intText {value : Int} (h : value.natAbs ≤ int64Max) :
    ∃ i : IntText widths, int64Value i = value ∧ CanonicalInt i := by
  obtain ⟨digits, hdecimal, hvalue, hshort⟩ := exists_isDecimal value.natAbs
  have hmax : int64Max < 10 ^ 19 := by decide
  have hlength : digits.length ≤ 19 := hshort 19 (by decide) (by omega)
  refine ⟨⟨decide (value < 0), digits, hdecimal.ne_nil, hdecimal.numeric,
    Nat.le_trans hlength (by decide)⟩, ?_, hdecimal, ?_, hvalue ▸ h⟩
  · rw [int64Value, if_pos (hvalue ▸ h), IntText.value]
    dsimp only
    rw [hvalue]
    by_cases hneg : value < 0
    · rw [if_pos (decide_eq_true hneg)]
      omega
    · rw [if_neg (by simpa using hneg)]
      omega
  · intro hneg
    have hlt : value < 0 := of_decide_eq_true hneg
    dsimp only
    rw [hvalue]
    omega

/-! ## From an entry to its text -/

mutual

/-- An encodable entry is written as a canonical text that is read as the entry. -/
theorem exists_tree (e : Entry) (h : Encodable e) :
    ∃ t : Tree widths, Wrote (bencode_recursive e) t.bytes ∧ CanonicalTree t ∧
      assignTree t .undefined = .ok e ∧ t.depth = entryDepth e ∧ t.count = entryCount e := by
  cases e with
  | undefined => exact h.elim
  | preformatted bytes => exact h.elim
  | int value =>
    obtain ⟨i, rfl, hcanonical⟩ := exists_intText h
    exact ⟨.int i, write_int64Value hcanonical, hcanonical, rfl, rfl, rfl⟩
  | string bytes =>
    obtain ⟨s, rfl, hcanonical⟩ := exists_strText h
    refine ⟨.str s, ?_, hcanonical, rfl, rfl, rfl⟩
    rw [bencode_recursive]
    exact writeString_payload hcanonical
  | list items =>
    obtain ⟨ts, hbytes, hcanonical, hassign, hdepth, hcount⟩ := exists_items items h
    refine ⟨.list ts, wrote_list hbytes, hcanonical, ?_, ?_, ?_⟩
    · have hl := hassign []
      rw [List.nil_append] at hl
      change (assignItems ts [] >>= fun l => pure (Entry.list l)) = _
      rw [hl]
      rfl
    · rw [Tree.depth, hdepth, entryDepth]
    · rw [Tree.count, hcount, entryCount]
  | dict entries =>
    obtain ⟨hsorted, hentries⟩ := h
    obtain ⟨es, hbytes, hkeys, hcanonical, hassign, hdepth, hcount⟩ :=
      exists_entries entries hentries
    refine ⟨.dict es, wrote_dict hbytes, ⟨?_, hcanonical⟩, ?_, ?_, ?_⟩
    · have hpairs : (es.map fun e => e.1.payload).Pairwise (· < ·) := by
        rw [hkeys]
        exact List.pairwise_map.mpr hsorted
      exact List.pairwise_map.mp hpairs
    · have hd := hassign [] (by rw [List.nil_append]; exact hsorted)
      rw [List.nil_append] at hd
      change (assignEntries es [] >>= fun d => pure (Entry.dict d)) = _
      rw [hd]
      rfl
    · rw [Tree.depth, hdepth, entryDepth]
    · rw [Tree.count, hcount, entryCount]

theorem exists_items (es : List Entry) (h : EncodableItems es) :
    ∃ ts : List (Tree widths), Wrote (bencodeItems es) (itemsBytes ts) ∧ CanonicalItems ts ∧
      (∀ l, assignItems ts l = .ok (l ++ es)) ∧ itemsDepth ts = entryItemsDepth es ∧
      itemsCount ts = entryItemsCount es := by
  cases es with
  | nil =>
    refine ⟨[], rfl, trivial, fun l => ?_, rfl, rfl⟩
    rw [List.append_nil]
    rfl
  | cons e es =>
    obtain ⟨he, hes⟩ := h
    obtain ⟨t, hbytes, hcanonical, hassign, hdepth, hcount⟩ := exists_tree e he
    obtain ⟨ts, hbytes', hcanonical', hassign', hdepth', hcount'⟩ := exists_items es hes
    refine ⟨t :: ts, wrote_items_cons hbytes hbytes', ⟨hcanonical, hcanonical'⟩, fun l => ?_,
      ?_, ?_⟩
    · change (assignTree t .undefined >>= fun e => assignItems ts (l ++ [e])) = _
      rw [hassign]
      refine (hassign' (l ++ [e])).trans ?_
      rw [List.append_assoc]
      rfl
    · rw [itemsDepth, hdepth, hdepth', entryItemsDepth]
    · rw [itemsCount, hcount, hcount', entryItemsCount]

theorem exists_entries (d : List (List UInt8 × Entry)) (h : EncodableEntries d) :
    ∃ es : List (StrText widths × Tree widths), Wrote (bencodeEntries d) (entriesBytes es) ∧
      (es.map fun e => e.1.payload) = d.map Prod.fst ∧ CanonicalEntries es ∧
      (∀ d₀, SortedMap (d₀ ++ d) → assignEntries es d₀ = .ok (d₀ ++ d)) ∧
      entriesDepth es = entryMapDepth d ∧ entriesCount es = entryMapCount d := by
  cases d with
  | nil =>
    refine ⟨[], rfl, rfl, trivial, fun d₀ _ => ?_, rfl, rfl⟩
    rw [List.append_nil]
    rfl
  | cons p d =>
    obtain ⟨k, e⟩ := p
    obtain ⟨hk, he, hd⟩ := h
    obtain ⟨s, rfl, hkey⟩ := exists_strText hk
    obtain ⟨t, hbytes, hcanonical, hassign, hdepth, hcount⟩ := exists_tree e he
    obtain ⟨es, hbytes', hkeys, hcanonical', hassign', hdepth', hcount'⟩ := exists_entries d hd
    refine ⟨(s, t) :: es, wrote_entries_cons (writeString_payload hkey) hbytes hbytes', ?_,
      ⟨hkey, hcanonical, hcanonical'⟩, fun d₀ hsorted => ?_, ?_, ?_⟩
    · rw [List.map_cons, List.map_cons, hkeys]
    · have hbelow : ∀ a ∈ d₀, a.1 < s.payload := fun a ha =>
        (List.pairwise_append.mp hsorted).2.2 a ha (s.payload, e) List.mem_cons_self
      rw [assignEntries, mapFind_of_forall_lt hbelow, Option.getD_none, hassign]
      refine (hassign' (mapPut s.payload e d₀) ?_).trans ?_
      · rw [mapPut_of_forall_lt hbelow, List.append_assoc]
        exact hsorted
      · rw [mapPut_of_forall_lt hbelow, List.append_assoc]
        rfl
    · rw [entriesDepth, hdepth, hdepth', entryMapDepth]
    · rw [entriesCount, hcount, hcount', entryMapCount]

end

/-! ## From a text to an entry -/

theorem except_bind_ok {ε α β : Type} {x : Except ε α} {f : α → Except ε β} {b : β} :
    (x >>= f) = .ok b ↔ ∃ a, x = .ok a ∧ f a = .ok b := by
  cases x with
  | error e =>
    constructor
    · intro h
      cases h
    · rintro ⟨a, ha, -⟩
      cases ha
  | ok a =>
    constructor
    · exact fun h => ⟨a, rfl, h⟩
    · rintro ⟨a', ha, h⟩
      cases ha
      exact h

theorem natAbs_int64Value (i : IntText widths) : (int64Value i).natAbs ≤ int64Max := by
  rw [int64Value, IntText.value]
  split
  · split <;> omega
  · exact Nat.zero_le _

theorem shortEnough_payload (s : StrText widths) : ShortEnough s.payload := by
  have hlt := decimal_lt s.header_numeric 0
  have hpow : 10 ^ s.header.length ≤ 10 ^ (max_header + 1) :=
    Nat.pow_le_pow_right (by decide) s.header_le
  rw [s.header_eq] at hlt
  rw [ShortEnough]
  omega

/-- What an assignment may find. -/
def EncodableOrNew (e : Entry) : Prop := e = .undefined ∨ Encodable e

theorem EncodableOrNew.getList {self : Entry} {l : List Entry} (h : EncodableOrNew self)
    (hl : self.getList = .ok l) : EncodableItems l := by
  rcases h with rfl | h
  · cases hl
    trivial
  · cases self with
    | undefined => exact h.elim
    | list items =>
      cases hl
      exact h
    | _ => cases hl

theorem EncodableOrNew.getDict {self : Entry} {d : List (List UInt8 × Entry)}
    (h : EncodableOrNew self) (hd : self.getDict = .ok d) :
    SortedMap d ∧ EncodableEntries d := by
  rcases h with rfl | h
  · cases hd
    exact ⟨List.Pairwise.nil, trivial⟩
  · cases self with
    | undefined => exact h.elim
    | dict entries =>
      cases hd
      exact h
    | _ => cases hd

theorem encodable_find {d : List (List UInt8 × Entry)} (h : EncodableEntries d)
    (k : List UInt8) : EncodableOrNew ((mapFind d k).getD .undefined) := by
  rw [mapFind]
  cases hfind : d.find? fun e => decide (e.1 = k) with
  | none => exact Or.inl rfl
  | some e =>
    exact Or.inr (encodableEntries_iff.mp h e (List.mem_of_find?_eq_some hfind)).2

mutual

/-- An assignment leaves an encodable entry. -/
theorem encodable_assignTree (t : Tree widths) {self e : Entry} (hself : EncodableOrNew self)
    (h : assignTree t self = .ok e) : Encodable e := by
  cases t with
  | int i =>
    have hvalue : Encodable (.int (int64Value i)) := natAbs_int64Value i
    rw [assignTree] at h
    cases self <;> cases h <;> exact hvalue
  | str s =>
    have htext : Encodable (.string s.payload) := shortEnough_payload s
    rw [assignTree] at h
    cases self <;> cases h <;> exact htext
  | list items =>
    rw [assignTree] at h
    obtain ⟨l, hl, h⟩ := except_bind_ok.mp h
    obtain ⟨l', hl', h⟩ := except_bind_ok.mp h
    cases h
    exact encodable_assignItems items (hself.getList hl) hl'
  | dict entries =>
    rw [assignTree] at h
    obtain ⟨d, hd, h⟩ := except_bind_ok.mp h
    obtain ⟨d', hd', h⟩ := except_bind_ok.mp h
    cases h
    obtain ⟨hsorted, hold⟩ := hself.getDict hd
    exact encodable_assignEntries entries hsorted hold hd'

theorem encodable_assignItems (ts : List (Tree widths)) {l l' : List Entry}
    (hl : EncodableItems l) (h : assignItems ts l = .ok l') : EncodableItems l' := by
  cases ts with
  | nil =>
    cases h
    exact hl
  | cons t ts =>
    rw [assignItems] at h
    obtain ⟨e, he, h⟩ := except_bind_ok.mp h
    refine encodable_assignItems ts ?_ h
    rw [encodableItems_iff] at hl ⊢
    intro e' he'
    rcases List.mem_append.mp he' with hold | hnew
    · exact hl e' hold
    · rw [List.mem_singleton.mp hnew]
      exact encodable_assignTree t (Or.inl rfl) he

theorem encodable_assignEntries (es : List (StrText widths × Tree widths))
    {d d' : List (List UInt8 × Entry)} (hsorted : SortedMap d) (hd : EncodableEntries d)
    (h : assignEntries es d = .ok d') : SortedMap d' ∧ EncodableEntries d' := by
  cases es with
  | nil =>
    cases h
    exact ⟨hsorted, hd⟩
  | cons p es =>
    obtain ⟨k, t⟩ := p
    rw [assignEntries] at h
    obtain ⟨e, he, h⟩ := except_bind_ok.mp h
    have hnew := encodable_assignTree t (encodable_find hd k.payload) he
    refine encodable_assignEntries es (sortedMap_mapPut hsorted k.payload e) ?_ h
    rw [encodableEntries_iff] at hd ⊢
    intro p hp
    rcases mem_mapPut hp with rfl | hold
    · exact ⟨shortEnough_payload k, hnew⟩
    · exact hd p hold

end

mutual

/-- A canonical text is read as an entry that is written as the text. -/
theorem bencode_assignTree (t : Tree widths) (h : CanonicalTree t) :
    ∃ e, assignTree t .undefined = .ok e ∧ Wrote (bencode_recursive e) t.bytes := by
  cases t with
  | int i => exact ⟨.int (int64Value i), rfl, write_int64Value h⟩
  | str s =>
    refine ⟨.string s.payload, rfl, ?_⟩
    rw [bencode_recursive]
    exact writeString_payload h
  | list items =>
    obtain ⟨es, hassign, hbytes⟩ := bencode_assignItems items h
    refine ⟨.list es, ?_, wrote_list hbytes⟩
    have hl := hassign []
    rw [List.nil_append] at hl
    change (assignItems items [] >>= fun l => pure (Entry.list l)) = _
    rw [hl]
    rfl
  | dict entries =>
    obtain ⟨hsorted, hentries⟩ := h
    obtain ⟨d, hkeys, hassign, hbytes⟩ := bencode_assignEntries entries hentries
    have hd : SortedMap d := by
      have hpairs : (d.map Prod.fst).Pairwise (· < ·) := by
        rw [hkeys]
        exact List.pairwise_map.mpr hsorted
      exact List.pairwise_map.mp hpairs
    refine ⟨.dict d, ?_, wrote_dict hbytes⟩
    have hput := hassign [] (by rw [List.nil_append]; exact hd)
    rw [List.nil_append] at hput
    change (assignEntries entries [] >>= fun d => pure (Entry.dict d)) = _
    rw [hput]
    rfl

theorem bencode_assignItems (ts : List (Tree widths)) (h : CanonicalItems ts) :
    ∃ es, (∀ l, assignItems ts l = .ok (l ++ es)) ∧ Wrote (bencodeItems es) (itemsBytes ts) := by
  cases ts with
  | nil =>
    refine ⟨[], fun l => ?_, rfl⟩
    rw [List.append_nil]
    rfl
  | cons t ts =>
    obtain ⟨ht, hts⟩ := h
    obtain ⟨e, hassign, hbytes⟩ := bencode_assignTree t ht
    obtain ⟨es, hassign', hbytes'⟩ := bencode_assignItems ts hts
    refine ⟨e :: es, fun l => ?_, wrote_items_cons hbytes hbytes'⟩
    change (assignTree t .undefined >>= fun e => assignItems ts (l ++ [e])) = _
    rw [hassign]
    refine (hassign' (l ++ [e])).trans ?_
    rw [List.append_assoc]
    rfl

theorem bencode_assignEntries (es : List (StrText widths × Tree widths))
    (h : CanonicalEntries es) :
    ∃ d, d.map Prod.fst = es.map (fun e => e.1.payload) ∧
      (∀ d₀, SortedMap (d₀ ++ d) → assignEntries es d₀ = .ok (d₀ ++ d)) ∧
      Wrote (bencodeEntries d) (entriesBytes es) := by
  cases es with
  | nil =>
    refine ⟨[], rfl, fun d₀ _ => ?_, rfl⟩
    rw [List.append_nil]
    rfl
  | cons p es =>
    obtain ⟨k, t⟩ := p
    obtain ⟨hk, ht, hes⟩ := h
    obtain ⟨e, hassign, hbytes⟩ := bencode_assignTree t ht
    obtain ⟨d, hkeys, hassign', hbytes'⟩ := bencode_assignEntries es hes
    refine ⟨(k.payload, e) :: d, ?_, fun d₀ hsorted => ?_,
      wrote_entries_cons (writeString_payload hk) hbytes hbytes'⟩
    · rw [List.map_cons, List.map_cons, hkeys]
    · have hbelow : ∀ a ∈ d₀, a.1 < k.payload := fun a ha =>
        (List.pairwise_append.mp hsorted).2.2 a ha (k.payload, e) List.mem_cons_self
      rw [assignEntries, mapFind_of_forall_lt hbelow, Option.getD_none, hassign]
      refine (hassign' (mapPut k.payload e d₀) ?_).trans ?_
      · rw [mapPut_of_forall_lt hbelow, List.append_assoc]
        exact hsorted
      · rw [mapPut_of_forall_lt hbelow, List.append_assoc]
        rfl

end

/-! ## The two ways round -/

/-- What `bencode` writes is read back as the entry it was, whatever follows it; only an empty
string must not be all there is. -/
theorem bdecode_bencode {e : Entry} {rest : List UInt8} {depth_limit token_limit : Nat}
    (h : Encodable e) (hlast : bencode e = some [zeroByte, colonByte] → rest ≠ [])
    (hsize : ∀ text, bencode e = some text → (text ++ rest).length ≤ max_offset)
    (hdepth : entryDepth e < depth_limit) (hcount : entryCount e ≤ token_limit)
    (htokens : token_limit ≤ max_next_item) :
    ∃ text node, bencode e = some text ∧
      bdecode (text ++ rest) depth_limit token_limit = .ok node ∧
      entryOf node = some (.ok e) ∧ node.buffer_size = text.length := by
  obtain ⟨t, hbytes, hcanonical, hassign, hdeep, hn⟩ := exists_tree e h
  have hempty : EmptyString t → rest ≠ [] := by
    rintro ⟨s, rfl, hpayload⟩
    have hwritten := writeString_payload hcanonical
    have hzero : writeString [] = some (2, [zeroByte, colonByte]) := by decide
    rw [hpayload, Wrote, hzero] at hwritten
    refine hlast (hbytes.bencode.trans ?_)
    rw [Tree.bytes, ← (Prod.mk.inj (Option.some.inj hwritten)).2]
  refine ⟨t.bytes, treeNode t rest, hbytes.bencode, ?_, ?_, rfl⟩
  · exact bdecode_tree (hsize _ hbytes.bencode) (hdeep ▸ hdepth) (hn ▸ hcount) htokens hempty
  · rw [entryOf_treeNode, hassign]

/-- `{a: -3}`. -/
def smallEntry : Entry := .dict [([97], .int (-3))]

theorem encodable_smallEntry : Encodable smallEntry :=
  ⟨List.pairwise_singleton _ _, show [(97 : UInt8)].length < 10 ^ (max_header + 1) from by decide,
    show (-3 : Int).natAbs ≤ int64Max from by decide, trivial⟩

/-- With a newline behind it. -/
theorem bdecode_bencode_sample :
    ∃ text node, bencode smallEntry = some text ∧ bdecode (text ++ [10]) 5 9 = .ok node ∧
      entryOf node = some (.ok smallEntry) ∧ node.buffer_size = text.length := by
  have htext : bencode smallEntry = some [100, 49, 58, 97, 105, 45, 51, 101, 101] := by decide
  refine bdecode_bencode encodable_smallEntry (by decide) (fun text h => ?_) (by decide)
    (by decide) (by decide)
  obtain rfl := Option.some.inj (htext.symm.trans h)
  decide

/-- A decoded buffer is written back byte for byte exactly when its text is canonical. -/
theorem bencode_bdecode {buffer : List UInt8} {depth_limit token_limit : Nat}
    {node : BdecodeNode} (hdepth : 0 < depth_limit) (htokens : token_limit ≤ max_next_item)
    (h : bdecode buffer depth_limit token_limit = .ok node) :
    ∃ (t : Tree widths) (rest : List UInt8), buffer = t.bytes ++ rest ∧
      node.buffer_size = t.bytes.length ∧
      ((∃ e, entryOf node = some (.ok e) ∧ bencode e = some t.bytes) ↔ CanonicalTree t) ∧
      ∀ e, entryOf node = some (.ok e) → Encodable e := by
  obtain ⟨-, t, rest, rfl, -, -, -, rfl⟩ := (bdecode_eq_ok_iff hdepth htokens).mp h
  have hencodable : ∀ e, entryOf (treeNode t rest) = some (.ok e) → Encodable e := by
    intro e he
    rw [entryOf_treeNode] at he
    exact encodable_assignTree t (Or.inl rfl) (Option.some.inj he)
  refine ⟨t, rest, rfl, rfl, ⟨?_, ?_⟩, hencodable⟩
  · rintro ⟨e, he, hwritten⟩
    obtain ⟨t', hbytes, hcanonical, -⟩ := exists_tree e (hencodable e he)
    have hsame := Option.some.inj (hbytes.bencode.symm.trans hwritten)
    rwa [← Tree.bytes_injective hsame]
  · intro hcanonical
    obtain ⟨e, hassign, hwritten⟩ := bencode_assignTree t hcanonical
    exact ⟨e, by rw [entryOf_treeNode, hassign], hwritten.bencode⟩

/-- `d1:ai-3ee` is given back. -/
theorem bencode_bdecode_sample :
    ∃ node e, bdecode [100, 49, 58, 97, 105, 45, 51, 101, 101] 5 9 = .ok node ∧
      entryOf node = some (.ok e) ∧
      bencode e = some [100, 49, 58, 97, 105, 45, 51, 101, 101] := by
  have htext : bencode smallEntry = some [100, 49, 58, 97, 105, 45, 51, 101, 101] := by decide
  obtain ⟨node, hnode, hsize⟩ : ∃ node,
      bdecode [100, 49, 58, 97, 105, 45, 51, 101, 101] 5 9 = .ok node ∧ node.buffer_size = 9 :=
    ⟨_, rfl, rfl⟩
  obtain ⟨t, rest, hbuffer, hlength, hback, -⟩ :=
    bencode_bdecode (show 0 < 5 by decide) (show 9 ≤ max_next_item by decide) hnode
  have hrest : rest = [] := by
    have hall := congrArg List.length hbuffer
    rw [List.length_append, ← hlength, hsize] at hall
    exact List.eq_nil_of_length_eq_zero (Nat.add_left_cancel hall.symm)
  rw [hrest, List.append_nil] at hbuffer
  obtain ⟨t', hbytes, hcanonical, -⟩ := exists_tree smallEntry encodable_smallEntry
  have hsame := Option.some.inj (hbytes.bencode.symm.trans htext)
  obtain rfl : t' = t := Tree.bytes_injective (hsame.trans hbuffer)
  obtain ⟨e, hentry, hwritten⟩ := hback.mpr hcanonical
  exact ⟨node, e, hnode, hentry, by rw [hwritten, ← hbuffer]⟩

theorem writeString_counts {bytes text : List UInt8} {n : Nat}
    (h : writeString bytes = some (n, text)) : n = text.length := by
  rw [writeString] at h
  obtain ⟨digits, -, h⟩ := Option.bind_eq_some_iff.mp h
  cases h
  rw [List.length_append, List.length_cons, Nat.add_assoc]

mutual

/-- Whatever `bencode_recursive` writes, it says how many bytes they are. -/
theorem bencode_recursive_counts (e : Entry) {n : Nat} {text : List UInt8}
    (h : bencode_recursive e = some (n, text)) : n = text.length := by
  rw [bencode_recursive.eq_def] at h
  cases e with
  | int value =>
    obtain ⟨digits, -, h⟩ := Option.bind_eq_some_iff.mp h
    cases h
    rw [List.length_cons, List.length_append, List.length_singleton]
  | string bytes => exact writeString_counts h
  | list items =>
    obtain ⟨⟨m, inner⟩, hitems, h⟩ := Option.bind_eq_some_iff.mp h
    cases h
    rw [bencodeItems_counts items hitems, List.length_cons, List.length_append,
      List.length_singleton]
  | dict entries =>
    obtain ⟨⟨m, inner⟩, hentries, h⟩ := Option.bind_eq_some_iff.mp h
    cases h
    rw [bencodeEntries_counts entries hentries, List.length_cons, List.length_append,
      List.length_singleton]
  | preformatted bytes =>
    cases h
    rfl
  | undefined =>
    cases h
    rfl

theorem bencodeItems_counts (es : List Entry) {n : Nat} {text : List UInt8}
    (h : bencodeItems es = some (n, text)) : n = text.length := by
  rw [bencodeItems.eq_def] at h
  cases es with
  | nil =>
    cases h
    rfl
  | cons e es =>
    obtain ⟨⟨m, first⟩, he, h⟩ := Option.bind_eq_some_iff.mp h
    obtain ⟨⟨more, rest⟩, hes, h⟩ := Option.bind_eq_some_iff.mp h
    cases h
    rw [bencode_recursive_counts e he, bencodeItems_counts es hes, List.length_append]

theorem bencodeEntries_counts (d : List (List UInt8 × Entry)) {n : Nat} {text : List UInt8}
    (h : bencodeEntries d = some (n, text)) : n = text.length := by
  rw [bencodeEntries.eq_def] at h
  cases d with
  | nil =>
    cases h
    rfl
  | cons p d =>
    obtain ⟨k, e⟩ := p
    obtain ⟨⟨l, key⟩, hk, h⟩ := Option.bind_eq_some_iff.mp h
    obtain ⟨⟨m, value⟩, he, h⟩ := Option.bind_eq_some_iff.mp h
    obtain ⟨⟨more, rest⟩, hd, h⟩ := Option.bind_eq_some_iff.mp h
    cases h
    rw [writeString_counts hk, bencode_recursive_counts e he, bencodeEntries_counts d hd,
      List.length_append, List.length_append, Nat.add_assoc]

end

end TorrentApp.Torrent
