import TorrentApp.Foundation.Decimal
import TorrentApp.Foundation.SortedMap
import TorrentApp.Torrent.BdecodeNode

set_option autoImplicit false

/-!
# `entry`

The values that libtorrent builds and writes: `bencode` of an entry, and the
assignment of a decoded node to an entry.  What is written is read back as the entry
it was; what is read is written back byte for byte exactly when its text is
canonical.
-/

namespace TorrentApp.Torrent

open TorrentApp.Foundation
open TorrentApp.Foundation.Bencode

/-! ## Entries -/

/-- `entry`; a dictionary is a `std::map`, so its keys are in order. -/
inductive Entry where
  | undefined
  | int (value : Int)
  | string (bytes : List UInt8)
  | list (items : List Entry)
  | dict (entries : List (List UInt8 × Entry))
  | preformatted (bytes : List UInt8)

/-- What the accessors of an entry throw. -/
inductive EntryError where
  | type_error
  deriving DecidableEq, Repr

/-- `string() = text`; an undefined entry becomes a string. -/
def Entry.setString (text : List UInt8) : Entry → Except EntryError Entry
  | .undefined => .ok (.string text)
  | .string _ => .ok (.string text)
  | _ => .error .type_error

/-- `integer() = value`. -/
def Entry.setInteger (value : Int) : Entry → Except EntryError Entry
  | .undefined => .ok (.int value)
  | .int _ => .ok (.int value)
  | _ => .error .type_error

/-- `list()`. -/
def Entry.getList : Entry → Except EntryError (List Entry)
  | .undefined => .ok []
  | .list items => .ok items
  | _ => .error .type_error

/-- `dict()`. -/
def Entry.getDict : Entry → Except EntryError (List (List UInt8 × Entry))
  | .undefined => .ok []
  | .dict entries => .ok entries
  | _ => .error .type_error

/-! ## Writing -/

/-- `integer_to_str` with a buffer of `size` characters; `none` stands for the negation of the
least 64-bit integer, which overflows. -/
def integer_to_str (size : Nat) (val : Int) : Option (List UInt8) :=
  if val < -(int64Max : Int) then none
  else
    let sign := if val < 0 then 1 else 0
    -- the terminating zero, and the only digit of zero
    let room := if val = 0 then size - 2 else size - 1
    let buf := printDigits (room - sign) val.natAbs (if val = 0 then [zeroByte] else [])
    some (if val < 0 then minusByte :: buf else buf)

/-- `write_integer`. -/
def write_integer (val : Int) : Option (List UInt8) := integer_to_str 21 val

/-- The length, the colon and the characters of a string, and how many bytes they are. -/
def writeString (bytes : List UInt8) : Option (Nat × List UInt8) := do
  let text ← write_integer bytes.length
  return (text.length + bytes.length + 1, text ++ colonByte :: bytes)

mutual

/-- `bencode_recursive`: how many bytes it says it has written, and the bytes. -/
def bencode_recursive : Entry → Option (Nat × List UInt8)
  | .int value => do
      let text ← write_integer value
      return (text.length + 2, intByte :: (text ++ [endByte]))
  | .string bytes => writeString bytes
  | .list items => do
      let (n, text) ← bencodeItems items
      return (n + 2, listByte :: (text ++ [endByte]))
  | .dict entries => do
      let (n, text) ← bencodeEntries entries
      return (n + 2, dictByte :: (text ++ [endByte]))
  | .preformatted bytes => some (bytes.length, bytes)
  -- the empty string
  | .undefined => some (2, [zeroByte, colonByte])

def bencodeItems : List Entry → Option (Nat × List UInt8)
  | [] => some (0, [])
  | e :: es => do
      let (n, text) ← bencode_recursive e
      let (more, rest) ← bencodeItems es
      return (n + more, text ++ rest)

def bencodeEntries : List (List UInt8 × Entry) → Option (Nat × List UInt8)
  | [] => some (0, [])
  | (k, e) :: rest => do
      let (n, key) ← writeString k
      let (m, text) ← bencode_recursive e
      let (more, rest) ← bencodeEntries rest
      return (n + m + more, key ++ (text ++ rest))

end

/-- `bencode`: the bytes. -/
def bencode (e : Entry) : Option (List UInt8) := (bencode_recursive e).map Prod.snd

/-! ## Reading -/

mutual

/-- `entry::operator=(bdecode_node const&)`; `none` stands for a read past the tokens or for
a recursion deeper than `fuel`. -/
def assignNode : Nat → NodeRef → Entry → Option (Except EntryError Entry)
  | 0, _, _ => none
  | fuel + 1, n, self =>
      match n.type with
      | some .string => n.string_value.map fun text => self.setString text
      | some .integer => n.int_value.map fun value => self.setInteger value
      | some .dict =>
          match self.getDict with
          | .error e => some (.error e)
          | .ok d => (assignNodeEntries fuel n 0 d).map fun r => r.map Entry.dict
      | some .list =>
          match self.getList with
          | .error e => some (.error e)
          | .ok l => (assignNodeItems fuel n 0 l).map fun r => r.map Entry.list
      | some .end_ => none
      | none => some (.ok .undefined)

/-- Its loop over a list, at the item `i`. -/
def assignNodeItems : Nat → NodeRef → Nat → List Entry → Option (Except EntryError (List Entry))
  | 0, _, _, _ => none
  | fuel + 1, n, i, l => do
      let (size, n) ← n.list_size
      if i < size then
        let (item, n) ← n.list_at i
        match ← assignNode fuel item .undefined with
        | .error e => return .error e
        | .ok e => assignNodeItems fuel n (i + 1) (l ++ [e])
      else return .ok l

/-- Its loop over a dictionary, at the entry `i`. -/
def assignNodeEntries : Nat → NodeRef → Nat → List (List UInt8 × Entry) →
    Option (Except EntryError (List (List UInt8 × Entry)))
  | 0, _, _, _ => none
  | fuel + 1, n, i, d => do
      let (size, n) ← n.dict_size
      if i < size then
        let ((key, value), n) ← n.dict_at i
        match ← assignNode fuel value ((mapFind d key).getD .undefined) with
        | .error e => return .error e
        | .ok e => assignNodeEntries fuel n (i + 1) (mapPut key e d)
      else return .ok d

end

/-- A new entry to which a decoded node is assigned. -/
def entryOf (node : BdecodeNode) : Option (Except EntryError Entry) :=
  assignNode (node.tokens.length + 1) node.root .undefined

/-! ## The assignment on trees -/

mutual

/-- The assignment of a tree: an entry that is there already is written over. -/
def assignTree : Tree widths → Entry → Except EntryError Entry
  | .str s, self => self.setString s.payload
  | .int i, self => self.setInteger (int64Value i)
  | .list items, self => do
      let l ← self.getList
      let l ← assignItems items l
      return .list l
  | .dict entries, self => do
      let d ← self.getDict
      let d ← assignEntries entries d
      return .dict d

def assignItems : List (Tree widths) → List Entry → Except EntryError (List Entry)
  | [], l => .ok l
  | t :: ts, l => do
      let e ← assignTree t .undefined
      assignItems ts (l ++ [e])

def assignEntries : List (StrText widths × Tree widths) → List (List UInt8 × Entry) →
    Except EntryError (List (List UInt8 × Entry))
  | [], d => .ok d
  | (k, t) :: rest, d => do
      let e ← assignTree t ((mapFind d k.payload).getD .undefined)
      assignEntries rest (mapPut k.payload e d)

end

theorem drop_eq_cons {α : Type} {l rest : List α} {i : Nat} {x : α} (h : l.drop i = x :: rest) :
    ∃ hi : i < l.length, l[i] = x ∧ l.drop (i + 1) = rest := by
  have hi : i < l.length := by
    rw [← Nat.not_le]
    intro hle
    rw [List.drop_of_length_le hle] at h
    cases h
  rw [List.drop_eq_getElem_cons hi] at h
  exact ⟨hi, (List.cons.inj h).1, (List.cons.inj h).2⟩

theorem type_eq_some {n : NodeRef} {t : Tree widths} (h : n.Shows (some t)) :
    n.type = some (treeType t) := type_eq h

mutual

/-- The assignment reads the tree. -/
theorem assignNode_eq (t : Tree widths) (self : Entry) {n : NodeRef} {fuel : Nat}
    (h : n.Shows (some t)) (hfuel : t.count < fuel) :
    assignNode fuel n self = some (assignTree t self) := by
  obtain ⟨fuel, rfl⟩ : ∃ f, fuel = f + 1 := ⟨fuel - 1, by omega⟩
  rw [assignNode, type_eq_some h]
  cases t with
  | int i =>
    obtain ⟨k, off, hidx, hloc, -⟩ := h
    rw [treeType, int_value_eq hidx hloc]
    rfl
  | str s =>
    obtain ⟨k, off, hidx, hloc, -⟩ := h
    rw [treeType, string_value_eq hidx hloc]
    rfl
  | list items =>
    rw [Tree.count] at hfuel
    rw [treeType, assignTree]
    cases self.getList with
    | error e => rfl
    | ok l =>
      have hitems := assignNodeItems_eq items l (i := 0) h rfl (show _ < fuel by omega)
      change (assignNodeItems fuel n 0 l).map (fun r => r.map Entry.list) =
        some (assignItems items l >>= fun l => pure (Entry.list l))
      rw [hitems]
      cases assignItems items l <;> rfl
  | dict entries =>
    rw [Tree.count] at hfuel
    rw [treeType, assignTree]
    cases self.getDict with
    | error e => rfl
    | ok d =>
      have hentries := assignNodeEntries_eq entries d (i := 0) h rfl (show _ < fuel by omega)
      change (assignNodeEntries fuel n 0 d).map (fun r => r.map Entry.dict) =
        some (assignEntries entries d >>= fun d => pure (Entry.dict d))
      rw [hentries]
      cases assignEntries entries d <;> rfl

theorem assignNodeItems_eq (ts : List (Tree widths)) (l : List Entry)
    {items : List (Tree widths)} {n : NodeRef} {fuel i : Nat} (h : n.Shows (some (.list items)))
    (hrest : items.drop i = ts) (hfuel : itemsCount ts + 1 < fuel) :
    assignNodeItems fuel n i l = some (assignItems ts l) := by
  obtain ⟨fuel, rfl⟩ : ∃ f, fuel = f + 1 := ⟨fuel - 1, by omega⟩
  obtain ⟨n₁, hsize, hn₁⟩ := list_size_eq h
  cases ts with
  | nil =>
    have hdone : ¬i < items.length := Nat.not_lt.mpr (List.drop_eq_nil_iff.mp hrest)
    simp only [assignNodeItems, hsize, Option.bind_eq_bind, Option.bind_some, if_neg hdone,
      assignItems, Option.pure_def]
  | cons t ts =>
    obtain ⟨hi, ht, hnext⟩ := drop_eq_cons hrest
    have hpos := t.count_pos
    rw [itemsCount] at hfuel
    obtain ⟨item, n₂, hat, hitem, hn₂⟩ := list_at_eq hn₁ hi
    rw [ht] at hitem
    have hassign := assignNode_eq t .undefined hitem (show _ < fuel by omega)
    have htail := fun l => assignNodeItems_eq ts l hn₂ hnext (show _ < fuel by omega)
    simp only [assignNodeItems, hsize, Option.bind_eq_bind, Option.bind_some, if_pos hi, hat,
      hassign, assignItems, Option.pure_def]
    cases assignTree t .undefined with
    | error e => rfl
    | ok e => exact htail _

theorem assignNodeEntries_eq (es : List (StrText widths × Tree widths))
    (d : List (List UInt8 × Entry)) {entries : List (StrText widths × Tree widths)}
    {n : NodeRef} {fuel i : Nat} (h : n.Shows (some (.dict entries)))
    (hrest : entries.drop i = es) (hfuel : entriesCount es + 1 < fuel) :
    assignNodeEntries fuel n i d = some (assignEntries es d) := by
  obtain ⟨fuel, rfl⟩ : ∃ f, fuel = f + 1 := ⟨fuel - 1, by omega⟩
  obtain ⟨n₁, hsize, hn₁⟩ := dict_size_eq h
  cases es with
  | nil =>
    have hdone : ¬i < entries.length := Nat.not_lt.mpr (List.drop_eq_nil_iff.mp hrest)
    simp only [assignNodeEntries, hsize, Option.bind_eq_bind, Option.bind_some, if_neg hdone,
      assignEntries, Option.pure_def]
  | cons e es =>
    obtain ⟨k, t⟩ := e
    obtain ⟨hi, hentry, hnext⟩ := drop_eq_cons hrest
    have hpos := t.count_pos
    rw [entriesCount] at hfuel
    obtain ⟨value, n₂, hat, hvalue, hn₂⟩ := dict_at_eq hn₁ hi
    rw [hentry] at hat hvalue
    have hassign := fun self => assignNode_eq t self hvalue (show _ < fuel by omega)
    have htail := fun d => assignNodeEntries_eq es d hn₂ hnext (show _ < fuel by omega)
    simp only [assignNodeEntries, hsize, Option.bind_eq_bind, Option.bind_some, if_pos hi, hat,
      hassign, assignEntries, Option.pure_def]
    cases assignTree t ((mapFind d k.payload).getD .undefined) with
    | error e => rfl
    | ok e => exact htail _

end

/-- What a decoded buffer is assigned as. -/
theorem entryOf_treeNode (t : Tree widths) (rest : List UInt8) :
    entryOf (treeNode t rest) = some (assignTree t .undefined) := by
  apply assignNode_eq t .undefined (root_shows t rest)
  simp only [treeNode, List.length_append, length_treeTokens, List.length_singleton]
  omega

end TorrentApp.Torrent
