import Mathlib.Data.List.Forall2
import TorrentApp.Foundation.Machine
import TorrentApp.Torrent.Tokens

set_option autoImplicit false

/-!
# `bdecode_node`

The objects through which a decoded buffer is read.  An object points at a token of
its root and keeps three fields that its accessors write although they are `const`:
the place of the item it looked up last, and its size.  Whatever is called, on
whichever object and in whatever order, the answers are those of the tree that the
buffer begins with.
-/

namespace TorrentApp.Torrent

open TorrentApp.Foundation
open TorrentApp.Foundation.Bencode

/-! ## Objects -/

/-- A `bdecode_node` without the tokens it may own; `none` stands for `-1`. -/
structure NodeRef where
  root_tokens : List BdecodeToken
  buffer : List UInt8
  token_idx : Option Nat
  last_index : Option Nat
  last_token : Nat
  size : Option Nat
  deriving DecidableEq, Repr

/-- `bdecode_node::bdecode_node()`. -/
def noNode : NodeRef := ⟨[], [], none, none, 0, none⟩

/-- `bdecode_node::bdecode_node(tokens, buf, len, idx)` with the tokens and the buffer of `n`. -/
def NodeRef.child (n : NodeRef) (idx : Nat) : NodeRef :=
  ⟨n.root_tokens, n.buffer, some idx, none, 0, none⟩

/-- The node that `bdecode` fills. -/
def BdecodeNode.root (node : BdecodeNode) : NodeRef :=
  ⟨node.tokens, node.buffer, some 0, none, 0, none⟩

/-- `bdecode_token::start_offset`. -/
def BdecodeToken.start_offset (t : BdecodeToken) : Nat := t.header + 2

/-- The bytes from `first` to `last`. -/
def NodeRef.bytes (n : NodeRef) (first last : Nat) : List UInt8 :=
  (n.buffer.drop first).take (last - first)

/-- `bdecode_node::type`; `none` stands for `none_t`. -/
def NodeRef.type (n : NodeRef) : Option TokenType := do
  let idx ← n.token_idx
  let t ← n.root_tokens[idx]?
  return t.type

/-! ## Accessors

A read past the tokens is `none`. -/

/-- The bytes of `data_section`. -/
def NodeRef.data_section (n : NodeRef) : Option (List UInt8) :=
  match n.token_idx with
  | none => some []
  | some idx => do
      let t ← n.root_tokens[idx]?
      let next ← n.root_tokens[idx + t.next_item]?
      return n.bytes t.offset next.offset

/-- The loop of `list_at`: `n` items on. -/
def skipItems (tokens : List BdecodeToken) : Nat → Nat → Option Nat
  | 0, token => some token
  | n + 1, token => do
      let t ← tokens[token]?
      skipItems tokens n (token + t.next_item)

/-- Where the loop of `list_at` and `dict_at` starts: the token, and its index. -/
def NodeRef.lookup (n : NodeRef) (idx i : Nat) : Nat × Nat :=
  match n.last_index with
  | some last => if last ≤ i then (n.last_token, last) else (idx + 1, 0)
  | none => (idx + 1, 0)

/-- `bdecode_node::list_at`: the item, and the node with what it has cached. -/
def NodeRef.list_at (n : NodeRef) (i : Nat) : Option (NodeRef × NodeRef) := do
  let idx ← n.token_idx
  let (start, item) := n.lookup idx i
  let token ← skipItems n.root_tokens (i - item) start
  return (n.child token, { n with last_token := token, last_index := some i })

/-- The loop of `list_size` and `dict_size`. -/
def countItems (tokens : List BdecodeToken) : Nat → Nat → Nat → Option Nat
  | 0, _, _ => none
  | fuel + 1, token, ret => do
      let t ← tokens[token]?
      if t.type = .end_ then some ret
      else countItems tokens fuel (token + t.next_item) (ret + 1)

/-- `bdecode_node::list_size`. -/
def NodeRef.list_size (n : NodeRef) : Option (Nat × NodeRef) :=
  match n.size with
  | some size => some (size, n)
  | none => do
      let idx ← n.token_idx
      let (start, item) :=
        match n.last_index with
        | some last => (n.last_token, last)
        | none => (idx + 1, 0)
      let ret ← countItems n.root_tokens n.root_tokens.length start item
      return (ret, { n with size := some ret })

/-- `bdecode_node::string_value`. -/
def NodeRef.string_value (n : NodeRef) : Option (List UInt8) := do
  let idx ← n.token_idx
  let t ← n.root_tokens[idx]?
  let next ← n.root_tokens[idx + 1]?
  return n.bytes (t.offset + t.start_offset) next.offset

/-- The loop of `dict_at`: `n` keys and values on. -/
def skipEntries (tokens : List BdecodeToken) : Nat → Nat → Option Nat
  | 0, token => some token
  | n + 1, token => do
      let key ← tokens[token]?
      let value ← tokens[token + key.next_item]?
      skipEntries tokens n (token + key.next_item + value.next_item)

/-- `bdecode_node::dict_at`: the key, its value, and the node with what it has cached. -/
def NodeRef.dict_at (n : NodeRef) (i : Nat) : Option ((List UInt8 × NodeRef) × NodeRef) := do
  let idx ← n.token_idx
  let (start, item) := n.lookup idx i
  let token ← skipEntries n.root_tokens (i - item) start
  let t ← n.root_tokens[token]?
  let key ← (n.child token).string_value
  return ((key, n.child (token + t.next_item)),
    -- the first item is not cached
    if 0 < i then { n with last_token := token, last_index := some i } else n)

/-- `bdecode_node::dict_size`. -/
def NodeRef.dict_size (n : NodeRef) : Option (Nat × NodeRef) :=
  match n.size with
  | some size => some (size, n)
  | none => do
      let idx ← n.token_idx
      let (start, item) :=
        match n.last_index with
        | some last => (n.last_token, last * 2)
        | none => (idx + 1, 0)
      let ret ← countItems n.root_tokens n.root_tokens.length start item
      return (ret / 2, { n with size := some (ret / 2) })

/-- The loop of `dict_find`, where `same` compares a key with the one that is asked for. -/
def NodeRef.findKey (n : NodeRef) (same : List UInt8 → Bool) : Nat → Nat → Option NodeRef
  | 0, _ => none
  | fuel + 1, token => do
      let t ← n.root_tokens[token]?
      if t.type = .end_ then some noNode
      else do
        let next ← n.root_tokens[token + 1]?
        if same (n.bytes (t.offset + t.start_offset) next.offset) then
          return n.child (token + t.next_item)
        else do
          let value ← n.root_tokens[token + t.next_item]?
          n.findKey same fuel (token + t.next_item + value.next_item)

/-- `string_equal`; a C string ends with the zero behind its characters. -/
def string_equal : List UInt8 → List UInt8 → Bool
  | str1, c :: str2 =>
      str1.headD 0 == c && str1.headD 0 != 0 && string_equal str1.tail str2
  | str1, [] => str1.headD 0 == 0

/-- `bdecode_node::dict_find(std::string)`. -/
def NodeRef.dict_find (n : NodeRef) (key : List UInt8) : Option NodeRef := do
  let idx ← n.token_idx
  n.findKey (fun k => key.length == k.length && key == k) n.root_tokens.length (idx + 1)

/-- `bdecode_node::dict_find(char const*)`. -/
def NodeRef.dict_find_cstr (n : NodeRef) (key : List UInt8) : Option NodeRef := do
  let idx ← n.token_idx
  n.findKey (string_equal key) n.root_tokens.length (idx + 1)

/-- `dict_find_list`, `dict_find_dict`, `dict_find_string` and `dict_find_int`. -/
def NodeRef.dict_find_type (n : NodeRef) (type : TokenType) (key : List UInt8) :
    Option NodeRef := do
  let ret ← n.dict_find_cstr key
  return if ret.type = some type then ret else noNode

/-- `bdecode_node::int_value`. -/
def NodeRef.int_value (n : NodeRef) : Option Int := do
  let idx ← n.token_idx
  let t ← n.root_tokens[idx]?
  let next ← n.root_tokens[idx + 1]?
  let size := next.offset - t.offset
  let ptr := t.offset + 1
  let negative := n.buffer[ptr]? = some minusByte
  let text := n.bytes (if negative then ptr + 1 else ptr) (ptr + size)
  return match parse_int endByte text 0 with
    | .error _ => 0
    | .ok (val, _) => if negative then -(val : Int) else val

/-- `bdecode_node::list_string_value_at`. -/
def NodeRef.list_string_value_at (n : NodeRef) (i : Nat) (default_val : List UInt8) :
    Option (List UInt8 × NodeRef) := do
  let (item, n) ← n.list_at i
  if item.type ≠ some .string then return (default_val, n)
  else return (← item.string_value, n)

/-- `bdecode_node::list_int_value_at`. -/
def NodeRef.list_int_value_at (n : NodeRef) (i : Nat) (default_val : Int) :
    Option (Int × NodeRef) := do
  let (item, n) ← n.list_at i
  if item.type ≠ some .integer then return (default_val, n)
  else return (← item.int_value, n)

/-- `bdecode_node::dict_find_string_value`. -/
def NodeRef.dict_find_string_value (n : NodeRef) (key default_value : List UInt8) :
    Option (List UInt8) := do
  let item ← n.dict_find_cstr key
  if item.type ≠ some .string then return default_value
  else item.string_value

/-- `bdecode_node::dict_find_int_value`. -/
def NodeRef.dict_find_int_value (n : NodeRef) (key : List UInt8) (default_val : Int) :
    Option Int := do
  let item ← n.dict_find_cstr key
  if item.type ≠ some .integer then return default_val
  else item.int_value

/-! ## Where a value lies -/

/-- The type of the token of a value. -/
def treeType : Tree widths → TokenType
  | .int _ => .integer
  | .str _ => .string
  | .list _ => .list
  | .dict _ => .dict

/-- The tokens of `t` begin at the `k`th and its text at `off`; the token behind them says where
the text ends. -/
structure Located (tokens : List BdecodeToken) (buffer : List UInt8) (k off : Nat)
    (t : Tree widths) : Prop where
  tokens_drop : ∃ next post, tokens.drop k = treeTokens off t ++ next :: post ∧
    next.offset = off + t.bytes.length
  buffer_drop : ∃ after, buffer.drop off = t.bytes ++ after

/-- The items of an open list from the `k`th token on. -/
structure ItemsAt (tokens : List BdecodeToken) (buffer : List UInt8) (k off : Nat)
    (ts : List (Tree widths)) : Prop where
  tokens_drop : ∃ post, tokens.drop k =
    itemsTokens off ts ++ ⟨off + (itemsBytes ts).length, 1, .end_, 0⟩ :: post
  buffer_drop : ∃ after, buffer.drop off = itemsBytes ts ++ after

section Located

variable {tokens : List BdecodeToken} {buffer : List UInt8} {k off : Nat}

theorem getElem?_of_drop {α : Type} {l rest : List α} {k : Nat} {x : α}
    (h : l.drop k = x :: rest) : l[k]? = some x := by
  have hhead : (l.drop k)[0]? = some x := by rw [h]; rfl
  rwa [List.getElem?_drop, Nat.add_zero] at hhead

theorem drop_add_of_drop {α : Type} {l first rest : List α} {k : Nat}
    (h : l.drop k = first ++ rest) : l.drop (k + first.length) = rest := by
  rw [← List.drop_drop, h, List.drop_left]

theorem Located.token {t : Tree widths} (h : Located tokens buffer k off t) :
    ∃ token, tokens[k]? = some token ∧ token.offset = off ∧ token.next_item = t.count ∧
      token.type = treeType t := by
  obtain ⟨⟨next, post, htokens, -⟩, -⟩ := h
  cases t <;> exact ⟨_, getElem?_of_drop htokens, rfl, rfl, rfl⟩

/-- The token behind a value. -/
theorem Located.next {t : Tree widths} (h : Located tokens buffer k off t) :
    ∃ next, tokens[k + t.count]? = some next ∧ next.offset = off + t.bytes.length := by
  obtain ⟨⟨next, post, htokens, hnext⟩, -⟩ := h
  have hdrop := drop_add_of_drop htokens
  rw [length_treeTokens] at hdrop
  exact ⟨next, getElem?_of_drop hdrop, hnext⟩

/-- The items that follow begin where the value ends. -/
theorem itemsTokens_append_eq_cons (off : Nat) (ts : List (Tree widths))
    (post : List BdecodeToken) :
    ∃ next rest, itemsTokens off ts ++ ⟨off + (itemsBytes ts).length, 1, .end_, 0⟩ :: post =
      next :: rest ∧ next.offset = off := by
  cases ts with
  | nil => exact ⟨_, _, rfl, rfl⟩
  | cons t ts => cases t <;> exact ⟨_, _, rfl, rfl⟩

theorem Located.items {ts : List (Tree widths)} (h : Located tokens buffer k off (.list ts)) :
    ItemsAt tokens buffer (k + 1) (off + 1) ts := by
  obtain ⟨⟨next, post, htokens, -⟩, after, hbuffer⟩ := h
  rw [treeTokens, List.cons_append, List.append_assoc] at htokens
  rw [Tree.bytes, List.cons_append, List.append_assoc] at hbuffer
  refine ⟨⟨next :: post, ?_⟩, endByte :: after, ?_⟩
  · rw [← List.drop_drop, htokens]
    rfl
  · rw [← List.drop_drop, hbuffer]
    rfl

theorem Located.entries {es : List (StrText widths × Tree widths)}
    (h : Located tokens buffer k off (.dict es)) :
    ItemsAt tokens buffer (k + 1) (off + 1) (entryItems es) := by
  obtain ⟨⟨next, post, htokens, -⟩, after, hbuffer⟩ := h
  rw [treeTokens, entriesTokens_eq, entriesBytes_eq, List.cons_append, List.append_assoc]
    at htokens
  rw [Tree.bytes, entriesBytes_eq, List.cons_append, List.append_assoc] at hbuffer
  refine ⟨⟨next :: post, ?_⟩, endByte :: after, ?_⟩
  · rw [← List.drop_drop, htokens]
    rfl
  · rw [← List.drop_drop, hbuffer]
    rfl

theorem ItemsAt.head {t : Tree widths} {ts : List (Tree widths)}
    (h : ItemsAt tokens buffer k off (t :: ts)) : Located tokens buffer k off t := by
  obtain ⟨⟨post, htokens⟩, after, hbuffer⟩ := h
  rw [itemsTokens, itemsBytes, List.append_assoc, List.length_append, ← Nat.add_assoc] at htokens
  obtain ⟨next, rest, hnext, hoffset⟩ :=
    itemsTokens_append_eq_cons (off + t.bytes.length) ts post
  rw [hnext] at htokens
  rw [itemsBytes, List.append_assoc] at hbuffer
  exact ⟨⟨next, rest, htokens, hoffset⟩, _, hbuffer⟩

theorem ItemsAt.tail {t : Tree widths} {ts : List (Tree widths)}
    (h : ItemsAt tokens buffer k off (t :: ts)) :
    ItemsAt tokens buffer (k + t.count) (off + t.bytes.length) ts := by
  obtain ⟨⟨post, htokens⟩, after, hbuffer⟩ := h
  rw [itemsTokens, itemsBytes, List.append_assoc, List.length_append, ← Nat.add_assoc] at htokens
  rw [itemsBytes, List.append_assoc] at hbuffer
  have hdrop := drop_add_of_drop htokens
  rw [length_treeTokens] at hdrop
  exact ⟨⟨post, hdrop⟩, after, drop_add_of_drop hbuffer⟩

theorem ItemsAt.stop (h : ItemsAt tokens buffer k off []) :
    ∃ token, tokens[k]? = some token ∧ token.type = .end_ := by
  obtain ⟨⟨post, htokens⟩, -⟩ := h
  exact ⟨_, getElem?_of_drop htokens, rfl⟩

/-- The end of the items is among the tokens. -/
theorem ItemsAt.length_lt {ts : List (Tree widths)} (h : ItemsAt tokens buffer k off ts) :
    k + itemsCount ts < tokens.length := by
  obtain ⟨⟨post, htokens⟩, -⟩ := h
  have hlength := congrArg List.length htokens
  rw [List.length_drop, List.length_append, length_itemsTokens, List.length_cons] at hlength
  omega

/-! ## The loops over items -/

/-- The loop of `list_at` stops at the item it looks for. -/
theorem skipItems_eq {ts : List (Tree widths)} (h : ItemsAt tokens buffer k off ts) {n : Nat}
    (hn : n ≤ ts.length) :
    ∃ k' off', skipItems tokens n k = some k' ∧ ItemsAt tokens buffer k' off' (ts.drop n) := by
  induction n generalizing k off ts with
  | zero => exact ⟨k, off, rfl, h⟩
  | succ n ih =>
    cases ts with
    | nil => cases hn
    | cons t ts =>
      obtain ⟨token, htoken, -, hnext, -⟩ := h.head.token
      obtain ⟨k', off', hskip, hitems⟩ := ih h.tail (Nat.le_of_succ_le_succ hn)
      refine ⟨k', off', ?_, hitems⟩
      rw [skipItems, htoken, Option.bind_eq_bind, Option.bind_some, hnext]
      exact hskip

/-- The loop of `dict_at` stops at the key it looks for. -/
theorem skipEntries_eq {es : List (StrText widths × Tree widths)}
    (h : ItemsAt tokens buffer k off (entryItems es)) {n : Nat} (hn : n ≤ es.length) :
    ∃ k' off', skipEntries tokens n k = some k' ∧
      ItemsAt tokens buffer k' off' (entryItems (es.drop n)) := by
  induction n generalizing k off es with
  | zero => exact ⟨k, off, rfl, h⟩
  | succ n ih =>
    cases es with
    | nil => cases hn
    | cons e es =>
      obtain ⟨key, t⟩ := e
      obtain ⟨token, htoken, -, hnext, -⟩ := h.head.token
      obtain ⟨value, hvalue, -, hvalueNext, -⟩ := h.tail.head.token
      obtain ⟨k', off', hskip, hitems⟩ := ih h.tail.tail (Nat.le_of_succ_le_succ hn)
      refine ⟨k', off', ?_, hitems⟩
      simp only [skipEntries, htoken, Option.bind_eq_bind, Option.bind_some, hnext, hvalue,
        hvalueNext]
      exact hskip

theorem length_le_itemsCount (ts : List (Tree widths)) : ts.length ≤ itemsCount ts := by
  induction ts with
  | nil => exact Nat.le_refl _
  | cons t ts ih =>
    have := t.count_pos
    rw [itemsCount, List.length_cons]
    omega

/-- The loop of `list_size` counts the items up to the end. -/
theorem countItems_eq {ts : List (Tree widths)} (h : ItemsAt tokens buffer k off ts)
    {fuel ret : Nat} (hfuel : ts.length < fuel) :
    countItems tokens fuel k ret = some (ret + ts.length) := by
  induction ts generalizing k off fuel ret with
  | nil =>
    obtain ⟨fuel, rfl⟩ : ∃ f, fuel = f + 1 := ⟨fuel - 1, by omega⟩
    obtain ⟨token, htoken, hend⟩ := h.stop
    rw [countItems, htoken, Option.bind_eq_bind, Option.bind_some, if_pos hend]
    rfl
  | cons t ts ih =>
    obtain ⟨fuel, rfl⟩ : ∃ f, fuel = f + 1 := ⟨fuel - 1, by omega⟩
    obtain ⟨token, htoken, -, hnext, htype⟩ := h.head.token
    have hopen : ¬token.type = .end_ := by
      rw [htype]
      cases t <;> simp [treeType]
    rw [countItems, htoken, Option.bind_eq_bind, Option.bind_some, if_neg hopen, hnext,
      ih h.tail (Nat.lt_of_succ_lt_succ hfuel), List.length_cons]
    congr 1
    omega

end Located

/-! ## Reading scalars -/

variable {n : NodeRef} {k off : Nat}

theorem bytes_of_drop {first last : Nat} {text after : List UInt8}
    (h : n.buffer.drop first = text ++ after) (hlast : last = first + text.length) :
    n.bytes first last = text := by
  rw [NodeRef.bytes, h, hlast, Nat.add_sub_cancel_left, List.take_left]

/-- The two tokens that a string is read by. -/
theorem Located.string {s : StrText widths}
    (h : Located n.root_tokens n.buffer k off (.str s)) :
    ∃ t next, n.root_tokens[k]? = some t ∧ n.root_tokens[k + 1]? = some next ∧
      t.type = .string ∧ t.next_item = 1 ∧
      n.bytes (t.offset + t.start_offset) next.offset = s.payload := by
  obtain ⟨next, hnext, hoffset⟩ := h.next
  obtain ⟨⟨_, _, htokens, -⟩, after, hbuffer⟩ := h
  refine ⟨_, next, getElem?_of_drop htokens, hnext, rfl, rfl, ?_⟩
  have hpos := List.length_pos_iff.mpr s.header_ne
  have hstart : off + (s.header.length - 1 + 2) = off + (s.header.length + 1) := by omega
  have hdrop : n.buffer.drop (off + (s.header.length + 1)) = s.payload ++ after := by
    rw [← List.drop_drop, hbuffer, Tree.bytes, StrText.bytes, List.append_assoc,
      List.cons_append, ← List.drop_drop, List.drop_left]
    rfl
  rw [BdecodeToken.start_offset, hstart, hoffset]
  apply bytes_of_drop hdrop
  rw [Tree.bytes, StrText.bytes, List.length_append, List.length_cons]
  omega

theorem string_value_eq {s : StrText widths} (hidx : n.token_idx = some k)
    (h : Located n.root_tokens n.buffer k off (.str s)) : n.string_value = some s.payload := by
  obtain ⟨t, next, ht, hnext, -, -, hbytes⟩ := h.string
  simp only [NodeRef.string_value, hidx, ht, hnext, Option.bind_eq_bind, Option.bind_some,
    Option.pure_def, hbytes]

theorem data_section_eq {t : Tree widths} (hidx : n.token_idx = some k)
    (h : Located n.root_tokens n.buffer k off t) : n.data_section = some t.bytes := by
  obtain ⟨token, htoken, hoffset, hitem, -⟩ := h.token
  obtain ⟨next, hnext, hend⟩ := h.next
  obtain ⟨-, after, hbuffer⟩ := h
  simp only [NodeRef.data_section, hidx, htoken, hitem, hnext, hoffset, Option.bind_eq_bind,
    Option.bind_some, Option.pure_def, bytes_of_drop hbuffer hend]

/-- `parse_int` in front of a delimiter that is not a digit. -/
theorem parse_int_digits (delimiter : UInt8) (hdelimiter : numeric delimiter = false)
    {digits r : List UInt8} {val : Nat} (hdigits : ∀ c ∈ digits, numeric c = true)
    (hval : val ≤ int64Max) :
    parse_int delimiter (digits ++ delimiter :: r) val =
      if decimal val digits ≤ int64Max then .ok (decimal val digits, delimiter :: r)
      else .error .overflow := by
  induction digits generalizing val with
  | nil =>
    rw [List.nil_append, parse_int, if_pos rfl, decimal, List.foldl_nil, if_pos hval]
  | cons c rest ih =>
    have hc := hdigits c List.mem_cons_self
    have hne : c ≠ delimiter := by
      rintro rfl
      rw [hc] at hdelimiter
      cases hdelimiter
    have hle : val * 10 + digitValue c ≤ decimal val (c :: rest) :=
      le_decimal (val * 10 + digitValue c) rest
    have hdigit := digitValue_lt hc
    have hroom : 10 ≤ int64Max := by decide
    rw [List.cons_append, parse_int, if_neg hne, hc, if_neg (by decide)]
    by_cases hfits : val * 10 + digitValue c ≤ int64Max
    · rw [if_neg (by omega), if_neg (by omega)]
      exact ih (fun c hc => hdigits c (List.mem_cons_of_mem _ hc)) hfits
    · rw [if_neg (show ¬decimal val (c :: rest) ≤ int64Max by omega)]
      split
      · rfl
      · rw [if_pos (by omega)]

/-- The value of an integer, or zero where it does not fit. -/
def int64Value (i : IntText widths) : Int :=
  if decimal 0 i.digits ≤ int64Max then i.value else 0

theorem int_value_eq {i : IntText widths} (hidx : n.token_idx = some k)
    (h : Located n.root_tokens n.buffer k off (.int i)) :
    n.int_value = some (int64Value i) := by
  obtain ⟨token, htoken, hoffset, -, -⟩ := h.token
  obtain ⟨next, hnext, hend⟩ := h.next
  rw [Tree.count] at hnext
  obtain ⟨-, after, hbuffer⟩ := h
  have hrest : n.buffer.drop (off + 1) = i.sign ++ (i.digits ++ endByte :: after) := by
    rw [← List.drop_drop, hbuffer, Tree.bytes, IntText.bytes]
    simp only [List.cons_append, List.append_assoc, List.nil_append, List.drop_succ_cons,
      List.drop_zero]
  have hsize : next.offset - off = i.sign.length + i.digits.length + 2 := by
    rw [hend, Tree.bytes, IntText.bytes]
    simp only [List.length_cons, List.length_append, List.length_nil]
    omega
  have hminus : (n.buffer[off + 1]? = some minusByte) ↔ i.negative = true := by
    rw [← List.head?_drop, hrest, IntText.sign]
    cases hneg : i.negative with
    | true => simp
    | false =>
      obtain ⟨c, digits, hdigits⟩ := List.exists_cons_of_ne_nil i.digits_ne
      have hc := i.digits_numeric c (hdigits ▸ List.mem_cons_self)
      rw [hdigits]
      simp only [Bool.false_eq_true, if_false, List.nil_append, List.cons_append,
        List.head?_cons, Option.some.injEq, iff_false]
      rintro rfl
      cases hc
  -- the digits, the end, and at most one byte behind it
  have htext : ∃ r, n.bytes (off + 1 + i.sign.length) (off + 1 + (next.offset - off)) =
      i.digits ++ endByte :: r := by
    refine ⟨after.take 1, ?_⟩
    rw [NodeRef.bytes, hsize, ← List.drop_drop, hrest, List.drop_left,
      show off + 1 + (i.sign.length + i.digits.length + 2) - (off + 1 + i.sign.length) =
        i.digits.length + 2 by omega,
      List.take_append, List.take_of_length_le (Nat.le_add_right _ _), Nat.add_sub_cancel_left]
    rfl
  obtain ⟨r, htext⟩ := htext
  have hparse := parse_int_digits (r := r) endByte (by decide) i.digits_numeric
    (Nat.zero_le int64Max)
  have hstart : (if i.negative = true then off + 1 + 1 else off + 1) =
      off + 1 + i.sign.length := by
    rw [IntText.sign]
    cases i.negative <;> rfl
  simp only [NodeRef.int_value, hidx, htoken, hnext, hoffset, Option.bind_eq_bind,
    Option.bind_some, Option.pure_def, hminus, hstart, htext, hparse, int64Value, IntText.value]
  by_cases hfits : decimal 0 i.digits ≤ int64Max
  · simp only [if_pos hfits]
  · simp only [if_neg hfits]

/-! ## Looking up keys -/

theorem findKey_eq (same : List UInt8 → Bool) {es : List (StrText widths × Tree widths)}
    (h : ItemsAt n.root_tokens n.buffer k off (entryItems es)) {fuel : Nat}
    (hfuel : es.length < fuel) :
    (es.find? (fun e => same e.1.payload) = none ∧ n.findKey same fuel k = some noNode) ∨
      ∃ e k' off', es.find? (fun e => same e.1.payload) = some e ∧
        n.findKey same fuel k = some (n.child k') ∧
        Located n.root_tokens n.buffer k' off' e.2 := by
  induction es generalizing k off fuel with
  | nil =>
    obtain ⟨fuel, rfl⟩ : ∃ f, fuel = f + 1 := ⟨fuel - 1, by omega⟩
    obtain ⟨token, htoken, hend⟩ := h.stop
    refine Or.inl ⟨rfl, ?_⟩
    rw [NodeRef.findKey, htoken, Option.bind_eq_bind, Option.bind_some, if_pos hend]
  | cons e es ih =>
    obtain ⟨key, t⟩ := e
    obtain ⟨fuel, rfl⟩ : ∃ f, fuel = f + 1 := ⟨fuel - 1, by omega⟩
    obtain ⟨token, next, htoken, hnext, htype, hitem, hbytes⟩ := h.head.string
    have hopen : ¬token.type = .end_ := by rw [htype]; decide
    have hvalue : Located n.root_tokens n.buffer (k + 1) (off + key.bytes.length) t := h.tail.head
    obtain ⟨value, hvalueToken, -, hvalueNext, -⟩ := hvalue.token
    obtain rfl : next = value := Option.some.inj (hnext.symm.trans hvalueToken)
    cases hsame : same key.payload with
    | true =>
      refine Or.inr ⟨(key, t), k + 1, _, by simp [hsame], ?_, hvalue⟩
      simp only [NodeRef.findKey, htoken, Option.bind_eq_bind, Option.bind_some, if_neg hopen,
        hnext, hbytes, hsame, if_true, hitem, Option.pure_def]
    | false =>
      have hfind : (((key, t) :: es).find? fun e => same e.1.payload) =
          es.find? fun e => same e.1.payload := by
        rw [List.find?_cons, hsame]
      have hstep : n.findKey same (fuel + 1) k = n.findKey same fuel (k + 1 + t.count) := by
        simp only [NodeRef.findKey, htoken, Option.bind_eq_bind, Option.bind_some, if_neg hopen,
          hnext, hbytes, hsame, Bool.false_eq_true, if_false, hitem, hvalueNext]
      rw [hfind, hstep]
      exact ih h.tail.tail (Nat.lt_of_succ_lt_succ hfuel)

/-- A C string without a zero is equal to the bytes it has. -/
theorem string_equal_iff {key : List UInt8} (hkey : (0 : UInt8) ∉ key) (s : List UInt8) :
    string_equal key s = (key == s) := by
  induction s generalizing key with
  | nil =>
    cases key with
    | nil => rfl
    | cons c key =>
      have hc : c ≠ 0 := fun h => hkey (h ▸ List.mem_cons_self)
      simpa [string_equal] using hc
  | cons c s ih =>
    cases key with
    | nil => simp [string_equal]
    | cons c' key =>
      have hc : c' ≠ 0 := fun h => hkey (h ▸ List.mem_cons_self)
      have hrest : string_equal key s = (key == s) := ih fun h => hkey (List.mem_cons_of_mem _ h)
      have hzero : (c' != 0) = true := by simpa using hc
      rw [string_equal, List.headD_cons, List.tail_cons, hrest, hzero, Bool.and_true,
        List.cons_beq_cons]

/-! ## What an object shows -/

/-- The caches of an object that stands at `t` are right: the item that was looked up last lies
where they say, and the size is the size. -/
def NodeRef.CachesFor (n : NodeRef) : Tree widths → Prop
  | .list items =>
      (∀ i, n.last_index = some i → i ≤ items.length ∧
        ∃ off, ItemsAt n.root_tokens n.buffer n.last_token off (items.drop i)) ∧
      ∀ s, n.size = some s → s = items.length
  | .dict entries =>
      (∀ i, n.last_index = some i → i ≤ entries.length ∧
        ∃ off, ItemsAt n.root_tokens n.buffer n.last_token off (entryItems (entries.drop i))) ∧
      ∀ s, n.size = some s → s = entries.length
  | _ => True

/-- The object `n` shows a value, or nothing. -/
def NodeRef.Shows (n : NodeRef) : Option (Tree widths) → Prop
  | none => n.token_idx = none
  | some t =>
      ∃ k off, n.token_idx = some k ∧ Located n.root_tokens n.buffer k off t ∧ n.CachesFor t

theorem noNode_shows : noNode.Shows none := rfl

/-- A new object shows what lies where it points. -/
theorem child_shows {t : Tree widths} (h : Located n.root_tokens n.buffer k off t) :
    (n.child k).Shows (some t) := by
  refine ⟨k, off, rfl, h, ?_⟩
  cases t with
  | int text => trivial
  | str text => trivial
  | list items => exact ⟨fun i hi => (by cases hi), fun s hs => (by cases hs)⟩
  | dict entries => exact ⟨fun i hi => (by cases hi), fun s hs => (by cases hs)⟩

theorem root_shows (t : Tree widths) (rest : List UInt8) :
    (treeNode t rest).root.Shows (some t) := by
  have hloc : Located (treeNode t rest).root.root_tokens (treeNode t rest).root.buffer 0 0 t :=
    ⟨⟨_, [], rfl, (Nat.zero_add _).symm⟩, rest, rfl⟩
  exact child_shows hloc

theorem type_eq {shown : Option (Tree widths)} (h : n.Shows shown) :
    n.type = shown.map treeType := by
  cases shown with
  | none =>
    rw [NodeRef.type, show n.token_idx = none from h]
    rfl
  | some t =>
    obtain ⟨k, off, hidx, hloc, -⟩ := h
    obtain ⟨token, htoken, -, -, htype⟩ := hloc.token
    simp only [NodeRef.type, hidx, htoken, htype, Option.bind_eq_bind, Option.bind_some,
      Option.pure_def, Option.map_some]

section Containers

variable {items : List (Tree widths)} {entries : List (StrText widths × Tree widths)}

/-- `list_at` in range: the item, and a right cache. -/
theorem list_at_eq (h : n.Shows (some (.list items))) {i : Nat} (hi : i < items.length) :
    ∃ item n', n.list_at i = some (item, n') ∧ item.Shows (some items[i]) ∧
      n'.Shows (some (.list items)) := by
  obtain ⟨k, off, hidx, hloc, hlast, hsize⟩ := h
  -- where the loop starts
  have hstart : ∃ off', (n.lookup k i).2 ≤ i ∧
      ItemsAt n.root_tokens n.buffer (n.lookup k i).1 off' (items.drop (n.lookup k i).2) := by
    rw [NodeRef.lookup]
    split
    · rename_i last hcached
      split
      · rename_i hle
        obtain ⟨-, off', hat⟩ := hlast last hcached
        exact ⟨off', hle, hat⟩
      · exact ⟨off + 1, Nat.zero_le _, hloc.items⟩
    · exact ⟨off + 1, Nat.zero_le _, hloc.items⟩
  obtain ⟨off', hle, hat⟩ := hstart
  obtain ⟨token, off'', hskip, hitem⟩ := skipItems_eq hat (n := i - (n.lookup k i).2)
    (by rw [List.length_drop]; omega)
  rw [List.drop_drop, Nat.add_sub_cancel' hle] at hitem
  refine ⟨n.child token, { n with last_token := token, last_index := some i }, ?_, ?_, ?_⟩
  · simp only [NodeRef.list_at, hidx, hskip, Option.bind_eq_bind, Option.bind_some,
      Option.pure_def]
  · rw [List.drop_eq_getElem_cons hi] at hitem
    exact child_shows hitem.head
  · refine ⟨k, off, hidx, hloc, fun j hj => ?_, hsize⟩
    obtain rfl := Option.some.inj hj
    exact ⟨Nat.le_of_lt hi, off'', hitem⟩

theorem list_size_eq (h : n.Shows (some (.list items))) :
    ∃ n', n.list_size = some (items.length, n') ∧ n'.Shows (some (.list items)) := by
  have hshows := h
  obtain ⟨k, off, hidx, hloc, hlast, hsize⟩ := h
  cases hcached : n.size with
  | some size =>
    obtain rfl := hsize size hcached
    exact ⟨n, by rw [NodeRef.list_size, hcached], hshows⟩
  | none =>
    have hcount : ∀ {start off' i}, i ≤ items.length →
        ItemsAt n.root_tokens n.buffer start off' (items.drop i) →
          countItems n.root_tokens n.root_tokens.length start i = some items.length := by
      intro start off' i hi hat
      have hlt := hat.length_lt
      have hle := length_le_itemsCount (items.drop i)
      rw [countItems_eq hat (by omega), List.length_drop, Nat.add_sub_cancel' hi]
    have hret : (match n.last_index with
        | some last => countItems n.root_tokens n.root_tokens.length n.last_token last
        | none => countItems n.root_tokens n.root_tokens.length (k + 1) 0) =
          some items.length := by
      cases hindex : n.last_index with
      | some last =>
        obtain ⟨hle, off', hat⟩ := hlast last hindex
        exact hcount hle hat
      | none => exact hcount (Nat.zero_le _) hloc.items
    refine ⟨{ n with size := some items.length }, ?_, k, off, hidx, hloc, hlast, ?_⟩
    · cases hindex : n.last_index with
      | some last =>
        rw [hindex] at hret
        simp only [NodeRef.list_size, hcached, hidx, hindex, hret, Option.bind_eq_bind,
          Option.bind_some, Option.pure_def]
      | none =>
        rw [hindex] at hret
        simp only [NodeRef.list_size, hcached, hidx, hindex, hret, Option.bind_eq_bind,
          Option.bind_some, Option.pure_def]
    · rintro s ⟨⟩
      rfl

/-- `dict_at` in range: the key and its value, and a right cache. -/
theorem dict_at_eq (h : n.Shows (some (.dict entries))) {i : Nat} (hi : i < entries.length) :
    ∃ value n', n.dict_at i = some ((entries[i].1.payload, value), n') ∧
      value.Shows (some entries[i].2) ∧ n'.Shows (some (.dict entries)) := by
  have hshows := h
  obtain ⟨k, off, hidx, hloc, hlast, hsize⟩ := h
  have hstart : ∃ off', (n.lookup k i).2 ≤ i ∧
      ItemsAt n.root_tokens n.buffer (n.lookup k i).1 off'
        (entryItems (entries.drop (n.lookup k i).2)) := by
    rw [NodeRef.lookup]
    split
    · rename_i last hcached
      split
      · rename_i hle
        obtain ⟨-, off', hat⟩ := hlast last hcached
        exact ⟨off', hle, hat⟩
      · exact ⟨off + 1, Nat.zero_le _, hloc.entries⟩
    · exact ⟨off + 1, Nat.zero_le _, hloc.entries⟩
  obtain ⟨off', hle, hat⟩ := hstart
  obtain ⟨token, off'', hskip, hentry⟩ := skipEntries_eq hat (n := i - (n.lookup k i).2)
    (by rw [List.length_drop]; omega)
  rw [List.drop_drop, Nat.add_sub_cancel' hle] at hentry
  have hcut := hentry
  rw [List.drop_eq_getElem_cons hi] at hcut
  have hkey : Located n.root_tokens n.buffer token off'' (.str entries[i].1) := hcut.head
  obtain ⟨t, next, ht, hnext, -, hitem, hbytes⟩ := hkey.string
  have hvalue : (n.child token).string_value = some entries[i].1.payload :=
    string_value_eq (n := n.child token) rfl hkey
  refine ⟨n.child (token + 1),
    if 0 < i then { n with last_token := token, last_index := some i } else n, ?_, ?_, ?_⟩
  · simp only [NodeRef.dict_at, hidx, hskip, ht, hvalue, hitem, Option.bind_eq_bind,
      Option.bind_some, Option.pure_def]
  · exact child_shows hcut.tail.head
  · split
    · refine ⟨k, off, hidx, hloc, fun j hj => ?_, hsize⟩
      obtain rfl := Option.some.inj hj
      exact ⟨Nat.le_of_lt hi, off'', hentry⟩
    · exact hshows

theorem dict_size_eq (h : n.Shows (some (.dict entries))) :
    ∃ n', n.dict_size = some (entries.length, n') ∧ n'.Shows (some (.dict entries)) := by
  have hshows := h
  obtain ⟨k, off, hidx, hloc, hlast, hsize⟩ := h
  cases hcached : n.size with
  | some size =>
    obtain rfl := hsize size hcached
    exact ⟨n, by rw [NodeRef.dict_size, hcached], hshows⟩
  | none =>
    have hcount : ∀ {start off' i}, i ≤ entries.length →
        ItemsAt n.root_tokens n.buffer start off' (entryItems (entries.drop i)) →
          countItems n.root_tokens n.root_tokens.length start (i * 2) =
            some (entries.length * 2) := by
      intro start off' i hi hat
      have hlt := hat.length_lt
      have hle := length_le_itemsCount (entryItems (entries.drop i))
      rw [countItems_eq hat (by omega), length_entryItems, List.length_drop]
      congr 1
      omega
    refine ⟨{ n with size := some entries.length }, ?_, k, off, hidx, hloc, hlast, ?_⟩
    · cases hindex : n.last_index with
      | some last =>
        obtain ⟨hle, off', hat⟩ := hlast last hindex
        simp only [NodeRef.dict_size, hcached, hidx, hindex, hcount hle hat, Option.bind_eq_bind,
          Option.bind_some, Option.pure_def, Nat.mul_div_cancel _ (Nat.zero_lt_two)]
      | none =>
        have hret := hcount (Nat.zero_le entries.length) hloc.entries
        rw [Nat.zero_mul] at hret
        simp only [NodeRef.dict_size, hcached, hidx, hindex, hret, Option.bind_eq_bind,
          Option.bind_some, Option.pure_def, Nat.mul_div_cancel _ (Nat.zero_lt_two)]
    · rintro s ⟨⟩
      rfl

/-- The value of the first entry whose key is `key`. -/
def findEntry (entries : List (StrText widths × Tree widths)) (key : List UInt8) :
    Option (Tree widths) :=
  (entries.find? fun e => e.1.payload == key).map Prod.snd

theorem findKey_shows (h : n.Shows (some (.dict entries))) (same : List UInt8 → Bool) :
    ∃ k ret, n.token_idx = some k ∧ n.findKey same n.root_tokens.length (k + 1) = some ret ∧
      ret.Shows ((entries.find? fun e => same e.1.payload).map Prod.snd) := by
  obtain ⟨k, off, hidx, hloc, -⟩ := h
  have hfuel : entries.length < n.root_tokens.length := by
    have hlt := hloc.entries.length_lt
    have hle := length_le_itemsCount (entryItems entries)
    rw [length_entryItems] at hle
    omega
  rcases findKey_eq same hloc.entries hfuel with
    ⟨hnone, hret⟩ | ⟨e, k', off', hsome, hret, hat⟩
  · refine ⟨k, noNode, hidx, hret, ?_⟩
    rw [hnone]
    exact noNode_shows
  · refine ⟨k, n.child k', hidx, hret, ?_⟩
    rw [hsome]
    exact child_shows hat

/-- `dict_find` shows the value of the first entry of the key, or nothing. -/
theorem dict_find_eq (h : n.Shows (some (.dict entries))) (key : List UInt8) :
    ∃ ret, n.dict_find key = some ret ∧ ret.Shows (findEntry entries key) := by
  obtain ⟨k, ret, hidx, hret, hshows⟩ :=
    findKey_shows h fun k => key.length == k.length && key == k
  have hsame : (fun e : StrText widths × Tree widths =>
      key.length == e.1.payload.length && key == e.1.payload) = fun e => e.1.payload == key := by
    funext e
    rw [Bool.eq_iff_iff, Bool.and_eq_true, beq_iff_eq, beq_iff_eq, beq_iff_eq]
    exact ⟨fun h => h.2.symm, fun h => ⟨h ▸ rfl, h.symm⟩⟩
  rw [hsame] at hshows
  refine ⟨ret, ?_, hshows⟩
  rw [NodeRef.dict_find, hidx, Option.bind_eq_bind, Option.bind_some, hret]

/-- `dict_find` of a C string. -/
theorem dict_find_cstr_eq (h : n.Shows (some (.dict entries))) {key : List UInt8}
    (hkey : (0 : UInt8) ∉ key) :
    ∃ ret, n.dict_find_cstr key = some ret ∧ ret.Shows (findEntry entries key) := by
  obtain ⟨k, ret, hidx, hret, hshows⟩ := findKey_shows h (string_equal key)
  have hsame : (fun e : StrText widths × Tree widths => string_equal key e.1.payload) =
      fun e => e.1.payload == key := by
    funext e
    rw [string_equal_iff hkey]
    exact Bool.beq_comm
  rw [hsame] at hshows
  refine ⟨ret, ?_, hshows⟩
  rw [NodeRef.dict_find_cstr, hidx, Option.bind_eq_bind, Option.bind_some, hret]

end Containers

/-! ## Calls -/

/-- The accessors, and the copy constructor. -/
inductive NodeCall where
  | copy
  | type
  | data_section
  | string_value
  | int_value
  | list_at (i : Nat)
  | list_size
  | list_string_value_at (i : Nat) (default_val : List UInt8)
  | list_int_value_at (i : Nat) (default_val : Int)
  | dict_at (i : Nat)
  | dict_size
  | dict_find (key : List UInt8)
  | dict_find_cstr (key : List UInt8)
  | dict_find_type (type : TokenType) (key : List UInt8)
  | dict_find_string_value (key default_value : List UInt8)
  | dict_find_int_value (key : List UInt8) (default_val : Int)
  deriving DecidableEq, Repr

/-- What a call returns; a node is a new object. -/
inductive NodeAnswer where
  | node
  | type (type : Option TokenType)
  | text (bytes : List UInt8)
  | int (value : Int)
  | size (size : Nat)
  deriving DecidableEq, Repr

/-- A call on the object `n`: the answer, the object after it, and the object it returns. -/
def NodeRef.call (n : NodeRef) : NodeCall → Option (NodeAnswer × NodeRef × Option NodeRef)
  | .copy => some (.node, n, some n)
  | .type => some (.type n.type, n, none)
  | .data_section => n.data_section.map fun text => (.text text, n, none)
  | .string_value => n.string_value.map fun text => (.text text, n, none)
  | .int_value => n.int_value.map fun value => (.int value, n, none)
  | .list_at i => (n.list_at i).map fun (item, n') => (.node, n', some item)
  | .list_size => n.list_size.map fun (size, n') => (.size size, n', none)
  | .list_string_value_at i default_val =>
      (n.list_string_value_at i default_val).map fun (text, n') => (.text text, n', none)
  | .list_int_value_at i default_val =>
      (n.list_int_value_at i default_val).map fun (value, n') => (.int value, n', none)
  | .dict_at i => (n.dict_at i).map fun ((key, value), n') => (.text key, n', some value)
  | .dict_size => n.dict_size.map fun (size, n') => (.size size, n', none)
  | .dict_find key => (n.dict_find key).map fun ret => (.node, n, some ret)
  | .dict_find_cstr key => (n.dict_find_cstr key).map fun ret => (.node, n, some ret)
  | .dict_find_type type key => (n.dict_find_type type key).map fun ret => (.node, n, some ret)
  | .dict_find_string_value key default_value =>
      (n.dict_find_string_value key default_value).map fun text => (.text text, n, none)
  | .dict_find_int_value key default_val =>
      (n.dict_find_int_value key default_val).map fun value => (.int value, n, none)

/-- What is shown, if it is of the type that is asked for. -/
def ofType (type : TokenType) (shown : Option (Tree widths)) : Option (Tree widths) :=
  shown.filter fun t => treeType t = type

/-- The string that is shown, or the default. -/
def stringOr (default_val : List UInt8) : Option (Tree widths) → List UInt8
  | some (.str s) => s.payload
  | _ => default_val

/-- The integer that is shown, or the default. -/
def intOr (default_val : Int) : Option (Tree widths) → Int
  | some (.int i) => int64Value i
  | _ => default_val

/-- What a call answers: the answer, and what a new object shows. -/
abbrev TreeAnswer : Type := NodeAnswer × Option (Option (Tree widths))

/-- A call on an object that shows a list. -/
def listCall (items : List (Tree widths)) : NodeCall → Option TreeAnswer
  | .list_at i => items[i]?.map fun item => (.node, some (some item))
  | .list_size => some (.size items.length, none)
  | .list_string_value_at i default_val =>
      items[i]?.map fun item => (.text (stringOr default_val (some item)), none)
  | .list_int_value_at i default_val =>
      items[i]?.map fun item => (.int (intOr default_val (some item)), none)
  | _ => none

/-- A call on an object that shows a dictionary; a C string has no zero in it. -/
def dictCall (entries : List (StrText widths × Tree widths)) : NodeCall → Option TreeAnswer
  | .dict_at i => entries[i]?.map fun e => (.text e.1.payload, some (some e.2))
  | .dict_size => some (.size entries.length, none)
  | .dict_find key => some (.node, some (findEntry entries key))
  | .dict_find_cstr key =>
      if (0 : UInt8) ∈ key then none else some (.node, some (findEntry entries key))
  | .dict_find_type type key =>
      if (0 : UInt8) ∈ key then none
      else some (.node, some (ofType type (findEntry entries key)))
  | .dict_find_string_value key default_value =>
      if (0 : UInt8) ∈ key then none
      else some (.text (stringOr default_value (findEntry entries key)), none)
  | .dict_find_int_value key default_val =>
      if (0 : UInt8) ∈ key then none
      else some (.int (intOr default_val (findEntry entries key)), none)
  | _ => none

/-- The same call on what an object shows.  A call that an assertion of the source forbids
is `none`. -/
def treeCall (shown : Option (Tree widths)) (c : NodeCall) : Option TreeAnswer :=
  match c with
  | .copy => some (.node, some shown)
  | .type => some (.type (shown.map treeType), none)
  | .data_section => some (.text ((shown.map Tree.bytes).getD []), none)
  | c =>
      match shown with
      | none => none
      | some (.int i) => if c = .int_value then some (.int (int64Value i), none) else none
      | some (.str s) => if c = .string_value then some (.text s.payload, none) else none
      | some (.list items) => listCall items c
      | some (.dict entries) => dictCall entries c

/-! ## A call answers what the tree answers -/

theorem string_or_default {shown : Option (Tree widths)} (h : n.Shows shown)
    (default_val : List UInt8) :
    (if n.type ≠ some .string then some default_val else n.string_value) =
      some (stringOr default_val shown) := by
  rw [type_eq h]
  cases shown with
  | none => rfl
  | some t =>
    cases t with
    | str s =>
      obtain ⟨k, off, hidx, hloc, -⟩ := h
      rw [if_neg (by simp [treeType]), string_value_eq hidx hloc]
      rfl
    | int i => rfl
    | list items => rfl
    | dict entries => rfl

theorem int_or_default {shown : Option (Tree widths)} (h : n.Shows shown) (default_val : Int) :
    (if n.type ≠ some .integer then some default_val else n.int_value) =
      some (intOr default_val shown) := by
  rw [type_eq h]
  cases shown with
  | none => rfl
  | some t =>
    cases t with
    | int i =>
      obtain ⟨k, off, hidx, hloc, -⟩ := h
      rw [if_neg (by simp [treeType]), int_value_eq hidx hloc]
      rfl
    | str s => rfl
    | list items => rfl
    | dict entries => rfl

/-- The object that a call returns shows what it should. -/
def NewShows (object : Option NodeRef) (shown : Option (Option (Tree widths))) : Prop :=
  List.Forall₂ NodeRef.Shows object.toList shown.toList

theorem newShows_none : NewShows none none := .nil

theorem newShows_some {ret : NodeRef} {shown : Option (Tree widths)} (h : ret.Shows shown) :
    NewShows (some ret) (some shown) := .cons h .nil

/-- `call` on `n` does what the tree does: it answers `answer`, and both objects show what
they should. -/
def NodeRef.Agrees (n : NodeRef) (c : NodeCall) (shown : Option (Tree widths))
    (answer : TreeAnswer) : Prop :=
  ∃ n' object, n.call c = some (answer.1, n', object) ∧ n'.Shows shown ∧
    NewShows object answer.2

section Calls

variable {items : List (Tree widths)} {entries : List (StrText widths × Tree widths)}
  {c : NodeCall} {answer : TreeAnswer}

theorem call_list (h : n.Shows (some (.list items))) (hcall : listCall items c = some answer) :
    n.Agrees c (some (.list items)) answer := by
  cases c with
  | list_at i =>
    obtain ⟨x, hx, rfl⟩ := Option.map_eq_some_iff.mp hcall
    obtain ⟨hi, rfl⟩ := List.getElem?_eq_some_iff.mp hx
    obtain ⟨item, n', hat, hitem, hn'⟩ := list_at_eq h hi
    exact ⟨n', some item, by rw [NodeRef.call, hat]; rfl, hn', newShows_some hitem⟩
  | list_size =>
    cases hcall
    obtain ⟨n', hsize, hn'⟩ := list_size_eq h
    exact ⟨n', none, by rw [NodeRef.call, hsize]; rfl, hn', newShows_none⟩
  | list_string_value_at i default_val =>
    obtain ⟨x, hx, rfl⟩ := Option.map_eq_some_iff.mp hcall
    obtain ⟨hi, rfl⟩ := List.getElem?_eq_some_iff.mp hx
    obtain ⟨item, n', hat, hitem, hn'⟩ := list_at_eq h hi
    refine ⟨n', none, ?_, hn', newShows_none⟩
    have htext := string_or_default hitem default_val
    rw [NodeRef.call, NodeRef.list_string_value_at, hat, Option.bind_eq_bind, Option.bind_some]
    dsimp only
    split at htext
    · rename_i hother
      rw [if_pos hother, ← Option.some.inj htext]
      rfl
    · rename_i hstring
      rw [if_neg hstring, htext]
      rfl
  | list_int_value_at i default_val =>
    obtain ⟨x, hx, rfl⟩ := Option.map_eq_some_iff.mp hcall
    obtain ⟨hi, rfl⟩ := List.getElem?_eq_some_iff.mp hx
    obtain ⟨item, n', hat, hitem, hn'⟩ := list_at_eq h hi
    refine ⟨n', none, ?_, hn', newShows_none⟩
    have hvalue := int_or_default hitem default_val
    rw [NodeRef.call, NodeRef.list_int_value_at, hat, Option.bind_eq_bind, Option.bind_some]
    dsimp only
    split at hvalue
    · rename_i hother
      rw [if_pos hother, ← Option.some.inj hvalue]
      rfl
    · rename_i hint
      rw [if_neg hint, hvalue]
      rfl
  | _ => cases hcall

/-- What `dict_find_list` and its siblings return. -/
theorem dict_find_type_eq (h : n.Shows (some (.dict entries))) {key : List UInt8}
    (hkey : (0 : UInt8) ∉ key) (type : TokenType) :
    ∃ ret, n.dict_find_type type key = some ret ∧
      ret.Shows (ofType type (findEntry entries key)) := by
  obtain ⟨ret, hfind, hret⟩ := dict_find_cstr_eq h hkey
  refine ⟨if ret.type = some type then ret else noNode, ?_, ?_⟩
  · rw [NodeRef.dict_find_type, hfind, Option.bind_eq_bind, Option.bind_some]
    rfl
  · rw [type_eq hret]
    cases hshown : findEntry entries key with
    | none => exact noNode_shows
    | some t =>
      rw [hshown] at hret
      by_cases htype : treeType t = type
      · rw [Option.map_some, if_pos (congrArg some htype), ofType,
          Option.filter_some_pos (by simpa using htype)]
        exact hret
      · rw [if_neg (by simpa using htype), ofType,
          Option.filter_some_neg (by simpa using htype)]
        exact noNode_shows

theorem call_dict (h : n.Shows (some (.dict entries))) (hcall : dictCall entries c = some answer) :
    n.Agrees c (some (.dict entries)) answer := by
  cases c with
  | dict_at i =>
    obtain ⟨x, hx, rfl⟩ := Option.map_eq_some_iff.mp hcall
    obtain ⟨hi, rfl⟩ := List.getElem?_eq_some_iff.mp hx
    obtain ⟨value, n', hat, hvalue, hn'⟩ := dict_at_eq h hi
    exact ⟨n', some value, by rw [NodeRef.call, hat]; rfl, hn', newShows_some hvalue⟩
  | dict_size =>
    cases hcall
    obtain ⟨n', hsize, hn'⟩ := dict_size_eq h
    exact ⟨n', none, by rw [NodeRef.call, hsize]; rfl, hn', newShows_none⟩
  | dict_find key =>
    cases hcall
    obtain ⟨ret, hfind, hret⟩ := dict_find_eq h key
    exact ⟨n, some ret, by rw [NodeRef.call, hfind]; rfl, h, newShows_some hret⟩
  | dict_find_cstr key =>
    rw [dictCall] at hcall
    split at hcall
    · cases hcall
    · rename_i hkey
      cases hcall
      obtain ⟨ret, hfind, hret⟩ := dict_find_cstr_eq h hkey
      exact ⟨n, some ret, by rw [NodeRef.call, hfind]; rfl, h, newShows_some hret⟩
  | dict_find_type type key =>
    rw [dictCall] at hcall
    split at hcall
    · cases hcall
    · rename_i hkey
      cases hcall
      obtain ⟨ret, hfind, hret⟩ := dict_find_type_eq h hkey type
      exact ⟨n, some ret, by rw [NodeRef.call, hfind]; rfl, h, newShows_some hret⟩
  | dict_find_string_value key default_value =>
    rw [dictCall] at hcall
    split at hcall
    · cases hcall
    · rename_i hkey
      cases hcall
      obtain ⟨ret, hfind, hret⟩ := dict_find_cstr_eq h hkey
      refine ⟨n, none, ?_, h, newShows_none⟩
      have htext := string_or_default hret default_value
      rw [NodeRef.call, NodeRef.dict_find_string_value, hfind, Option.bind_eq_bind,
        Option.bind_some, Option.pure_def, htext]
      rfl
  | dict_find_int_value key default_val =>
    rw [dictCall] at hcall
    split at hcall
    · cases hcall
    · rename_i hkey
      cases hcall
      obtain ⟨ret, hfind, hret⟩ := dict_find_cstr_eq h hkey
      refine ⟨n, none, ?_, h, newShows_none⟩
      have hvalue := int_or_default hret default_val
      rw [NodeRef.call, NodeRef.dict_find_int_value, hfind, Option.bind_eq_bind,
        Option.bind_some, Option.pure_def, hvalue]
      rfl
  | _ => cases hcall

theorem data_section_shows {shown : Option (Tree widths)} (h : n.Shows shown) :
    n.data_section = some ((shown.map Tree.bytes).getD []) := by
  cases shown with
  | none =>
    rw [NodeRef.data_section, show n.token_idx = none from h]
    rfl
  | some t =>
    obtain ⟨k, off, hidx, hloc, -⟩ := h
    exact data_section_eq hidx hloc

/-- A call that the tree allows. -/
theorem call_eq {shown : Option (Tree widths)} (h : n.Shows shown)
    (hcall : treeCall shown c = some answer) : n.Agrees c shown answer := by
  unfold treeCall at hcall
  split at hcall
  · cases hcall
    exact ⟨n, some n, rfl, h, newShows_some h⟩
  · cases hcall
    exact ⟨n, none, by rw [NodeRef.call, type_eq h], h, newShows_none⟩
  · cases hcall
    exact ⟨n, none, by rw [NodeRef.call, data_section_shows h]; rfl, h, newShows_none⟩
  cases shown with
  | none => cases hcall
  | some t =>
    cases t with
    | int i =>
      dsimp only at hcall
      split at hcall
      · rename_i hc
        subst hc
        cases hcall
        obtain ⟨k, off, hidx, hloc, -⟩ := id h
        exact ⟨n, none, by rw [NodeRef.call, int_value_eq hidx hloc]; rfl, h, newShows_none⟩
      · cases hcall
    | str s =>
      dsimp only at hcall
      split at hcall
      · rename_i hc
        subst hc
        cases hcall
        obtain ⟨k, off, hidx, hloc, -⟩ := id h
        exact ⟨n, none, by rw [NodeRef.call, string_value_eq hidx hloc]; rfl, h, newShows_none⟩
      · cases hcall
    | list items => exact call_list h hcall
    | dict entries => exact call_dict h hcall

end Calls

/-! ## Runs of a client -/

/-- What a client does with the objects it has. -/
inductive NodeMove where
  /-- the accessor `c` of the object `h`, answered with `answer` -/
  | call (h : Nat) (c : NodeCall) (answer : NodeAnswer)
  /-- `operator=` -/
  | assign (h src : Nat)
  deriving DecidableEq, Repr

/-- A move on the objects; the object that a call returns is the last. -/
def stepNodes (objects : List NodeRef) : NodeMove → Option (List NodeRef)
  | .call h c answer => do
      let n ← objects[h]?
      let (answer', n', object) ← n.call c
      if answer = answer' then some (objects.set h n' ++ object.toList) else none
  | .assign h src => do
      let n ← objects[src]?
      if h < objects.length then some (objects.set h n) else none

/-- The move on what the objects show. -/
def stepTrees (shown : List (Option (Tree widths))) :
    NodeMove → Option (List (Option (Tree widths)))
  | .call h c answer => do
      let t ← shown[h]?
      let (answer', new) ← treeCall t c
      if answer = answer' then some (shown ++ new.toList) else none
  | .assign h src => do
      let t ← shown[src]?
      if h < shown.length then some (shown.set h t) else none

theorem forall₂_getElem? {α β : Type} {R : α → β → Prop} {xs : List α} {ys : List β}
    (h : List.Forall₂ R xs ys) {i : Nat} {y : β} (hy : ys[i]? = some y) :
    ∃ x, xs[i]? = some x ∧ R x y := by
  induction h generalizing i with
  | nil => cases hy
  | cons hr _ ih =>
    cases i with
    | zero =>
      cases hy
      exact ⟨_, rfl, hr⟩
    | succ i => exact ih hy

theorem forall₂_set {α β : Type} {R : α → β → Prop} {xs : List α} {ys : List β}
    (h : List.Forall₂ R xs ys) {i : Nat} {x : α} {y : β} (hr : R x y) :
    List.Forall₂ R (xs.set i x) (ys.set i y) := by
  induction h generalizing i with
  | nil => exact .nil
  | cons hr' htail ih =>
    cases i with
    | zero => exact .cons hr htail
    | succ i => exact .cons hr' ih

/-- The objects answer what the trees answer. -/
theorem nodes_simulate_trees :
    Simulation stepTrees stepNodes some fun shown objects =>
      List.Forall₂ NodeRef.Shows objects shown := by
  intro shown shown' objects move hrel hstep
  change ∃ objects', stepNodes objects move = some objects' ∧ _
  cases move with
  | call h c answer =>
    simp only [stepTrees, Option.bind_eq_bind, Option.bind_eq_some_iff] at hstep
    obtain ⟨t, ht, ⟨answer', new⟩, hcall, hsome⟩ := hstep
    dsimp only at hsome
    split at hsome
    · rename_i hanswer
      cases hsome
      subst hanswer
      obtain ⟨n, hn, hshows⟩ := forall₂_getElem? hrel ht
      obtain ⟨n', object, hnode, hn', hnew⟩ := call_eq hshows hcall
      refine ⟨objects.set h n' ++ object.toList, ?_, ?_⟩
      · simp only [stepNodes, hn, hnode, Option.bind_eq_bind, Option.bind_some, if_true]
      · have hset : shown.set h t = shown := by
          obtain ⟨hlt, rfl⟩ := List.getElem?_eq_some_iff.mp ht
          exact List.set_getElem_self hlt
        exact List.rel_append (hset ▸ forall₂_set hrel hn') hnew
    · cases hsome
  | assign h src =>
    simp only [stepTrees, Option.bind_eq_bind, Option.bind_eq_some_iff] at hstep
    obtain ⟨t, ht, hsome⟩ := hstep
    split at hsome
    · rename_i hlt
      cases hsome
      obtain ⟨n, hn, hshows⟩ := forall₂_getElem? hrel ht
      refine ⟨objects.set h n, ?_, forall₂_set hrel hshows⟩
      rw [← hrel.length_eq] at hlt
      simp only [stepNodes, hn, Option.bind_eq_bind, Option.bind_some, if_pos hlt]
    · cases hsome

/-- Whatever a client calls on the node of a decoded buffer and on the objects it gets from
it, in whatever order, it is answered as by the tree that the buffer begins with. -/
theorem accessors_show_tree {buffer : List UInt8} {depth_limit token_limit : Nat}
    {node : BdecodeNode} (hdepth : 0 < depth_limit) (htokens : token_limit ≤ max_next_item)
    (h : bdecode buffer depth_limit token_limit = .ok node) :
    ∃ (t : Tree widths) (rest : List UInt8), buffer = t.bytes ++ rest ∧
      ∀ moves shown, run stepTrees [some t] moves = some shown →
        ∃ objects, run stepNodes [node.root] moves = some objects ∧
          List.Forall₂ NodeRef.Shows objects shown := by
  obtain ⟨-, t, rest, rfl, -, -, -, rfl⟩ := (bdecode_eq_ok_iff hdepth htokens).mp h
  refine ⟨t, rest, rfl, fun moves shown hrun => ?_⟩
  have hinit : List.Forall₂ NodeRef.Shows [(treeNode t rest).root] [some t] :=
    .cons (root_shows t rest) .nil
  obtain ⟨objects, hobjects, hrel⟩ := nodes_simulate_trees.run hinit hrun
  rw [List.filterMap_some] at hobjects
  exact ⟨objects, hobjects, hrel⟩

/-- The buffer `d1:ali7eee`. -/
theorem accessors_show_tree_sample :
    ∃ (t : Tree widths) (rest : List UInt8),
      [100, 49, 58, 97, 108, 105, 55, 101, 101, 101] = t.bytes ++ rest ∧
      ∀ moves shown, run stepTrees [some t] moves = some shown →
        ∃ objects, run stepNodes
            [BdecodeNode.root ⟨[⟨0, 6, .dict, 0⟩, ⟨1, 1, .string, 0⟩, ⟨4, 3, .list, 0⟩,
              ⟨5, 1, .integer, 0⟩, ⟨8, 1, .end_, 0⟩, ⟨9, 1, .end_, 0⟩, ⟨10, 0, .end_, 0⟩],
              [100, 49, 58, 97, 108, 105, 55, 101, 101, 101], 10⟩] moves = some objects ∧
          List.Forall₂ NodeRef.Shows objects shown :=
  accessors_show_tree (show 0 < 5 by decide) (show 9 ≤ max_next_item by decide) rfl

end TorrentApp.Torrent
