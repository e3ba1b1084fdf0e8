import TorrentApp.Foundation.BencodeTree
import TorrentApp.Torrent.Bdecode

set_option autoImplicit false

/-!
# The tokens of `bdecode`

What `bdecode` leaves in `m_tokens`: the tokens of the value at the front of the
buffer in the order of its text, each container with the distance to what follows
it, and one token behind the last that says where the value ends.
-/

namespace TorrentApp.Torrent

open TorrentApp.Foundation.Bencode

/-! ## The layout -/

mutual

/-- The tokens of a value whose text begins at `offset`. -/
def treeTokens (offset : Nat) : Tree widths → List BdecodeToken
  | .int _ => [⟨offset, 1, .integer, 0⟩]
  | .str text => [⟨offset, 1, .string, text.header.length - 1⟩]
  | .list items =>
      ⟨offset, itemsCount items + 2, .list, 0⟩ ::
        (itemsTokens (offset + 1) items ++
          [⟨offset + 1 + (itemsBytes items).length, 1, .end_, 0⟩])
  | .dict entries =>
      ⟨offset, entriesCount entries + 2, .dict, 0⟩ ::
        (entriesTokens (offset + 1) entries ++
          [⟨offset + 1 + (entriesBytes entries).length, 1, .end_, 0⟩])

def itemsTokens (offset : Nat) : List (Tree widths) → List BdecodeToken
  | [] => []
  | t :: ts => treeTokens offset t ++ itemsTokens (offset + t.bytes.length) ts

def entriesTokens (offset : Nat) : List (StrText widths × Tree widths) → List BdecodeToken
  | [] => []
  | (k, t) :: rest =>
      ⟨offset, 1, .string, k.header.length - 1⟩ ::
        (treeTokens (offset + k.bytes.length) t ++
          entriesTokens (offset + k.bytes.length + t.bytes.length) rest)

end

theorem entriesTokens_eq (offset : Nat) (es : List (StrText widths × Tree widths)) :
    entriesTokens offset es = itemsTokens offset (entryItems es) := by
  induction es generalizing offset with
  | nil => rfl
  | cons e es ih =>
    rw [entriesTokens, ih]
    rfl

mutual

theorem length_treeTokens (offset : Nat) (t : Tree widths) :
    (treeTokens offset t).length = t.count := by
  cases t with
  | int text => rfl
  | str text => rfl
  | list items => simp [treeTokens, Tree.count, length_itemsTokens]
  | dict entries => simp [treeTokens, Tree.count, length_entriesTokens]

theorem length_itemsTokens (offset : Nat) (ts : List (Tree widths)) :
    (itemsTokens offset ts).length = itemsCount ts := by
  cases ts with
  | nil => rfl
  | cons t ts =>
    rw [itemsTokens, itemsCount, List.length_append, length_treeTokens, length_itemsTokens]

theorem length_entriesTokens (offset : Nat) (es : List (StrText widths × Tree widths)) :
    (entriesTokens offset es).length = entriesCount es := by
  cases es with
  | nil => rfl
  | cons e es =>
    obtain ⟨k, t⟩ := e
    rw [entriesTokens, entriesCount, List.length_cons, List.length_append, length_treeTokens,
      length_entriesTokens, Nat.add_comm]

end

/-! ## Passes of the loop -/

variable {size depth_limit : Nat}

/-- The loop after a pass that ended in `d`. -/
def resume (size depth_limit token_limit : Nat) (d : Decoder) : Except BdecodeError Decoder :=
  if d.stack = [] then .ok d else bdecodeLoop size depth_limit token_limit d

/-- A value has been read that the innermost container takes. -/
def Decoder.put (d : Decoder) (tokens : List BdecodeToken) (rest : List UInt8) : Decoder where
  rest := rest
  stack := flip d.tokens d.stack
  tokens := d.tokens ++ tokens

theorem loop_pass {d d' : Decoder} {token_limit : Nat} (hrest : d.rest ≠ [])
    (hdepth : d.stack.length < depth_limit) (htoken : d.token size = .ok d') :
    bdecodeLoop size depth_limit (token_limit + 1) d =
      resume size depth_limit token_limit d' := by
  rw [bdecodeLoop, if_neg hrest, if_neg (Nat.not_le_of_lt hdepth), htoken]
  rfl

/-- The loop stands at `pos` before `text`, with room for what `text` needs. -/
structure Decoder.Before (size depth_limit : Nat) (d : Decoder) (pos : Nat)
    (text rest : List UInt8) (depth count : Nat) : Prop where
  valid : d.Valid
  rest_eq : d.rest = text ++ rest
  size_eq : size = pos + d.rest.length
  depth_lt : d.stack.length + depth < depth_limit
  count_le : d.tokens.length + count ≤ max_next_item

/-- The token of a string. -/
theorem string_token {d : Decoder} {offset : Nat} {t : UInt8} {digits body b : List UInt8}
    {token : BdecodeToken} (hdigits : ∀ c ∈ digits, numeric c = true)
    (h : d.string offset t (digits ++ colonByte :: body) = .ok (d.scalar token b)) :
    token = ⟨offset, 1, .string, digits.length⟩ := by
  rw [Decoder.string] at h
  split at h
  · cases h
  split at h
  · cases h
  · cases h
  rename_i len colon body' hparse
  obtain ⟨digits', hsplit, hdigits', -, hcolon⟩ := parse_int_ok hparse
  obtain rfl := hcolon colon body' rfl
  obtain ⟨rfl, -, rfl⟩ := digits_append_inj hdigits hdigits' (by decide) (by decide) hsplit
  split at h
  · cases h
  split at h
  · cases h
  dsimp only at h
  split at h
  · cases h
  have htokens := congrArg Decoder.tokens (Except.ok.inj h)
  have htoken := (List.cons.inj (List.append_cancel_left htokens)).1
  rw [← htoken]
  simp only [List.length_append, List.length_cons, BdecodeToken.mk.injEq, true_and]
  omega

theorem string_eq {d : Decoder} {offset : Nat} {t : UInt8} {rest b : List UInt8}
    (s : StrText widths) (htext : t :: rest = s.bytes ++ b) (hsome : s.payload ++ b ≠ []) :
    d.string offset t rest =
      .ok (d.scalar ⟨offset, 1, .string, s.header.length - 1⟩ b) := by
  obtain ⟨token, hstring⟩ : ∃ token, d.string offset t rest = .ok (d.scalar token b) :=
    string_of s.isString htext hsome
  rw [hstring]
  obtain ⟨c, digits, hheader⟩ := List.exists_cons_of_ne_nil s.header_ne
  rw [StrText.bytes, hheader] at htext
  simp only [List.cons_append, List.append_assoc, List.cons.injEq] at htext
  obtain ⟨rfl, rfl⟩ := htext
  have hdigits : ∀ c ∈ digits, numeric c = true := fun c hc =>
    s.header_numeric c (hheader ▸ List.mem_cons_of_mem t hc)
  rw [string_token hdigits hstring, hheader]
  rfl

/-- A pass over a scalar. -/
theorem loop_int {d : Decoder} {pos m : Nat} {b : List UInt8} (i : IntText widths)
    (h : d.Before size depth_limit pos i.bytes b 0 1) (hkey : d.frames.head? ≠ some .key) :
    bdecodeLoop size depth_limit (1 + m) d =
      resume size depth_limit m (d.put [⟨pos, 1, .integer, 0⟩] b) := by
  have hrest := h.rest_eq
  rw [IntText.bytes, List.cons_append] at hrest
  have hoffset : size - d.rest.length = pos := by
    have := h.size_eq
    omega
  rw [Nat.add_comm]
  refine loop_pass (by rw [hrest]; exact List.cons_ne_nil _ _) h.depth_lt ?_
  rw [token_eq hrest (fun htakes => absurd htakes hkey), if_neg (by decide), if_neg (by decide),
    if_pos rfl, check_integer_of i.isInt, hoffset]
  rfl

theorem loop_str {d : Decoder} {pos m : Nat} {b : List UInt8} (s : StrText widths)
    (h : d.Before size depth_limit pos s.bytes b 0 1) (hsome : s.payload ++ b ≠ []) :
    bdecodeLoop size depth_limit (1 + m) d =
      resume size depth_limit m (d.put [⟨pos, 1, .string, s.header.length - 1⟩] b) := by
  obtain ⟨c, u, hbytes, -⟩ := s.bytes_eq_cons
  have hrest := h.rest_eq
  have hhead := s.isString
  rw [hbytes] at hhead
  have hc := hhead.head
  rw [hbytes, List.cons_append] at hrest
  have hoffset : size - d.rest.length = pos := by
    have := h.size_eq
    omega
  rw [Nat.add_comm]
  refine loop_pass (by rw [hrest]; exact List.cons_ne_nil _ _) h.depth_lt ?_
  rw [token_eq hrest (fun _ => Or.inl hc), if_neg (by rintro rfl; cases hc),
    if_neg (by rintro rfl; cases hc), if_neg (by rintro rfl; cases hc),
    if_neg (by rintro rfl; cases hc), hc, if_neg (by decide), hoffset]
  exact string_eq s (by rw [hbytes, List.cons_append]) hsome

theorem resume_cons {d : Decoder} {m : Nat} {frame : StackFrame} {outer : List StackFrame}
    (h : d.stack = frame :: outer) :
    resume size depth_limit m d = bdecodeLoop size depth_limit m d := by
  rw [resume, h, if_neg (List.cons_ne_nil _ _)]

/-- The element behind `l` is changed. -/
theorem modify_length_append {α : Type} (f : α → α) (l l' : List α) (x : α) :
    (l ++ x :: l').modify l.length f = l ++ f x :: l' := by
  rw [List.modify_eq_take_drop, List.take_left, List.drop_left]
  rfl

/-- A pass over the end of the container whose token is the `n`th. -/
theorem loop_close {d : Decoder} {pos n m : Nat} {b : List UInt8} {outer : List StackFrame}
    (h : d.Before size depth_limit pos [endByte] b 0 1) (hstack : d.stack = ⟨n, false⟩ :: outer) :
    bdecodeLoop size depth_limit (1 + m) d =
      resume size depth_limit m
        { rest := b
          stack := outer
          tokens := (d.tokens ++ [(⟨pos, 1, .end_, 0⟩ : BdecodeToken)]).modify n fun t =>
            { t with next_item := d.tokens.length + 1 - n } } := by
  have hrest := h.rest_eq
  rw [List.singleton_append] at hrest
  have hoffset : size - d.rest.length = pos := by
    have := h.size_eq
    omega
  have hroom := h.count_le
  rw [Nat.add_comm]
  refine loop_pass (by rw [hrest]; exact List.cons_ne_nil _ _) h.depth_lt ?_
  rw [token_eq hrest (fun _ => Or.inr rfl), if_neg (by decide), if_neg (by decide),
    if_neg (by decide), if_pos rfl, hoffset, Decoder.close, hstack]
  dsimp only
  rw [Bool.and_false, if_neg (by decide), if_neg, List.length_append, List.length_singleton]
  rw [List.length_append, List.length_singleton]
  omega

/-! ## Before and after a part of the text -/

section Before

variable {d : Decoder} {pos depth count : Nat} {text b : List UInt8}
  (h : d.Before size depth_limit pos text b depth count)

include h

theorem Decoder.Before.part {first rest : List UInt8} {depth' count' : Nat}
    (htext : text = first ++ rest) (hdepth : depth' ≤ depth) (hcount : count' ≤ count) :
    d.Before size depth_limit pos first (rest ++ b) depth' count' where
  valid := h.valid
  rest_eq := by rw [h.rest_eq, htext, List.append_assoc]
  size_eq := h.size_eq
  depth_lt := by have := h.depth_lt; omega
  count_le := by have := h.count_le; omega

/-- Behind the first part of the text. -/
theorem Decoder.Before.put (tokens : List BdecodeToken) {first rest : List UInt8}
    {depth' count' : Nat} (htext : text = first ++ rest) (hdepth : depth' ≤ depth)
    (hcount : tokens.length + count' ≤ count) :
    (d.put tokens (rest ++ b)).Before size depth_limit (pos + first.length) rest b depth'
      count' where
  valid := by
    intro frame hframe
    obtain ⟨old, hold, htoken⟩ := token_flip hframe
    have := h.valid old hold
    simp only [Decoder.put, List.length_append]
    omega
  rest_eq := rfl
  size_eq := by
    have hsize := h.size_eq
    rw [h.rest_eq, htext] at hsize
    simp only [Decoder.put, List.length_append] at hsize ⊢
    omega
  depth_lt := by
    have hlt := h.depth_lt
    have hlength : (flip d.tokens d.stack).length = d.stack.length := by
      cases d.stack <;> rfl
    simp only [Decoder.put, hlength]
    omega
  count_le := by
    have := h.count_le
    simp only [Decoder.put, List.length_append]
    omega

/-- Inside the container that is opened here. -/
theorem Decoder.Before.open_ (type : TokenType) {first : UInt8} {body : List UInt8}
    {depth' count' : Nat} (htext : text = first :: (body ++ [endByte]))
    (hdepth : depth' + 1 ≤ depth) (hcount : count' + 2 ≤ count) :
    (d.open_ pos type (body ++ endByte :: b)).Before size depth_limit (pos + 1) body
      (endByte :: b) depth' count' where
  valid := h.valid.open_ pos type _
  rest_eq := rfl
  size_eq := by
    have hsize := h.size_eq
    rw [h.rest_eq, htext] at hsize
    simp only [Decoder.open_, List.length_append, List.length_cons, List.length_nil] at hsize ⊢
    omega
  depth_lt := by
    have hlt := h.depth_lt
    have hlength : (flip d.tokens d.stack).length = d.stack.length := by
      cases d.stack <;> rfl
    simp only [Decoder.open_, List.length_cons, hlength]
    omega
  count_le := by
    have := h.count_le
    simp only [Decoder.open_, List.length_append, List.length_singleton]
    omega

end Before

/-- A container whose body the loop reads. -/
theorem loop_container {d : Decoder} {pos depth m : Nat} {first : UInt8} {body b : List UInt8}
    {type : TokenType} {bodyTokens : List BdecodeToken}
    (h : d.Before size depth_limit pos (first :: (body ++ [endByte])) b (depth + 1)
      (bodyTokens.length + 2))
    (htoken : d.token size = .ok (d.open_ pos type (body ++ endByte :: b)))
    (hbody : ∀ m, bdecodeLoop size depth_limit (bodyTokens.length + m)
        (d.open_ pos type (body ++ endByte :: b)) =
      bdecodeLoop size depth_limit m
        { rest := endByte :: b
          stack := ⟨d.tokens.length, false⟩ :: flip d.tokens d.stack
          tokens := d.tokens ++ [⟨pos, 0, type, 0⟩] ++ bodyTokens }) :
    bdecodeLoop size depth_limit (bodyTokens.length + 2 + m) d =
      resume size depth_limit m
        (d.put (⟨pos, bodyTokens.length + 2, type, 0⟩ ::
          (bodyTokens ++ [⟨pos + 1 + body.length, 1, .end_, 0⟩])) b) := by
  have hopened := h.open_ type rfl (Nat.le_refl _) (Nat.le_refl _)
  have hdone : Decoder.Before size depth_limit
      { rest := endByte :: b
        stack := ⟨d.tokens.length, false⟩ :: flip d.tokens d.stack
        tokens := d.tokens ++ [⟨pos, 0, type, 0⟩] ++ bodyTokens }
      (pos + 1 + body.length) [endByte] b 0 1 := by
    refine ⟨?_, rfl, ?_, ?_, ?_⟩
    · intro frame hframe
      have := hopened.valid frame hframe
      simp only [Decoder.open_, List.length_append] at this ⊢
      omega
    · have := hopened.size_eq
      simp only [Decoder.open_, List.length_append, List.length_cons] at this ⊢
      omega
    · have := hopened.depth_lt
      simp only [Decoder.open_, List.length_cons] at this ⊢
      omega
    · have := h.count_le
      simp only [List.length_append, List.length_singleton]
      omega
  have hrest : d.rest ≠ [] := by
    rw [h.rest_eq]
    exact List.cons_ne_nil _ _
  rw [show bodyTokens.length + 2 + m = bodyTokens.length + (1 + m) + 1 by omega,
    loop_pass hrest (by have := h.depth_lt; omega) htoken, resume_cons rfl, hbody,
    loop_close hdone rfl]
  congr 1
  rw [Decoder.put, Decoder.mk.injEq]
  refine ⟨rfl, rfl, ?_⟩
  have hnext : d.tokens.length + (bodyTokens.length + 1) + 1 - d.tokens.length =
      bodyTokens.length + 2 := by omega
  simp only [List.append_assoc, List.cons_append, List.nil_append, List.length_append,
    List.length_cons, modify_length_append, hnext]

/-! ## A value is read as one -/

theorem isDict_opened {d : Decoder} {pos : Nat} {type : TokenType} {state : Bool} :
    isDict (d.tokens ++ [⟨pos, 0, type, 0⟩]) ⟨d.tokens.length, state⟩ = (type == .dict) := by
  cases type <;> simp [isDict]

theorem flip_list {tokens : List BdecodeToken} {frame : StackFrame} {outer : List StackFrame}
    (h : isDict tokens frame = false) : flip tokens (frame :: outer) = frame :: outer := by
  rw [flip, h]
  rfl

theorem flip_dict {tokens : List BdecodeToken} {frame : StackFrame} {outer : List StackFrame}
    (h : isDict tokens frame = true) :
    flip tokens (frame :: outer) = { frame with state := !frame.state } :: outer := by
  rw [flip, h]
  rfl

theorem token_list {d : Decoder} {pos : Nat} {rest : List UInt8}
    (hrest : d.rest = listByte :: rest) (hkey : d.frames.head? ≠ some .key)
    (hsize : size = pos + d.rest.length) : d.token size = .ok (d.open_ pos .list rest) := by
  rw [token_eq hrest (fun htakes => absurd htakes hkey), if_neg (by decide), if_pos rfl,
    show size - d.rest.length = pos by omega]

theorem token_dict {d : Decoder} {pos : Nat} {rest : List UInt8}
    (hrest : d.rest = dictByte :: rest) (hkey : d.frames.head? ≠ some .key)
    (hsize : size = pos + d.rest.length) : d.token size = .ok (d.open_ pos .dict rest) := by
  rw [token_eq hrest (fun htakes => absurd htakes hkey), if_pos rfl,
    show size - d.rest.length = pos by omega]

/-- A string that is empty. -/
def EmptyString (t : Tree widths) : Prop := ∃ s, t = .str s ∧ s.payload = []

mutual

theorem loop_tree (t : Tree widths) {d : Decoder} {pos m : Nat} {b : List UInt8}
    (h : d.Before size depth_limit pos t.bytes b t.depth t.count)
    (hkey : d.frames.head? ≠ some .key) (hlast : EmptyString t → b ≠ []) :
    bdecodeLoop size depth_limit (t.count + m) d =
      resume size depth_limit m (d.put (treeTokens pos t) b) := by
  cases t with
  | int text => exact loop_int text h hkey
  | str text =>
    refine loop_str text h fun hnil => ?_
    obtain ⟨hpayload, hb⟩ := List.append_eq_nil_iff.mp hnil
    exact hlast ⟨text, rfl, hpayload⟩ hb
  | list items =>
    have hcount := length_itemsTokens (pos + 1) items
    have hrest : d.rest = listByte :: (itemsBytes items ++ endByte :: b) := by
      rw [h.rest_eq, Tree.bytes, List.cons_append, List.append_assoc, List.singleton_append]
    rw [Tree.count, ← hcount]
    have hbefore : d.Before size depth_limit pos (listByte :: (itemsBytes items ++ [endByte])) b
        (itemsDepth items + 1) ((itemsTokens (pos + 1) items).length + 2) := by
      rw [hcount]
      exact h
    refine (loop_container hbefore (token_list hrest hkey h.size_eq) ?_).trans
      (by rw [treeTokens, hcount])
    · intro m
      rw [hcount]
      exact loop_items items (h.open_ .list rfl (Nat.le_refl _) (Nat.le_refl _)) rfl isDict_opened
        (List.cons_ne_nil _ _)
  | dict entries =>
    have hcount := length_entriesTokens (pos + 1) entries
    have hrest : d.rest = dictByte :: (entriesBytes entries ++ endByte :: b) := by
      rw [h.rest_eq, Tree.bytes, List.cons_append, List.append_assoc, List.singleton_append]
    rw [Tree.count, ← hcount]
    have hbefore : d.Before size depth_limit pos (dictByte :: (entriesBytes entries ++ [endByte]))
        b (entriesDepth entries + 1) ((entriesTokens (pos + 1) entries).length + 2) := by
      rw [hcount]
      exact h
    refine (loop_container hbefore (token_dict hrest hkey h.size_eq) ?_).trans
      (by rw [treeTokens, hcount])
    · intro m
      rw [hcount]
      exact loop_entries entries (h.open_ .dict rfl (Nat.le_refl _) (Nat.le_refl _)) rfl
        isDict_opened
        (List.cons_ne_nil _ _)

theorem loop_items (ts : List (Tree widths)) {d : Decoder} {pos m : Nat} {b : List UInt8}
    {frame : StackFrame} {outer : List StackFrame}
    (h : d.Before size depth_limit pos (itemsBytes ts) b (itemsDepth ts) (itemsCount ts))
    (hstack : d.stack = frame :: outer) (hlist : isDict d.tokens frame = false) (hb : b ≠ []) :
    bdecodeLoop size depth_limit (itemsCount ts + m) d =
      bdecodeLoop size depth_limit m
        { rest := b, stack := frame :: outer, tokens := d.tokens ++ itemsTokens pos ts } := by
  cases ts with
  | nil =>
    have hrest : d.rest = b := h.rest_eq
    rw [itemsCount, itemsTokens, List.append_nil, Nat.zero_add, ← hrest, ← hstack]
  | cons t ts =>
    have hkey : d.frames.head? ≠ some .key := by
      rw [Decoder.frames, hstack, List.map_cons, List.head?_cons, frameOf, hlist]
      simp
    have hvalid := h.valid frame (hstack ▸ List.mem_cons_self)
    rw [itemsDepth, itemsCount] at h
    have hput : (d.put (treeTokens pos t) (itemsBytes ts ++ b)).stack = frame :: outer := by
      rw [Decoder.put, hstack, flip_list hlist]
    rw [itemsCount, Nat.add_assoc,
      loop_tree t (h.part rfl (Nat.le_max_left _ _) (Nat.le_add_right _ _)) hkey
        (fun _ hnil => hb (List.append_eq_nil_iff.mp hnil).2),
      resume_cons hput,
      loop_items ts
        (h.put _ rfl (Nat.le_max_right _ _) (Nat.le_of_eq (by rw [length_treeTokens])))
        hput ((isDict_append hvalid).trans hlist) hb]
    simp only [Decoder.put, itemsTokens, List.append_assoc]

theorem loop_entries (es : List (StrText widths × Tree widths)) {d : Decoder} {pos m : Nat}
    {b : List UInt8} {n : Nat} {outer : List StackFrame}
    (h : d.Before size depth_limit pos (entriesBytes es) b (entriesDepth es) (entriesCount es))
    (hstack : d.stack = ⟨n, false⟩ :: outer) (hdict : isDict d.tokens ⟨n, false⟩ = true)
    (hb : b ≠ []) :
    bdecodeLoop size depth_limit (entriesCount es + m) d =
      bdecodeLoop size depth_limit m
        { rest := b, stack := ⟨n, false⟩ :: outer,
          tokens := d.tokens ++ entriesTokens pos es } := by
  cases es with
  | nil =>
    have hrest : d.rest = b := h.rest_eq
    rw [entriesCount, entriesTokens, List.append_nil, Nat.zero_add, ← hrest, ← hstack]
  | cons e es =>
    obtain ⟨k, t⟩ := e
    have hvalid : n < d.tokens.length := h.valid ⟨n, false⟩ (hstack ▸ List.mem_cons_self)
    rw [entriesDepth, entriesCount] at h
    -- the key
    have hkey := loop_str (m := t.count + (entriesCount es + m)) k
      (h.part rfl (Nat.zero_le _) (Nat.le_add_right _ _)) (fun hnil =>
        hb (List.append_eq_nil_iff.mp (List.append_eq_nil_iff.mp hnil).2).2)
    have hbefore := h.put [⟨pos, 1, .string, k.header.length - 1⟩] rfl
      (Nat.le_refl _) (Nat.le_refl _)
    generalize hd₁ : d.put [⟨pos, 1, .string, k.header.length - 1⟩]
      (t.bytes ++ entriesBytes es ++ b) = d₁ at hkey hbefore
    have hstack₁ : d₁.stack = ⟨n, true⟩ :: outer := by
      rw [← hd₁, Decoder.put, hstack, flip_dict hdict]
      rfl
    have hdict₁ : ∀ state, isDict d₁.tokens ⟨n, state⟩ = true := by
      intro state
      rw [← hd₁]
      exact (isDict_append hvalid).trans hdict
    have hframes₁ : d₁.frames.head? ≠ some .key := by
      rw [Decoder.frames, hstack₁, List.map_cons, List.head?_cons, frameOf, hdict₁]
      simp
    -- its value
    have hvalue := loop_tree (m := entriesCount es + m) t
      (hbefore.part rfl (Nat.le_max_left _ _) (Nat.le_add_right _ _)) hframes₁
      (fun _ hnil => hb (List.append_eq_nil_iff.mp hnil).2)
    have hafter := hbefore.put (treeTokens (pos + k.bytes.length) t) rfl
      (Nat.le_max_right _ _) (Nat.le_of_eq (by rw [length_treeTokens]))
    have hvalid₁ : n < d₁.tokens.length := hbefore.valid ⟨n, true⟩ (hstack₁ ▸ List.mem_cons_self)
    generalize hd₂ : d₁.put (treeTokens (pos + k.bytes.length) t) (entriesBytes es ++ b) = d₂
      at hvalue hafter
    have hstack₂ : d₂.stack = ⟨n, false⟩ :: outer := by
      rw [← hd₂, Decoder.put, hstack₁, flip_dict (hdict₁ true)]
      rfl
    have hdict₂ : isDict d₂.tokens ⟨n, false⟩ = true := by
      rw [← hd₂]
      exact (isDict_append hvalid₁).trans (hdict₁ false)
    rw [entriesCount, show 1 + (t.count + entriesCount es) + m =
        1 + (t.count + (entriesCount es + m)) by omega,
      hkey, resume_cons hstack₁, hvalue, resume_cons hstack₂,
      loop_entries es hafter hstack₂ hdict₂ hb, ← hd₂, ← hd₁]
    simp only [Decoder.put, entriesTokens, List.append_assoc, List.cons_append, List.nil_append]

end

/-! ## What `bdecode` returns -/

/-- The node of a value at the front of a buffer. -/
def treeNode (t : Tree widths) (rest : List UInt8) : BdecodeNode where
  tokens := treeTokens 0 t ++ [⟨t.bytes.length, 0, .end_, 0⟩]
  buffer := t.bytes ++ rest
  buffer_size := t.bytes.length

theorem emptyString_iff (t : Tree widths) : IsString widths t.bytes [] ↔ EmptyString t := by
  constructor
  · intro h
    obtain ⟨s, hbytes, hpayload⟩ := h.exists_text
    exact ⟨s, (Tree.bytes_injective (t := .str s) hbytes).symm, hpayload⟩
  · rintro ⟨s, rfl, hpayload⟩
    exact hpayload ▸ s.isString

theorem bdecode_tree {t : Tree widths} {rest : List UInt8} {depth_limit token_limit : Nat}
    (hsize : (t.bytes ++ rest).length ≤ max_offset) (hdepth : t.depth < depth_limit)
    (hcount : t.count ≤ token_limit) (htokens : token_limit ≤ max_next_item)
    (hlast : EmptyString t → rest ≠ []) :
    bdecode (t.bytes ++ rest) depth_limit token_limit = .ok (treeNode t rest) := by
  have hbefore : Decoder.Before (t.bytes ++ rest).length depth_limit ⟨t.bytes ++ rest, [], []⟩ 0
      t.bytes rest t.depth t.count := by
    refine ⟨fun frame hframe => (by cases hframe), rfl, (Nat.zero_add _).symm, ?_, ?_⟩
    · rw [List.length_nil, Nat.zero_add]
      exact hdepth
    · rw [List.length_nil, Nat.zero_add]
      exact Nat.le_trans hcount htokens
  obtain ⟨m, rfl⟩ := Nat.exists_eq_add_of_le hcount
  have hloop := loop_tree (m := m) t hbefore (by simp [Decoder.frames]) hlast
  rw [bdecode, if_neg (Nat.not_lt_of_le hsize), hloop]
  simp [resume, Decoder.put, flip, treeNode]

/-- `bdecode` returns a node exactly when the buffer begins with a value within the limits,
and the node is that value's. -/
theorem bdecode_eq_ok_iff {buffer : List UInt8} {depth_limit token_limit : Nat}
    {node : BdecodeNode} (hdepth : 0 < depth_limit) (htokens : token_limit ≤ max_next_item) :
    bdecode buffer depth_limit token_limit = .ok node ↔
      buffer.length ≤ max_offset ∧
        ∃ (t : Tree widths) (rest : List UInt8), buffer = t.bytes ++ rest ∧
          t.depth < depth_limit ∧ t.count ≤ token_limit ∧ (EmptyString t → rest ≠ []) ∧
          node = treeNode t rest := by
  constructor
  · intro h
    obtain ⟨hsize, n, hn, b, rest, hvalue, rfl, hlast⟩ :=
      (bdecode_ok_iff hdepth htokens).mp ⟨node, h⟩
    obtain ⟨t, rfl, rfl, hdeep⟩ := bencoded_iff_tree.mp hvalue
    have hempty : EmptyString t → rest ≠ [] := fun h => hlast ((emptyString_iff t).mpr h)
    have hnode := bdecode_tree hsize (show t.depth < depth_limit by omega) hn htokens hempty
    exact ⟨hsize, t, rest, rfl, by omega, hn, hempty, Except.ok.inj (h.symm.trans hnode)⟩
  · rintro ⟨hsize, t, rest, rfl, hdeep, hn, hlast, rfl⟩
    exact bdecode_tree hsize hdeep hn htokens hlast

/-- The value that a node belongs to is the only one its buffer begins with. -/
theorem bdecode_reads_tree {buffer : List UInt8} {depth_limit token_limit : Nat}
    {node : BdecodeNode} (hdepth : 0 < depth_limit) (htokens : token_limit ≤ max_next_item) :
    bdecode buffer depth_limit token_limit = .ok node ↔
      buffer.length ≤ max_offset ∧
        ∃! t : Tree widths, ∃ rest, buffer = t.bytes ++ rest ∧ t.depth < depth_limit ∧
          t.count ≤ token_limit ∧ (EmptyString t → rest ≠ []) ∧ node = treeNode t rest := by
  rw [bdecode_eq_ok_iff hdepth htokens]
  refine and_congr_right fun _ => ⟨?_, ?_⟩
  · rintro ⟨t, rest, hvalue⟩
    refine ⟨t, ⟨rest, hvalue⟩, ?_⟩
    rintro t' ⟨rest', hbuffer, -⟩
    exact (t'.bytes_append_inj t (hbuffer.symm.trans hvalue.1)).1
  · rintro ⟨t, ⟨rest, hvalue⟩, -⟩
    exact ⟨t, rest, hvalue⟩

/-- The buffer `li7eex`. -/
theorem bdecode_reads_tree_sample :
    bdecode [108, 105, 55, 101, 101, 120] 5 9 =
        .ok ⟨[⟨0, 3, .list, 0⟩, ⟨1, 1, .integer, 0⟩, ⟨4, 1, .end_, 0⟩, ⟨5, 0, .end_, 0⟩],
          [108, 105, 55, 101, 101, 120], 5⟩ ↔
      [108, 105, 55, 101, 101, 120].length ≤ max_offset ∧
        ∃! t : Tree widths, ∃ rest, [108, 105, 55, 101, 101, 120] = t.bytes ++ rest ∧
          t.depth < 5 ∧ t.count ≤ 9 ∧ (EmptyString t → rest ≠ []) ∧
          ⟨[⟨0, 3, .list, 0⟩, ⟨1, 1, .integer, 0⟩, ⟨4, 1, .end_, 0⟩, ⟨5, 0, .end_, 0⟩],
            [108, 105, 55, 101, 101, 120], 5⟩ = treeNode t rest :=
  bdecode_reads_tree (by decide) (by decide)

end TorrentApp.Torrent
