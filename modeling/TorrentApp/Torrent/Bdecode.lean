import TorrentApp.Foundation.Bencode

set_option autoImplicit false

/-!
# `bdecode`

The loop of libtorrent's `bdecode` over a buffer: one token a pass, a stack of the
containers that are open, and two limits.  A pass that does not fail is a move of
the scanner of `Foundation.Bencode`, so `bdecode` succeeds exactly on a buffer that
begins with a bencoded value nested and sized within the limits.
-/

namespace TorrentApp.Torrent

open TorrentApp.Foundation.Bencode

/-! ## Tokens -/

/-- `bdecode_errors::error_code_enum` without `no_error`. -/
inductive BdecodeError where
  | expected_digit
  | expected_colon
  | unexpected_eof
  | expected_value
  | depth_exceeded
  | limit_exceeded
  | overflow
  deriving DecidableEq, Repr

inductive TokenType where
  | dict
  | list
  | string
  | integer
  | end_
  deriving DecidableEq, Repr

structure BdecodeToken where
  offset : Nat
  next_item : Nat
  type : TokenType
  header : Nat
  deriving DecidableEq, Repr

/-- `bdecode_token::max_offset`. -/
def max_offset : Nat := 2 ^ 29 - 1

/-- `bdecode_token::max_next_item`. -/
def max_next_item : Nat := 2 ^ 29 - 1

/-- `bdecode_token::max_header`. -/
def max_header : Nat := 2 ^ 3 - 1

/-- `(std::numeric_limits<boost::int64_t>::max)()`. -/
def int64Max : Nat := 2 ^ 63 - 1

structure StackFrame where
  /-- index into the tokens -/
  token : Nat
  /-- of a dictionary: false before a key, true before a value -/
  state : Bool
  deriving DecidableEq, Repr

/-- A decoded node: the tokens, the buffer, and how much of it was read. -/
structure BdecodeNode where
  tokens : List BdecodeToken
  buffer : List UInt8
  buffer_size : Nat
  deriving DecidableEq, Repr

/-! ## Scanning the scalars -/

/-- The loop of `check_integer`, at the character after `digits` digits. -/
def checkDigits (digits : Nat) : List UInt8 → Except BdecodeError (List UInt8)
  -- the loop leaves before it comes to the end
  | [] => .error .unexpected_eof
  | c :: rest =>
      if !numeric c then .error (if 20 < digits then .overflow else .expected_digit)
      else if rest = [] then .error (if 20 < digits + 1 then .overflow else .unexpected_eof)
      else if rest.head? = some endByte then
        if 20 < digits + 1 then .error .overflow else .ok rest
      else checkDigits (digits + 1) rest

/-- `check_integer`: what is left from the terminating `e` on. -/
def check_integer : List UInt8 → Except BdecodeError (List UInt8)
  | [] => .error .unexpected_eof
  | c :: rest =>
      if c = minusByte then
        if rest = [] then .error .unexpected_eof else checkDigits 0 rest
      else checkDigits 0 (c :: rest)

/-- `parse_int`: the value, and what is left from the delimiter on. -/
def parse_int (delimiter : UInt8) : List UInt8 → Nat → Except BdecodeError (Nat × List UInt8)
  | [], val => .ok (val, [])
  | c :: rest, val =>
      if c = delimiter then .ok (val, c :: rest)
      else if !numeric c then .error .expected_digit
      else if int64Max / 10 < val then .error .overflow
      else if int64Max - digitValue c < val * 10 then .error .overflow
      else parse_int delimiter rest (val * 10 + digitValue c)

/-! ## The loop -/

/-- The locals of the loop: the bytes from `start` to `end`, the stack with its top
first, and `ret.m_tokens`. -/
structure Decoder where
  rest : List UInt8
  stack : List StackFrame
  tokens : List BdecodeToken
  deriving DecidableEq, Repr

/-- `ret.m_tokens[frame.token].type == bdecode_token::dict`. -/
def isDict (tokens : List BdecodeToken) (frame : StackFrame) : Bool :=
  tokens[frame.token]?.map BdecodeToken.type == some .dict

/-- After an item the next one in a dictionary is the opposite. -/
def flip (tokens : List BdecodeToken) : List StackFrame → List StackFrame
  | [] => []
  | frame :: outer =>
      (if isDict tokens frame then { frame with state := !frame.state } else frame) :: outer

/-- `d` or `l`. -/
def Decoder.open_ (d : Decoder) (offset : Nat) (type : TokenType) (rest : List UInt8) :
    Decoder where
  rest := rest
  stack := ⟨d.tokens.length, false⟩ :: flip d.tokens d.stack
  tokens := d.tokens ++ [⟨offset, 0, type, 0⟩]

/-- An integer or a string has been read. -/
def Decoder.scalar (d : Decoder) (token : BdecodeToken) (rest : List UInt8) : Decoder where
  rest := rest
  stack := flip d.tokens d.stack
  tokens := d.tokens ++ [token]

/-- `e`. -/
def Decoder.close (d : Decoder) (offset : Nat) (rest : List UInt8) :
    Except BdecodeError Decoder :=
  match d.stack with
  | [] => .error .unexpected_eof
  | top :: outer =>
      if isDict d.tokens top && top.state then .error .expected_value
      else
        let tokens := d.tokens ++ [⟨offset, 1, .end_, 0⟩]
        if max_next_item < tokens.length - top.token then .error .limit_exceeded
        else
          -- the frame whose state the source flips here is popped
          .ok { rest := rest
                stack := outer
                tokens := tokens.modify top.token fun t =>
                  { t with next_item := tokens.length - top.token } }

/-- A string whose first character is the digit `t`. -/
def Decoder.string (d : Decoder) (offset : Nat) (t : UInt8) (rest : List UInt8) :
    Except BdecodeError Decoder :=
  if rest = [] then .error .unexpected_eof
  else
    match parse_int colonByte rest (digitValue t) with
    | .error e => .error e
    | .ok (_, []) => .error .expected_colon
    | .ok (len, _ :: body) =>
        if body.length < len then .error .unexpected_eof
        else if body = [] then .error .unexpected_eof
        else
          let header := rest.length + 1 - body.length
          if max_header < header - 2 then .error .limit_exceeded
          else .ok (d.scalar ⟨offset, 1, .string, header - 2⟩ (body.drop len))

/-- The innermost open container is a dictionary that takes a key. -/
def Decoder.takesKey (d : Decoder) : Bool :=
  match d.stack with
  | [] => false
  | top :: _ => isDict d.tokens top && !top.state

/-- The loop's body behind the limits, in a buffer of `size` bytes. -/
def Decoder.token (size : Nat) (d : Decoder) : Except BdecodeError Decoder :=
  match d.rest with
  | [] => .error .unexpected_eof
  | t :: rest =>
      let offset := size - d.rest.length
      if d.takesKey && !numeric t && t != endByte then .error .expected_digit
      else if t = dictByte then .ok (d.open_ offset .dict rest)
      else if t = listByte then .ok (d.open_ offset .list rest)
      else if t = intByte then
        match check_integer rest with
        | .error e => .error e
        | .ok rest' => .ok (d.scalar ⟨offset, 1, .integer, 0⟩ rest'.tail)
      else if t = endByte then d.close offset rest
      else if !numeric t then .error .expected_value
      else d.string offset t rest

/-- The loop of `bdecode`. -/
def bdecodeLoop (size depth_limit : Nat) : Nat → Decoder → Except BdecodeError Decoder
  | token_limit, d =>
      if d.rest = [] then .error .unexpected_eof
      else if depth_limit ≤ d.stack.length then .error .depth_exceeded
      else
        match token_limit with
        | 0 => .error .limit_exceeded
        | token_limit + 1 =>
            match d.token size with
            | .error e => .error e
            | .ok d' =>
                if d'.stack = [] then .ok d' else bdecodeLoop size depth_limit token_limit d'

/-- `bdecode`; a failed one leaves a node that nobody reads. -/
def bdecode (buffer : List UInt8) (depth_limit token_limit : Nat) :
    Except BdecodeError BdecodeNode :=
  if max_offset < buffer.length then .error .limit_exceeded
  else
    match bdecodeLoop buffer.length depth_limit token_limit ⟨buffer, [], []⟩ with
    | .error e => .error e
    | .ok d =>
        let size := buffer.length - d.rest.length
        .ok ⟨d.tokens ++ [⟨size, 0, .end_, 0⟩], buffer, size⟩

/-! ## The scalars of the grammar -/

/-- The digits that `check_integer` and `max_header` leave room for. -/
def widths : Widths := ⟨20, max_header + 1⟩

theorem checkDigits_ok {digits : Nat} {b b' : List UInt8} (h : checkDigits digits b = .ok b') :
    ∃ text r, b = text ++ b' ∧ b' = endByte :: r ∧ text ≠ [] ∧
      (∀ c ∈ text, numeric c = true) ∧ digits + text.length ≤ 20 := by
  induction b generalizing digits with
  | nil => cases h
  | cons c rest ih =>
    rw [checkDigits] at h
    split at h
    · cases h
    · rename_i hnumeric
      split at h
      · cases h
      · split at h
        · rename_i hlast
          split at h
          · cases h
          · cases h
            obtain ⟨r, hr⟩ := List.head?_eq_some_iff.mp hlast
            refine ⟨[c], r, rfl, hr, by simp, ?_, by simp; omega⟩
            simpa using hnumeric
        · obtain ⟨text, r, rfl, hr, -, hdigits, hwidth⟩ := ih h
          refine ⟨c :: text, r, rfl, hr, by simp, ?_, by simp; omega⟩
          intro c' hc'
          rcases List.mem_cons.mp hc' with rfl | htext
          · simpa using hnumeric
          · exact hdigits c' htext

theorem checkDigits_of {digits : Nat} {text r : List UInt8} (hpos : text ≠ [])
    (hdigits : ∀ c ∈ text, numeric c = true) (hwidth : digits + text.length ≤ 20) :
    checkDigits digits (text ++ endByte :: r) = .ok (endByte :: r) := by
  induction text generalizing digits with
  | nil => exact absurd rfl hpos
  | cons c rest ih =>
    have hc := hdigits c List.mem_cons_self
    rw [List.length_cons] at hwidth
    rw [List.cons_append, checkDigits, hc, if_neg (by decide), if_neg (by simp)]
    cases rest with
    | nil =>
      rw [List.length_nil] at hwidth
      rw [List.nil_append, if_pos List.head?_cons, if_neg (by omega)]
    | cons c' rest =>
      have hc' := hdigits c' (by simp)
      rw [if_neg (fun h => by cases h; cases hc')]
      apply ih (by simp) (fun c hc => hdigits c (List.mem_cons_of_mem _ hc))
      omega

theorem check_integer_ok {b b' : List UInt8} (h : check_integer b = .ok b') :
    ∃ t r, b' = endByte :: r ∧ b = t ++ r ∧ IsInt widths (intByte :: t) := by
  cases b with
  | nil => cases h
  | cons c rest =>
    rw [check_integer] at h
    split at h
    · rename_i hminus
      split at h
      · cases h
      · obtain ⟨text, r, rfl, rfl, hpos, hdigits, hwidth⟩ := checkDigits_ok h
        refine ⟨[minusByte] ++ text ++ [endByte], r, rfl, by simp [hminus], ?_⟩
        exact .mk [minusByte] text (Or.inr rfl) hpos hdigits (Nat.zero_add text.length ▸ hwidth)
    · obtain ⟨text, r, htext, rfl, hpos, hdigits, hwidth⟩ := checkDigits_ok h
      refine ⟨[] ++ text ++ [endByte], r, rfl, by simp [htext], ?_⟩
      exact .mk [] text (Or.inl rfl) hpos hdigits (Nat.zero_add text.length ▸ hwidth)

theorem check_integer_of {t r : List UInt8} (h : IsInt widths (intByte :: t)) :
    check_integer (t ++ r) = .ok (endByte :: r) := by
  cases h with
  | mk sign digits hsign hpos hdigits hwidth =>
    have hrun : checkDigits 0 (digits ++ endByte :: r) = .ok (endByte :: r) :=
      checkDigits_of hpos hdigits (by rw [Nat.zero_add]; exact hwidth)
    cases digits with
    | nil => exact absurd rfl hpos
    | cons c rest =>
      rcases hsign with rfl | rfl
      · have hc := hdigits c List.mem_cons_self
        simp only [List.nil_append, List.cons_append, List.append_assoc, check_integer]
        rw [if_neg (fun h => by cases h; cases hc)]
        exact hrun
      · simp only [List.cons_append, List.nil_append, List.append_assoc, check_integer]
        rw [if_pos trivial, if_neg (List.cons_ne_nil c _)]
        exact hrun

theorem parse_int_ok {b b' : List UInt8} {val n : Nat}
    (h : parse_int colonByte b val = .ok (n, b')) :
    ∃ digits, b = digits ++ b' ∧ (∀ c ∈ digits, numeric c = true) ∧ n = decimal val digits ∧
      ∀ c r, b' = c :: r → c = colonByte := by
  induction b generalizing val with
  | nil =>
    cases h
    exact ⟨[], rfl, by simp, rfl, by simp⟩
  | cons c rest ih =>
    rw [parse_int] at h
    split at h
    · rename_i hcolon
      cases h
      refine ⟨[], rfl, by simp, rfl, ?_⟩
      rintro c' r hr
      cases hr
      exact hcolon
    · split at h
      · cases h
      · rename_i hnumeric
        split at h
        · cases h
        · split at h
          · cases h
          · obtain ⟨digits, rfl, hdigits, hn, hlast⟩ := ih h
            refine ⟨c :: digits, rfl, ?_, hn, hlast⟩
            intro c' hc'
            rcases List.mem_cons.mp hc' with rfl | hrest
            · simpa using hnumeric
            · exact hdigits c' hrest

theorem le_decimal (val : Nat) (digits : List UInt8) : val ≤ decimal val digits := by
  induction digits generalizing val with
  | nil => exact Nat.le_refl _
  | cons c rest ih => exact Nat.le_trans (by omega) (ih (val * 10 + digitValue c))

theorem parse_int_of {digits r : List UInt8} {val : Nat}
    (hdigits : ∀ c ∈ digits, numeric c = true) (hfits : decimal val digits ≤ int64Max) :
    parse_int colonByte (digits ++ colonByte :: r) val =
      .ok (decimal val digits, colonByte :: r) := by
  induction digits generalizing val with
  | nil => rw [List.nil_append, parse_int, if_pos rfl, decimal, List.foldl_nil]
  | cons c rest ih =>
    have hc := hdigits c List.mem_cons_self
    have hle : val * 10 + digitValue c ≤ int64Max :=
      Nat.le_trans (le_decimal (val * 10 + digitValue c) rest) hfits
    rw [List.cons_append, parse_int, if_neg (fun h => by cases h; cases hc), hc,
      if_neg (by decide), if_neg (by omega), if_neg (by omega)]
    exact ih (fun c hc => hdigits c (List.mem_cons_of_mem _ hc)) hfits

/-- What the string branch reads is a string of the grammar with something behind its
colon. -/
theorem string_ok {d d' : Decoder} {offset : Nat} {t : UInt8} {rest : List UInt8}
    (ht : numeric t = true) (h : d.string offset t rest = .ok d') :
    ∃ text payload b token, IsString widths text payload ∧ t :: rest = text ++ b ∧
      payload ++ b ≠ [] ∧ d' = d.scalar token b := by
  rw [Decoder.string] at h
  split at h
  · cases h
  split at h
  · cases h
  · cases h
  rename_i hrest len colon body hparse
  split at h
  · cases h
  rename_i hlen
  split at h
  · cases h
  rename_i hbody
  dsimp only at h
  split at h
  · cases h
  rename_i hheader
  cases h
  obtain ⟨digits, rfl, hdigits, hdecimal, hcolon⟩ := parse_int_ok hparse
  obtain rfl := hcolon colon body rfl
  refine ⟨(t :: digits) ++ colonByte :: body.take len, body.take len, body.drop len, _, ?_, ?_, ?_,
    rfl⟩
  · apply IsString.mk (t :: digits) (body.take len) (by simp)
    · intro c hc
      rcases List.mem_cons.mp hc with rfl | hrest
      · exact ht
      · exact hdigits c hrest
    · simp only [List.length_append, List.length_cons] at hheader
      rw [List.length_cons]
      change _ ≤ max_header + 1
      omega
    · rw [List.length_take, Nat.min_eq_left (Nat.le_of_not_lt hlen), hdecimal]
      simp [decimal]
  · simp
  · rw [List.take_append_drop]
    exact hbody

theorem string_of {d : Decoder} {offset : Nat} {t : UInt8} {rest text payload b : List UInt8}
    (h : IsString widths text payload) (htext : t :: rest = text ++ b)
    (hsome : payload ++ b ≠ []) :
    ∃ token, d.string offset t rest = .ok (d.scalar token b) := by
  cases h with
  | mk header payload hpos hdigits hwidth hlength =>
    cases header with
    | nil => exact absurd rfl hpos
    | cons c digits =>
      simp only [List.cons_append, List.append_assoc] at htext
      obtain ⟨rfl, rfl⟩ := List.cons.inj htext
      have hsmall : decimal (digitValue t) digits ≤ int64Max := by
        have hlt := decimal_lt hdigits 0
        have hpow : 10 ^ (t :: digits).length ≤ 10 ^ 8 :=
          Nat.pow_le_pow_right (by decide) hwidth
        have heq : decimal 0 (t :: digits) = decimal (digitValue t) digits := by simp [decimal]
        have hmax : 10 ^ 8 ≤ int64Max := by decide
        omega
      have hvalue : decimal (digitValue t) digits = payload.length := by
        rw [← hlength]
        simp [decimal]
      have hparse := parse_int_of (r := payload ++ b)
        (fun c hc => hdigits c (List.mem_cons_of_mem t hc)) hsmall
      rw [Decoder.string, if_neg (by simp), hparse]
      dsimp only
      rw [if_neg (by rw [hvalue, List.length_append]; omega), if_neg hsome, if_neg ?_, hvalue,
        List.drop_left]
      · exact ⟨_, rfl⟩
      · rw [List.length_cons] at hwidth
        change _ ≤ max_header + 1 at hwidth
        simp only [List.length_append, List.length_cons]
        omega

/-! ## The stack as the scanner sees it -/

/-- What an open container takes next. -/
def frameOf (tokens : List BdecodeToken) (frame : StackFrame) : Frame :=
  if isDict tokens frame then if frame.state then .value else .key else .list

def Decoder.frames (d : Decoder) : List Frame := d.stack.map (frameOf d.tokens)

/-- The frames point at tokens. -/
def Decoder.Valid (d : Decoder) : Prop := ∀ frame ∈ d.stack, frame.token < d.tokens.length

theorem isDict_append {tokens more : List BdecodeToken} {frame : StackFrame}
    (h : frame.token < tokens.length) : isDict (tokens ++ more) frame = isDict tokens frame := by
  rw [isDict, List.getElem?_append_left h, isDict]

theorem frameOf_append {tokens more : List BdecodeToken} {frame : StackFrame}
    (h : frame.token < tokens.length) :
    frameOf (tokens ++ more) frame = frameOf tokens frame := by
  rw [frameOf, isDict_append h, frameOf]

theorem frameOf_modify {tokens : List BdecodeToken} {k : Nat} {g : BdecodeToken → BdecodeToken}
    (hg : ∀ t, (g t).type = t.type) (frame : StackFrame) :
    frameOf (tokens.modify k g) frame = frameOf tokens frame := by
  have htype : isDict (tokens.modify k g) frame = isDict tokens frame := by
    rw [isDict, isDict, List.getElem?_modify]
    cases tokens[frame.token]? with
    | none => rfl
    | some t =>
      by_cases hk : k = frame.token
      · simp [hk, hg]
      · simp [hk]
  rw [frameOf, htype, frameOf]

theorem token_flip {tokens : List BdecodeToken} {stack : List StackFrame} {frame : StackFrame}
    (h : frame ∈ flip tokens stack) : ∃ old ∈ stack, frame.token = old.token := by
  cases stack with
  | nil => cases h
  | cons top outer =>
    rcases List.mem_cons.mp h with htop | houter
    · refine ⟨top, List.mem_cons_self, ?_⟩
      rw [htop]
      split <;> rfl
    · exact ⟨frame, List.mem_cons_of_mem top houter, rfl⟩

theorem frames_flip (tokens : List BdecodeToken) (stack : List StackFrame) :
    (flip tokens stack).map (frameOf tokens) = advance (stack.map (frameOf tokens)) := by
  cases stack with
  | nil => rfl
  | cons top outer =>
    have hnext : frameOf tokens
        (if isDict tokens top then { top with state := !top.state } else top) =
          (frameOf tokens top).next := by
      cases hdict : isDict tokens top with
      | false => simp [frameOf, hdict, Frame.next]
      | true =>
        have hsame : ∀ state, isDict tokens ⟨top.token, state⟩ = true := fun _ => hdict
        cases top with
        | mk token state =>
          cases state with
          | false => simp [frameOf, hsame, Frame.next]
          | true => simp [frameOf, hsame, Frame.next]
    rw [flip, List.map_cons, hnext]
    rfl

theorem Decoder.takesKey_iff (d : Decoder) :
    d.takesKey = true ↔ d.frames.head? = some .key := by
  rw [Decoder.takesKey, Decoder.frames]
  cases d.stack with
  | nil => simp
  | cons top outer =>
    cases hdict : isDict d.tokens top with
    | false => simp [frameOf, hdict]
    | true => cases hstate : top.state <;> simp [frameOf, hdict, hstate]

section Scalars

variable {d : Decoder} (hvalid : d.Valid)

include hvalid

theorem frames_pushed (more : List BdecodeToken) :
    (flip d.tokens d.stack).map (frameOf (d.tokens ++ more)) = advance d.frames := by
  rw [Decoder.frames, ← frames_flip]
  apply List.map_congr_left
  intro frame hframe
  obtain ⟨old, hold, htoken⟩ := token_flip hframe
  exact frameOf_append (htoken ▸ hvalid old hold)

theorem token_pushed {frame : StackFrame} (h : frame ∈ flip d.tokens d.stack) :
    frame.token < d.tokens.length + 1 := by
  obtain ⟨old, hold, htoken⟩ := token_flip h
  have := hvalid old hold
  omega

theorem Decoder.Valid.scalar (token : BdecodeToken) (b : List UInt8) :
    (d.scalar token b).Valid := by
  intro frame hframe
  simp only [Decoder.scalar, List.length_append, List.length_singleton]
  exact token_pushed hvalid hframe

theorem Decoder.Valid.open_ (offset : Nat) (type : TokenType) (b : List UInt8) :
    (d.open_ offset type b).Valid := by
  intro frame hframe
  simp only [Decoder.open_, List.length_append, List.length_singleton]
  rcases List.mem_cons.mp hframe with rfl | houter
  · exact Nat.lt_succ_self _
  · exact token_pushed hvalid houter

theorem Decoder.Valid.frames_scalar (token : BdecodeToken) (b : List UInt8) :
    (d.scalar token b).frames = advance d.frames :=
  frames_pushed hvalid [token]

theorem Decoder.Valid.frames_open (offset : Nat) (type : TokenType) (b : List UInt8) :
    (d.open_ offset type b).frames =
      (if type = .dict then .key else .list) :: advance d.frames := by
  have hnew : frameOf (d.tokens ++ [⟨offset, 0, type, 0⟩]) ⟨d.tokens.length, false⟩ =
      if type = .dict then .key else .list := by
    cases type <;> simp [frameOf, isDict]
  rw [Decoder.frames, Decoder.open_, List.map_cons, hnew, frames_pushed hvalid]

end Scalars

/-- Closing a container pops its frame. -/
theorem close_ok {d d' : Decoder} {offset : Nat} {rest : List UInt8}
    (hvalid : d.Valid) (h : d.close offset rest = .ok d') :
    d'.rest = rest ∧ d'.tokens.length = d.tokens.length + 1 ∧ d'.Valid ∧
      ∃ f fs, d.frames = f :: fs ∧ f ≠ .value ∧ d'.frames = fs := by
  rw [Decoder.close] at h
  split at h
  · cases h
  · rename_i top outer hstack
    split at h
    · cases h
    · rename_i hvalue
      dsimp only at h
      split at h
      · cases h
      · cases h
        have hold : ∀ frame ∈ outer, frame.token < d.tokens.length := fun frame hframe =>
          hvalid frame (hstack ▸ List.mem_cons_of_mem top hframe)
        refine ⟨rfl, by simp, ?_, frameOf d.tokens top, outer.map (frameOf d.tokens), ?_, ?_, ?_⟩
        · intro frame hframe
          have := hold frame hframe
          simp only [List.length_modify, List.length_append, List.length_singleton]
          omega
        · rw [Decoder.frames, hstack, List.map_cons]
        · cases hdict : isDict d.tokens top with
          | false => simp [frameOf, hdict]
          | true =>
            rw [hdict, Bool.true_and] at hvalue
            simp [frameOf, hdict, hvalue]
        · rw [Decoder.frames]
          apply List.map_congr_left
          intro frame hframe
          refine (frameOf_modify ?_ frame).trans (frameOf_append (hold frame hframe))
          exact fun _ => rfl

theorem close_of {d : Decoder} {offset : Nat} {rest : List UInt8} {f : Frame} {fs : List Frame}
    (hframes : d.frames = f :: fs) (hf : f ≠ .value) (hroom : d.tokens.length < max_next_item) :
    ∃ d', d.close offset rest = .ok d' := by
  rw [Decoder.close]
  cases hstack : d.stack with
  | nil =>
    rw [Decoder.frames, hstack] at hframes
    cases hframes
  | cons top outer =>
    rw [Decoder.frames, hstack, List.map_cons] at hframes
    have htop : (isDict d.tokens top && top.state) = false := by
      obtain ⟨rfl, -⟩ := List.cons.inj hframes
      cases hdict : isDict d.tokens top with
      | false => rfl
      | true => cases hstate : top.state <;> simp [frameOf, hdict, hstate] at hf ⊢
    dsimp only
    rw [htop, if_neg (by decide), if_neg (by
      rw [List.length_append, List.length_singleton]
      omega)]
    exact ⟨_, rfl⟩

/-! ## A pass of the loop is a move of the scanner -/

/-- What a pass that does not fail has done. -/
theorem token_ok {d d' : Decoder} {size : Nat} (hvalid : d.Valid) (h : d.token size = .ok d') :
    Move widths d.rest d.frames d'.rest d'.frames ∧ d'.Valid ∧
      d'.tokens.length = d.tokens.length + 1 := by
  rw [Decoder.token] at h
  split at h
  · cases h
  rename_i t rest hrest
  dsimp only at h
  split at h
  · cases h
  rename_i hkey
  -- where a key is due, only a digit or an end comes this far
  have hitem : numeric t = false → t ≠ endByte → d.frames.head? ≠ some .key := by
    intro hnumeric hend htakes
    rw [(d.takesKey_iff).mpr htakes, hnumeric] at hkey
    simp [hend] at hkey
  split at h
  · rename_i hdict
    cases h
    have hmove : Move widths (dictByte :: rest) d.frames rest (.key :: advance d.frames) :=
      .dict (hitem (hdict ▸ by decide) (hdict ▸ by decide))
    refine ⟨?_, hvalid.open_ _ _ _, by simp [Decoder.open_]⟩
    rw [hvalid.frames_open, hrest, hdict]
    exact hmove
  · split at h
    · rename_i hlist
      cases h
      have hmove : Move widths (listByte :: rest) d.frames rest (.list :: advance d.frames) :=
        .list (hitem (hlist ▸ by decide) (hlist ▸ by decide))
      refine ⟨?_, hvalid.open_ _ _ _, by simp [Decoder.open_]⟩
      rw [hvalid.frames_open, hrest, hlist]
      exact hmove
    · split at h
      · rename_i hint
        split at h
        · cases h
        · rename_i rest' hcheck
          cases h
          obtain ⟨text, r, rfl, rfl, hisInt⟩ := check_integer_ok hcheck
          refine ⟨?_, hvalid.scalar _ _, by simp [Decoder.scalar]⟩
          rw [hvalid.frames_scalar, hrest, hint]
          exact .int (hitem (hint ▸ by decide) (hint ▸ by decide)) hisInt
      · split at h
        · rename_i hend
          obtain ⟨hnext, hlength, hvalid', f, fs, hframes, hf, hframes'⟩ := close_ok hvalid h
          refine ⟨?_, hvalid', hlength⟩
          rw [hrest, hend, hframes, hframes', hnext]
          exact .stop hf
        · split at h
          · cases h
          · rename_i hnumeric
            obtain ⟨text, payload, b, token, htext, hsplit, hsome, rfl⟩ :=
              string_ok (by simpa using hnumeric) h
            refine ⟨?_, hvalid.scalar _ _, by simp [Decoder.scalar]⟩
            rw [hvalid.frames_scalar, hrest, hsplit]
            exact .str htext hsome

/-- A pass that is not stopped for a missing key. -/
theorem token_eq {d : Decoder} {size : Nat} {t : UInt8} {rest : List UInt8}
    (hrest : d.rest = t :: rest)
    (hkey : d.frames.head? = some .key → numeric t = true ∨ t = endByte) :
    d.token size =
      if t = dictByte then .ok (d.open_ (size - d.rest.length) .dict rest)
      else if t = listByte then .ok (d.open_ (size - d.rest.length) .list rest)
      else if t = intByte then
        match check_integer rest with
        | .error e => .error e
        | .ok rest' => .ok (d.scalar ⟨size - d.rest.length, 1, .integer, 0⟩ rest'.tail)
      else if t = endByte then d.close (size - d.rest.length) rest
      else if !numeric t then .error .expected_value
      else d.string (size - d.rest.length) t rest := by
  have hpass : (d.takesKey && !numeric t && t != endByte) = false := by
    cases htakes : d.takesKey with
    | false => rfl
    | true =>
      rcases hkey (d.takesKey_iff.mp htakes) with hnumeric | hend
      · rw [hnumeric]
        rfl
      · rw [hend]
        rfl
  rw [Decoder.token, hrest]
  dsimp only
  rw [hpass, if_neg (by decide)]

/-- Every move of the scanner is made by a pass. -/
theorem token_of {d : Decoder} {size : Nat} {b : List UInt8} {fs : List Frame}
    (hvalid : d.Valid) (hroom : d.tokens.length < max_next_item)
    (h : Move widths d.rest d.frames b fs) :
    ∃ d', d.token size = .ok d' ∧ d'.rest = b ∧ d'.frames = fs := by
  generalize hrest : d.rest = text at h
  generalize hframes : d.frames = open_ at h
  cases h with
  | @int _ t _ hfs ht =>
    obtain ⟨u, rfl⟩ : ∃ u, t = intByte :: u := by
      cases ht
      exact ⟨_, rfl⟩
    rw [List.cons_append] at hrest
    rw [token_eq hrest (fun hkey => absurd (hframes ▸ hkey) hfs), if_neg (by decide),
      if_neg (by decide), if_pos rfl, check_integer_of ht]
    exact ⟨_, rfl, rfl, hframes ▸ hvalid.frames_scalar _ _⟩
  | @str _ t payload _ ht hsome =>
    obtain ⟨c, u, rfl⟩ : ∃ c u, t = c :: u := by
      cases ht with
      | mk header payload hpos =>
        cases header with
        | nil => exact absurd rfl hpos
        | cons c header => exact ⟨c, _, rfl⟩
    have hc := ht.head
    obtain ⟨token, hstring⟩ : ∃ token,
        d.string (size - d.rest.length) c (u ++ b) = .ok (d.scalar token b) :=
      string_of ht rfl hsome
    rw [token_eq hrest (fun _ => Or.inl hc), if_neg (by rintro rfl; cases hc),
      if_neg (by rintro rfl; cases hc), if_neg (by rintro rfl; cases hc),
      if_neg (by rintro rfl; cases hc), hc, if_neg (by decide)]
    exact ⟨_, hstring, rfl, hframes ▸ hvalid.frames_scalar _ _⟩
  | list hfs =>
    rw [token_eq hrest (fun hkey => absurd (hframes ▸ hkey) hfs), if_neg (by decide), if_pos rfl]
    exact ⟨_, rfl, rfl, hframes ▸ hvalid.frames_open _ _ _⟩
  | dict hfs =>
    rw [token_eq hrest (fun hkey => absurd (hframes ▸ hkey) hfs), if_pos rfl]
    exact ⟨_, rfl, rfl, hframes ▸ hvalid.frames_open _ _ _⟩
  | stop hf =>
    obtain ⟨d', hclose⟩ : ∃ d', d.close (size - d.rest.length) b = .ok d' :=
      close_of hframes hf hroom
    obtain ⟨hnext, -, -, f, fs, hopen, -, hleft⟩ := close_ok hvalid hclose
    rw [token_eq hrest (fun _ => Or.inr rfl), if_neg (by decide), if_neg (by decide),
      if_neg (by decide), if_pos rfl]
    refine ⟨d', hclose, hnext, hleft.trans ?_⟩
    rw [hframes] at hopen
    exact (List.cons.inj hopen).2.symm

/-! ## The limits -/

/-- What the loop reads is what the scanner reads, within both limits. -/
theorem reads_of_loop {size depth_limit token_limit : Nat} {d d' : Decoder} (hvalid : d.Valid)
    (h : bdecodeLoop size depth_limit token_limit d = .ok d') :
    ∃ n ≤ token_limit, Reads widths depth_limit n d.rest d.frames d'.rest := by
  induction token_limit generalizing d with
  | zero =>
    rw [bdecodeLoop] at h
    split at h
    · cases h
    · split at h <;> cases h
  | succ token_limit ih =>
    rw [bdecodeLoop] at h
    split at h
    · cases h
    split at h
    · cases h
    rename_i hdepth
    replace hdepth : d.frames.length < depth_limit := by
      rw [Decoder.frames, List.length_map]
      exact Nat.lt_of_not_le hdepth
    split at h
    · cases h
    rename_i d₁ htoken
    obtain ⟨hmove, hvalid₁, -⟩ := token_ok hvalid htoken
    split at h
    · rename_i hclosed
      cases h
      have hnone : d'.frames = [] := by rw [Decoder.frames, hclosed, List.map_nil]
      refine ⟨1, by omega, 0, d'.rest, [], rfl, hdepth, hnone ▸ hmove, .done⟩
    · rename_i hopen
      obtain ⟨n, hn, hreads⟩ := ih hvalid₁ h
      refine ⟨n + 1, by omega, n, d₁.rest, d₁.frames, rfl, hdepth, hmove, hreads.scan ?_⟩
      exact fun hnil => hopen (List.map_eq_nil_iff.mp hnil)

/-- The loop reads what the scanner reads, as long as it is let. -/
theorem loop_of_reads {size depth_limit token_limit n : Nat} {d : Decoder} {rest : List UInt8}
    (hvalid : d.Valid) (hn : n ≤ token_limit) (hroom : d.tokens.length + n ≤ max_next_item)
    (h : Reads widths depth_limit n d.rest d.frames rest) :
    ∃ d', bdecodeLoop size depth_limit token_limit d = .ok d' := by
  induction token_limit generalizing d n with
  | zero =>
    obtain ⟨m, -, -, rfl, -⟩ := h
    omega
  | succ token_limit ih =>
    obtain ⟨m, b, fs, rfl, hdepth, hmove, hscan⟩ := h
    obtain ⟨d₁, htoken, rfl, rfl⟩ : ∃ d₁, d.token size = .ok d₁ ∧ d₁.rest = b ∧ d₁.frames = fs :=
      token_of hvalid (by omega) hmove
    obtain ⟨-, hvalid₁, hlength⟩ := token_ok hvalid htoken
    rw [Decoder.frames, List.length_map] at hdepth
    rw [bdecodeLoop, if_neg hmove.ne_nil, if_neg (Nat.not_le_of_lt hdepth), htoken]
    dsimp only
    by_cases hclosed : d₁.stack = []
    · rw [if_pos hclosed]
      exact ⟨d₁, rfl⟩
    · rw [if_neg hclosed]
      generalize hframes : d₁.frames = fs at hscan
      cases hscan with
      | done => exact absurd (List.map_eq_nil_iff.mp hframes) hclosed
      | move hopen hdepth₁ hmove₁ hscan₁ =>
        subst hframes
        exact ih hvalid₁ (by omega) (by omega) ⟨_, _, _, rfl, hdepth₁, hmove₁, hscan₁⟩

theorem loop_mono {size depth_limit depth_limit' token_limit : Nat} {d d' : Decoder}
    (hle : depth_limit ≤ depth_limit') (h : bdecodeLoop size depth_limit token_limit d = .ok d') :
    bdecodeLoop size depth_limit' token_limit d = .ok d' := by
  induction token_limit generalizing d with
  | zero =>
    rw [bdecodeLoop] at h
    split at h
    · cases h
    · split at h <;> cases h
  | succ token_limit ih =>
    rw [bdecodeLoop] at h
    split at h
    · cases h
    rename_i hrest
    split at h
    · cases h
    rename_i hdepth
    rw [bdecodeLoop, if_neg hrest, if_neg (fun hover => hdepth (Nat.le_trans hle hover))]
    split at h
    · cases h
    split at h
    · rename_i hclosed
      rw [if_pos hclosed]
      exact h
    · rename_i hopen
      rw [if_neg hopen]
      exact ih h

/-- A buffer begins with a value nested at most `depth` deep and of at most `tokens`
tokens; an empty string is not the whole buffer. -/
def BeginsWithValue (depth tokens : Nat) (buffer : List UInt8) : Prop :=
  ∃ n ≤ tokens, ∃ t rest, Bencoded widths .item depth n t ∧ buffer = t ++ rest ∧
    (IsString widths t [] → rest ≠ [])

theorem bdecode_ok_iff {buffer : List UInt8} {depth_limit token_limit : Nat}
    (hdepth : 0 < depth_limit) (htokens : token_limit ≤ max_next_item) :
    (∃ node, bdecode buffer depth_limit token_limit = .ok node) ↔
      buffer.length ≤ max_offset ∧ BeginsWithValue (depth_limit - 1) token_limit buffer := by
  have hvalid : Decoder.Valid ⟨buffer, [], []⟩ := fun frame hframe => by cases hframe
  constructor
  · rintro ⟨node, h⟩
    rw [bdecode] at h
    split at h
    · cases h
    rename_i hsize
    split at h
    · cases h
    rename_i d hloop
    obtain ⟨n, hn, hreads⟩ := reads_of_loop hvalid hloop
    obtain ⟨t, hitem, hsplit, hlast⟩ := (reads_iff hdepth).mp hreads
    exact ⟨Nat.le_of_not_lt hsize, n, hn, t, d.rest, hitem, hsplit, hlast⟩
  · rintro ⟨hsize, n, hn, t, rest, hvalue⟩
    obtain ⟨d, hloop⟩ :
        ∃ d, bdecodeLoop buffer.length depth_limit token_limit ⟨buffer, [], []⟩ = .ok d :=
      loop_of_reads hvalid hn (by rw [List.length_nil]; omega)
        ((reads_iff hdepth).mpr ⟨t, hvalue⟩)
    rw [bdecode, if_neg (Nat.not_lt_of_le hsize), hloop]
    exact ⟨_, rfl⟩

/-- A higher depth limit changes nothing of what a lower one accepts. -/
theorem bdecode_mono {buffer : List UInt8} {depth_limit depth_limit' token_limit : Nat}
    {node : BdecodeNode} (hle : depth_limit ≤ depth_limit')
    (h : bdecode buffer depth_limit token_limit = .ok node) :
    bdecode buffer depth_limit' token_limit = .ok node := by
  rw [bdecode] at h ⊢
  split at h
  · cases h
  rename_i hsize
  split at h
  · cases h
  rename_i d hloop
  rw [if_neg hsize, loop_mono hle hloop]
  exact h

end TorrentApp.Torrent
