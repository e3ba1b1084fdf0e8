import Mathlib.Algebra.GroupWithZero.Nat
import Mathlib.Data.List.Basic

set_option autoImplicit false

/-!
# Bencoding

The grammar of bencoded values as a relation on bytes, and a scanner that reads
one token at a time and keeps a stack of the containers that are open.  What the
stack still demands of the bytes ahead is `Closes`; with it the scanner accepts
exactly the values of the grammar, at every bound on nesting and tokens.
-/

namespace TorrentApp.Foundation.Bencode

/-! ## Bytes -/

/-- `d` -/
abbrev dictByte : UInt8 := 100
/-- `l` -/
abbrev listByte : UInt8 := 108
/-- `i` -/
abbrev intByte : UInt8 := 105
/-- `e` -/
abbrev endByte : UInt8 := 101
/-- `:` -/
abbrev colonByte : UInt8 := 58
/-- `-` -/
abbrev minusByte : UInt8 := 45

/-- A decimal digit. -/
def numeric (c : UInt8) : Bool := 48 ≤ c && c ≤ 57

def digitValue (c : UInt8) : Nat := c.toNat - 48

/-- The number that `digits` continue when `value` is what the digits before them say. -/
def decimal (value : Nat) (digits : List UInt8) : Nat :=
  digits.foldl (fun v c => v * 10 + digitValue c) value

theorem digitValue_lt {c : UInt8} (h : numeric c = true) : digitValue c < 10 := by
  simp only [numeric, Bool.and_eq_true, decide_eq_true_eq, UInt8.le_iff_toNat_le] at h
  have h57 : (57 : UInt8).toNat = 57 := rfl
  rw [digitValue]
  omega

theorem decimal_lt {digits : List UInt8} (h : ∀ c ∈ digits, numeric c = true) (value : Nat) :
    decimal value digits < (value + 1) * 10 ^ digits.length := by
  induction digits generalizing value with
  | nil => simp [decimal]
  | cons c rest ih =>
    have hdigit := digitValue_lt (h c List.mem_cons_self)
    have hrest := ih (fun c hc => h c (List.mem_cons_of_mem _ hc)) (value * 10 + digitValue c)
    calc decimal value (c :: rest)
        < (value * 10 + digitValue c + 1) * 10 ^ rest.length := hrest
      _ ≤ ((value + 1) * 10) * 10 ^ rest.length := Nat.mul_le_mul_right _ (by omega)
      _ = (value + 1) * 10 ^ (c :: rest).length := by
          rw [List.length_cons, Nat.pow_succ, Nat.mul_assoc, Nat.mul_comm 10]

/-! ## The grammar -/

/-- How many digits an integer and the length in front of a string may have. -/
structure Widths where
  int : Nat
  header : Nat

/-- The integers. -/
inductive IsInt (w : Widths) : List UInt8 → Prop
  | mk (sign digits : List UInt8) (hsign : sign = [] ∨ sign = [minusByte])
      (hpos : digits ≠ []) (hdigits : ∀ c ∈ digits, numeric c = true)
      (hwidth : digits.length ≤ w.int) : IsInt w (intByte :: (sign ++ digits ++ [endByte]))

/-- The strings, with what they hold. -/
inductive IsString (w : Widths) : List UInt8 → List UInt8 → Prop
  | mk (header payload : List UInt8) (hpos : header ≠ [])
      (hdigits : ∀ c ∈ header, numeric c = true) (hwidth : header.length ≤ w.header)
      (hlength : decimal 0 header = payload.length) :
      IsString w (header ++ colonByte :: payload) payload

theorem IsString.payload_eq {w : Widths} {t payload : List UInt8} (h : IsString w t payload) :
    payload = (t.dropWhile numeric).tail := by
  cases h with
  | mk header payload hpos hdigits hwidth hlength =>
    rw [List.dropWhile_append_of_pos hdigits, List.dropWhile_cons_of_neg (by decide),
      List.tail_cons]

/-- A string begins with a digit. -/
theorem IsString.head {w : Widths} {c : UInt8} {t payload : List UInt8}
    (h : IsString w (c :: t) payload) : numeric c = true := by
  generalize htext : c :: t = text at h
  cases h with
  | mk header payload hpos hdigits hwidth hlength =>
    cases header with
    | nil => exact absurd rfl hpos
    | cons c' rest =>
      obtain rfl := (List.cons.inj htext).1
      exact hdigits c List.mem_cons_self

/-- What an open container takes next. -/
inductive Frame where
  /-- a list: a value -/
  | list
  /-- a dictionary: a key -/
  | key
  /-- a dictionary: the value of the key before -/
  | value
  deriving DecidableEq, Repr

/-- The frame after an item. -/
def Frame.next : Frame → Frame
  | .list => .list
  | .key => .value
  | .value => .key

inductive Part where
  /-- one value -/
  | item
  /-- what a container that is open in `frame` still holds before its end -/
  | body (frame : Frame)

/-- `Bencoded w part d n t`: the bytes `t` are a `part` that is nested at most `d` deep
and has `n` tokens. -/
inductive Bencoded (w : Widths) : Part → Nat → Nat → List UInt8 → Prop
  | int {d : Nat} {t : List UInt8} : IsInt w t → Bencoded w .item d 1 t
  | str {d : Nat} {t payload : List UInt8} : IsString w t payload → Bencoded w .item d 1 t
  | list {d n : Nat} {t : List UInt8} : Bencoded w (.body .list) d n t →
      Bencoded w .item (d + 1) (n + 2) (listByte :: (t ++ [endByte]))
  | dict {d n : Nat} {t : List UInt8} : Bencoded w (.body .key) d n t →
      Bencoded w .item (d + 1) (n + 2) (dictByte :: (t ++ [endByte]))
  | noMoreItems {d : Nat} : Bencoded w (.body .list) d 0 []
  | anItem {d n m : Nat} {t u : List UInt8} : Bencoded w .item d n t →
      Bencoded w (.body .list) d m u → Bencoded w (.body .list) d (n + m) (t ++ u)
  | noMoreKeys {d : Nat} : Bencoded w (.body .key) d 0 []
  | aKey {d n : Nat} {k payload t : List UInt8} : IsString w k payload →
      Bencoded w (.body .value) d n t → Bencoded w (.body .key) d (1 + n) (k ++ t)
  | aValue {d n m : Nat} {t u : List UInt8} : Bencoded w .item d n t →
      Bencoded w (.body .key) d m u → Bencoded w (.body .value) d (n + m) (t ++ u)

/-! ## The scanner -/

variable {w : Widths} {L : Nat}

/-- The stack after an item is read. -/
def advance : List Frame → List Frame
  | [] => []
  | f :: fs => f.next :: fs

@[simp]
theorem length_advance (fs : List Frame) : (advance fs).length = fs.length := by
  cases fs <;> rfl

/-- The token at the front of `b` is read. -/
inductive Move (w : Widths) : List UInt8 → List Frame → List UInt8 → List Frame → Prop
  | int {fs : List Frame} {t b : List UInt8} (hfs : fs.head? ≠ some .key) (ht : IsInt w t) :
      Move w (t ++ b) fs b (advance fs)
  | str {fs : List Frame} {t payload b : List UInt8} (ht : IsString w t payload)
      -- a string is not the last thing in the buffer unless it holds something
      (hb : payload ++ b ≠ []) : Move w (t ++ b) fs b (advance fs)
  | list {fs : List Frame} {b : List UInt8} (hfs : fs.head? ≠ some .key) :
      Move w (listByte :: b) fs b (.list :: advance fs)
  | dict {fs : List Frame} {b : List UInt8} (hfs : fs.head? ≠ some .key) :
      Move w (dictByte :: b) fs b (.key :: advance fs)
  | stop {f : Frame} {fs : List Frame} {b : List UInt8} (hf : f ≠ .value) :
      Move w (endByte :: b) (f :: fs) b fs

theorem IsString.ne_nil {t payload : List UInt8} (h : IsString w t payload) : t ≠ [] := by
  cases h
  simp

/-- A move reads something. -/
theorem Move.ne_nil {b b' : List UInt8} {fs fs' : List Frame} (h : Move w b fs b' fs') :
    b ≠ [] := by
  cases h with
  | int _ ht =>
    cases ht
    simp
  | str ht _ => exact fun hnil => ht.ne_nil (List.append_eq_nil_iff.mp hnil).1
  | list _ => exact List.cons_ne_nil _ _
  | dict _ => exact List.cons_ne_nil _ _
  | stop _ => exact List.cons_ne_nil _ _

/-- `Scan w L n b fs rest`: `n` moves from the open containers `fs` close them all, with
fewer than `L` open at each, and leave `rest`. -/
inductive Scan (w : Widths) (L : Nat) : Nat → List UInt8 → List Frame → List UInt8 → Prop
  | done {rest : List UInt8} : Scan w L 0 rest [] rest
  | move {n : Nat} {b b' rest : List UInt8} {fs fs' : List Frame} (hopen : fs ≠ [])
      (hdepth : fs.length < L) (hmove : Move w b fs b' fs') (hscan : Scan w L n b' fs' rest) :
      Scan w L (n + 1) b fs rest

/-- A first move, and the scan after it. -/
def Reads (w : Widths) (L n : Nat) (b : List UInt8) (fs : List Frame) (rest : List UInt8) :
    Prop :=
  ∃ m b' fs', n = m + 1 ∧ fs.length < L ∧ Move w b fs b' fs' ∧ Scan w L m b' fs' rest

/-! ## What the scanner accepts is in the grammar -/

/-- The bytes close every container that is open and leave `rest`. -/
inductive Closes (w : Widths) (L : Nat) : List Frame → Nat → List UInt8 → List UInt8 → Prop
  | nil {rest : List UInt8} : Closes w L [] 0 rest rest
  | cons {f : Frame} {fs : List Frame} {d n m : Nat} {t b rest : List UInt8}
      (hbody : Bencoded w (.body f) d n t) (hdepth : d + fs.length + 2 = L)
      (hclose : Closes w L fs m b rest) :
      Closes w L (f :: fs) (n + 1 + m) (t ++ endByte :: b) rest

theorem Closes.item {f : Frame} {fs : List Frame} {n m : Nat} {t b rest : List UInt8}
    (h : Closes w L (f.next :: fs) m b rest) (hf : f ≠ .key)
    (ht : ∀ d, d + fs.length + 2 = L → Bencoded w .item d n t) :
    Closes w L (f :: fs) (n + m) (t ++ b) rest := by
  cases h with
  | @cons _ _ d k m t' b' _ hbody hdepth hclose =>
    rw [← List.append_assoc, show n + (k + 1 + m) = (n + k) + 1 + m by omega]
    apply Closes.cons _ hdepth hclose
    cases f with
    | list => exact .anItem (ht d hdepth) hbody
    | key => exact absurd rfl hf
    | value => exact .aValue (ht d hdepth) hbody

theorem Closes.key {fs : List Frame} {m : Nat} {k payload b rest : List UInt8}
    (h : Closes w L (.value :: fs) m b rest) (hk : IsString w k payload) :
    Closes w L (.key :: fs) (1 + m) (k ++ b) rest := by
  cases h with
  | @cons _ _ d n m t' b' _ hbody hdepth hclose =>
    rw [← List.append_assoc, show 1 + (n + 1 + m) = (1 + n) + 1 + m by omega]
    exact Closes.cons (.aKey hk hbody) hdepth hclose

/-- A container that is opened is an item of the one it is opened in. -/
theorem Closes.container {f g : Frame} {fs : List Frame} {n : Nat} {first : UInt8}
    {b rest : List UInt8} (h : Closes w L (g :: f.next :: fs) n b rest) (hf : f ≠ .key)
    (hitem : ∀ {d k : Nat} {t : List UInt8}, Bencoded w (.body g) d k t →
      Bencoded w .item (d + 1) (k + 2) (first :: (t ++ [endByte]))) :
    Closes w L (f :: fs) (1 + n) (first :: b) rest := by
  cases h with
  | @cons _ _ d k m t b' _ hbody hdepth hclose =>
    have hread := hclose.item (n := k + 2) (t := first :: (t ++ [endByte])) hf fun e he => by
      obtain rfl : e = d + 1 := by
        simp only [List.length_cons] at hdepth
        omega
      exact hitem hbody
    rw [show 1 + (k + 1 + m) = k + 2 + m by omega]
    simpa using hread

/-- A token read at the front of what a stack demands. -/
theorem Closes.read {fs fs' : List Frame} {n : Nat} {b b' rest : List UInt8}
    (hmove : Move w b fs b' fs') (h : Closes w L fs' n b' rest) (hopen : fs ≠ [])
    (hdepth : fs.length < L) : Closes w L fs (n + 1) b rest := by
  rw [Nat.add_comm]
  cases hmove with
  | int hfs ht =>
    cases fs with
    | nil => exact absurd rfl hopen
    | cons f fs => exact h.item (fun hf => hfs (by rw [hf]; rfl)) fun _ _ => .int ht
  | str ht =>
    cases fs with
    | nil => exact absurd rfl hopen
    | cons f fs =>
      cases f with
      | list => exact Closes.item (f := .list) h (by simp) fun _ _ => .str ht
      | key => exact Closes.key h ht
      | value => exact Closes.item (f := .value) h (by simp) fun _ _ => .str ht
  | list hfs =>
    cases fs with
    | nil => exact absurd rfl hopen
    | cons f fs => exact Closes.container h (fun hf => hfs (by rw [hf]; rfl)) .list
  | dict hfs =>
    cases fs with
    | nil => exact absurd rfl hopen
    | cons f fs => exact Closes.container h (fun hf => hfs (by rw [hf]; rfl)) .dict
  | @stop f fs b hf =>
    have hcons := fun hbody => Closes.cons (f := f) (d := L - (fs'.length + 2)) (n := 0)
      (t := []) hbody (by simp only [List.length_cons] at hdepth; omega) h
    rw [Nat.zero_add] at hcons
    apply hcons
    cases f with
    | list => exact .noMoreItems
    | key => exact .noMoreKeys
    | value => exact absurd rfl hf

theorem closes_of_scan {fs : List Frame} {n : Nat} {b rest : List UInt8}
    (h : Scan w L n b fs rest) : Closes w L fs n b rest := by
  induction h with
  | done => exact .nil
  | move hopen hdepth hmove _ ih => exact ih.read hmove hopen hdepth

theorem item_of_container {g : Frame} {n : Nat} {first : UInt8} {b rest : List UInt8}
    (h : Closes w L [g] n b rest)
    (hitem : ∀ {d k : Nat} {t : List UInt8}, Bencoded w (.body g) d k t →
      Bencoded w .item (d + 1) (k + 2) (first :: (t ++ [endByte])))
    (hfirst : numeric first = false) :
    ∃ t, Bencoded w .item (L - 1) (n + 1) t ∧ first :: b = t ++ rest ∧
      (IsString w t [] → rest ≠ []) := by
  cases h with
  | @cons _ _ d k m t b' _ hbody hdepth hclose =>
    cases hclose
    have hL : L - 1 = d + 1 := by
      simp only [List.length_nil] at hdepth
      omega
    refine ⟨first :: (t ++ [endByte]), ?_, by simp, fun hstring => ?_⟩
    · rw [hL]
      exact hitem hbody
    · rw [hstring.head] at hfirst
      cases hfirst

/-- What is read from an empty stack is a value. -/
theorem item_of_reads {n : Nat} {b rest : List UInt8} (h : Reads w L n b [] rest) :
    ∃ t, Bencoded w .item (L - 1) n t ∧ b = t ++ rest ∧ (IsString w t [] → rest ≠ []) := by
  obtain ⟨m, b', fs', rfl, hdepth, hmove, hscan⟩ := h
  have hclose := closes_of_scan hscan
  cases hmove with
  | int hfs ht =>
    cases hclose
    refine ⟨_, .int ht, rfl, fun hstring => ?_⟩
    cases ht with
    | mk sign digits hsign hpos hdigits hwidth => exact absurd hstring.head (by decide)
  | str ht hb =>
    cases hclose
    refine ⟨_, .str ht, rfl, fun hempty => ?_⟩
    rwa [ht.payload_eq, ← hempty.payload_eq, List.nil_append] at hb
  | list hfs => exact item_of_container hclose .list (by decide)
  | dict hfs => exact item_of_container hclose .dict (by decide)

/-! ## The scanner accepts what is in the grammar -/

theorem Reads.scan {fs : List Frame} {n : Nat} {b rest : List UInt8} (h : Reads w L n b fs rest)
    (hopen : fs ≠ []) : Scan w L n b fs rest := by
  obtain ⟨m, b', fs', rfl, hdepth, hmove, hscan⟩ := h
  exact .move hopen hdepth hmove hscan

/-- What the scanner does with a part that it comes to. -/
def Scanned (w : Widths) (L : Nat) : Part → Nat → Nat → List UInt8 → Prop
  | .item, d, n, t => ∀ (fs : List Frame) (m : Nat) (b rest : List UInt8),
      fs.head? ≠ some .key → fs.length + d < L → (IsString w t [] → b ≠ []) →
        Scan w L m b (advance fs) rest → Reads w L (n + m) (t ++ b) fs rest
  | .body f, d, n, t => ∀ (fs : List Frame) (m : Nat) (b rest : List UInt8),
      fs.length + 1 + d < L → Scan w L m b fs rest →
        Scan w L (n + 1 + m) (t ++ endByte :: b) (f :: fs) rest

theorem scanned_container {g : Frame} {d n : Nat} {t : List UInt8} {first : UInt8}
    (h : Scanned w L (.body g) d n t)
    (hmove : ∀ {fs : List Frame} {b : List UInt8}, fs.head? ≠ some .key →
      Move w (first :: b) fs b (g :: advance fs)) :
    Scanned w L .item (d + 1) (n + 2) (first :: (t ++ [endByte])) := by
  intro fs m b rest hfs hdepth _ hscan
  refine ⟨n + 1 + m, t ++ endByte :: b, g :: advance fs, by omega, by omega, ?_, ?_⟩
  · rw [List.cons_append, List.append_assoc, List.singleton_append]
    exact hmove hfs
  · apply h (advance fs) m b rest _ hscan
    rw [length_advance]
    omega

/-- An item inside a container is followed by what the container still holds. -/
theorem scanned_item {f : Frame} {d n m : Nat} {t u : List UInt8} (hf : f ≠ .key)
    (hitem : Scanned w L .item d n t) (hbody : Scanned w L (.body f.next) d m u) :
    Scanned w L (.body f) d (n + m) (t ++ u) := by
  intro fs k b rest hdepth hscan
  have hread := hitem (f :: fs) (m + 1 + k) (u ++ endByte :: b) rest
    (fun h => hf (by simpa using h)) hdepth (fun _ => by simp) (hbody fs k b rest hdepth hscan)
  rw [List.append_assoc, show n + m + 1 + k = n + (m + 1 + k) by omega]
  exact hread.scan (List.cons_ne_nil f fs)

theorem scanned_stop {f : Frame} {d : Nat} (hf : f ≠ .value) : Scanned w L (.body f) d 0 [] := by
  intro fs m b rest hdepth hscan
  rw [List.nil_append, show 0 + 1 + m = m + 1 by omega]
  exact .move (List.cons_ne_nil f fs) (by rw [List.length_cons]; omega) (.stop hf) hscan

theorem scanned_of_bencoded {part : Part} {d n : Nat} {t : List UInt8}
    (h : Bencoded w part d n t) : Scanned w L part d n t := by
  induction h with
  | int ht =>
    intro fs m b rest hfs hdepth _ hscan
    exact ⟨m, b, advance fs, by omega, by omega, .int hfs ht, hscan⟩
  | @str d t payload ht =>
    intro fs m b rest hfs hdepth hlast hscan
    refine ⟨m, b, advance fs, by omega, by omega, .str ht ?_, hscan⟩
    cases payload with
    | nil => exact hlast ht
    | cons c payload => simp
  | list _ ih => exact scanned_container ih .list
  | dict _ ih => exact scanned_container ih .dict
  | noMoreItems => exact scanned_stop (by decide)
  | anItem _ _ ihItem ihBody => exact scanned_item (by decide) ihItem ihBody
  | noMoreKeys => exact scanned_stop (by decide)
  | @aKey d n k payload t hk _ ih =>
    intro fs m b rest hdepth hscan
    have hmove : Move w (k ++ (t ++ endByte :: b)) (.key :: fs) (t ++ endByte :: b)
        (.value :: fs) := .str hk (by simp)
    rw [List.append_assoc, show 1 + n + 1 + m = n + 1 + m + 1 by omega]
    exact .move (List.cons_ne_nil _ fs) (by rw [List.length_cons]; omega) hmove
      (ih fs m b rest hdepth hscan)
  | aValue _ _ ihItem ihBody => exact scanned_item (by decide) ihItem ihBody

/-- From an empty stack the scanner reads exactly the values nested less than `L` deep;
an empty string is not read at the very end. -/
theorem reads_iff {n : Nat} {b rest : List UInt8} (hL : 0 < L) :
    Reads w L n b [] rest ↔
      ∃ t, Bencoded w .item (L - 1) n t ∧ b = t ++ rest ∧ (IsString w t [] → rest ≠ []) := by
  constructor
  · exact item_of_reads
  · rintro ⟨t, hitem, rfl, hlast⟩
    apply scanned_of_bencoded hitem [] 0 rest rest _ _ hlast .done
    · simp
    · rw [List.length_nil]
      omega

end TorrentApp.Foundation.Bencode
