import TorrentApp.Foundation.Bencode

set_option autoImplicit false

/-!
# Bencoded values as trees

The concrete syntax of the grammar: a `Tree` keeps the sign and the digits of an
integer and the length in front of a string as they are written, so a tree stands
for exactly one text.  The texts of trees are the values of `Bencoded`, and no text
of a tree begins another.
-/

namespace TorrentApp.Foundation.Bencode

/-! ## Trees -/

/-- An integer as it is written between `i` and `e`. -/
structure IntText (w : Widths) where
  negative : Bool
  digits : List UInt8
  digits_ne : digits ≠ []
  digits_numeric : ∀ c ∈ digits, numeric c = true
  digits_le : digits.length ≤ w.int
  deriving DecidableEq

/-- A string as it is written: the digits of its length, and what it holds. -/
structure StrText (w : Widths) where
  header : List UInt8
  payload : List UInt8
  header_ne : header ≠ []
  header_numeric : ∀ c ∈ header, numeric c = true
  header_le : header.length ≤ w.header
  header_eq : decimal 0 header = payload.length
  deriving DecidableEq

/-- A value as it is written; a dictionary keeps the order of its entries and every
entry of a key. -/
inductive Tree (w : Widths) where
  | int (text : IntText w)
  | str (text : StrText w)
  | list (items : List (Tree w))
  | dict (entries : List (StrText w × Tree w))

variable {w : Widths}

/-- What is written in front of the digits. -/
def IntText.sign (i : IntText w) : List UInt8 := if i.negative then [minusByte] else []

def IntText.bytes (i : IntText w) : List UInt8 := intByte :: (i.sign ++ i.digits ++ [endByte])

/-- The number that is written. -/
def IntText.value (i : IntText w) : Int :=
  if i.negative then -(decimal 0 i.digits : Int) else decimal 0 i.digits

def StrText.bytes (s : StrText w) : List UInt8 := s.header ++ colonByte :: s.payload

mutual

def Tree.bytes : Tree w → List UInt8
  | .int text => text.bytes
  | .str text => text.bytes
  | .list items => listByte :: (itemsBytes items ++ [endByte])
  | .dict entries => dictByte :: (entriesBytes entries ++ [endByte])

def itemsBytes : List (Tree w) → List UInt8
  | [] => []
  | t :: ts => t.bytes ++ itemsBytes ts

def entriesBytes : List (StrText w × Tree w) → List UInt8
  | [] => []
  | (k, t) :: rest => k.bytes ++ (t.bytes ++ entriesBytes rest)

end

mutual

/-- How many containers are open at the deepest point. -/
def Tree.depth : Tree w → Nat
  | .int _ => 0
  | .str _ => 0
  | .list items => itemsDepth items + 1
  | .dict entries => entriesDepth entries + 1

def itemsDepth : List (Tree w) → Nat
  | [] => 0
  | t :: ts => max t.depth (itemsDepth ts)

def entriesDepth : List (StrText w × Tree w) → Nat
  | [] => 0
  | (_, t) :: rest => max t.depth (entriesDepth rest)

end

mutual

/-- The number of tokens. -/
def Tree.count : Tree w → Nat
  | .int _ => 1
  | .str _ => 1
  | .list items => itemsCount items + 2
  | .dict entries => entriesCount entries + 2

def itemsCount : List (Tree w) → Nat
  | [] => 0
  | t :: ts => t.count + itemsCount ts

def entriesCount : List (StrText w × Tree w) → Nat
  | [] => 0
  | (_, t) :: rest => 1 + (t.count + entriesCount rest)

end

theorem Tree.count_pos (t : Tree w) : 0 < t.count := by
  cases t <;> simp [Tree.count]

/-- The keys and the values of a dictionary in turn. -/
def entryItems : List (StrText w × Tree w) → List (Tree w)
  | [] => []
  | (k, t) :: rest => .str k :: t :: entryItems rest

theorem length_entryItems (es : List (StrText w × Tree w)) :
    (entryItems es).length = 2 * es.length := by
  induction es with
  | nil => rfl
  | cons e es ih =>
    rw [entryItems, List.length_cons, List.length_cons, ih, List.length_cons]
    omega

theorem entriesBytes_eq (es : List (StrText w × Tree w)) :
    entriesBytes es = itemsBytes (entryItems es) := by
  induction es with
  | nil => rfl
  | cons e es ih =>
    rw [entriesBytes, ih]
    rfl

/-! ## The texts of trees are the values of the grammar -/

theorem IntText.isInt (i : IntText w) : IsInt w i.bytes := by
  refine .mk i.sign i.digits ?_ i.digits_ne i.digits_numeric i.digits_le
  rw [IntText.sign]
  cases i.negative
  · exact Or.inl rfl
  · exact Or.inr rfl

theorem StrText.isString (s : StrText w) : IsString w s.bytes s.payload :=
  .mk s.header s.payload s.header_ne s.header_numeric s.header_le s.header_eq

theorem IsInt.exists_text {t : List UInt8} (h : IsInt w t) : ∃ i : IntText w, i.bytes = t := by
  cases h with
  | mk sign digits hsign hpos hdigits hwidth =>
    rcases hsign with rfl | rfl
    · exact ⟨⟨false, digits, hpos, hdigits, hwidth⟩, rfl⟩
    · exact ⟨⟨true, digits, hpos, hdigits, hwidth⟩, rfl⟩

theorem IsString.exists_text {t payload : List UInt8} (h : IsString w t payload) :
    ∃ s : StrText w, s.bytes = t ∧ s.payload = payload := by
  cases h with
  | mk header payload hpos hdigits hwidth hlength =>
    exact ⟨⟨header, payload, hpos, hdigits, hwidth, hlength⟩, rfl, rfl⟩

mutual

theorem Tree.bencoded (t : Tree w) {d : Nat} (hd : t.depth ≤ d) :
    Bencoded w .item d t.count t.bytes := by
  cases t with
  | int text => exact .int text.isInt
  | str text => exact .str text.isString
  | list items =>
    rw [Tree.depth] at hd
    obtain ⟨d, rfl⟩ : ∃ d', d = d' + 1 := ⟨d - 1, by omega⟩
    exact .list (items_bencoded items (by omega))
  | dict entries =>
    rw [Tree.depth] at hd
    obtain ⟨d, rfl⟩ : ∃ d', d = d' + 1 := ⟨d - 1, by omega⟩
    exact .dict (entries_bencoded entries (by omega))

theorem items_bencoded (ts : List (Tree w)) {d : Nat} (hd : itemsDepth ts ≤ d) :
    Bencoded w (.body .list) d (itemsCount ts) (itemsBytes ts) := by
  cases ts with
  | nil => exact .noMoreItems
  | cons t ts =>
    rw [itemsDepth] at hd
    exact .anItem (t.bencoded (by omega)) (items_bencoded ts (by omega))

theorem entries_bencoded (es : List (StrText w × Tree w)) {d : Nat} (hd : entriesDepth es ≤ d) :
    Bencoded w (.body .key) d (entriesCount es) (entriesBytes es) := by
  cases es with
  | nil => exact .noMoreKeys
  | cons e es =>
    obtain ⟨k, t⟩ := e
    rw [entriesDepth] at hd
    exact .aKey k.isString (.aValue (t.bencoded (by omega)) (entries_bencoded es (by omega)))

end

/-- The part of a tree that a derivation of `part` is the text of. -/
def IsTextOf (w : Widths) : Part → Nat → Nat → List UInt8 → Prop
  | .item, d, n, b => ∃ t : Tree w, t.bytes = b ∧ t.count = n ∧ t.depth ≤ d
  | .body .list, d, n, b =>
      ∃ ts : List (Tree w), itemsBytes ts = b ∧ itemsCount ts = n ∧ itemsDepth ts ≤ d
  | .body .key, d, n, b =>
      ∃ es : List (StrText w × Tree w),
        entriesBytes es = b ∧ entriesCount es = n ∧ entriesDepth es ≤ d
  | .body .value, d, n, b =>
      ∃ (t : Tree w) (es : List (StrText w × Tree w)),
        t.bytes ++ entriesBytes es = b ∧ t.count + entriesCount es = n ∧
          max t.depth (entriesDepth es) ≤ d

theorem Bencoded.isTextOf {part : Part} {d n : Nat} {b : List UInt8}
    (h : Bencoded w part d n b) : IsTextOf w part d n b := by
  induction h with
  | int ht =>
    obtain ⟨i, rfl⟩ := ht.exists_text
    exact ⟨.int i, rfl, rfl, Nat.zero_le _⟩
  | str ht =>
    obtain ⟨s, rfl, -⟩ := ht.exists_text
    exact ⟨.str s, rfl, rfl, Nat.zero_le _⟩
  | list _ ih =>
    obtain ⟨ts, rfl, rfl, hd⟩ := ih
    exact ⟨.list ts, rfl, rfl, Nat.succ_le_succ hd⟩
  | dict _ ih =>
    obtain ⟨es, rfl, rfl, hd⟩ := ih
    exact ⟨.dict es, rfl, rfl, Nat.succ_le_succ hd⟩
  | noMoreItems => exact ⟨[], rfl, rfl, Nat.zero_le _⟩
  | anItem _ _ ihItem ihBody =>
    obtain ⟨t, rfl, rfl, ht⟩ := ihItem
    obtain ⟨ts, rfl, rfl, hts⟩ := ihBody
    exact ⟨t :: ts, rfl, rfl, Nat.max_le.mpr ⟨ht, hts⟩⟩
  | noMoreKeys => exact ⟨[], rfl, rfl, Nat.zero_le _⟩
  | aKey hk _ ih =>
    obtain ⟨k, rfl, -⟩ := hk.exists_text
    obtain ⟨t, es, rfl, rfl, hd⟩ := ih
    exact ⟨(k, t) :: es, rfl, rfl, hd⟩
  | aValue _ _ ihItem ihBody =>
    obtain ⟨t, rfl, rfl, ht⟩ := ihItem
    obtain ⟨es, rfl, rfl, hes⟩ := ihBody
    exact ⟨t, es, rfl, rfl, Nat.max_le.mpr ⟨ht, hes⟩⟩

/-- The values of the grammar are the texts of the trees. -/
theorem bencoded_iff_tree {d n : Nat} {b : List UInt8} :
    Bencoded w .item d n b ↔ ∃ t : Tree w, t.bytes = b ∧ t.count = n ∧ t.depth ≤ d := by
  constructor
  · exact Bencoded.isTextOf
  · rintro ⟨t, rfl, rfl, hd⟩
    exact t.bencoded hd

/-! ## A text belongs to one tree -/

/-- Digits end where something else begins. -/
theorem digits_append_inj {ds ds' r r' : List UInt8} {c c' : UInt8}
    (hds : ∀ x ∈ ds, numeric x = true) (hds' : ∀ x ∈ ds', numeric x = true)
    (hc : numeric c = false) (hc' : numeric c' = false)
    (h : ds ++ c :: r = ds' ++ c' :: r') : ds = ds' ∧ c = c' ∧ r = r' := by
  induction ds generalizing ds' with
  | nil =>
    cases ds' with
    | nil =>
      obtain ⟨rfl, rfl⟩ := List.cons.inj h
      exact ⟨rfl, rfl, rfl⟩
    | cons x ds' =>
      obtain ⟨rfl, -⟩ := List.cons.inj h
      rw [hds' c List.mem_cons_self] at hc
      cases hc
  | cons x ds ih =>
    cases ds' with
    | nil =>
      obtain ⟨rfl, -⟩ := List.cons.inj h
      rw [hds x List.mem_cons_self] at hc'
      cases hc'
    | cons x' ds' =>
      obtain ⟨rfl, hrest⟩ := List.cons.inj h
      obtain ⟨rfl, hcr⟩ := ih (fun y hy => hds y (List.mem_cons_of_mem _ hy))
        (fun y hy => hds' y (List.mem_cons_of_mem _ hy)) hrest
      exact ⟨rfl, hcr⟩

theorem IntText.bytes_append_inj {i i' : IntText w} {r r' : List UInt8}
    (h : i.bytes ++ r = i'.bytes ++ r') : i = i' ∧ r = r' := by
  obtain ⟨negative, digits, hne, hdigits, hle⟩ := i
  obtain ⟨negative', digits', hne', hdigits', hle'⟩ := i'
  -- a minus is not a digit, so both are negative or none is
  have key : negative = negative' ∧ digits = digits' ∧ r = r' := by
    cases negative <;> cases negative' <;>
      simp only [IntText.bytes, IntText.sign, Bool.false_eq_true, if_true, if_false,
        List.nil_append, List.append_assoc, List.cons_append, List.cons.injEq, true_and] at h
    · obtain ⟨rfl, -, rfl⟩ := digits_append_inj hdigits hdigits' (by decide) (by decide) h
      exact ⟨rfl, rfl, rfl⟩
    · obtain ⟨c, rest, rfl⟩ := List.exists_cons_of_ne_nil hne
      obtain ⟨rfl, -⟩ := List.cons.inj h
      exact absurd (hdigits minusByte List.mem_cons_self) (by decide)
    · obtain ⟨c, rest, rfl⟩ := List.exists_cons_of_ne_nil hne'
      obtain ⟨rfl, -⟩ := List.cons.inj h
      exact absurd (hdigits' minusByte List.mem_cons_self) (by decide)
    · obtain ⟨rfl, -, rfl⟩ := digits_append_inj hdigits hdigits' (by decide) (by decide) h
      exact ⟨rfl, rfl, rfl⟩
  obtain ⟨rfl, rfl, rfl⟩ := key
  exact ⟨rfl, rfl⟩

theorem StrText.bytes_append_inj {s s' : StrText w} {r r' : List UInt8}
    (h : s.bytes ++ r = s'.bytes ++ r') : s = s' ∧ r = r' := by
  obtain ⟨header, payload, hne, hdigits, hle, heq⟩ := s
  obtain ⟨header', payload', hne', hdigits', hle', heq'⟩ := s'
  simp only [StrText.bytes, List.append_assoc, List.cons_append] at h
  obtain ⟨rfl, -, hrest⟩ := digits_append_inj hdigits hdigits' (by decide) (by decide) h
  obtain ⟨rfl, rfl⟩ := List.append_inj hrest (heq.symm.trans heq')
  exact ⟨rfl, rfl⟩

/-- The four kinds of values. -/
inductive Kind where
  | int
  | str
  | list
  | dict
  deriving DecidableEq, Repr

def Tree.kind : Tree w → Kind
  | .int _ => .int
  | .str _ => .str
  | .list _ => .list
  | .dict _ => .dict

/-- The kind of the value that begins with `c`. -/
def kindOf (c : UInt8) : Option Kind :=
  if numeric c then some .str
  else if c = intByte then some .int
  else if c = listByte then some .list
  else if c = dictByte then some .dict
  else none

theorem StrText.bytes_eq_cons (s : StrText w) :
    ∃ c rest, s.bytes = c :: rest ∧ kindOf c = some .str := by
  obtain ⟨c, rest, hheader⟩ := List.exists_cons_of_ne_nil s.header_ne
  refine ⟨c, rest ++ colonByte :: s.payload, ?_, ?_⟩
  · rw [StrText.bytes, hheader, List.cons_append]
  · rw [kindOf, if_pos (s.header_numeric c (hheader ▸ List.mem_cons_self))]

theorem Tree.bytes_eq_cons (t : Tree w) :
    ∃ c rest, t.bytes = c :: rest ∧ kindOf c = some t.kind := by
  cases t with
  | int text => exact ⟨intByte, _, rfl, rfl⟩
  | str text => exact text.bytes_eq_cons
  | list items => exact ⟨listByte, _, rfl, rfl⟩
  | dict entries => exact ⟨dictByte, _, rfl, rfl⟩

/-- The end of a container does not begin a value. -/
theorem Tree.bytes_append_ne_end (t : Tree w) {u r : List UInt8} :
    t.bytes ++ u ≠ endByte :: r := by
  obtain ⟨c, rest, hbytes, hkind⟩ := t.bytes_eq_cons
  rw [hbytes]
  intro h
  obtain ⟨rfl, -⟩ := List.cons.inj h
  cases hkind

theorem Tree.kind_eq {t t' : Tree w} {r r' : List UInt8} (h : t.bytes ++ r = t'.bytes ++ r') :
    t.kind = t'.kind := by
  obtain ⟨c, rest, hbytes, hkind⟩ := t.bytes_eq_cons
  obtain ⟨c', rest', hbytes', hkind'⟩ := t'.bytes_eq_cons
  rw [hbytes, hbytes'] at h
  obtain ⟨rfl, -⟩ := List.cons.inj h
  exact Option.some.inj (hkind.symm.trans hkind')

mutual

/-- No text of a tree begins another, and a text is one tree's. -/
theorem Tree.bytes_append_inj (t t' : Tree w) {r r' : List UInt8}
    (h : t.bytes ++ r = t'.bytes ++ r') : t = t' ∧ r = r' := by
  have hkind := Tree.kind_eq h
  cases t with
  | int i =>
    cases t' <;> cases hkind
    obtain ⟨rfl, hrest⟩ := IntText.bytes_append_inj h
    exact ⟨rfl, hrest⟩
  | str s =>
    cases t' <;> cases hkind
    obtain ⟨rfl, hrest⟩ := StrText.bytes_append_inj h
    exact ⟨rfl, hrest⟩
  | list ts =>
    cases t' <;> cases hkind
    rename_i ts'
    simp only [Tree.bytes, List.cons_append, List.append_assoc, List.cons.injEq, true_and] at h
    obtain ⟨rfl, hrest⟩ := itemsBytes_append_inj ts ts' h
    exact ⟨rfl, hrest⟩
  | dict es =>
    cases t' <;> cases hkind
    rename_i es'
    simp only [Tree.bytes, List.cons_append, List.append_assoc, List.cons.injEq, true_and] at h
    obtain ⟨rfl, hrest⟩ := entriesBytes_append_inj es es' h
    exact ⟨rfl, hrest⟩

theorem itemsBytes_append_inj (ts ts' : List (Tree w)) {r r' : List UInt8}
    (h : itemsBytes ts ++ endByte :: r = itemsBytes ts' ++ endByte :: r') :
    ts = ts' ∧ r = r' := by
  cases ts with
  | nil =>
    cases ts' with
    | nil => exact ⟨rfl, (List.cons.inj h).2⟩
    | cons t' ts' =>
      rw [itemsBytes, itemsBytes, List.append_assoc] at h
      exact absurd h.symm t'.bytes_append_ne_end
  | cons t ts =>
    cases ts' with
    | nil =>
      rw [itemsBytes, itemsBytes, List.append_assoc] at h
      exact absurd h t.bytes_append_ne_end
    | cons t' ts' =>
      rw [itemsBytes, itemsBytes, List.append_assoc, List.append_assoc] at h
      obtain ⟨rfl, hrest⟩ := Tree.bytes_append_inj t t' h
      obtain ⟨rfl, hr⟩ := itemsBytes_append_inj ts ts' hrest
      exact ⟨rfl, hr⟩

theorem entriesBytes_append_inj (es es' : List (StrText w × Tree w)) {r r' : List UInt8}
    (h : entriesBytes es ++ endByte :: r = entriesBytes es' ++ endByte :: r') :
    es = es' ∧ r = r' := by
  have hend : ∀ (k : StrText w) (u : List UInt8), k.bytes ++ u ≠ endByte :: r ∧
      k.bytes ++ u ≠ endByte :: r' := fun k u =>
    ⟨(Tree.str k).bytes_append_ne_end, (Tree.str k).bytes_append_ne_end⟩
  cases es with
  | nil =>
    cases es' with
    | nil => exact ⟨rfl, (List.cons.inj h).2⟩
    | cons e' es' =>
      obtain ⟨k', t'⟩ := e'
      rw [entriesBytes, entriesBytes, List.append_assoc] at h
      exact absurd h.symm (hend k' _).1
  | cons e es =>
    obtain ⟨k, t⟩ := e
    cases es' with
    | nil =>
      rw [entriesBytes, entriesBytes, List.append_assoc] at h
      exact absurd h (hend k _).2
    | cons e' es' =>
      obtain ⟨k', t'⟩ := e'
      simp only [entriesBytes, List.append_assoc] at h
      obtain ⟨rfl, hvalue⟩ := StrText.bytes_append_inj h
      obtain ⟨rfl, hrest⟩ := Tree.bytes_append_inj t t' hvalue
      obtain ⟨rfl, hr⟩ := entriesBytes_append_inj es es' hrest
      exact ⟨rfl, hr⟩

end

theorem Tree.bytes_injective {t t' : Tree w} (h : t.bytes = t'.bytes) : t = t' := by
  have hnil : t.bytes ++ [] = t'.bytes ++ [] := by rw [h]
  exact (t.bytes_append_inj t' hnil).1

end TorrentApp.Foundation.Bencode
