import Mathlib.Data.List.Basic
import TorrentApp.Cosxcos.Gumbo

set_option autoImplicit false

/-!
# Rows of the post list

`+[Cosxcos handleTRows:]` folds over the anchors in the second cell of each table
row: an anchor whose text is a label sets a flag, any other sets the title if it has
one and the url if it has a link.  An Objective-C operation that raises is an error.
-/

namespace TorrentApp.Cosxcos

/-! ## Operations that raise -/

inductive Failure where
  /-- `[i]` beyond the end of an array -/
  | indexBeyondEnd (index count : Nat)
  /-- `@(NULL)` -/
  | boxedNull
  /-- `addObject:nil` -/
  | nilAdded
  /-- `gumbo_parse(NULL)` -/
  | nullParsed
  /-- a node at `NULL` is looked at -/
  | nullNode
  /-- a nil block is called -/
  | nilBlock
  deriving DecidableEq, Repr

theorem bind_eq_ok_iff {α β : Type} {x : Except Failure α} {f : α → Except Failure β} {b : β} :
    (x >>= f) = .ok b ↔ ∃ a, x = .ok a ∧ f a = .ok b := by
  cases x with
  | error failure =>
    constructor
    · intro h
      cases h
    · rintro ⟨a, h, -⟩
      cases h
  | ok a =>
    constructor
    · intro h
      exact ⟨a, rfl, h⟩
    · rintro ⟨a', h, hb⟩
      cases h
      exact hb

/-- `array[index]`. -/
def objectAt {α : Type*} (array : List α) (index : Nat) : Except Failure α :=
  match array[index]? with
  | none => .error (.indexBeyondEnd index array.length)
  | some object => .ok object

theorem objectAt_ok_iff {α : Type*} {array : List α} {index : Nat} {object : α} :
    objectAt array index = .ok object ↔ array[index]? = some object := by
  rw [objectAt]
  cases array[index]? <;> simp

/-- `[array addObject:object]`; `none` is nil. -/
def addObject {α : Type*} (array : List α) (object : Option α) : Except Failure (List α) :=
  match object with
  | none => .error .nilAdded
  | some object => .ok (array ++ [object])

/-- `-[OCGumboElement getAttribute:]`. -/
def GumboNode.getAttribute (node : GumboNode) (name : NSString) : Except Failure NSString :=
  match node.attribute? name with
  | none => .error .boxedNull
  | some value => .ok value

theorem getAttribute_ok_iff {node : GumboNode} {name value : NSString} :
    node.getAttribute name = .ok value ↔ node.attribute? name = some value := by
  rw [GumboNode.getAttribute]
  cases node.attribute? name <;> simp

/-! ## `handleTRows:` -/

/-- `CosxcosRowAttr`. -/
inductive CosxcosRowAttr where
  | top
  | torrent
  | hot
  | magnet
  | ed2k
  | baidu
  deriving DecidableEq, Repr

/-- The place of a flag in the option set. -/
def CosxcosRowAttr.bit : CosxcosRowAttr → Nat
  | .top => 0
  | .torrent => 1
  | .hot => 2
  | .magnet => 3
  | .ed2k => 4
  | .baidu => 5

def CosxcosRowAttr.flag (attr : CosxcosRowAttr) : Nat := 1 <<< attr.bit

/-- `[[self attributeForRow] objectForKey:text]`. -/
def attributeForRow (text : NSString) : Option CosxcosRowAttr :=
  List.lookup text
    [("置顶".toList, .top),
     ("百度".toList, .baidu),
     ("种子".toList, .torrent),
     ("热门".toList, .hot),
     ("磁力".toList, .magnet),
     ("电驴".toList, .ed2k)]

structure CosxcosRow where
  attr : Nat
  url : Option NSString
  title : Option NSString
  deriving DecidableEq, Repr

/-- `[[CosxcosRow alloc] init]`. -/
def CosxcosRow.init : CosxcosRow := ⟨0, none, none⟩

/-- The flag of a label anchor. -/
def GumboNode.label (a : GumboNode) : Option CosxcosRowAttr :=
  attributeForRow (stringByTrimmingWhitespace (textOf a))

/-- The body of the loop over the anchors. -/
def handleAnchor (cRow : CosxcosRow) (a : GumboNode) : Except Failure CosxcosRow :=
  match a.label with
  | some attr => .ok { cRow with attr := cRow.attr ||| attr.flag }
  | none => do
      let mut cRow := cRow
      if a.hasAttribute "title".toList then
        cRow := { cRow with title := some (← a.getAttribute "title".toList) }
      if a.hasAttribute "href".toList then
        cRow := { cRow with url := some (← a.getAttribute "href".toList) }
      return cRow

/-- The body of the loop over the rows. -/
def handleTRow (tRow : GumboNode) : Except Failure CosxcosRow := do
  let td ← objectAt (tRow.Query "td".toList) 1
  (td.Query "a".toList).foldlM handleAnchor .init

/-- `+[Cosxcos handleTRows:]`. -/
def handleTRows (tRows : List GumboNode) : Except Failure (List CosxcosRow) :=
  tRows.foldlM (fun cosxcosRows tRow => do addObject cosxcosRows (some (← handleTRow tRow))) []

/-- `-[RootList tableView:cellForRowAtIndexPath:]`: the title in the cell. -/
def cellTitle (rows : List CosxcosRow) (i : Nat) : Option NSString :=
  rows[i]?.bind CosxcosRow.title

/-- `-[RootList tableView:didSelectRowAtIndexPath:]`: the url of the page opened. -/
def selectedUrl (rows : List CosxcosRow) (i : Nat) : Option NSString :=
  rows[i]?.bind CosxcosRow.url

/-! ## What the loops compute -/

/-- What an anchor does to the row it is in. -/
def CosxcosRow.read (cRow : CosxcosRow) (a : GumboNode) : CosxcosRow :=
  match a.label with
  | some attr => { cRow with attr := cRow.attr ||| attr.flag }
  | none =>
      { cRow with
        title := (a.attribute? "title".toList).or cRow.title
        url := (a.attribute? "href".toList).or cRow.url }

theorem hasAttribute_eq (a : GumboNode) (name : NSString) :
    a.hasAttribute name = (a.attribute? name).isSome := by
  rw [GumboNode.hasAttribute, GumboNode.attribute?, Option.isSome_map]

/-- No attribute is read that is not there. -/
theorem handleAnchor_eq (cRow : CosxcosRow) (a : GumboNode) :
    handleAnchor cRow a = .ok (cRow.read a) := by
  rw [handleAnchor, CosxcosRow.read]
  cases a.label with
  | some attr => rfl
  | none =>
    simp only [hasAttribute_eq, GumboNode.getAttribute]
    cases a.attribute? "title".toList with
    | none =>
      cases a.attribute? "href".toList with
      | none => rfl
      | some href => rfl
    | some title =>
      cases a.attribute? "href".toList with
      | none => rfl
      | some href => rfl

theorem foldlM_handleAnchor (anchors : List GumboNode) (cRow : CosxcosRow) :
    anchors.foldlM handleAnchor cRow = .ok (anchors.foldl CosxcosRow.read cRow) := by
  induction anchors generalizing cRow with
  | nil => rfl
  | cons a rest ih =>
    rw [List.foldlM_cons, handleAnchor_eq]
    exact ih (cRow.read a)

/-- The anchors in the second cell of a row. -/
def anchors (tRow : GumboNode) : List GumboNode :=
  match (tRow.Query "td".toList)[1]? with
  | none => []
  | some td => td.Query "a".toList

/-- The row a table row is shown as. -/
def rowOf (tRow : GumboNode) : CosxcosRow := (anchors tRow).foldl CosxcosRow.read .init

/-- A row with a second cell is read to its end. -/
theorem handleTRow_eq {tRow : GumboNode} (h : 2 ≤ (tRow.Query "td".toList).length) :
    handleTRow tRow = .ok (rowOf tRow) := by
  have htd : (tRow.Query "td".toList)[1]? = some (tRow.Query "td".toList)[1] :=
    List.getElem?_eq_getElem h
  rw [handleTRow, objectAt, rowOf, anchors, htd]
  exact foldlM_handleAnchor _ _

theorem handleTRow_error {tRow : GumboNode} (h : ¬ 2 ≤ (tRow.Query "td".toList).length) :
    handleTRow tRow = .error (.indexBeyondEnd 1 (tRow.Query "td".toList).length) := by
  have htd : (tRow.Query "td".toList)[1]? = none := List.getElem?_eq_none (by omega)
  rw [handleTRow, objectAt, htd]
  rfl

theorem handleTRow_ok_iff {tRow : GumboNode} {cRow : CosxcosRow} :
    handleTRow tRow = .ok cRow ↔ 2 ≤ (tRow.Query "td".toList).length ∧ cRow = rowOf tRow := by
  by_cases h : 2 ≤ (tRow.Query "td".toList).length
  · rw [handleTRow_eq h]
    constructor
    · intro hrow
      cases hrow
      exact ⟨h, rfl⟩
    · rintro ⟨-, rfl⟩
      rfl
  · rw [handleTRow_error h]
    constructor
    · intro hrow
      cases hrow
    · rintro ⟨hcells, -⟩
      exact absurd hcells h

/-- One row for each table row, in order. -/
theorem handleTRows_ok_iff {tRows : List GumboNode} {rows : List CosxcosRow} :
    handleTRows tRows = .ok rows ↔
      (∀ tRow ∈ tRows, 2 ≤ (tRow.Query "td".toList).length) ∧ rows = tRows.map rowOf := by
  suffices h : ∀ cosxcosRows, tRows.foldlM
      (fun cosxcosRows tRow => do addObject cosxcosRows (some (← handleTRow tRow))) cosxcosRows =
        Except.ok rows ↔ (∀ tRow ∈ tRows, 2 ≤ (tRow.Query "td".toList).length) ∧
          rows = cosxcosRows ++ tRows.map rowOf from h []
  induction tRows with
  | nil =>
    intro cosxcosRows
    simp [pure, Except.pure, eq_comm]
  | cons tRow rest ih =>
    intro cosxcosRows
    rw [List.foldlM_cons]
    by_cases h : 2 ≤ (tRow.Query "td".toList).length
    · rw [handleTRow_eq h]
      change List.foldlM _ (cosxcosRows ++ [rowOf tRow]) rest = _ ↔ _
      rw [ih, List.forall_mem_cons, List.map_cons, List.append_assoc, List.singleton_append]
      simp only [h, true_and]
    · rw [handleTRow_error h, List.forall_mem_cons]
      constructor
      · intro hrows
        cases hrows
      · rintro ⟨⟨hcells, -⟩, -⟩
        exact absurd hcells h

/-! ## The flags -/

/-- A flag is set by the anchors whose label it is, and by no other. -/
theorem testBit_foldl_read (anchors : List GumboNode) (cRow : CosxcosRow) (k : Nat) :
    (anchors.foldl CosxcosRow.read cRow).attr.testBit k = true ↔
      cRow.attr.testBit k = true ∨ ∃ a ∈ anchors, ∃ attr, a.label = some attr ∧ attr.bit = k := by
  induction anchors generalizing cRow with
  | nil => simp
  | cons a rest ih =>
    rw [List.foldl_cons, ih, CosxcosRow.read]
    cases hlabel : a.label with
    | none => simp [hlabel]
    | some attr =>
      have hbit : attr.flag.testBit k = true ↔ attr.bit = k := by
        rw [CosxcosRowAttr.flag, Nat.shiftLeft_eq, Nat.one_mul, Nat.testBit_two_pow]
        exact decide_eq_true_iff
      simp only [Nat.testBit_or, Bool.or_eq_true, hbit, List.mem_cons, exists_eq_or_imp, hlabel,
        Option.some.injEq, exists_eq_left', or_assoc]

/-- Permuting or repeating anchors leaves the flags as they are. -/
theorem attr_foldl_read_congr {as bs : List GumboNode} (h : ∀ a, a ∈ as ↔ a ∈ bs) :
    (as.foldl CosxcosRow.read .init).attr = (bs.foldl CosxcosRow.read .init).attr := by
  apply Nat.eq_of_testBit_eq
  intro k
  rw [Bool.eq_iff_iff, testBit_foldl_read, testBit_foldl_read]
  simp only [h]

/-! ## Title and url -/

/-- An attribute of an anchor that is no label. -/
def GumboNode.postAttribute (name : NSString) (a : GumboNode) : Option NSString :=
  if a.label.isSome then none else a.attribute? name

theorem postAttribute_eq_some {name value : NSString} {a : GumboNode} :
    a.postAttribute name = some value ↔ a.label = none ∧ a.attribute? name = some value := by
  rw [GumboNode.postAttribute]
  cases a.label <;> simp

/-- A loop that overwrites what it keeps wherever `f` has a value keeps the last one. -/
theorem foldl_or_eq {α β : Type*} (f : α → Option β) (l : List α) (kept : Option β) :
    l.foldl (fun kept a => (f a).or kept) kept = (l.reverse.findSome? f).or kept := by
  induction l generalizing kept with
  | nil => rfl
  | cons a rest ih =>
    rw [List.foldl_cons, ih, List.reverse_cons, List.findSome?_append, Option.or_assoc]
    cases hf : f a with
    | none => simp [hf]
    | some value => simp [hf]

/-- The last anchor of `anchors` that is no label and has the attribute. -/
def LastWith (name : NSString) (anchors : List GumboNode) (a : GumboNode) : Prop :=
  ∃ before after, anchors = before ++ a :: after ∧ (a.postAttribute name).isSome ∧
    ∀ b ∈ after, b.postAttribute name = none

theorem LastWith.mem {name : NSString} {anchors : List GumboNode} {a : GumboNode}
    (h : LastWith name anchors a) : a ∈ anchors := by
  obtain ⟨before, after, rfl, -, -⟩ := h
  simp

theorem LastWith.isSome {name : NSString} {anchors : List GumboNode} {a : GumboNode}
    (h : LastWith name anchors a) : (a.postAttribute name).isSome := by
  obtain ⟨before, after, -, hsome, -⟩ := h
  exact hsome

/-- The value the loop keeps is that of the last anchor. -/
theorem findSome?_postAttribute_iff {name value : NSString} {anchors : List GumboNode} :
    anchors.reverse.findSome? (GumboNode.postAttribute name) = some value ↔
      ∃ a, LastWith name anchors a ∧ a.postAttribute name = some value := by
  rw [List.findSome?_eq_some_iff]
  constructor
  · rintro ⟨after, a, before, hsplit, hvalue, hnone⟩
    refine ⟨a, ⟨before.reverse, after.reverse, ?_, ?_, ?_⟩, hvalue⟩
    · rw [← List.reverse_reverse anchors, hsplit]
      simp
    · rw [hvalue]
      rfl
    · intro b hb
      exact hnone b (List.mem_reverse.mp hb)
  · rintro ⟨a, ⟨before, after, rfl, -, hnone⟩, hvalue⟩
    refine ⟨after.reverse, a, before.reverse, by simp, hvalue, ?_⟩
    intro b hb
    exact hnone b (List.mem_reverse.mp hb)

/-- A field that every anchor overwrites if it has the attribute ends up with that of
the last one. -/
theorem foldl_read_iff {name value : NSString} (field : CosxcosRow → Option NSString)
    (hread : ∀ (cRow : CosxcosRow) (a : GumboNode),
      field (cRow.read a) = (a.postAttribute name).or (field cRow))
    (hinit : field .init = none) {anchors : List GumboNode} :
    field (anchors.foldl CosxcosRow.read .init) = some value ↔
      ∃ a, LastWith name anchors a ∧ a.postAttribute name = some value := by
  have hfold : ∀ cRow, field (anchors.foldl CosxcosRow.read cRow) =
      anchors.foldl (fun kept a => (a.postAttribute name).or kept) (field cRow) := by
    induction anchors with
    | nil =>
      intro cRow
      rfl
    | cons a rest ih =>
      intro cRow
      rw [List.foldl_cons, ih, List.foldl_cons, hread]
  rw [hfold, hinit, foldl_or_eq, Option.or_none]
  exact findSome?_postAttribute_iff

theorem title_rowOf_iff {tRow : GumboNode} {title : NSString} :
    (rowOf tRow).title = some title ↔
      ∃ a, LastWith "title".toList (anchors tRow) a ∧
        a.postAttribute "title".toList = some title := by
  refine foldl_read_iff CosxcosRow.title (fun cRow a => ?_) rfl
  rw [CosxcosRow.read, GumboNode.postAttribute]
  cases a.label with
  | none => rfl
  | some attr => rfl

theorem url_rowOf_iff {tRow : GumboNode} {url : NSString} :
    (rowOf tRow).url = some url ↔
      ∃ a, LastWith "href".toList (anchors tRow) a ∧ a.postAttribute "href".toList = some url := by
  refine foldl_read_iff CosxcosRow.url (fun cRow a => ?_) rfl
  rw [CosxcosRow.read, GumboNode.postAttribute]
  cases a.label with
  | none => rfl
  | some attr => rfl

/-! ## A row describes one post -/

/-- The last title and the last link of the cell are also those of one anchor. -/
def OnePost (anchors : List GumboNode) : Prop :=
  ∀ a b, LastWith "title".toList anchors a → LastWith "href".toList anchors b →
    ∃ c ∈ anchors, c.postAttribute "title".toList = a.postAttribute "title".toList ∧
      c.postAttribute "href".toList = b.postAttribute "href".toList

/-- The rows scraped from `tRows` describe one post each. -/
structure DescribesPosts (tRows : List GumboNode) (rows : List CosxcosRow) : Prop where
  length : rows.length = tRows.length
  order : ∀ (i : Nat) (tRow : GumboNode), tRows[i]? = some tRow →
    ∃ cRow, rows[i]? = some cRow ∧ handleTRow tRow = .ok cRow
  attr : ∀ (i : Nat) (tRow : GumboNode) (cRow : CosxcosRow), tRows[i]? = some tRow →
    rows[i]? = some cRow → ∀ k, cRow.attr.testBit k = true ↔
      ∃ a ∈ anchors tRow, ∃ attr, a.label = some attr ∧ attr.bit = k
  /-- anchors may be permuted and repeated -/
  attr_congr : ∀ (i : Nat) (tRow other : GumboNode) (cRow cOther : CosxcosRow),
    tRows[i]? = some tRow → rows[i]? = some cRow → handleTRow other = .ok cOther →
      (∀ a, a ∈ anchors other ↔ a ∈ anchors tRow) → cOther.attr = cRow.attr
  /-- the page opened is the post whose title is shown -/
  post : ∀ (i : Nat) (tRow : GumboNode) (title url : NSString), tRows[i]? = some tRow →
    cellTitle rows i = some title → selectedUrl rows i = some url →
      ∃ a ∈ anchors tRow, a.label = none ∧ a.attribute? "title".toList = some title ∧
        a.attribute? "href".toList = some url

section Described

variable {tRows : List GumboNode}

theorem getElem?_map_rowOf {i : Nat} {tRow : GumboNode} (hi : tRows[i]? = some tRow) :
    (tRows.map rowOf)[i]? = some (rowOf tRow) := by
  rw [List.getElem?_map, hi, Option.map_some]

/-- The title shown and the page opened pick the anchors of `OnePost`. -/
theorem DescribesPosts.onePost (h : DescribesPosts tRows (tRows.map rowOf)) {tRow : GumboNode}
    (htRow : tRow ∈ tRows) : OnePost (anchors tRow) := by
  intro a b ha hb
  obtain ⟨i, hi⟩ := List.mem_iff_getElem?.mp htRow
  obtain ⟨title, htitle⟩ := Option.isSome_iff_exists.mp ha.isSome
  obtain ⟨url, hurl⟩ := Option.isSome_iff_exists.mp hb.isSome
  have hshown : cellTitle (tRows.map rowOf) i = some title := by
    rw [cellTitle, getElem?_map_rowOf hi]
    exact title_rowOf_iff.mpr ⟨a, ha, htitle⟩
  have hopened : selectedUrl (tRows.map rowOf) i = some url := by
    rw [selectedUrl, getElem?_map_rowOf hi]
    exact url_rowOf_iff.mpr ⟨b, hb, hurl⟩
  obtain ⟨c, hc, hlabel, hctitle, hcurl⟩ := h.post i tRow title url hi hshown hopened
  refine ⟨c, hc, ?_, ?_⟩
  · rw [htitle]
    exact postAttribute_eq_some.mpr ⟨hlabel, hctitle⟩
  · rw [hurl]
    exact postAttribute_eq_some.mpr ⟨hlabel, hcurl⟩

theorem describesPosts_map_rowOf (h : ∀ tRow ∈ tRows, 2 ≤ (tRow.Query "td".toList).length)
    (hposts : ∀ tRow ∈ tRows, OnePost (anchors tRow)) :
    DescribesPosts tRows (tRows.map rowOf) where
  length := List.length_map rowOf
  order i tRow hi :=
    ⟨rowOf tRow, getElem?_map_rowOf hi, handleTRow_eq (h tRow (List.mem_of_getElem? hi))⟩
  attr i tRow cRow hi hrow k := by
    obtain rfl := Option.some.inj ((getElem?_map_rowOf hi).symm.trans hrow)
    rw [rowOf, testBit_foldl_read]
    simp [CosxcosRow.init]
  attr_congr i tRow other cRow cOther hi hrow hother hsame := by
    obtain rfl := Option.some.inj ((getElem?_map_rowOf hi).symm.trans hrow)
    obtain ⟨-, rfl⟩ := handleTRow_ok_iff.mp hother
    exact attr_foldl_read_congr hsame
  post i tRow title url hi htitle hurl := by
    rw [cellTitle, getElem?_map_rowOf hi] at htitle
    rw [selectedUrl, getElem?_map_rowOf hi] at hurl
    obtain ⟨a, ha, hatitle⟩ := title_rowOf_iff.mp htitle
    obtain ⟨b, hb, hburl⟩ := url_rowOf_iff.mp hurl
    obtain ⟨c, hc, hctitle, hcurl⟩ := hposts tRow (List.mem_of_getElem? hi) a b ha hb
    rw [hatitle] at hctitle
    rw [hburl] at hcurl
    obtain ⟨hlabel, hctitle⟩ := postAttribute_eq_some.mp hctitle
    exact ⟨c, hc, hlabel, hctitle, (postAttribute_eq_some.mp hcurl).2⟩

end Described

/-- Rows with two cells are scraped into rows that describe one post each exactly when
the last title and the last link of each second cell come together. -/
theorem handleTRows_describe_posts_iff {tRows : List GumboNode}
    (h : ∀ tRow ∈ tRows, 2 ≤ (tRow.Query "td".toList).length) :
    (∃ rows, handleTRows tRows = .ok rows ∧ DescribesPosts tRows rows) ↔
      ∀ tRow ∈ tRows, OnePost (anchors tRow) := by
  constructor
  · rintro ⟨rows, hrows, hdescribes⟩ tRow htRow
    obtain ⟨-, rfl⟩ := handleTRows_ok_iff.mp hrows
    exact hdescribes.onePost htRow
  · intro hposts
    exact ⟨tRows.map rowOf, handleTRows_ok_iff.mpr ⟨h, rfl⟩, describesPosts_map_rowOf h hposts⟩

/-- An anchor around a text. -/
def anchorAround (address : Nat) (attributes : List GumboAttribute) (text : NSString) :
    GumboNode :=
  .element address .a attributes [.text (address + 1) .text text]

/-- A table row with the anchors in its second cell. -/
def rowAround (as : List GumboNode) : GumboNode :=
  .element 0 .tr [] [.element 1 .td [] [], .element 2 .td [] as]

def labelAnchor : GumboNode := anchorAround 10 [⟨"href".toList, "/hot".toList⟩] "热门".toList

def postAnchor : GumboNode :=
  anchorAround 20 [⟨"title".toList, "post".toList⟩, ⟨"href".toList, "/1.html".toList⟩]
    "post".toList

/-- A link to the second page of the post. -/
def pageAnchor : GumboNode :=
  anchorAround 30 [⟨"href".toList, "/1.html?page=2".toList⟩] "2".toList

theorem handleTRows_describe_posts_labelled :
    ∃ rows, handleTRows [rowAround [labelAnchor, postAnchor]] = .ok rows ∧
      DescribesPosts [rowAround [labelAnchor, postAnchor]] rows := by
  have hcells : ∀ tRow ∈ [rowAround [labelAnchor, postAnchor]],
      2 ≤ (tRow.Query "td".toList).length := by
    intro tRow htRow
    obtain rfl := List.mem_singleton.mp htRow
    decide
  refine (handleTRows_describe_posts_iff hcells).mpr ?_
  intro tRow htRow a b ha hb
  obtain rfl := List.mem_singleton.mp htRow
  have hpost : ∀ {name : NSString} {c : GumboNode},
      LastWith name [labelAnchor, postAnchor] c → c = postAnchor := by
    intro name c hc
    rcases List.mem_pair.mp hc.mem with rfl | rfl
    · exact absurd hc.isSome Bool.false_ne_true
    · rfl
  obtain rfl := hpost ha
  obtain rfl := hpost hb
  exact ⟨postAnchor, ha.mem, rfl, rfl⟩

/-- The title shown is that of the post, the page opened is its second. -/
theorem handleTRows_not_describe_posts_paged :
    (∀ tRow ∈ [rowAround [postAnchor, pageAnchor]], 2 ≤ (tRow.Query "td".toList).length) ∧
      ¬ ∃ rows, handleTRows [rowAround [postAnchor, pageAnchor]] = .ok rows ∧
        DescribesPosts [rowAround [postAnchor, pageAnchor]] rows := by
  constructor
  · intro tRow htRow
    obtain rfl := List.mem_singleton.mp htRow
    decide
  · rintro ⟨rows, hrows, hdescribes⟩
    have hrow : handleTRows [rowAround [postAnchor, pageAnchor]] =
        .ok [⟨0, some "/1.html?page=2".toList, some "post".toList⟩] := rfl
    obtain rfl := Except.ok.inj (hrow.symm.trans hrows)
    obtain ⟨a, ha, -, htitle, hurl⟩ := hdescribes.post 0 _ _ _ rfl rfl rfl
    have ha : a ∈ [postAnchor, pageAnchor] := ha
    rcases List.mem_pair.mp ha with rfl | rfl
    · exact absurd hurl (by decide)
    · exact absurd htitle (by decide)

end TorrentApp.Cosxcos
