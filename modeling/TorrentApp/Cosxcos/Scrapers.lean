import Mathlib.Data.List.Nodup
import TorrentApp.Cosxcos.Rows

set_option autoImplicit false

/-!
# The scrapers

The completion handlers of `+[Cosxcos loadPage:complete:]` and
`+[Cosxcos loadDetail:complete:]`.  The HTML parser is a parameter: the handlers have
to live with any tree it returns.  A handler's result is the list of the calls of
`complete` it leaves on the main queue, or the failure that ends it.
-/

namespace TorrentApp.Cosxcos

/-! ## Responses -/

/-- What a data task hands to its completion handler. -/
inductive Response where
  | networkError
  | body (data : List UInt8)
  deriving DecidableEq, Repr

/-- `-[NSString initWithData:encoding:]` with `NSUTF8StringEncoding`; `none` is nil. -/
def initWithData (data : List UInt8) : Option NSString :=
  (String.fromUTF8? ⟨data.toArray⟩).map String.toList

/-- The C string of `UTF8String`, which its reader takes to end at the first NUL. -/
def UTF8String (html : NSString) : NSString := html.takeWhile (· ≠ '\x00')

/-- `-[OCGumboDocument initWithHTMLString:]`. -/
def initWithHTMLString (gumbo_parse : NSString → GumboNode) (html : Option NSString) :
    Except Failure GumboNode :=
  match html with
  | none => .error .nullParsed
  | some html => .ok (gumbo_parse (UTF8String html))

/-- `-[OCGumboDocument body]`. -/
def GumboNode.body (document : GumboNode) : Except Failure GumboNode :=
  match first_element_by_tag .body document with
  | none => .error .nullNode
  | some body => .ok body

/-- `complete(argument)` on the main queue; `complete` says whether there is a block. -/
def callBlock {α : Type*} (complete : Bool) (argument : α) : Except Failure (List α) :=
  if complete then .ok [argument] else .error .nilBlock

/-! ## The list page -/

/-- `[array removeObject:object]`: the objects equal to it go. -/
def removeObject (array : List GumboNode) (object : Option GumboNode) : List GumboNode :=
  match object with
  | none => array
  | some object => array.filter fun node => node.address ≠ object.address

/-- The rows of the table but the first. -/
def scrapedRows (tbody : GumboNode) : List GumboNode :=
  removeObject (tbody.Query "tr".toList) (tbody.Query "tr".toList).head?

/-- The completion handler of `+[Cosxcos loadPage:complete:]`. -/
def loadPage (gumbo_parse : NSString → GumboNode) (complete : Bool) (response : Response) :
    Except Failure (List (Option (List CosxcosRow))) :=
  match response with
  | .networkError => callBlock complete none
  | .body data => do
      let document ← initWithHTMLString gumbo_parse (initWithData data)
      let body ← document.body
      let table ← objectAt (body.Query "table.table".toList) 0
      let tbody ← objectAt (table.Query "tbody".toList) 0
      let tRowsM := scrapedRows tbody
      if complete then
        let result ← handleTRows tRowsM
        callBlock complete (some result)
      else
        return []

/-! ## The detail page -/

structure CosxcosDetail where
  url : NSString
  contents : List NSString
  imageUrls : List NSString
  torrentUrl : Option NSString
  magnet : Option NSString
  deriving DecidableEq, Repr

/-- `stringByReplacingOccurrencesOfString:@"\n" withString:@""`. -/
def withoutNewlines (content : NSString) : NSString := content.filter (· ≠ '\n')

/-- An `OCGumboElement` with the tag `GUMBO_TAG_IMG`. -/
def GumboNode.isImage : GumboNode → Bool
  | .element _ tag _ _ => tag = .img
  | _ => false

/-- The body of the loop over the children of the hero unit. -/
def addImage (imgs : List NSString) (node : GumboNode) : Except Failure (List NSString) :=
  if node.isImage then do addObject imgs (some (← node.getAttribute "src".toList))
  else .ok imgs

/-- The detail with the link put where its kind belongs. -/
def detailOf (url torrentUrl : NSString) (contents imgs : List NSString) : CosxcosDetail :=
  if "magnet:?".toList.isPrefixOf torrentUrl then ⟨url, contents, imgs, none, some torrentUrl⟩
  else ⟨url, contents, imgs, some torrentUrl, none⟩

/-- The completion handler of `+[Cosxcos loadDetail:complete:]`. -/
def loadDetail (gumbo_parse : NSString → GumboNode) (url : NSString) (complete : Bool)
    (response : Response) : Except Failure (List (Option CosxcosDetail)) :=
  match response with
  | .networkError => callBlock complete none
  | .body data => do
      let document ← initWithHTMLString gumbo_parse (initWithData data)
      let raws := textArraysOf (document.Query "div.hero-unit".toList)
      let contents ← raws.foldlM
        (fun contents content => addObject contents (some (withoutNewlines content))) []
      let heroUnit ← objectAt (document.Query "div.hero-unit".toList) 0
      let imgs ← heroUnit.childNodes.foldlM addImage []
      let down ← objectAt (document.Query "a.d-down".toList) 0
      let torrentUrl ← down.getAttribute "href".toList
      callBlock complete (some (detailOf url torrentUrl contents imgs))

/-! ## What the handlers get through -/

theorem initWithHTMLString_ok_iff {gumbo_parse : NSString → GumboNode} {html : Option NSString}
    {document : GumboNode} :
    initWithHTMLString gumbo_parse html = .ok document ↔
      ∃ text, html = some text ∧ gumbo_parse (UTF8String text) = document := by
  cases html <;> simp [initWithHTMLString]

theorem body_ok_iff {document body : GumboNode} :
    document.body = .ok body ↔ first_element_by_tag .body document = some body := by
  rw [GumboNode.body]
  cases first_element_by_tag .body document <;> simp

/-- What the handler of a list page needs of the tree. -/
structure ListPage (document body table tbody : GumboNode) : Prop where
  body_eq : first_element_by_tag .body document = some body
  table_eq : (body.Query "table.table".toList)[0]? = some table
  tbody_eq : (table.Query "tbody".toList)[0]? = some tbody
  /-- a second cell in each row but the first -/
  cells : ∀ tRow ∈ scrapedRows tbody, 2 ≤ (tRow.Query "td".toList).length

theorem loadPage_ok_iff {gumbo_parse : NSString → GumboNode} {data : List UInt8}
    {calls : List (Option (List CosxcosRow))} :
    loadPage gumbo_parse true (.body data) = .ok calls ↔
      ∃ html body table tbody, initWithData data = some html ∧
        ListPage (gumbo_parse (UTF8String html)) body table tbody ∧
        calls = [some ((scrapedRows tbody).map rowOf)] := by
  simp only [loadPage, bind_eq_ok_iff, initWithHTMLString_ok_iff, body_ok_iff, objectAt_ok_iff,
    handleTRows_ok_iff, if_true, callBlock, Except.ok.injEq]
  constructor
  · rintro ⟨document, ⟨html, hhtml, rfl⟩, body, hbody, table, htable, tbody, htbody, rows,
      ⟨hcells, rfl⟩, rfl⟩
    exact ⟨html, body, table, tbody, hhtml, ⟨hbody, htable, htbody, hcells⟩, rfl⟩
  · rintro ⟨html, body, table, tbody, hhtml, hpage, rfl⟩
    exact ⟨_, ⟨html, hhtml, rfl⟩, body, hpage.body_eq, table, hpage.table_eq, tbody,
      hpage.tbody_eq, _, ⟨hpage.cells, rfl⟩, rfl⟩

/-- No text is lost and no nil is added. -/
theorem foldlM_contents (raws contents : List NSString) :
    raws.foldlM (fun contents content => addObject contents (some (withoutNewlines content)))
      contents = .ok (contents ++ raws.map withoutNewlines) := by
  induction raws generalizing contents with
  | nil =>
    rw [List.map_nil, List.append_nil]
    rfl
  | cons content rest ih =>
    rw [List.foldlM_cons, List.map_cons]
    refine (ih (contents ++ [withoutNewlines content])).trans ?_
    rw [List.append_assoc, List.singleton_append]

/-- The link of a child that is an image. -/
def imageLink (node : GumboNode) : Option NSString :=
  if node.isImage then node.attribute? "src".toList else none

theorem addImage_ok_iff {imgs urls : List NSString} {node : GumboNode} :
    addImage imgs node = .ok urls ↔
      (node.isImage → (imageLink node).isSome) ∧ urls = imgs ++ (imageLink node).toList := by
  rw [addImage, imageLink]
  by_cases himage : node.isImage
  · rw [if_pos himage, if_pos himage, bind_eq_ok_iff]
    simp only [getAttribute_ok_iff]
    cases node.attribute? "src".toList <;> simp [himage, addObject, eq_comm]
  · rw [if_neg himage, if_neg himage]
    simp [himage, eq_comm]

theorem foldlM_addImage_ok_iff {children : List GumboNode} {imgs urls : List NSString} :
    children.foldlM addImage imgs = .ok urls ↔
      (∀ node ∈ children, node.isImage → (imageLink node).isSome) ∧
        urls = imgs ++ children.filterMap imageLink := by
  induction children generalizing imgs with
  | nil =>
    rw [List.filterMap_nil, List.append_nil]
    constructor
    · intro h
      exact ⟨List.forall_mem_nil _, (Except.ok.inj h).symm⟩
    · rintro ⟨-, rfl⟩
      rfl
  | cons node rest ih =>
    rw [List.foldlM_cons, List.forall_mem_cons, bind_eq_ok_iff]
    simp only [addImage_ok_iff, ih]
    have hurls : imgs ++ (node :: rest).filterMap imageLink =
        imgs ++ (imageLink node).toList ++ rest.filterMap imageLink := by
      rw [List.filterMap_cons, List.append_assoc]
      cases imageLink node with
      | none => rfl
      | some link => rfl
    rw [hurls]
    constructor
    · rintro ⟨read, ⟨hnode, rfl⟩, hrest, rfl⟩
      exact ⟨⟨hnode, hrest⟩, rfl⟩
    · rintro ⟨⟨hnode, hrest⟩, rfl⟩
      exact ⟨_, ⟨hnode, rfl⟩, hrest, rfl⟩

/-- What the handler of a detail page needs of the tree. -/
structure DetailPage (document heroUnit : GumboNode) (torrentUrl : NSString) : Prop where
  heroUnit_eq : (document.Query "div.hero-unit".toList)[0]? = some heroUnit
  images : ∀ node ∈ heroUnit.childNodes, node.isImage → (imageLink node).isSome
  link : ∃ down, (document.Query "a.d-down".toList)[0]? = some down ∧
    down.attribute? "href".toList = some torrentUrl

/-- The detail scraped from a page. -/
def scrapedDetail (url : NSString) (document heroUnit : GumboNode) (torrentUrl : NSString) :
    CosxcosDetail :=
  detailOf url torrentUrl
    ((textArraysOf (document.Query "div.hero-unit".toList)).map withoutNewlines)
    (heroUnit.childNodes.filterMap imageLink)

theorem loadDetail_ok_iff {gumbo_parse : NSString → GumboNode} {url : NSString}
    {data : List UInt8} {calls : List (Option CosxcosDetail)} :
    loadDetail gumbo_parse url true (.body data) = .ok calls ↔
      ∃ html heroUnit torrentUrl, initWithData data = some html ∧
        DetailPage (gumbo_parse (UTF8String html)) heroUnit torrentUrl ∧
        calls = [some (scrapedDetail url (gumbo_parse (UTF8String html)) heroUnit torrentUrl)] := by
  simp only [loadDetail, bind_eq_ok_iff, initWithHTMLString_ok_iff, foldlM_contents,
    objectAt_ok_iff, foldlM_addImage_ok_iff, getAttribute_ok_iff, callBlock, if_true,
    Except.ok.injEq, List.nil_append]
  constructor
  · rintro ⟨document, ⟨html, hhtml, rfl⟩, contents, rfl, heroUnit, hheroUnit, imgs,
      ⟨himages, rfl⟩, down, hdown, torrentUrl, hurl, rfl⟩
    exact ⟨html, heroUnit, torrentUrl, hhtml, ⟨hheroUnit, himages, down, hdown, hurl⟩, rfl⟩
  · rintro ⟨html, heroUnit, torrentUrl, hhtml, hpage, rfl⟩
    obtain ⟨down, hdown, hurl⟩ := hpage.link
    exact ⟨_, ⟨html, hhtml, rfl⟩, _, rfl, heroUnit, hpage.heroUnit_eq, _, ⟨hpage.images, rfl⟩, down,
      hdown, torrentUrl, hurl, rfl⟩

/-! ## The rows of a list page -/

/-- With one address to each node, it is only the header row that is not scraped. -/
theorem scrapedRows_eq_tail {tbody : GumboNode}
    (h : ((elementsBelow tbody).map GumboNode.address).Nodup) :
    scrapedRows tbody = (tbody.Query "tr".toList).tail := by
  have hrows : ((tbody.Query "tr".toList).map GumboNode.address).Nodup := by
    rw [Query_eq_filter (by decide)]
    exact h.sublist (List.filter_sublist.map _)
  rw [scrapedRows]
  cases hquery : tbody.Query "tr".toList with
  | nil => rfl
  | cons header rest =>
    rw [hquery, List.map_cons, List.nodup_cons] at hrows
    rw [List.head?_cons, removeObject, List.filter_cons_of_neg (by simp), List.tail_cons,
      List.filter_eq_self]
    intro tRow htRow
    refine decide_eq_true ?_
    intro haddress
    exact hrows.1 (haddress ▸ List.mem_map_of_mem htRow)

/-! ## Surviving every response -/

/-- The block is called once, and nothing fails before. -/
def Survives {α : Type*} (handled : Except Failure (List α)) : Prop :=
  ∃ argument, handled = .ok [argument]

/-- A body is read as the tree of a page that can be scraped. -/
def Response.Readable (gumbo_parse : NSString → GumboNode) (scrapable : GumboNode → Prop) :
    Response → Prop
  | .networkError => True
  | .body data => ∃ html, initWithData data = some html ∧
      scrapable (gumbo_parse (UTF8String html))

theorem loadPage_survives_iff (gumbo_parse : NSString → GumboNode) (response : Response) :
    Survives (loadPage gumbo_parse true response) ↔
      response.Readable gumbo_parse fun document =>
        ∃ body table tbody, ListPage document body table tbody := by
  cases response with
  | networkError => exact ⟨fun _ => trivial, fun _ => ⟨none, rfl⟩⟩
  | body data =>
    constructor
    · rintro ⟨argument, hcalls⟩
      obtain ⟨html, body, table, tbody, hhtml, hpage, -⟩ := loadPage_ok_iff.mp hcalls
      exact ⟨html, hhtml, body, table, tbody, hpage⟩
    · rintro ⟨html, hhtml, body, table, tbody, hpage⟩
      exact ⟨_, loadPage_ok_iff.mpr ⟨html, body, table, tbody, hhtml, hpage, rfl⟩⟩

theorem loadDetail_survives_iff (gumbo_parse : NSString → GumboNode) (url : NSString)
    (response : Response) :
    Survives (loadDetail gumbo_parse url true response) ↔
      response.Readable gumbo_parse fun document =>
        ∃ heroUnit torrentUrl, DetailPage document heroUnit torrentUrl := by
  cases response with
  | networkError => exact ⟨fun _ => trivial, fun _ => ⟨none, rfl⟩⟩
  | body data =>
    constructor
    · rintro ⟨argument, hcalls⟩
      obtain ⟨html, heroUnit, torrentUrl, hhtml, hpage, -⟩ := loadDetail_ok_iff.mp hcalls
      exact ⟨html, hhtml, heroUnit, torrentUrl, hpage⟩
    · rintro ⟨html, hhtml, heroUnit, torrentUrl, hpage⟩
      exact ⟨_, loadDetail_ok_iff.mpr ⟨html, heroUnit, torrentUrl, hhtml, hpage, rfl⟩⟩

/-- The scrapers survive the network errors and the pages of the expected shape, and
nothing else. -/
theorem scrapers_survive_iff (gumbo_parse : NSString → GumboNode) (url : NSString)
    (response : Response) :
    (Survives (loadPage gumbo_parse true response) ↔
      response.Readable gumbo_parse fun document =>
        ∃ body table tbody, ListPage document body table tbody) ∧
    (Survives (loadDetail gumbo_parse url true response) ↔
      response.Readable gumbo_parse fun document =>
        ∃ heroUnit torrentUrl, DetailPage document heroUnit torrentUrl) :=
  ⟨loadPage_survives_iff gumbo_parse response, loadDetail_survives_iff gumbo_parse url response⟩

/-- A character of a page in GBK, which is no UTF-8. -/
def gbkBody : List UInt8 := [0xD6, 0xC3]

theorem initWithData_gbkBody : initWithData gbkBody = none := by
  decide +kernel

/-- No parser saves the handlers from a page in GBK. -/
theorem scrapers_not_survive_gbk :
    ¬ ∃ (gumbo_parse : NSString → GumboNode) (url : NSString),
      Survives (loadPage gumbo_parse true (.body gbkBody)) ∨
        Survives (loadDetail gumbo_parse url true (.body gbkBody)) := by
  rintro ⟨gumbo_parse, url, ⟨argument, hcalls⟩ | ⟨argument, hcalls⟩⟩
  · obtain ⟨html, body, table, tbody, hhtml, -⟩ := loadPage_ok_iff.mp hcalls
    rw [initWithData_gbkBody] at hhtml
    cases hhtml
  · obtain ⟨html, heroUnit, torrentUrl, hhtml, -⟩ := loadDetail_ok_iff.mp hcalls
    rw [initWithData_gbkBody] at hhtml
    cases hhtml

end TorrentApp.Cosxcos
