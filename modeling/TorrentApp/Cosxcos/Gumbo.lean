import Mathlib.Data.List.Basic

set_option autoImplicit false

/-!
# HTML trees and queries on them

The nodes of a parsed page and what `OCGumbo` offers on them: the selectors of
`Query`, the text below a node, the attributes of an element.  Objects wrap nodes,
and two objects are equal when their nodes have one address.
-/

namespace TorrentApp.Cosxcos

/-! ## Strings -/

/-- The text of an `NSString`, or of a C string of a node. -/
abbrev NSString := List Char

/-- `!strcasecmp(s, t)`. -/
def equalIgnoringCase (s t : NSString) : Bool := s.map Char.toLower == t.map Char.toLower

/-- `[NSCharacterSet whitespaceCharacterSet]`: the space separators and the tab. -/
def whitespaceCharacterSet (c : Char) : Bool :=
  c.toNat == 0x9 || c.toNat == 0x20 || c.toNat == 0xA0 || c.toNat == 0x1680 ||
    (0x2000 ≤ c.toNat && c.toNat ≤ 0x200A) || c.toNat == 0x202F || c.toNat == 0x205F ||
    c.toNat == 0x3000

/-- `componentsSeparatedByCharactersInSet:` of the whitespace. -/
def componentsSeparatedByWhitespace (s : NSString) : List NSString :=
  s.splitOnP whitespaceCharacterSet

/-- `stringByTrimmingCharactersInSet:` of the whitespace. -/
def stringByTrimmingWhitespace (s : NSString) : NSString :=
  ((s.dropWhile whitespaceCharacterSet).reverse.dropWhile whitespaceCharacterSet).reverse

/-! ## Nodes -/

/-- The tags the scrapers ask for, and any other by its normalized name. -/
inductive GumboTag where
  | body
  | table
  | tbody
  | tr
  | td
  | a
  | div
  | img
  | other (name : NSString)
  deriving DecidableEq, Repr

/-- `gumbo_normalized_tagname`. -/
def gumbo_normalized_tagname : GumboTag → NSString
  | .body => "body".toList
  | .table => "table".toList
  | .tbody => "tbody".toList
  | .tr => "tr".toList
  | .td => "td".toList
  | .a => "a".toList
  | .div => "div".toList
  | .img => "img".toList
  | .other name => name

structure GumboAttribute where
  name : NSString
  value : NSString
  deriving DecidableEq, Repr

/-- The node types that hold a text. -/
inductive GumboTextType where
  | text
  | cdata
  | comment
  | whitespace
  deriving DecidableEq, Repr

/-- A `GumboNode`, with the address it lies at. -/
inductive GumboNode where
  | document (address : Nat) (children : List GumboNode)
  | element (address : Nat) (tag : GumboTag) (attributes : List GumboAttribute)
      (children : List GumboNode)
  | text (address : Nat) (type : GumboTextType) (text : NSString)
  deriving Repr

def GumboNode.address : GumboNode → Nat
  | .document address _ => address
  | .element address _ _ _ => address
  | .text address _ _ => address

/-- `-[OCGumboNode childNodes]`. -/
def GumboNode.childNodes : GumboNode → List GumboNode
  | .document _ children => children
  | .element _ _ _ children => children
  | .text _ _ _ => []

def GumboNode.attributes : GumboNode → List GumboAttribute
  | .element _ _ attributes _ => attributes
  | _ => []

/-- `gumbo_get_attribute`. -/
def gumbo_get_attribute (attributes : List GumboAttribute) (name : NSString) :
    Option GumboAttribute :=
  attributes.find? fun attr => equalIgnoringCase attr.name name

/-- The value of an attribute of a node; `none` stands for `NULL`. -/
def GumboNode.attribute? (node : GumboNode) (name : NSString) : Option NSString :=
  (gumbo_get_attribute node.attributes name).map GumboAttribute.value

/-- `-[OCGumboElement hasAttribute:]`. -/
def GumboNode.hasAttribute (node : GumboNode) (name : NSString) : Bool :=
  (gumbo_get_attribute node.attributes name).isSome

/-! ## Selectors -/

/-- One of the classes of an element. -/
def hasClass (attributes : List GumboAttribute) (cls : NSString) : Bool :=
  match gumbo_get_attribute attributes "class".toList with
  | none => false
  | some attr => (componentsSeparatedByWhitespace attr.value).contains cls

/-- The id of an element, whatever its case. -/
def hasId (attributes : List GumboAttribute) (elementId : NSString) : Bool :=
  match gumbo_get_attribute attributes "id".toList with
  | none => false
  | some attr => equalIgnoringCase attr.value elementId

/-- `add_valid_node_to_array` adds an element of this tag and these attributes. -/
def validNode (tag : GumboTag) (attributes : List GumboAttribute) (selector : NSString) : Bool :=
  if selector.head? = some '.' then hasClass attributes (selector.drop 1)
  else if selector.head? = some '#' then hasId attributes (selector.drop 1)
  else if '.' ∈ selector then
    equalIgnoringCase (gumbo_normalized_tagname tag) (selector.takeWhile (· ≠ '.')) &&
      hasClass attributes ((selector.dropWhile (· ≠ '.')).drop 1)
  else if '#' ∈ selector then
    equalIgnoringCase (gumbo_normalized_tagname tag) (selector.takeWhile (· ≠ '#')) &&
      hasId attributes ((selector.dropWhile (· ≠ '#')).drop 1)
  else equalIgnoringCase (gumbo_normalized_tagname tag) selector

def GumboNode.valid (selector : NSString) : GumboNode → Bool
  | .element _ tag attributes _ => validNode tag attributes selector
  | _ => false

mutual

/-- `oc_gumbo_find_children`, deep and with a selector that is not empty. -/
def find_children (selector : NSString) : GumboNode → List GumboNode
  | .document _ children => find_among selector children
  | .element _ _ _ children => find_among selector children
  | .text _ _ _ => []

/-- Its loop over the children. -/
def find_among (selector : NSString) : List GumboNode → List GumboNode
  | [] => []
  | .element address tag attributes children :: rest =>
      (if validNode tag attributes selector then
          [GumboNode.element address tag attributes children] else []) ++
        find_children selector (.element address tag attributes children) ++
        find_among selector rest
  | .document _ _ :: rest => find_among selector rest
  | .text _ _ _ :: rest => find_among selector rest

end

/-- `-[OCGumboNode Query]`; without a selector it is the children. -/
def GumboNode.Query (node : GumboNode) (selector : NSString) : List GumboNode :=
  if selector = [] then node.childNodes else find_children selector node

mutual

/-- `oc_gumbo_get_first_element_by_tag`. -/
def first_element_by_tag (tag : GumboTag) : GumboNode → Option GumboNode
  | .document _ children => first_element_among tag children
  | .element _ _ _ children => first_element_among tag children
  | .text _ _ _ => none

/-- Its loop over the children. -/
def first_element_among (tag : GumboTag) : List GumboNode → Option GumboNode
  | [] => none
  | .element address tag' attributes children :: rest =>
      if tag' = tag then some (.element address tag' attributes children)
      else
        match first_element_by_tag tag (.element address tag' attributes children) with
        | some node => some node
        | none => first_element_among tag rest
  | .document _ _ :: rest => first_element_among tag rest
  | .text _ _ _ :: rest => first_element_among tag rest

end

/-! ## Text -/

mutual

/-- `-[OCGumboNode text]`, and what `-[NSArray text]` appends for one node. -/
def textOf : GumboNode → NSString
  | .document _ children => textsOf children
  | .element _ _ _ children => textsOf children
  | .text _ .text text => text
  | .text _ _ _ => []

/-- `-[NSArray text]`. -/
def textsOf : List GumboNode → NSString
  | [] => []
  | node :: rest => textOf node ++ textsOf rest

end

mutual

/-- What `-[NSArray textArray]` adds for one node. -/
def textArrayOf : GumboNode → List NSString
  | .document _ children => textArraysOf children
  | .element _ _ _ children => textArraysOf children
  | .text _ .text text => [text]
  | .text _ _ _ => []

/-- `-[NSArray textArray]`. -/
def textArraysOf : List GumboNode → List NSString
  | [] => []
  | node :: rest => textArrayOf node ++ textArraysOf rest

end

/-! ## What a query finds -/

mutual

/-- The elements below a node, in document order. -/
def elementsBelow : GumboNode → List GumboNode
  | .document _ children => elementsAmong children
  | .element _ _ _ children => elementsAmong children
  | .text _ _ _ => []

def elementsAmong : List GumboNode → List GumboNode
  | [] => []
  | .element address tag attributes children :: rest =>
      .element address tag attributes children ::
        (elementsBelow (.element address tag attributes children) ++ elementsAmong rest)
  | .document _ _ :: rest => elementsAmong rest
  | .text _ _ _ :: rest => elementsAmong rest

end

mutual

theorem find_children_eq (selector : NSString) :
    ∀ node, find_children selector node = (elementsBelow node).filter (GumboNode.valid selector)
  | .document _ children => by
      rw [find_children, elementsBelow, find_among_eq selector children]
  | .element _ _ _ children => by
      rw [find_children, elementsBelow, find_among_eq selector children]
  | .text _ _ _ => by rw [find_children, elementsBelow, List.filter_nil]

theorem find_among_eq (selector : NSString) :
    ∀ nodes, find_among selector nodes = (elementsAmong nodes).filter (GumboNode.valid selector)
  | [] => by rw [find_among, elementsAmong, List.filter_nil]
  | .element address tag attributes children :: rest => by
      rw [find_among, elementsAmong, find_children_eq selector (.element _ _ _ _),
        find_among_eq selector rest, List.filter_cons, List.filter_append]
      change _ = if validNode tag attributes selector = true then _ else _
      split
      · rw [List.singleton_append, List.cons_append]
      · rw [List.nil_append]
  | .document _ _ :: rest => by rw [find_among, elementsAmong, find_among_eq selector rest]
  | .text _ _ _ :: rest => by rw [find_among, elementsAmong, find_among_eq selector rest]

end

/-- A query with a selector finds the valid elements below the node, in document order. -/
theorem Query_eq_filter {selector : NSString} (h : selector ≠ []) (node : GumboNode) :
    node.Query selector = (elementsBelow node).filter (GumboNode.valid selector) := by
  rw [GumboNode.Query, if_neg h, find_children_eq]

end TorrentApp.Cosxcos
