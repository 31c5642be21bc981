import HtmlTree.Dom.Tree

/-!
# The stack of open elements

The stack holds handles; what they name is looked up in a tree when a question needs it, so an
entry may be no element at all, or unknown.  The list begins with the current node and ends with
the first node that was opened, which is the `html` element of a document.

* `Scope`                       the elements that end a search up the stack;
* `push`, `pop`, `remove`       changing the stack, `truncate` and `popUntil` cutting it;
* `hasInScope`, `hasNodeInScope` searches from the current node outwards;
* `position?`                   the place of the innermost match, counted from the outermost entry.
-/

namespace HtmlTree

/-! ## scopes -/

/-- elements that bound every scope, by namespace -/
def Element.boundsScope (e : Element) : Bool :=
  match e.ns with
  | .html =>
    ["applet", "caption", "html", "table", "td", "th", "marquee", "object", "template"].contains
      e.localName
  | .mathMl => ["mi", "mo", "mn", "ms", "mtext", "annotation-xml"].contains e.localName
  | .svg => ["foreignObject", "desc", "title"].contains e.localName
  | _ => false

/-- which further elements bound a search: list items also stop at lists, buttons at buttons -/
inductive Scope where
  | default
  | listItem
  | button
  deriving DecidableEq

def Scope.isBoundary (s : Scope) (e : Element) : Bool :=
  match s with
  | default => e.boundsScope
  | listItem => e.boundsScope || e.isHtmlOneOf ["ol", "ul"]
  | button => e.boundsScope || e.isHtml "button"

/-! ## questions about handles -/

namespace Tree

/-- whether a handle names an element with this property -/
def elementSatisfies (t : Tree) (p : Element → Bool) (id : NodeId) : Bool :=
  (t.element? id).any p

/-- whether a handle names an HTML element of this name -/
def isHtml (t : Tree) (name : String) (id : NodeId) : Bool :=
  t.elementSatisfies (·.isHtml name) id

/-- whether a handle names an HTML element with one of these names -/
def isHtmlOneOf (t : Tree) (names : List String) (id : NodeId) : Bool :=
  t.elementSatisfies (·.isHtmlOneOf names) id

end Tree

/-! ## the stack -/

structure OpenElements where
  /-- the entries, the current node first -/
  entries : List NodeId
  deriving DecidableEq

namespace OpenElements

def empty : OpenElements := ⟨[]⟩

/-- the entries from the outermost one to the current node -/
def toList (s : OpenElements) : List NodeId := s.entries.reverse

def length (s : OpenElements) : Nat := s.entries.length

def isEmpty (s : OpenElements) : Bool := s.entries.isEmpty

def current? (s : OpenElements) : Option NodeId := s.entries.head?

/-- the outermost entry -/
def first? (s : OpenElements) : Option NodeId := s.entries.getLast?

/-- the entry at a place counted from the outermost one -/
def get? (s : OpenElements) (place : Nat) : Option NodeId := s.toList[place]?

def contains (s : OpenElements) (id : NodeId) : Bool := s.entries.contains id

def push (s : OpenElements) (id : NodeId) : OpenElements := ⟨id :: s.entries⟩

def pop (s : OpenElements) : OpenElements := ⟨s.entries.tail⟩

/-- takes out the innermost entry with this handle -/
def remove (s : OpenElements) (id : NodeId) : OpenElements := ⟨s.entries.erase id⟩

/-- keeps the first `length` entries from the outermost one -/
def truncate (s : OpenElements) (length : Nat) : OpenElements :=
  ⟨s.entries.drop (s.entries.length - length)⟩

/-- pops up to and including the innermost entry with property `p`, or all where none has it -/
def popUntil (s : OpenElements) (p : NodeId → Bool) : OpenElements :=
  ⟨(s.entries.dropWhile fun id => !p id).tail⟩

/-- pops as long as the current node has property `p` -/
def popWhile (s : OpenElements) (p : NodeId → Bool) : OpenElements := ⟨s.entries.dropWhile p⟩

/-- pops until an HTML element with one of these names has been popped -/
def popUntilOneOf (s : OpenElements) (t : Tree) (names : List String) : OpenElements :=
  s.popUntil (t.isHtmlOneOf names)

def popUntilTag (s : OpenElements) (t : Tree) (name : String) : OpenElements :=
  s.popUntilOneOf t [name]

/-! ## searches -/

/-- whether an HTML element of this name is open -/
def containsHtml (s : OpenElements) (t : Tree) (name : String) : Bool :=
  s.entries.any (t.isHtml name)

/-- the entries inside the innermost one with property `p`, that one, and the entries outside it -/
def splitAt? (p : NodeId → Bool) : List NodeId → Option (List NodeId × NodeId × List NodeId)
  | [] => none
  | id :: r =>
    if p id then some ([], id, r)
    else (splitAt? p r).map fun s => (id :: s.1, s.2)

/-- the place, counted from the outermost entry, of the innermost HTML element with one of these
names -/
def position? (s : OpenElements) (t : Tree) (names : List String) : Option Nat :=
  (splitAt? (t.isHtmlOneOf names) s.entries).map fun p => p.2.2.length

/-- looks for a target, entry by entry, and gives up at a boundary; a target is found even where it
is a boundary itself -/
def reaches (target boundary : NodeId → Bool) : List NodeId → Bool
  | [] => false
  | id :: r => target id || (!boundary id && reaches target boundary r)

/-- whether an HTML element with one of these names is in scope -/
def hasOneOfInScope (s : OpenElements) (t : Tree) (names : List String) (scope : Scope) : Bool :=
  reaches (t.isHtmlOneOf names) (t.elementSatisfies scope.isBoundary) s.entries

def hasInScope (s : OpenElements) (t : Tree) (name : String) (scope : Scope) : Bool :=
  s.hasOneOfInScope t [name] scope

/-- whether this very node is in the default scope -/
def hasNodeInScope (s : OpenElements) (t : Tree) (id : NodeId) : Bool :=
  reaches (· == id) (t.elementSatisfies Scope.default.isBoundary) s.entries

theorem splitAt?_eq_some {p : NodeId → Bool} {ids inside outside : List NodeId} {id : NodeId}
    (h : splitAt? p ids = some (inside, id, outside)) : ids = inside ++ id :: outside ∧ p id := by
  induction ids generalizing inside with
  | nil => exact absurd h (by simp [splitAt?])
  | cons x r ih =>
    unfold splitAt? at h
    split at h
    · rename_i hx
      cases h
      exact ⟨rfl, hx⟩
    · obtain ⟨s, hs, he⟩ := Option.map_eq_some_iff.mp h
      obtain ⟨a, b, c⟩ := s
      cases he
      obtain ⟨hr, hp⟩ := ih hs
      exact ⟨by rw [hr, List.cons_append], hp⟩

end OpenElements

end HtmlTree
