import HtmlTree.Dom.Node

/-!
# Rejected insertions

Why a tree refuses an insertion, and the text that reports it.

* `HierarchyFault`  the rules for the children of a document, and for doctypes elsewhere;
* `DomError`        all causes, with `name` and `message`.
-/

namespace HtmlTree

/-- a rule about which children a document may have, or where a doctype may stand -/
inductive HierarchyFault where
  | textInDocument
  | doctypeOutsideDocument
  | fragmentNotOneElement
  | secondDocumentElement
  | elementBeforeDoctype
  | secondDoctype
  | doctypeAfterElement
  deriving DecidableEq

def HierarchyFault.message : HierarchyFault → String
  | textInDocument => "text cannot be a child of a document"
  | doctypeOutsideDocument => "a doctype can only be a child of a document"
  | fragmentNotOneElement => "fragment must hold at most one element and no text"
  | secondDocumentElement => "a document can only have one document element"
  | elementBeforeDoctype => "the document element must follow the doctype"
  | secondDoctype => "a document can only have one doctype"
  | doctypeAfterElement => "the doctype must precede the document element"

inductive DomError where
  | unknownNode (node : NodeId)
  | cannotHaveChildren (parent : NodeId) (kind : NodeKind)
  | cycle (node parent : NodeId)
  | notAChild (child parent : NodeId)
  | invalidChildKind (kind : NodeKind)
  | alreadyHasParent (node : NodeId)
  | hierarchyRequest (fault : HierarchyFault)
  deriving DecidableEq

/-- a handle as messages show it -/
def NodeId.shown (id : NodeId) : String := "NodeId(" ++ toString id.index ++ ")"

namespace DomError

/-- the name of the cause -/
def name : DomError → String
  | unknownNode _ => "UnknownNode"
  | cannotHaveChildren _ _ => "CannotHaveChildren"
  | cycle _ _ => "Cycle"
  | notAChild _ _ => "NotAChild"
  | invalidChildKind _ => "InvalidChildKind"
  | alreadyHasParent _ => "AlreadyHasParent"
  | hierarchyRequest _ => "HierarchyRequest"

def message : DomError → String
  | unknownNode n => "node " ++ n.shown ++ " does not exist in this tree"
  | cannotHaveChildren p k => k.name ++ " node " ++ p.shown ++ " cannot have children"
  | cycle n p => "inserting " ++ n.shown ++ " into " ++ p.shown ++ " would make a node its own ancestor"
  | notAChild c p => c.shown ++ " is not a child of " ++ p.shown
  | invalidChildKind k => k.name ++ " nodes cannot be inserted into a tree"
  | alreadyHasParent n => n.shown ++ " already has a parent"
  | hierarchyRequest f => "document cannot accept this child: " ++ f.message

end DomError

end HtmlTree
