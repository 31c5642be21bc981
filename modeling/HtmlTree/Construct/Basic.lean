import HtmlTree.Construct.Journal
import HtmlTree.Construct.Names
import HtmlTree.Doctype
import HtmlTree.Dom.Insertion
import HtmlTree.OpenElements

/-!
# The constructor and its steps

A constructor is the document under construction together with all that the rules remember between
tokens.  A rule is a step: it changes the constructor and may fail, and what it did before it failed
stays done.

* `Constructor`   the state, `Constructor.new` the one before the first token;
* `Step`          what rules are made of;
* `Verdict`       a rule has dealt with its token, or asks for a token to be processed anew;
* `parseError`, `unsupported`            reporting;
* `insertHtml`, `insertText`, `insertComment`, …   inserting nodes at the current node;
* `generateImpliedEndTags`, `popUntilTag`, …       the stack of open elements.
-/

namespace HtmlTree

/-! ## state -/

structure Options where
  /-- the first parse error is a failure -/
  strict : Bool
  /-- build as where scripts run: `noscript` holds raw text -/
  scripting : Bool
  /-- the document of an `iframe` given by its source, which never has quirks -/
  iframeSrcdoc : Bool
  deriving DecidableEq

def Options.default : Options := ⟨false, false, false⟩

structure Constructor where
  options : Options
  mode : Mode
  /-- the mode to return to from the text mode -/
  originalMode : Option Mode
  openElements : OpenElements
  head : Option NodeId
  form : Option NodeId
  /-- no content yet that rules out a frameset -/
  framesetOk : Bool
  /-- the next token is passed over if it is a line feed -/
  skipLineFeed : Bool
  /-- the tokenizer state that the current token asks for -/
  requestedState : Option TokenizerState
  /-- the self-closing flag of the current token has been put to use -/
  selfClosingUsed : Bool
  tree : Tree
  /-- the number of tokens processed so far -/
  tokenIndex : Nat
  stopped : Bool
  errors : Array ParseError
  journal : Journal
  deriving DecidableEq

/-- the constructor of a new document -/
def Constructor.new (options : Options) : Constructor where
  options
  mode := .initial
  originalMode := none
  openElements := .empty
  head := none
  form := none
  framesetOk := true
  skipLineFeed := false
  requestedState := none
  selfClosingUsed := false
  tree := .new
  tokenIndex := 0
  stopped := false
  errors := #[]
  journal := .empty

/-- a change of the constructor that may fail; a failure keeps the changes made before it -/
abbrev Step := ExceptT Failure (StateM Constructor)

/-- what a rule leaves to be done -/
inductive Verdict where
  | done
  | reprocess (token : Token)
  deriving DecidableEq

/-- the token that a rule began with has been dealt with -/
def finished (step : Step Unit) : Step Verdict := do
  step
  return .done

namespace Constructor

/-- the element that is the current node -/
def currentElement? (c : Constructor) : Option Element :=
  c.openElements.current?.bind c.tree.element?

/-- whether the current node is an HTML element of this name -/
def currentIsHtml (c : Constructor) (name : String) : Bool :=
  c.openElements.current?.any (c.tree.isHtml name)

/-- whether an HTML element of this name is in scope -/
def hasInScope (c : Constructor) (name : String) (scope : Scope) : Bool :=
  c.openElements.hasInScope c.tree name scope

end Constructor

/-! ## reporting -/

/-- how a warning names a token: a start tag without its attributes, any other in full -/
def Token.warningName : Token → String
  | .startTag tag => "<" ++ tag.name ++ ">"
  | t => t.text

/-- gives up on a token that needs rules which are not built -/
def unsupported {α : Type} (token : Token) : Step α := do
  let c ← get
  let message := "no handling for " ++ token.warningName ++ " in " ++ c.mode.name ++ " mode"
  set { c with journal := (c.journal.warnOnce "HTML" message).2 }
  throw (.unsupportedInput c.mode token)

/-- records a parse error; in strict mode it is a failure as well -/
def parseError (kind : ParseErrorKind) : Step Unit := do
  let c ← get
  let e : ParseError := ⟨kind, c.mode, c.tokenIndex⟩
  set { c with errors := c.errors.push e, journal := c.journal.add (.parseError e) }
  if c.options.strict then throw (.parse e)

/-- records that no rule of the mode expects this token -/
def unexpected (token : Token) : Step Unit := parseError (.unexpected token)

def violated {α : Type} (v : Violation) : Step α := throw (.invariantViolation v)

/-! ## flags -/

def switchTo (mode : Mode) : Step Unit := modify fun c => { c with mode }

def framesetNotOk : Step Unit := modify fun c => { c with framesetOk := false }

def useSelfClosing : Step Unit := modify fun c => { c with selfClosingUsed := true }

def requestState (state : TokenizerState) : Step Unit :=
  modify fun c => { c with requestedState := some state }

def skipNextLineFeed : Step Unit := modify fun c => { c with skipLineFeed := true }

/-- hands the following tokens to the text mode, which returns to the mode of now -/
def enterText (state : TokenizerState) : Step Unit :=
  modify fun c =>
    { c with requestedState := some state, originalMode := some c.mode, mode := .text }

/-- the end: no element stays open and no token is taken any more -/
def stopParsing : Step Unit :=
  modify fun c =>
    { c with
      journal := c.journal.add (.stopped (c.tokenIndex + 1) c.errors.size)
      openElements := .empty
      stopped := true }

/-! ## inserting nodes -/

/-- an element's attributes from those of its tag: of a repeated name the first value counts -/
def Attributes.union (a : Attributes) (given : List TagAttribute) : Attributes :=
  given.foldl (fun a g => a.insertIfNew g.name g.value) a

/-- the element that a start tag stands for -/
def Element.ofTag (localName : String) (attributes : List TagAttribute) (ns : Namespace) : Element :=
  ⟨localName, ns, Attributes.union .empty attributes⟩

def currentNode : Step NodeId := do
  match (← get).openElements.current? with
  | some id => return id
  | none => violated .noCurrentNode

/-- a new node as the last child of `parent`; it stays in the arena even where it is refused -/
def appendNew (parent : NodeId) (data : NodeData) : Step NodeId := do
  let c ← get
  let (id, tree) := c.tree.alloc data
  let (outcome, tree) := tree.appendChild parent id
  set { c with tree }
  match outcome with
  | .ok _ => return id
  | .error e => throw (.structural e)

def pushElement (id : NodeId) : Step Unit :=
  modify fun c => { c with openElements := c.openElements.push id }

def popElement : Step Unit := modify fun c => { c with openElements := c.openElements.pop }

/-- a new element in the current node, which then is the current node itself -/
def insertElement (e : Element) : Step NodeId := do
  let place ← currentNode
  let id ← appendNew place (.element e)
  pushElement id
  return id

/-- the HTML element of a start tag -/
def insertHtml (tag : StartTag) : Step NodeId :=
  insertElement (.ofTag tag.name tag.attributes .html)

/-- an HTML element that no tag stands for -/
def insertImplied (name : String) : Step NodeId := insertElement (.bare name .html)

/-- the HTML element of a start tag, closed at once -/
def insertVoid (tag : StartTag) : Step Unit := do
  let _ ← insertHtml tag
  popElement
  useSelfClosing

/-- an element whose content is text up to its end tag -/
def insertTextOnly (tag : StartTag) (state : TokenizerState) : Step Unit := do
  let _ ← insertHtml tag
  enterText state

/-- appends to the text at the end of the current node, or begins a new text there -/
def insertText (ch : Char) : Step Unit := do
  let place ← currentNode
  let c ← get
  if c.tree.isKind .document place then return
  match (c.tree.lastChild? place).filter (c.tree.isKind .text) with
  | some last =>
    let grow := NodeData.mapCharacterData (·.append (String.singleton ch))
    modify fun c => { c with tree := c.tree.modifyData last grow }
  | none =>
    let _ ← appendNew place (.text ⟨String.singleton ch⟩)

/-- a comment at the end of `parent` -/
def insertCommentIn (parent : NodeId) (data : String) : Step Unit := do
  let _ ← appendNew parent (.comment ⟨data⟩)

/-- a comment at the end of the current node -/
def insertComment (data : String) : Step Unit := do
  insertCommentIn (← currentNode) data

/-- gives an element the attributes that it does not have yet -/
def mergeAttributes (target : NodeId) (given : List TagAttribute) : Step Unit :=
  modify fun c =>
    let merge := NodeData.mapElement fun e => { e with attributes := e.attributes.union given }
    { c with tree := c.tree.modifyData target merge }

/-! ## the stack of open elements -/

/-- closes the elements from the current node on that need no end tag, up to one named `except` -/
def generateImpliedEndTags (except : Option String) : Step Unit :=
  modify fun c =>
    let implied := fun e : Element => e.hasImpliedEndTag && except != some e.localName
    { c with openElements := c.openElements.popWhile (c.tree.elementSatisfies implied) }

/-- closes elements up to and including the innermost HTML element with one of these names -/
def popUntilOneOf (names : List String) : Step Unit :=
  modify fun c => { c with openElements := c.openElements.popUntilOneOf c.tree names }

def popUntilTag (name : String) : Step Unit := popUntilOneOf [name]

/-- an error where the current node is no HTML element with one of these names -/
def expectCurrent (names : List String) (kind : ParseErrorKind) : Step Unit := do
  let c ← get
  if !names.any c.currentIsHtml then parseError kind

end HtmlTree
