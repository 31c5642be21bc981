import HtmlTree.Construct.Basic

/-!
# Before the head

The modes of the beginning: up to the doctype, up to the `html` element, up to the `head` element.
What a document leaves out is implied: the mode goes on as if it had been there and the token is
processed anew.

* `initialRules`, `beforeHtmlRules`, `beforeHeadRules`;
* `repeatedHtml`  an `html` start tag anywhere else, which only adds attributes.
-/

namespace HtmlTree

/-- a further `html` start tag: an error, its new attributes go to the outermost element -/
def repeatedHtml (tag : StartTag) : Step Unit := do
  parseError .unexpectedStartTag
  let c ← get
  if c.openElements.containsHtml c.tree "template" then return
  if let some html := c.openElements.first? then
    mergeAttributes html tag.attributes

/-! ## initial -/

/-- the document's doctype -/
def takeDoctype (d : DoctypeToken) : Step Unit := do
  if d.isMalformed then parseError .malformedDoctype
  let _ ← appendNew .root
    (.documentType ⟨d.name.getD "", d.publicId.getD "", d.systemId.getD ""⟩)
  modify fun c => if c.options.iframeSrcdoc then c else { c with tree := c.tree.setMode d.mode }
  switchTo .beforeHtml

/-- the document has no doctype -/
def missDoctype (token : Token) : Step Verdict := do
  if !(← get).options.iframeSrcdoc then
    parseError .missingDoctype
    modify fun c => { c with tree := c.tree.setMode .quirks }
  switchTo .beforeHtml
  return .reprocess token

def initialRules (token : Token) : Step Verdict :=
  match token with
  | .character ch => if Text.isBlank ch then return .done else missDoctype token
  | .comment data => finished (insertCommentIn .root data)
  | .doctype d => finished (takeDoctype d)
  | _ => missDoctype token

/-! ## before html -/

/-- makes an element the document's only one -/
def openDocumentElement (e : Element) : Step Unit := do
  let html ← appendNew .root (.element e)
  pushElement html
  switchTo .beforeHead

/-- the `html` tag is left out -/
def implyHtml (token : Token) : Step Verdict := do
  openDocumentElement (.bare "html" .html)
  return .reprocess token

def beforeHtmlRules (token : Token) : Step Verdict :=
  match token with
  | .doctype _ => finished (parseError .unexpectedDoctype)
  | .comment data => finished (insertCommentIn .root data)
  | .character ch => if Text.isBlank ch then return .done else implyHtml token
  | .startTag tag =>
    if tag.name = "html" then
      finished (openDocumentElement (.ofTag tag.name tag.attributes .html))
    else implyHtml token
  | .endTag name =>
    if name = "head" ∨ name ∈ outerEndNames then implyHtml token
    else finished (parseError .unexpectedEndTag)
  | .endOfFile => implyHtml token

/-! ## before head -/

/-- the element just inserted is the head -/
def openHead (insert : Step NodeId) : Step Unit := do
  let head ← insert
  modify fun c => { c with head := some head }
  switchTo .inHead

/-- the `head` tag is left out -/
def implyHead (token : Token) : Step Verdict := do
  openHead (insertImplied "head")
  return .reprocess token

def beforeHeadRules (token : Token) : Step Verdict :=
  match token with
  | .character ch => if Text.isBlank ch then return .done else implyHead token
  | .comment data => finished (insertComment data)
  | .doctype _ => finished (parseError .unexpectedDoctype)
  | .startTag tag =>
    if tag.name = "html" then finished (repeatedHtml tag)
    else if tag.name = "head" then finished (openHead (insertHtml tag))
    else implyHead token
  | .endTag name =>
    if name = "head" ∨ name ∈ outerEndNames then implyHead token
    else finished (parseError .unexpectedEndTag)
  | .endOfFile => implyHead token

end HtmlTree
