import HtmlTree.Construct.BodyEnd

/-!
# Text-only elements and the end of the document

* `textRules`            inside an element that holds only text: whatever end tag comes ends it;
* `afterBodyRules`       after the body, `afterAfterBodyRules` after the document element;
* `modeRules`            the rules of every mode.
-/

namespace HtmlTree

/-! ## text -/

/-- the text-only element is closed and its surroundings' mode goes on -/
def leaveText : Step Unit := do
  popElement
  let c ← get
  match c.originalMode with
  | some mode => modify fun c => { c with mode, originalMode := none }
  | none => violated .noOriginalMode

/-- the input ends inside a text-only element -/
def endTextInput : Step Verdict := do
  parseError .unexpectedEndOfFile
  leaveText
  return .reprocess .endOfFile

def textRules (token : Token) : Step Verdict :=
  match token with
  | .character ch => finished (insertText ch)
  | .endOfFile => endTextInput
  | .endTag _ => finished leaveText
  | _ => unsupported token

/-! ## after the body -/

/-- something comes that belongs into the body -/
def backToBody (token : Token) : Step Verdict := do
  unexpected token
  switchTo .inBody
  return .reprocess token

/-- a comment after the body goes to the end of the document element -/
def lateComment (data : String) : Step Unit := do
  match (← get).openElements.first? with
  | some html => insertCommentIn html data
  | none => violated .noHtmlElement

def afterBodyRules (token : Token) : Step Verdict :=
  match token with
  | .character ch => if Text.isBlank ch then finished (insertText ch) else backToBody token
  | .comment data => finished (lateComment data)
  | .doctype _ => finished (parseError .unexpectedDoctype)
  | .startTag tag => if tag.name = "html" then finished (repeatedHtml tag) else backToBody token
  | .endTag name =>
    if name = "html" then finished (switchTo .afterAfterBody) else backToBody token
  | .endOfFile => finished stopParsing

/-! ## after the document element -/

def afterAfterBodyRules (token : Token) : Step Verdict :=
  match token with
  | .character ch => if Text.isBlank ch then finished (insertText ch) else backToBody token
  | .comment data => finished (insertCommentIn .root data)
  | .doctype _ => finished (parseError .unexpectedDoctype)
  | .startTag tag => if tag.name = "html" then finished (repeatedHtml tag) else backToBody token
  | .endTag _ => backToBody token
  | .endOfFile => finished stopParsing

/-! ## all modes -/

/-- the rules of a mode; the modes of tables, selects, templates and framesets have none -/
def modeRules (mode : Mode) (token : Token) : Step Verdict :=
  match mode with
  | .initial => initialRules token
  | .beforeHtml => beforeHtmlRules token
  | .beforeHead => beforeHeadRules token
  | .inHead => inHeadRules token
  | .inHeadNoscript => inHeadNoscriptRules token
  | .afterHead => afterHeadRules token
  | .inBody => inBodyRules token
  | .text => textRules token
  | .afterBody => afterBodyRules token
  | .afterAfterBody => afterAfterBodyRules token
  | _ => unsupported token

/-- the rules of the mode that the constructor is in -/
def currentModeRules (token : Token) : Step Verdict := do
  modeRules (← get).mode token

end HtmlTree
