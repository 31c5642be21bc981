import HtmlTree.Construct.Opening

/-!
# The head

Metadata goes into the `head` element; the first token that does not belong there closes it and is
processed anew.  Metadata that comes after the head is still put into it.

* `headContent`          the start tags that belong into the head, from whatever mode;
* `inHeadRules`, `inHeadNoscriptRules`, `afterHeadRules`.
-/

namespace HtmlTree

/-! ## start tags of metadata -/

/-- what becomes of a start tag in the head -/
inductive HeadStart where
  | void
  | title
  | rawText
  | noscript
  | script
  | template
  deriving DecidableEq

/-- the tags that belong into the head; `noscript` holds raw text where scripts run -/
def HeadStart.ofName? (scripting : Bool) (name : String) : Option HeadStart :=
  if name ∈ ["base", "basefont", "bgsound", "link", "meta"] then some void
  else if name = "title" then some title
  else if name = "noframes" ∨ name = "style" then some rawText
  else if name = "noscript" then some (if scripting then rawText else noscript)
  else if name = "script" then some script
  else if name = "template" then some template
  else none

def HeadStart.apply (rule : HeadStart) (tag : StartTag) : Step Unit :=
  match rule with
  | void => insertVoid tag
  | title => insertTextOnly tag .rcdata
  | rawText => insertTextOnly tag .rawtext
  | noscript => do
    let _ ← insertHtml tag
    switchTo .inHeadNoscript
  | script => insertTextOnly tag .scriptData
  | template => unsupported (.startTag tag)

/-- a start tag that belongs into the head, put into the current node; any other is passed over -/
def headContent (tag : StartTag) : Step Unit := do
  match HeadStart.ofName? (← get).options.scripting tag.name with
  | some rule => rule.apply tag
  | none => return

/-! ## in head -/

/-- the current node is done with -/
def leaveFor (mode : Mode) : Step Unit := do
  popElement
  switchTo mode

/-- the head's end tag is left out -/
def implyHeadEnd (token : Token) : Step Verdict := do
  leaveFor .afterHead
  return .reprocess token

def inHeadStartTag (tag : StartTag) : Step Verdict := do
  match HeadStart.ofName? (← get).options.scripting tag.name with
  | some rule => finished (rule.apply tag)
  | none =>
    if tag.name = "html" then finished (repeatedHtml tag)
    else if tag.name = "head" then finished (parseError .unexpectedStartTag)
    else implyHeadEnd (.startTag tag)

def inHeadEndTag (name : String) : Step Verdict :=
  if name = "head" then finished (leaveFor .afterHead)
  else if name = "template" then unsupported (.endTag name)
  else if name ∈ outerEndNames then implyHeadEnd (.endTag name)
  else finished (parseError .unexpectedEndTag)

def inHeadRules (token : Token) : Step Verdict :=
  match token with
  | .character ch => if Text.isBlank ch then return .done else implyHeadEnd token
  | .comment data => finished (insertComment data)
  | .doctype _ => finished (parseError .unexpectedDoctype)
  | .startTag tag => inHeadStartTag tag
  | .endTag name => inHeadEndTag name
  | .endOfFile => implyHeadEnd token

/-! ## in head noscript -/

/-- the `noscript` of the head ends where something else than metadata comes -/
def implyNoscriptEnd (token : Token) : Step Verdict := do
  unexpected token
  leaveFor .inHead
  return .reprocess token

/-- metadata that may stand in a `noscript` of the head -/
def noscriptContentNames : List String :=
  ["basefont", "bgsound", "link", "meta", "noframes", "style"]

def inHeadNoscriptRules (token : Token) : Step Verdict :=
  match token with
  | .doctype _ => finished (parseError .unexpectedDoctype)
  | .character ch => if Text.isBlank ch then return .done else implyNoscriptEnd token
  | .comment data => finished (insertComment data)
  | .startTag tag =>
    if tag.name = "html" then finished (repeatedHtml tag)
    else if tag.name ∈ noscriptContentNames then finished (headContent tag)
    else if tag.name = "head" ∨ tag.name = "noscript" then
      finished (parseError .unexpectedStartTag)
    else implyNoscriptEnd token
  | .endTag name =>
    if name = "noscript" then finished (leaveFor .inHead)
    else if name = "br" then implyNoscriptEnd token
    else finished (parseError .unexpectedEndTag)
  | .endOfFile => implyNoscriptEnd token

/-! ## after head -/

/-- metadata after the head: the head is opened once more, just for this tag -/
def lateHeadContent (tag : StartTag) : Step Unit := do
  parseError .unexpectedStartTag
  match (← get).head with
  | none => violated .noHeadElement
  | some head =>
    pushElement head
    let close : Step Unit :=
      modify fun c => { c with openElements := c.openElements.remove head }
    try
      headContent tag
    catch e =>
      close
      throw e
    close

/-- the `body` tag is left out -/
def implyBody (token : Token) : Step Verdict := do
  let _ ← insertImplied "body"
  switchTo .inBody
  return .reprocess token

def openBody (tag : StartTag) : Step Unit := do
  let _ ← insertHtml tag
  framesetNotOk
  switchTo .inBody

def afterHeadRules (token : Token) : Step Verdict :=
  match token with
  | .character ch => if Text.isBlank ch then finished (insertText ch) else implyBody token
  | .comment data => finished (insertComment data)
  | .doctype _ => finished (parseError .unexpectedDoctype)
  | .startTag tag =>
    if tag.name = "html" then finished (repeatedHtml tag)
    else if tag.name = "body" then finished (openBody tag)
    else if tag.name = "frameset" then unsupported token
    else if tag.name ∈ headContentNames then finished (lateHeadContent tag)
    else if tag.name = "head" then finished (parseError .unexpectedStartTag)
    else implyBody token
  | .endTag name =>
    if name = "template" then unsupported token
    else if name ∈ outerEndNames then implyBody token
    else finished (parseError .unexpectedEndTag)
  | .endOfFile => implyBody token

end HtmlTree
