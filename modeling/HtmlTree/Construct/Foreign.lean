import HtmlTree.Construct.ForeignElement

/-!
# Foreign content

While the current node is an SVG or MathML element most tokens have rules of their own, whatever
the mode.  A start tag that can only be HTML leaves foreign content first.

* `Constructor.foreignNamespace?`  whether a token meets these rules, and in which namespace;
* `breaksOut`                      the tags that leave foreign content;
* `foreignEndTag`                  the search for the element that an end tag closes;
* `foreignRules`                   the rules, `foreignStage` where they apply; what they do not deal
                                   with goes on to the rules of the mode.
-/

namespace HtmlTree

/-! ## which tokens -/

def Token.isStartTag : Token → Bool
  | .startTag _ => true
  | _ => false

def Token.isCharacter : Token → Bool
  | .character _ => true
  | _ => false

/-- whether a token in this foreign element is treated as HTML all the same -/
def Element.takesAsHtml (e : Element) (token : Token) : Bool :=
  match token with
  | .character _ => e.isTextIntegrationPoint || e.isHtmlIntegrationPoint
  | .startTag tag =>
    (e.isTextIntegrationPoint && tag.name != "mglyph" && tag.name != "malignmark")
      || (e.ns == .mathMl && e.localName == "annotation-xml" && tag.name == "svg")
      || e.isHtmlIntegrationPoint
  | .endOfFile => true
  | _ => false

/-- the namespace of the current node, where a token meets the rules for foreign content -/
def Constructor.foreignNamespace? (c : Constructor) (token : Token) : Option Namespace :=
  match c.currentElement? with
  | some e => if e.ns = .html || e.takesAsHtml token then none else some e.ns
  | none => none

/-! ## leaving foreign content -/

/-- start tags that can only be HTML -/
def breakoutNames : List String :=
  [ "b", "big", "blockquote", "body", "br", "center", "code", "dd", "div", "dl", "dt", "em",
    "embed", "h1", "h2", "h3", "h4", "h5", "h6", "head", "hr", "i", "img", "li", "listing", "menu",
    "meta", "nobr", "ol", "p", "pre", "ruby", "s", "small", "span", "strong", "strike", "sub",
    "sup", "table", "tt", "u", "ul", "var" ]

/-- attributes that only the HTML `font` has -/
def fontAttributeNames : List String := ["color", "face", "size"]

def StartTag.breaksOut (tag : StartTag) : Bool :=
  breakoutNames.contains tag.name ||
    (tag.name == "font" && tag.attributes.any fun a => fontAttributeNames.contains a.name)

/-- what the rules for foreign content leave to be done -/
inductive ForeignVerdict where
  | done
  /-- the mode's own rules take the token -/
  | toMode
  deriving DecidableEq

/-- the token has been dealt with as foreign content -/
def finishedForeign (step : Step Unit) : Step ForeignVerdict := do
  step
  return .done

/-- an error, then all foreign elements up to a point where HTML may stand are closed -/
def breakOut (kind : ParseErrorKind) : Step ForeignVerdict := do
  parseError kind
  modify fun c =>
    let foreign := c.tree.elementSatisfies fun e => !e.endsForeignContent
    { c with openElements := c.openElements.popWhile foreign }
  return .toMode

/-! ## end tags -/

/-- what an end tag does to the stack -/
inductive ForeignEnd where
  | nothing
  | closeTo (outside : List NodeId)
  | asHtml
  deriving DecidableEq

/-- looks outwards for an element that `isNamed`; the outermost entry is never closed, and where
the next entry is HTML the search is over -/
def foreignEndSearch (isNamed isHtml : NodeId → Bool) : List NodeId → ForeignEnd
  | [] => .nothing
  | [_] => .nothing
  | id :: outer :: r =>
    if isNamed id then .closeTo (outer :: r)
    else if isHtml outer then .asHtml
    else foreignEndSearch isNamed isHtml (outer :: r)

/-- names of foreign elements are compared in small letters -/
def Element.hasSmallName (name : String) (e : Element) : Bool := Text.lower e.localName == name

def foreignEndTag (name : String) : Step ForeignVerdict := do
  if (← get).currentElement?.any fun e => !e.hasSmallName name then parseError .unexpectedEndTag
  let c ← get
  let isNamed := c.tree.elementSatisfies (Element.hasSmallName name)
  let isHtml := c.tree.elementSatisfies (·.ns == .html)
  match foreignEndSearch isNamed isHtml c.openElements.entries with
  | .nothing => return .done
  | .closeTo outside =>
    modify fun c => { c with openElements := ⟨outside⟩ }
    return .done
  | .asHtml => return .toMode

/-! ## rules -/

/-- a character of foreign content: U+0000 is an error and replaced -/
def foreignCharacter (ch : Char) : Step Unit := do
  if ch = '\x00' then
    parseError .unexpectedNullCharacter
    insertText '\ufffd'
  else
    insertText ch
    if !Text.isBlank ch then framesetNotOk

/-- the rules for foreign content, where the current node has namespace `ns` -/
def foreignRules (ns : Namespace) (token : Token) : Step ForeignVerdict :=
  match token with
  | .character ch => finishedForeign (foreignCharacter ch)
  | .comment data => finishedForeign (insertComment data)
  | .doctype _ => finishedForeign (parseError .unexpectedDoctype)
  | .startTag tag =>
    if tag.breaksOut then breakOut .unexpectedStartTag else finishedForeign (insertForeign tag ns)
  | .endTag name =>
    if name = "br" ∨ name = "p" then breakOut .unexpectedEndTag
    else do
      let isScript := fun e : Element => e.ns == .svg && e.localName == "script"
      if name = "script" ∧ (← get).currentElement?.any isScript then finishedForeign popElement
      else foreignEndTag name
  | .endOfFile => return .toMode

/-- the rules for foreign content, where the token meets them -/
def foreignStage (token : Token) : Step ForeignVerdict := do
  match (← get).foreignNamespace? token with
  | some ns => foreignRules ns token
  | none => return .toMode

end HtmlTree
