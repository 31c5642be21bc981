import HtmlTree.Construct.BodyStart

/-!
# End tags in the body, and the body's rules

* `BodyEnd`       the rules for end tags, `BodyEnd.table` the names under each;
* `BodyEnd.apply` what a rule does;
* `inBodyRules`   the rules of the body for every token.
-/

namespace HtmlTree

inductive BodyEnd where
  | template
  | body
  | html
  | block
  | form
  | paragraph
  | listItem
  | description
  | heading
  | formatting
  | marker
  | lineBreak
  | other
  deriving DecidableEq

namespace BodyEnd

/-- the names under each rule; a name counts where it stands first -/
def table : List (BodyEnd × List String) :=
  [ (template, ["template"]),
    (body, ["body"]),
    (html, ["html"]),
    (block, blockEndNames),
    (form, ["form"]),
    (paragraph, ["p"]),
    (listItem, ["li"]),
    (description, ["dd", "dt"]),
    (heading, headingNames),
    (formatting, formattingNames),
    (marker, ["applet", "marquee", "object"]),
    (lineBreak, ["br"]) ]

/-- the rule of a tag name -/
def ofName (name : String) : BodyEnd :=
  ((table.find? fun r => r.2.contains name).map (·.1)).getD other

end BodyEnd

/-- the end of a paragraph that is not open stands for an empty one -/
def endParagraph (token : Token) : Step Unit := do
  if !(← get).hasInScope "p" .button then
    parseError .unexpectedEndTag
    let _ ← insertImplied "p"
  closeParagraph token

/-- the end of a line break stands for a line break -/
def endLineBreak : Step Unit := do
  parseError .unexpectedEndTag
  let _ ← insertImplied "br"
  popElement
  framesetNotOk

/-- the end of the document ends the body first -/
def endHtml : Step Verdict := do
  if ← closeBody then return .reprocess (.endTag "html") else return .done

/-- ends the body, if there is one -/
def endBody : Step Unit := do
  let _ ← closeBody

def BodyEnd.apply (rule : BodyEnd) (name : String) : Step Verdict :=
  match rule with
  | template => unsupported (.endTag name)
  | body => finished endBody
  | html => endHtml
  | block => finished (closeInScope name .default false (.endTag name))
  | form => finished closeForm
  | paragraph => finished (endParagraph (.endTag name))
  | listItem => finished (closeInScope name .listItem true (.endTag name))
  | description => finished (closeInScope name .default true (.endTag name))
  | heading => finished (closeHeading name (.endTag name))
  | formatting => finished (closeFormatting name (.endTag name))
  | marker => finished (closeInScope name .default false (.endTag name))
  | lineBreak => finished endLineBreak
  | other => finished (closeOther name (.endTag name))

def bodyEndTag (name : String) : Step Verdict := (BodyEnd.ofName name).apply name

/-! ## all tokens -/

/-- a character of the body: U+0000 is an error and dropped, blanks leave room for a frameset -/
def bodyCharacter (ch : Char) : Step Unit := do
  if ch = '\x00' then parseError .unexpectedNullCharacter
  else
    insertText ch
    if !Text.isBlank ch then framesetNotOk

/-- the end of the input in the body -/
def endInput : Step Unit := do
  if (← get).needsEndTag then parseError .unexpectedEndOfFile
  stopParsing

def inBodyRules (token : Token) : Step Verdict :=
  match token with
  | .character ch => finished (bodyCharacter ch)
  | .comment data => finished (insertComment data)
  | .doctype _ => finished (parseError .unexpectedDoctype)
  | .startTag tag => bodyStartTag tag
  | .endTag name => bodyEndTag name
  | .endOfFile => finished endInput

end HtmlTree
