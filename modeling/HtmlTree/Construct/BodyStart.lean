import HtmlTree.Construct.Body

/-!
# Start tags in the body

A start tag's name decides on one of a few dozen rules; most close what is open and may not contain
the new element, then insert it.

* `BodyStart`        the rules, `BodyStart.table` the names under each;
* `BodyStart.apply`  what a rule does with its tag.
-/

namespace HtmlTree

inductive BodyStart where
  | html
  | headContent
  | body
  | frameset
  | block
  | heading
  | preformatted
  | form
  | listItem
  | description
  | plaintext
  | button
  | anchor
  | nobr
  | formatting
  | marker
  | unsupported
  | void
  | input
  | quietVoid
  | thematicBreak
  | image
  | textarea
  | xmp
  | iframe
  | rawText
  | noscript
  | option
  | rubyBase
  | rubyText
  | math
  | svg
  | misplaced
  | other
  deriving DecidableEq

namespace BodyStart

/-- the names under each rule; a name counts where it stands first -/
def table : List (BodyStart × List String) :=
  [ (html, ["html"]),
    (headContent, headContentNames),
    (body, ["body"]),
    (frameset, ["frameset"]),
    (block, blockNames),
    (heading, headingNames),
    (preformatted, ["pre", "listing"]),
    (form, ["form"]),
    (listItem, ["li"]),
    (description, ["dd", "dt"]),
    (plaintext, ["plaintext"]),
    (button, ["button"]),
    (anchor, ["a"]),
    (nobr, ["nobr"]),
    (formatting, formattingNames),
    (marker, ["applet", "marquee", "object"]),
    (unsupported, ["table", "select"]),
    (void, ["area", "br", "embed", "img", "keygen", "wbr"]),
    (input, ["input"]),
    (quietVoid, ["param", "source", "track"]),
    (thematicBreak, ["hr"]),
    (image, ["image"]),
    (textarea, ["textarea"]),
    (xmp, ["xmp"]),
    (iframe, ["iframe"]),
    (rawText, ["noembed"]),
    (noscript, ["noscript"]),
    (option, ["optgroup", "option"]),
    (rubyBase, ["rb", "rtc"]),
    (rubyText, ["rp", "rt"]),
    (math, ["math"]),
    (svg, ["svg"]),
    (misplaced,
      ["caption", "col", "colgroup", "frame", "head", "tbody", "td", "tfoot", "th", "thead", "tr"]) ]

/-- the rule of a tag name -/
def ofName (name : String) : BodyStart :=
  ((table.find? fun r => r.2.contains name).map (·.1)).getD other

end BodyStart

/-- a name that has a rule stands in one of the rule's lists -/
theorem mem_of_rule {α : Type} {rule other : α} {table : List (α × List String)} {name : String}
    (names : List String)
    (h : ((table.find? fun r => r.2.contains name).map (·.1)).getD other = rule) (hr : rule ≠ other)
    (hsub : ∀ r ∈ table, r.1 = rule → ∀ n ∈ r.2, n ∈ names) : name ∈ names := by
  cases hf : table.find? fun r => r.2.contains name with
  | none =>
    rw [hf] at h
    exact absurd h.symm hr
  | some r =>
    rw [hf] at h
    have hmem := List.find?_some hf
    rw [List.contains_eq_mem, decide_eq_true_eq] at hmem
    exact hsub r (List.mem_of_find?_eq_some hf) h name hmem

/-! ## rules of several steps -/

/-- inserts the tag's element and says no more about it -/
def insertPlain (tag : StartTag) : Step Unit := do
  let _ ← insertHtml tag

/-- a further `body` start tag: an error, its new attributes go to the body -/
def repeatedBody (tag : StartTag) : Step Unit := do
  parseError .unexpectedStartTag
  let c ← get
  if let some body := c.openBody? then
    if !c.openElements.containsHtml c.tree "template" then
      framesetNotOk
      mergeAttributes body tag.attributes

/-- a `frameset` could only take the place of an empty body -/
def startFrameset (tag : StartTag) : Step Unit := do
  parseError .unexpectedStartTag
  let c ← get
  if c.openBody?.isSome && c.framesetOk then unsupported (.startTag tag)

def startBlock (tag : StartTag) : Step Unit := do
  closeOpenParagraph (.startTag tag)
  insertPlain tag

/-- a heading directly in a heading ends the outer one -/
def startHeading (tag : StartTag) : Step Unit := do
  closeOpenParagraph (.startTag tag)
  if headingNames.any (← get).currentIsHtml then
    parseError .unexpectedStartTag
    popElement
  insertPlain tag

/-- the first line break of preformatted text does not count -/
def startPreformatted (tag : StartTag) : Step Unit := do
  startBlock tag
  skipNextLineFeed
  framesetNotOk

/-- forms do not nest -/
def startForm (tag : StartTag) : Step Unit := do
  let c ← get
  let inTemplate := c.openElements.containsHtml c.tree "template"
  if c.form.isSome && !inTemplate then parseError .unexpectedStartTag
  else
    closeOpenParagraph (.startTag tag)
    let form ← insertHtml tag
    if !inTemplate then modify fun c => { c with form := some form }

def startListItem (closes : List String) (tag : StartTag) : Step Unit := do
  framesetNotOk
  closeListItem closes (.startTag tag)
  startBlock tag

def startPlaintext (tag : StartTag) : Step Unit := do
  startBlock tag
  requestState .plaintext

/-- a button in the scope of a button ends the outer one -/
def startButton (tag : StartTag) : Step Unit := do
  if (← get).hasInScope "button" .default then
    parseError .unexpectedStartTag
    keepFormattingIn ["button"] (.startTag tag)
    generateImpliedEndTags none
    popUntilTag "button"
  insertPlain tag
  framesetNotOk

/-- an anchor in an anchor would have to split the outer one -/
def startAnchor (tag : StartTag) : Step Unit := do
  if (← get).hasOpenAnchor then unsupported (.startTag tag)
  insertPlain tag

/-- so would a `nobr` in the scope of a `nobr` -/
def startNobr (tag : StartTag) : Step Unit := do
  if (← get).hasInScope "nobr" .default then unsupported (.startTag tag)
  insertPlain tag

def startMarker (tag : StartTag) : Step Unit := do
  insertPlain tag
  framesetNotOk

def startVoid (tag : StartTag) : Step Unit := do
  insertVoid tag
  framesetNotOk

/-- the first `type` of an input is `hidden` -/
def StartTag.isHiddenInput (tag : StartTag) : Bool :=
  (tag.attributes.find? (·.name == "type")).any fun a => Text.sameIgnoringCase a.value "hidden"

def startInput (tag : StartTag) : Step Unit := do
  insertVoid tag
  if !tag.isHiddenInput then framesetNotOk

def startThematicBreak (tag : StartTag) : Step Unit := do
  closeOpenParagraph (.startTag tag)
  startVoid tag

def startTextarea (tag : StartTag) : Step Unit := do
  insertTextOnly tag .rcdata
  skipNextLineFeed
  framesetNotOk

def startXmp (tag : StartTag) : Step Unit := do
  closeOpenParagraph (.startTag tag)
  framesetNotOk
  insertTextOnly tag .rawtext

def startIframe (tag : StartTag) : Step Unit := do
  framesetNotOk
  insertTextOnly tag .rawtext

/-- `noscript` holds raw text where scripts run and elements where they do not -/
def startNoscript (tag : StartTag) : Step Unit := do
  if (← get).options.scripting then insertTextOnly tag .rawtext else insertPlain tag

def startOption (tag : StartTag) : Step Unit := do
  if (← get).currentIsHtml "option" then popElement
  insertPlain tag

/-- a part of a ruby ends the part before it; `spared` is not ended, `expected` is then current -/
def startRuby (spared : Option String) (expected : List String) (tag : StartTag) : Step Unit := do
  if (← get).hasInScope "ruby" .default then
    generateImpliedEndTags spared
    expectCurrent expected .unexpectedStartTag
  insertPlain tag

/-! ## all rules -/

def BodyStart.apply (rule : BodyStart) (tag : StartTag) : Step Verdict :=
  match rule with
  | html => finished (repeatedHtml tag)
  | headContent => finished (HtmlTree.headContent tag)
  | body => finished (repeatedBody tag)
  | frameset => finished (startFrameset tag)
  | block => finished (startBlock tag)
  | heading => finished (startHeading tag)
  | preformatted => finished (startPreformatted tag)
  | form => finished (startForm tag)
  | listItem => finished (startListItem ["li"] tag)
  | description => finished (startListItem ["dd", "dt"] tag)
  | plaintext => finished (startPlaintext tag)
  | button => finished (startButton tag)
  | anchor => finished (startAnchor tag)
  | nobr => finished (startNobr tag)
  | formatting => finished (insertPlain tag)
  | marker => finished (startMarker tag)
  | unsupported => HtmlTree.unsupported (.startTag tag)
  | void => finished (startVoid tag)
  | input => finished (startInput tag)
  | quietVoid => finished (insertVoid tag)
  | thematicBreak => finished (startThematicBreak tag)
  | image => do
    parseError .unexpectedStartTag
    return .reprocess (.startTag { tag with name := "img" })
  | textarea => finished (startTextarea tag)
  | xmp => finished (startXmp tag)
  | iframe => finished (startIframe tag)
  | rawText => finished (insertTextOnly tag .rawtext)
  | noscript => finished (startNoscript tag)
  | option => finished (startOption tag)
  | rubyBase => finished (startRuby none ["ruby"] tag)
  | rubyText => finished (startRuby (some "rtc") ["rtc", "ruby"] tag)
  | math => finished (insertForeign tag .mathMl)
  | svg => finished (insertForeign tag .svg)
  | misplaced => finished (parseError .unexpectedStartTag)
  | other => finished (insertPlain tag)

def bodyStartTag (tag : StartTag) : Step Verdict := (BodyStart.ofName tag.name).apply tag

end HtmlTree
