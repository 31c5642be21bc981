import HtmlTree.Construct.ForeignElement
import HtmlTree.Construct.Head

/-!
# Steps of the body

Formatting elements are ordinary elements here: they leave the stack only through an end tag of
their own or together with an element that seals them off.  Whatever would close one in another way
is unsupported input, so nothing ever has to be opened again.

* `keepFormatting`, `keepFormattingIn`   refuse to close a formatting element on the way;
* `closeParagraph`, `closeInScope`, `closeListItem`, `closeFormatting`, `closeOther`;
* `closeBody`                            the end of the body.
-/

namespace HtmlTree

/-! ## formatting elements -/

/-- none of these entries may be a formatting element -/
def keepFormatting (inside : List NodeId) (token : Token) : Step Unit := do
  let c ← get
  if inside.any (c.tree.elementSatisfies Element.isFormatting) then unsupported token

/-- no formatting element may be open inside the innermost element with one of these names -/
def keepFormattingIn (names : List String) (token : Token) : Step Unit := do
  let c ← get
  match OpenElements.splitAt? (c.tree.isHtmlOneOf names) c.openElements.entries with
  | some (inside, _, _) => keepFormatting inside token
  | none => return

namespace Constructor

/-- whether an `a` element is open that nothing opened later seals off -/
def hasOpenAnchor (c : Constructor) : Bool :=
  OpenElements.reaches (c.tree.isHtml "a") (c.tree.isHtmlOneOf markerNames) c.openElements.entries

/-- whether an element is open that its own end tag must close -/
def needsEndTag (c : Constructor) : Bool :=
  c.openElements.entries.any (c.tree.elementSatisfies fun e => !e.mayBeLeftOpen)

/-- the `body` element, if it is the second entry of the stack -/
def openBody? (c : Constructor) : Option NodeId :=
  (c.openElements.get? 1).filter (c.tree.isHtml "body")

end Constructor

/-! ## closing elements -/

/-- closes the innermost paragraph and all inside it -/
def closeParagraph (token : Token) : Step Unit := do
  keepFormattingIn ["p"] token
  generateImpliedEndTags (some "p")
  expectCurrent ["p"] .misnestedTag
  popUntilTag "p"

/-- closes a paragraph, if one is in button scope -/
def closeOpenParagraph (token : Token) : Step Unit := do
  if (← get).hasInScope "p" .button then closeParagraph token

/-- an end tag that closes the element it names, found in a scope; `sparing` leaves elements of that
name to the last step -/
def closeInScope (name : String) (scope : Scope) (sparing : Bool) (token : Token) : Step Unit := do
  if (← get).hasInScope name scope then
    if name ∉ markerNames then keepFormattingIn [name] token
    generateImpliedEndTags (if sparing then some name else none)
    expectCurrent [name] .misnestedTag
    popUntilTag name
  else parseError .unexpectedEndTag

/-- closes one open item of a list before the next: the search goes outwards over `closes` and stops
at a special element other than an address, a division and a paragraph -/
def closeListItem (closes : List String) (token : Token) : Step Unit := do
  let c ← get
  let stops := fun e : Element =>
    e.isHtmlOneOf closes || (e.isSpecial && !e.isHtmlOneOf ["address", "div", "p"])
  match OpenElements.splitAt? (c.tree.elementSatisfies stops) c.openElements.entries with
  | none => return
  | some (inside, id, _) =>
    match (c.tree.element? id).filter (·.isHtmlOneOf closes) with
    | none => return
    | some item =>
      keepFormatting inside token
      generateImpliedEndTags (some item.localName)
      expectCurrent [item.localName] .misnestedTag
      popUntilTag item.localName

/-- an end tag without a rule of its own: the innermost element of its name is closed, unless a
special element is met first -/
def closeOther (name : String) (token : Token) : Step Unit := do
  let c ← get
  let stops := fun e : Element => e.isHtml name || e.isSpecial
  match OpenElements.splitAt? (c.tree.elementSatisfies stops) c.openElements.entries with
  | none => return
  | some (inside, id, outside) =>
    if c.tree.isHtml name id then
      keepFormatting inside token
      generateImpliedEndTags (some name)
      if (← get).openElements.current? ≠ some id then parseError .misnestedTag
      modify fun c => { c with openElements := ⟨outside⟩ }
    else parseError .unexpectedEndTag

/-- the end tag of a formatting element, which must be the current node if one of its name is open -/
def closeFormatting (name : String) (token : Token) : Step Unit := do
  let c ← get
  if c.currentIsHtml name then popElement
  else if c.openElements.containsHtml c.tree name then unsupported token
  else closeOther name token

/-- the end tag of a heading closes the innermost heading, of whatever rank -/
def closeHeading (name : String) (token : Token) : Step Unit := do
  let c ← get
  if c.openElements.hasOneOfInScope c.tree headingNames .default then
    keepFormattingIn headingNames token
    generateImpliedEndTags none
    expectCurrent [name] .misnestedTag
    popUntilOneOf headingNames
  else parseError .unexpectedEndTag

/-- the end tag of a form takes the form of the element pointer out of the stack -/
def closeForm : Step Unit := do
  let c ← get
  modify fun c => { c with form := none }
  match c.form.filter (c.openElements.hasNodeInScope c.tree) with
  | none => parseError .unexpectedEndTag
  | some form =>
    generateImpliedEndTags none
    if (← get).openElements.current? ≠ some form then parseError .misnestedTag
    modify fun c => { c with openElements := c.openElements.remove form }

/-- the end of the body; says whether there was a body to end -/
def closeBody : Step Bool := do
  let c ← get
  if c.hasInScope "body" .default then
    if c.needsEndTag then parseError .unexpectedEndTag
    switchTo .afterBody
    return true
  else
    parseError .unexpectedEndTag
    return false

end HtmlTree
