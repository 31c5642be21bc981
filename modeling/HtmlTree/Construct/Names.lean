import HtmlTree.Dom.Node

/-!
# Groups of tag names

The rules speak of elements in groups.  Here is each group as a list of names, and the properties
of elements that rest on them.

* `blockNames`, `headingNames`, `formattingNames`, `markerNames`, `headContentNames`, …;
* `Element.isSpecial`          elements at which the search for an end tag's element gives up;
* `Element.hasImpliedEndTag`   elements that other tags close without an error;
* `Element.mayBeLeftOpen`      elements that may still be open at the end of the body.
-/

namespace HtmlTree

/-! ## names -/

def headingNames : List String := ["h1", "h2", "h3", "h4", "h5", "h6"]

/-- blocks whose start tag closes a paragraph -/
def blockNames : List String :=
  [ "address", "article", "aside", "blockquote", "center", "details", "dialog", "dir", "div", "dl",
    "fieldset", "figcaption", "figure", "footer", "header", "hgroup", "main", "menu", "nav", "ol",
    "p", "search", "section", "summary", "ul" ]

/-- blocks whose end tag closes what it names; a paragraph has a rule of its own -/
def blockEndNames : List String :=
  blockNames.filter (· != "p") ++ ["button", "listing", "pre"]

def formattingNames : List String :=
  ["a", "b", "big", "code", "em", "font", "i", "nobr", "s", "small", "strike", "strong", "tt", "u"]

/-- elements that seal off the formatting elements opened inside them -/
def markerNames : List String := ["applet", "marquee", "object", "template"]

/-- elements that belong into the head wherever they stand -/
def headContentNames : List String :=
  [ "base", "basefont", "bgsound", "link", "meta", "noframes", "script", "style", "template",
    "title" ]

/-- end tags that may imply the elements around the body -/
def outerEndNames : List String := ["body", "html", "br"]

def specialNames : List String :=
  [ "address", "applet", "area", "article", "aside", "base", "basefont", "bgsound", "blockquote",
    "body", "br", "button", "caption", "center", "col", "colgroup", "dd", "details", "dir", "div",
    "dl", "dt", "embed", "fieldset", "figcaption", "figure", "footer", "form", "frame", "frameset",
    "h1", "h2", "h3", "h4", "h5", "h6", "head", "header", "hgroup", "hr", "html", "iframe", "img",
    "input", "keygen", "li", "link", "listing", "main", "marquee", "menu", "meta", "nav", "noembed",
    "noframes", "noscript", "object", "ol", "p", "param", "plaintext", "pre", "script", "search",
    "section", "select", "source", "style", "summary", "table", "tbody", "td", "template",
    "textarea", "tfoot", "th", "thead", "title", "tr", "track", "ul", "wbr", "xmp" ]

def impliedEndNames : List String :=
  ["dd", "dt", "li", "optgroup", "option", "p", "rb", "rp", "rt", "rtc"]

def leftOpenNames : List String := ["tbody", "td", "tfoot", "th", "thead", "tr", "body", "html"]

/-- MathML elements that hold text for HTML -/
def mathTextNames : List String := ["mi", "mo", "mn", "ms", "mtext"]

/-- SVG elements that hold HTML -/
def svgHtmlNames : List String := ["foreignObject", "desc", "title"]

/-! ## properties of elements -/

namespace Element

def isSpecial (e : Element) : Bool :=
  match e.ns with
  | .html => specialNames.contains e.localName
  | .mathMl => ("annotation-xml" :: mathTextNames).contains e.localName
  | .svg => svgHtmlNames.contains e.localName
  | _ => false

def hasImpliedEndTag (e : Element) : Bool := e.isHtmlOneOf impliedEndNames

def mayBeLeftOpen (e : Element) : Bool := e.hasImpliedEndTag || e.isHtmlOneOf leftOpenNames

def isFormatting (e : Element) : Bool := e.isHtmlOneOf formattingNames

end Element

end HtmlTree
