import HtmlTree.Construct.Basic

/-!
# Elements of SVG and MathML

A tokenizer makes tag and attribute names small; SVG and MathML have names with capitals, which are
put back when an element is inserted.  Some foreign elements hold HTML or text for HTML.

* `svgTagNames`, `svgAttributeNames`   the SVG names with capitals;
* `adjustTagName`, `adjustAttributeName`   a name as the namespace writes it;
* `insertForeign`                      the foreign element of a start tag;
* `Element.isTextIntegrationPoint`, `Element.isHtmlIntegrationPoint`.
-/

namespace HtmlTree

/-! ## names -/

/-- SVG tag names that have capitals -/
def svgTagNames : List String :=
  [ "altGlyph", "altGlyphDef", "altGlyphItem", "animateColor", "animateMotion", "animateTransform",
    "clipPath", "feBlend", "feColorMatrix", "feComponentTransfer", "feComposite",
    "feConvolveMatrix", "feDiffuseLighting", "feDisplacementMap", "feDistantLight", "feDropShadow",
    "feFlood", "feFuncA", "feFuncB", "feFuncG", "feFuncR", "feGaussianBlur", "feImage", "feMerge",
    "feMergeNode", "feMorphology", "feOffset", "fePointLight", "feSpecularLighting", "feSpotLight",
    "feTile", "feTurbulence", "foreignObject", "glyphRef", "linearGradient", "radialGradient",
    "textPath" ]

/-- SVG attribute names that have capitals -/
def svgAttributeNames : List String :=
  [ "attributeName", "attributeType", "baseFrequency", "baseProfile", "calcMode", "clipPathUnits",
    "diffuseConstant", "edgeMode", "filterUnits", "glyphRef", "gradientTransform", "gradientUnits",
    "kernelMatrix", "kernelUnitLength", "keyPoints", "keySplines", "keyTimes", "lengthAdjust",
    "limitingConeAngle", "markerHeight", "markerUnits", "markerWidth", "maskContentUnits",
    "maskUnits", "numOctaves", "pathLength", "patternContentUnits", "patternTransform",
    "patternUnits", "pointsAtX", "pointsAtY", "pointsAtZ", "preserveAlpha", "preserveAspectRatio",
    "primitiveUnits", "refX", "refY", "repeatCount", "repeatDur", "requiredExtensions",
    "requiredFeatures", "specularConstant", "specularExponent", "spreadMethod", "startOffset",
    "stdDeviation", "stitchTiles", "surfaceScale", "systemLanguage", "tableValues", "targetX",
    "targetY", "textLength", "viewBox", "viewTarget", "xChannelSelector", "yChannelSelector",
    "zoomAndPan" ]

/-- MathML attribute names that have capitals -/
def mathAttributeNames : List String := ["definitionURL"]

/-- the name in the table whose small letters these are, or the name itself -/
def restoreCase (table : List String) (name : String) : String :=
  (table.find? fun n => Text.lower n == name).getD name

def adjustTagName (ns : Namespace) (name : String) : String :=
  if ns = .svg then restoreCase svgTagNames name else name

def adjustAttributeName (ns : Namespace) (name : String) : String :=
  match ns with
  | .svg => restoreCase svgAttributeNames name
  | .mathMl => restoreCase mathAttributeNames name
  | _ => name

/-- the element that a start tag stands for in a foreign namespace -/
def Element.ofForeignTag (tag : StartTag) (ns : Namespace) : Element :=
  let attributes := tag.attributes.map fun a => { a with name := adjustAttributeName ns a.name }
  .ofTag (adjustTagName ns tag.name) attributes ns

/-- inserts the foreign element of a start tag; a self-closing one is closed at once -/
def insertForeign (tag : StartTag) (ns : Namespace) : Step Unit := do
  let _ ← insertElement (.ofForeignTag tag ns)
  if tag.selfClosing then
    popElement
    useSelfClosing

/-! ## integration points -/

namespace Element

/-- MathML elements whose characters and most of whose elements are HTML -/
def isTextIntegrationPoint (e : Element) : Bool :=
  e.ns == .mathMl && mathTextNames.contains e.localName

/-- whether the element declares its content as HTML -/
def hasHtmlEncoding (e : Element) : Bool :=
  (e.attributes.get? "encoding").any fun v =>
    Text.sameIgnoringCase v "text/html" || Text.sameIgnoringCase v "application/xhtml+xml"

/-- foreign elements whose content is HTML -/
def isHtmlIntegrationPoint (e : Element) : Bool :=
  match e.ns with
  | .mathMl => e.localName == "annotation-xml" && e.hasHtmlEncoding
  | .svg => svgHtmlNames.contains e.localName
  | _ => false

/-- an element at which foreign content ends: HTML, or a point where HTML may stand -/
def endsForeignContent (e : Element) : Bool :=
  e.ns == .html || e.isTextIntegrationPoint || e.isHtmlIntegrationPoint

end Element

end HtmlTree
