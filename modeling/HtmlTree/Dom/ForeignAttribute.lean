import HtmlTree.Dom.Namespace

/-!
# Attributes of foreign elements that have a namespace

On SVG and MathML elements a few qualified names stand for attributes in the XLink, XML and XMLNS
namespaces.  Elements store the qualified name; this table is asked when a name is shown.

* `foreignAttribute?`   label, local name and namespace of a qualified name in the table;
* `shownForeignName`    the name as a listing shows it: label and local name apart.
-/

namespace HtmlTree

/-- a namespaced attribute; `label?` stands before the local name where there is one -/
structure ForeignAttribute where
  label? : Option String
  localName : String
  ns : Namespace
  deriving DecidableEq

def xLinkNames : List String := ["actuate", "arcrole", "href", "role", "show", "title", "type"]

/-- the qualified names that stand for namespaced attributes -/
def foreignAttributes : List (String × ForeignAttribute) :=
  xLinkNames.map (fun n => ("xlink:" ++ n, ⟨some "xlink", n, .xLink⟩)) ++
  [ ("xml:lang", ⟨some "xml", "lang", .xml⟩),
    ("xml:space", ⟨some "xml", "space", .xml⟩),
    ("xmlns", ⟨none, "xmlns", .xmlNs⟩),
    ("xmlns:xlink", ⟨some "xmlns", "xlink", .xmlNs⟩) ]

def foreignAttribute? (qualifiedName : String) : Option ForeignAttribute :=
  foreignAttributes.lookup qualifiedName

/-- the name of a foreign element's attribute as a listing shows it -/
def shownForeignName (qualifiedName : String) : String :=
  match foreignAttribute? qualifiedName with
  | some ⟨some label, localName, _⟩ => label ++ " " ++ localName
  | _ => qualifiedName

end HtmlTree
