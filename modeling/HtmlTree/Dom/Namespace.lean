/-!
# Namespaces

The namespaces that an element or attribute can belong to, each with its URL and the short label
under which foreign names are printed.

* `Namespace.url`, `Namespace.ofUrl?`  the URL and its reading;
* `Namespace.label?`                   `svg`, `math` and so on; HTML has none;
* `Namespace.ofUrl?_url`               every URL reads back.
-/

namespace HtmlTree

inductive Namespace where
  | html
  | mathMl
  | svg
  | xLink
  | xml
  | xmlNs
  deriving DecidableEq

namespace Namespace

/-- the URL that names the namespace -/
def url : Namespace → String
  | html => "http://www.w3.org/1999/xhtml"
  | mathMl => "http://www.w3.org/1998/Math/MathML"
  | svg => "http://www.w3.org/2000/svg"
  | xLink => "http://www.w3.org/1999/xlink"
  | xml => "http://www.w3.org/XML/1998/namespace"
  | xmlNs => "http://www.w3.org/2000/xmlns/"

/-- the label before a name of this namespace; HTML names carry none -/
def label? : Namespace → Option String
  | html => none
  | mathMl => some "math"
  | svg => some "svg"
  | xLink => some "xlink"
  | xml => some "xml"
  | xmlNs => some "xmlns"

def all : List Namespace := [html, mathMl, svg, xLink, xml, xmlNs]

/-- the namespace of a URL, which must match to the letter -/
def ofUrl? (text : String) : Option Namespace := all.find? fun ns => ns.url == text

theorem ofUrl?_url (ns : Namespace) : ofUrl? ns.url = some ns := by cases ns <;> decide

end Namespace

end HtmlTree
