/-!
# ASCII case and HTML whitespace

The markup rules compare names without regard to ASCII case, and they know one set of five white
space characters.  Both leave every character outside ASCII alone.

* `isBlank`          tab, line feed, form feed, carriage return and space;
* `lower`            the ASCII capitals of a text made small;
* `sameIgnoringCase` equality up to ASCII case.
-/

namespace HtmlTree.Text

/-- the white space of HTML: tab, line feed, form feed, carriage return, space -/
def isBlank (c : Char) : Bool :=
  c == '\t' || c == '\n' || c == '\x0c' || c == '\r' || c == ' '

/-- every ASCII capital made small, every other character kept -/
def lower (s : String) : String := String.ofList (s.toList.map Char.toLower)

/-- equal up to ASCII case -/
def sameIgnoringCase (s t : String) : Bool := lower s == lower t

end HtmlTree.Text
