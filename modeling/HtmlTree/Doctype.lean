import HtmlTree.Dom.Tree
import HtmlTree.Text.Ascii
import HtmlTree.Token.Basic

/-!
# The document's mode from its doctype

A doctype of an old dialect asks for quirks or limited quirks.  Public and system identifiers are
compared without regard to ASCII case; the name must be `html` to the letter.

* `quirksPublicStarts`, `quirksPublicIds`, `quirksSystemId`  identifiers that mean quirks;
* `html401Starts`           quirks without a system identifier, limited quirks with one;
* `limitedQuirksStarts`     limited quirks;
* `DoctypeToken.mode`       the mode, `DoctypeToken.isMalformed` whether the token is an error.
-/

namespace HtmlTree

/-! ## tables -/

/-- public identifiers that begin with one of these mean quirks -/
def quirksPublicStarts : List String :=
  [ "+//silmaril//dtd html pro v0r11 19970101//",
    "-//as//dtd html 3.0 aswedit + extensions//",
    "-//advasoft ltd//dtd html 3.0 aswedit + extensions//",
    "-//ietf//dtd html 2.0 level 1//",
    "-//ietf//dtd html 2.0 level 2//",
    "-//ietf//dtd html 2.0 strict level 1//",
    "-//ietf//dtd html 2.0 strict level 2//",
    "-//ietf//dtd html 2.0 strict//",
    "-//ietf//dtd html 2.0//",
    "-//ietf//dtd html 2.1e//",
    "-//ietf//dtd html 3.0//",
    "-//ietf//dtd html 3.2 final//",
    "-//ietf//dtd html 3.2//",
    "-//ietf//dtd html 3//",
    "-//ietf//dtd html level 0//",
    "-//ietf//dtd html level 1//",
    "-//ietf//dtd html level 2//",
    "-//ietf//dtd html level 3//",
    "-//ietf//dtd html strict level 0//",
    "-//ietf//dtd html strict level 1//",
    "-//ietf//dtd html strict level 2//",
    "-//ietf//dtd html strict level 3//",
    "-//ietf//dtd html strict//",
    "-//ietf//dtd html//",
    "-//metrius//dtd metrius presentational//",
    "-//microsoft//dtd internet explorer 2.0 html strict//",
    "-//microsoft//dtd internet explorer 2.0 html//",
    "-//microsoft//dtd internet explorer 2.0 tables//",
    "-//microsoft//dtd internet explorer 3.0 html strict//",
    "-//microsoft//dtd internet explorer 3.0 html//",
    "-//microsoft//dtd internet explorer 3.0 tables//",
    "-//netscape comm. corp.//dtd html//",
    "-//netscape comm. corp.//dtd strict html//",
    "-//o'reilly and associates//dtd html 2.0//",
    "-//o'reilly and associates//dtd html extended 1.0//",
    "-//o'reilly and associates//dtd html extended relaxed 1.0//",
    "-//sq//dtd html 2.0 hotmetal + extensions//",
    "-//softquad software//dtd hotmetal pro 6.0::19990601::extensions to html 4.0//",
    "-//softquad//dtd hotmetal pro 4.0::19971010::extensions to html 4.0//",
    "-//spyglass//dtd html 2.0 extended//",
    "-//sun microsystems corp.//dtd hotjava html//",
    "-//sun microsystems corp.//dtd hotjava strict html//",
    "-//w3c//dtd html 3 1995-03-24//",
    "-//w3c//dtd html 3.2 draft//",
    "-//w3c//dtd html 3.2 final//",
    "-//w3c//dtd html 3.2//",
    "-//w3c//dtd html 3.2s draft//",
    "-//w3c//dtd html 4.0 frameset//",
    "-//w3c//dtd html 4.0 transitional//",
    "-//w3c//dtd html experimental 19960712//",
    "-//w3c//dtd html experimental 970421//",
    "-//w3c//dtd w3 html//",
    "-//w3o//dtd w3 html 3.0//",
    "-//webtechs//dtd mozilla html 2.0//",
    "-//webtechs//dtd mozilla html//" ]

/-- public identifiers that mean quirks -/
def quirksPublicIds : List String :=
  ["-//w3o//dtd w3 html strict 3.0//en//", "-/w3c/dtd html 4.0 transitional/en", "html"]

/-- the system identifier that means quirks -/
def quirksSystemId : String := "http://www.ibm.com/data/dtd/v11/ibmxhtml1-transitional.dtd"

/-- the frameset and transitional dialects of HTML 4.01 -/
def html401Starts : List String :=
  ["-//w3c//dtd html 4.01 frameset//", "-//w3c//dtd html 4.01 transitional//"]

/-- public identifiers that begin with one of these mean limited quirks -/
def limitedQuirksStarts : List String :=
  ["-//w3c//dtd xhtml 1.0 frameset//", "-//w3c//dtd xhtml 1.0 transitional//"]

/-- the system identifier that a doctype of today may carry for old producers -/
def legacySystemId : String := "about:legacy-compat"

/-! ## the choice -/

/-- whether a text begins with one of these -/
def beginsWithOneOf (starts : List String) (text : String) : Bool :=
  starts.any fun s => s.toList.isPrefixOf text.toList

namespace DoctypeToken

/-- the public identifier in small letters -/
def publicKey? (d : DoctypeToken) : Option String := d.publicId.map Text.lower

/-- the system identifier in small letters -/
def systemKey? (d : DoctypeToken) : Option String := d.systemId.map Text.lower

def publicBegins (d : DoctypeToken) (starts : List String) : Bool :=
  d.publicKey?.any (beginsWithOneOf starts)

/-- the mode that a document takes from this doctype -/
def mode (d : DoctypeToken) : DocumentMode :=
  if d.forceQuirks || d.name != some "html" then .quirks
  else if d.publicKey?.any quirksPublicIds.contains || d.systemKey? == some quirksSystemId
      || d.publicBegins quirksPublicStarts then .quirks
  else if d.publicBegins html401Starts then
    if d.systemId.isNone then .quirks else .limitedQuirks
  else if d.publicBegins limitedQuirksStarts then .limitedQuirks
  else .noQuirks

/-- whether the doctype is a parse error: any but `html` with no identifiers, or with the system
identifier for old producers -/
def isMalformed (d : DoctypeToken) : Bool :=
  d.name != some "html" || d.publicId.isSome || d.systemId.any (· != legacySystemId)

end DoctypeToken

end HtmlTree
