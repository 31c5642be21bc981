/-!
# Tokens

What a tokenizer hands to tree construction, and the tokenizer states that tree construction can
ask for in return.

* `Token`            doctype, start tag, end tag, comment, character, end of file;
* `Token.text`       a token in one line, as messages show it;
* `TokenizerState`   the states of the tokenizer.
-/

namespace HtmlTree

/-- an attribute of a start tag; a name may be repeated, the first value counts -/
structure TagAttribute where
  name : String
  value : String
  deriving DecidableEq

/-- the fields of a doctype token; a missing identifier differs from an empty one -/
structure DoctypeToken where
  name : Option String
  publicId : Option String
  systemId : Option String
  forceQuirks : Bool
  deriving DecidableEq

structure StartTag where
  name : String
  selfClosing : Bool
  attributes : List TagAttribute
  deriving DecidableEq

inductive Token where
  | doctype (fields : DoctypeToken)
  | startTag (tag : StartTag)
  | endTag (name : String)
  | comment (data : String)
  | character (data : Char)
  | endOfFile
  deriving DecidableEq

namespace Token

/-! ## building tokens -/

/-- a doctype of this name without identifiers -/
def doctypeNamed (name : String) : Token := .doctype ⟨some name, none, none, false⟩

/-- a start tag without attributes that is not self-closing -/
def startTagNamed (name : String) : Token := .startTag ⟨name, false, []⟩

/-- one character token per character -/
def characters (text : String) : List Token := text.toList.map character

/-- a further attribute; only start tags have any -/
def withAttribute (name value : String) : Token → Token
  | startTag tag => startTag { tag with attributes := tag.attributes ++ [⟨name, value⟩] }
  | t => t

/-- the self-closing flag set; only start tags have it -/
def withSelfClosing : Token → Token
  | startTag tag => startTag { tag with selfClosing := true }
  | t => t

/-! ## asking tokens -/

def isEndOfFile : Token → Bool
  | endOfFile => true
  | _ => false

def tagName? : Token → Option String
  | startTag tag => some tag.name
  | endTag name => some name
  | _ => none

def isSelfClosingStartTag : Token → Bool
  | startTag tag => tag.selfClosing
  | _ => false

/-! ## one line of text -/

/-- a character as messages show it: the blanks that would not be seen have names -/
def shownChar (c : Char) : String :=
  if c = '\n' then "\\n"
  else if c = '\t' then "\\t"
  else if c = ' ' then "SPACE"
  else String.singleton c

/-- an identifier of a doctype under its keyword, where there is one -/
def identifierText (keyword : String) : Option String → String
  | none => ""
  | some id => " " ++ keyword ++ " \"" ++ id ++ "\""

def text : Token → String
  | doctype d =>
    "DOCTYPE" ++ (d.name.elim "" fun n => " " ++ n)
      ++ identifierText "PUBLIC" d.publicId ++ identifierText "SYSTEM" d.systemId
      ++ (if d.forceQuirks then " (force-quirks)" else "")
  | startTag tag =>
    "<" ++ tag.name
      ++ String.join (tag.attributes.map fun a => " " ++ a.name ++ "=\"" ++ a.value ++ "\"")
      ++ (if tag.selfClosing then " />" else ">")
  | endTag name => "</" ++ name ++ ">"
  | comment data => "<!--" ++ data ++ "-->"
  | character c => "Character(" ++ shownChar c ++ ")"
  | endOfFile => "EOF"

end Token

/-! ## tokenizer states -/

inductive TokenizerState where
  | data
  | rcdata
  | rawtext
  | scriptData
  | plaintext
  deriving DecidableEq

def TokenizerState.name : TokenizerState → String
  | data => "Data"
  | rcdata => "Rcdata"
  | rawtext => "Rawtext"
  | scriptData => "ScriptData"
  | plaintext => "Plaintext"

end HtmlTree
