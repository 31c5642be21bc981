import HtmlTree.Construct.Mode
import HtmlTree.Dom.Error
import HtmlTree.Token.Basic

/-!
# Parse errors and failures

A parse error is a remark on the input: it is recorded and construction goes on, unless the
constructor is strict.  A failure ends the work on a token.

* `ParseError`  what was wrong, in which mode, at which token;
* `Failure`     unsupported input, a parse error in strict mode, a refused insertion, or a state
                that the constructor's own bookkeeping rules out.
-/

namespace HtmlTree

/-! ## parse errors -/

inductive ParseErrorKind where
  | malformedDoctype
  | unexpectedDoctype
  | missingDoctype
  | unexpectedStartTag
  | unexpectedEndTag
  | unexpectedCharacter
  | unexpectedComment
  | unexpectedNullCharacter
  | unexpectedEndOfFile
  | nonVoidSelfClosingTag
  | misnestedTag
  deriving DecidableEq

def ParseErrorKind.name : ParseErrorKind → String
  | malformedDoctype => "malformed-doctype"
  | unexpectedDoctype => "unexpected-doctype"
  | missingDoctype => "missing-doctype"
  | unexpectedStartTag => "unexpected-start-tag"
  | unexpectedEndTag => "unexpected-end-tag"
  | unexpectedCharacter => "unexpected-character"
  | unexpectedComment => "unexpected-comment"
  | unexpectedNullCharacter => "unexpected-null-character"
  | unexpectedEndOfFile => "unexpected-end-of-file"
  | nonVoidSelfClosingTag => "non-void-self-closing-tag"
  | misnestedTag => "misnested-tag"

/-- the kind of error that a token is where no rule expects it -/
def ParseErrorKind.unexpected : Token → ParseErrorKind
  | .doctype _ => unexpectedDoctype
  | .startTag _ => unexpectedStartTag
  | .endTag _ => unexpectedEndTag
  | .comment _ => unexpectedComment
  | .character c => if c = '\x00' then unexpectedNullCharacter else unexpectedCharacter
  | .endOfFile => unexpectedEndOfFile

structure ParseError where
  kind : ParseErrorKind
  mode : Mode
  /-- the position of the token in the stream, from zero -/
  tokenIndex : Nat
  deriving DecidableEq

def ParseError.text (e : ParseError) : String :=
  e.kind.name ++ " in " ++ e.mode.name ++ " at token " ++ toString e.tokenIndex

/-! ## failures -/

/-- a state that the constructor should never be in -/
inductive Violation where
  | noCurrentNode
  | noHeadElement
  | noOriginalMode
  | noHtmlElement
  | endlessReprocessing
  deriving DecidableEq

def Violation.message : Violation → String
  | noCurrentNode => "current node requested with no open elements"
  | noHeadElement => "head element pointer unset after the head"
  | noOriginalMode => "text mode without an original insertion mode"
  | noHtmlElement => "no html element after the body"
  | endlessReprocessing => "token reprocessed without end"

inductive Failure where
  | unsupportedInput (mode : Mode) (token : Token)
  | structural (error : DomError)
  | invariantViolation (violation : Violation)
  | parse (error : ParseError)
  deriving DecidableEq

namespace Failure

/-- the name of the cause; for a refused insertion followed by the tree's own name for it -/
def name : Failure → String
  | unsupportedInput _ _ => "UnsupportedInput"
  | structural e => "Structural." ++ e.name
  | invariantViolation _ => "InvariantViolation"
  | parse _ => "Parse"

def message : Failure → String
  | unsupportedInput mode token => "unsupported input in " ++ mode.name ++ ": " ++ token.text
  | structural e => e.message
  | invariantViolation v => "tree construction invariant violated: " ++ v.message
  | parse e => "parse error in strict mode: " ++ e.text

end Failure

end HtmlTree
