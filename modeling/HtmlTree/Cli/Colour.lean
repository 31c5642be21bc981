/-!
# The dump in colour

A dump is coloured line by line: the bar is dimmed, and the content takes the colour of its kind,
which its first characters tell.  A line that does not begin with a bar, as the later lines of a
text of several lines, is left as it is.

* `splitLines`    the lines of a text: a line feed, or a carriage return and a line feed, ends one;
* `colourLine`    a line with its colours;
* `colourDump`    a whole dump.
-/

namespace HtmlTree.Cli

/-- a text between the codes that turn a style on and off -/
def styled (on off : String) (text : List Char) : List Char :=
  ("\x1b[" ++ on ++ "m").toList ++ text ++ ("\x1b[" ++ off ++ "m").toList

/-- the codes of the styles in use -/
def dimmed : List Char → List Char := styled "2" "0"
def magenta : List Char → List Char := styled "35" "39"
def cyan : List Char → List Char := styled "36" "39"
def green : List Char → List Char := styled "32" "39"
def yellow : List Char → List Char := styled "33" "39"

/-! ## lines -/

/-- the text up to the first line feed, and what follows it where there is one -/
def cutLine : List Char → List Char × Option (List Char)
  | [] => ([], none)
  | c :: r =>
    if c = '\n' then ([], some r)
    else
      let (line, rest) := cutLine r
      (c :: line, rest)

/-- a line without the carriage return at its end -/
def dropReturn (line : List Char) : List Char :=
  if line.getLast? = some '\r' then line.dropLast else line

/-- at most `limit` lines -/
def splitLinesUpTo : (limit : Nat) → List Char → List (List Char)
  | 0, _ => []
  | _, [] => []
  | limit + 1, text =>
    match cutLine text with
    | (line, none) => [line]
    | (line, some rest) => dropReturn line :: splitLinesUpTo limit rest

/-- the lines of a text without their ends; there are no more than it has characters -/
def splitLines (text : List Char) : List (List Char) := splitLinesUpTo text.length text

/-! ## colours -/

/-- the style of a line's content -/
def contentStyle (content : List Char) : List Char → List Char :=
  if "<!--".toList.isPrefixOf content then dimmed
  else if "<!DOCTYPE".toList.isPrefixOf content then magenta
  else if "<".toList.isPrefixOf content then cyan
  else if "\"".toList.isPrefixOf content then green
  else yellow

def colourLine : List Char → List Char
  | '|' :: ' ' :: rest =>
    let indent := rest.takeWhile (· == ' ')
    let content := rest.dropWhile (· == ' ')
    dimmed ['|'] ++ ' ' :: indent ++ contentStyle content content
  | line => line

def colourDump (dump : List Char) : List Char :=
  (splitLines dump).flatMap fun line => colourLine line ++ ['\n']

end HtmlTree.Cli
