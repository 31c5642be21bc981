/-!
# Insertion modes

The insertion mode decides which rules a token meets.  Of the modes that the standard names, those
for tables, selects, templates and framesets have no rules here; a token that meets one of them is
unsupported.

* `Mode`       all insertion modes, `Mode.name` their names in messages.
-/

namespace HtmlTree

inductive Mode where
  | initial
  | beforeHtml
  | beforeHead
  | inHead
  | inHeadNoscript
  | afterHead
  | inBody
  | text
  | inTable
  | inTableText
  | inCaption
  | inColumnGroup
  | inTableBody
  | inRow
  | inCell
  | inSelect
  | inSelectInTable
  | inTemplate
  | afterBody
  | inFrameset
  | afterFrameset
  | afterAfterBody
  | afterAfterFrameset
  deriving DecidableEq

def Mode.name : Mode → String
  | initial => "Initial"
  | beforeHtml => "BeforeHtml"
  | beforeHead => "BeforeHead"
  | inHead => "InHead"
  | inHeadNoscript => "InHeadNoscript"
  | afterHead => "AfterHead"
  | inBody => "InBody"
  | text => "Text"
  | inTable => "InTable"
  | inTableText => "InTableText"
  | inCaption => "InCaption"
  | inColumnGroup => "InColumnGroup"
  | inTableBody => "InTableBody"
  | inRow => "InRow"
  | inCell => "InCell"
  | inSelect => "InSelect"
  | inSelectInTable => "InSelectInTable"
  | inTemplate => "InTemplate"
  | afterBody => "AfterBody"
  | inFrameset => "InFrameset"
  | afterFrameset => "AfterFrameset"
  | afterAfterBody => "AfterAfterBody"
  | afterAfterFrameset => "AfterAfterFrameset"

end HtmlTree
