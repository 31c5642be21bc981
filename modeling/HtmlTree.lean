import HtmlTree.Main
import HtmlTree.Token.Encoding
import HtmlTree.Proofs.Strictness
import HtmlTree.Proofs.Formatting
import HtmlTree.Proofs.Documents
import HtmlTree.Proofs.DocumentChildren
import HtmlTree.Proofs.Growth
import HtmlTree.Proofs.EndOfInput
import HtmlTree.Proofs.Namespaces
import HtmlTree.Proofs.Outlined
import HtmlTree.Proofs.Rebuilt
import HtmlTree.Proofs.Termination
import HtmlTree.Proofs.Implied
import HtmlTree.Proofs.Supports
import HtmlTree.Proofs.Characters
import HtmlTree.Proofs.Chained
import HtmlTree.Proofs.Isomorphism
import HtmlTree.Proofs.DocumentValues
import HtmlTree.Proofs.Replays
import HtmlTree.Proofs.Insertions
import HtmlTree.Proofs.EarlyBlanks
import HtmlTree.Proofs.OptionEffects
import HtmlTree.Proofs.CodeUnits
import HtmlTree.Proofs.Doctypes
import HtmlTree.Proofs.EndTags
import HtmlTree.Proofs.TextOnly
import HtmlTree.Proofs.TextRuns
import HtmlTree.Proofs.Leaves
import HtmlTree.Proofs.AttributeUnions
import HtmlTree.Proofs.SelfClosing
import HtmlTree.Proofs.Relatives
import HtmlTree.Proofs.Dumps
import HtmlTree.Proofs.TokenSpellings
import HtmlTree.Proofs.MatchingTags
import HtmlTree.Proofs.ScopeSearch
import HtmlTree.Proofs.Warnings
import HtmlTree.Proofs.ColouredDumps
