import Scriptlet.Main
import Scriptlet.Proofs.CompleteTrees
import Scriptlet.Proofs.CompoundAssignment
import Scriptlet.Proofs.Concatenation
import Scriptlet.Proofs.Enclosing
import Scriptlet.Proofs.ExpressionSpans
import Scriptlet.Proofs.FirstErrors
import Scriptlet.Proofs.FrontEndSpans
import Scriptlet.Proofs.LoopForms
import Scriptlet.Proofs.MergedTables
import Scriptlet.Proofs.NativeNames
import Scriptlet.Proofs.NestedScopes
import Scriptlet.Proofs.NormalData
import Scriptlet.Proofs.NumberOrder
import Scriptlet.Proofs.PatternMatches
import Scriptlet.Proofs.PreparedParsers
import Scriptlet.Proofs.PrintedDecimals
import Scriptlet.Proofs.PrintedRuns
import Scriptlet.Proofs.ReturnSignals
import Scriptlet.Proofs.ScientificText
import Scriptlet.Proofs.Tracing
import Scriptlet.Proofs.TreeFileReports
import Scriptlet.Proofs.TreeFiles
import Scriptlet.Proofs.WholeWords
