import PegTree.Decimal.Shortest
import PegTree.Grammar.Printer
import PegTree.Grammar.Reader
import PegTree.Input
import PegTree.Match.ParseError
import PegTree.Match.Result
import PegTree.Parser
import PegTree.Proofs.Coverage
import PegTree.Proofs.Derivation
import PegTree.Proofs.Printing
import PegTree.Rose
import PegTree.Settings.Load
import PegTree.Snapshot.JsonReader
import PegTree.Snapshot.JsonWriter
import PegTree.Snapshot.YamlReader
import PegTree.Table.Defect
import PegTree.Text.Quoted
import PegTree.Tree.Inspect
import PegTree.Tree.Outline
import PegTree.Proofs.EditHistory
import PegTree.Proofs.RuleGraph
import PegTree.Proofs.Defects
import PegTree.Proofs.Run
import PegTree.Proofs.DepthLimit
import PegTree.Proofs.Rerun
import PegTree.Proofs.PatternLaws
import PegTree.Proofs.Conformance
import PegTree.Proofs.Correspondence
import PegTree.Proofs.InputForms
import PegTree.Proofs.Relabelling
import PegTree.Proofs.Guarantees
import PegTree.Proofs.Diagnostics
import PegTree.Proofs.ViablePrefix
import PegTree.Proofs.Segments
import PegTree.Proofs.Relayout
import PegTree.Proofs.JsonValues
import PegTree.Proofs.JsonRoundTrip
import PegTree.Proofs.ExpectationCap
import PegTree.Proofs.FurthestReach
import PegTree.Proofs.LongestMatch
import PegTree.Proofs.EditEffects
import PegTree.Proofs.Traversal
import PegTree.Proofs.Numbering
import PegTree.Proofs.OutlineShape
import PegTree.Proofs.RecursionGuard
import PegTree.Proofs.BadEscapes
import PegTree.Proofs.SyntaxPlaces
import PegTree.Proofs.Anchoring
import PegTree.Proofs.Growth
import PegTree.Proofs.Lookups
