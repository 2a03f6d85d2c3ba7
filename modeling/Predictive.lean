import Predictive.Trace.Grammars
import Predictive.Trace.Parses
import Predictive.Proofs.RegexLanguage
import Predictive.Proofs.LongestMatch
import Predictive.Proofs.Ambiguity
import Predictive.Proofs.ExtendedBnf
import Predictive.Proofs.Unambiguous
import Predictive.Proofs.ParseErrors
import Predictive.Proofs.ParseEnd
import Predictive.Proofs.FollowExact
import Predictive.Proofs.History
import Predictive.Proofs.PatternLanguages
import Predictive.Proofs.EndOfInput
import Predictive.Proofs.RegexSyntax
import Predictive.Proofs.BlockSyntax
import Predictive.Proofs.Artifacts
import Predictive.Proofs.Merging
import Predictive.Proofs.DefinitionLines
import Predictive.Proofs.LineNumbers
import Predictive.Proofs.TreeShape
import Predictive.Proofs.ParseTape
import Predictive.Proofs.Segments
import Predictive.Proofs.Subrules
import Predictive.Proofs.RepeatedBlocks
import Predictive.Proofs.StatelessParts
import Predictive.Proofs.InternalLines
import Predictive.Proofs.Marks
import Predictive.Proofs.Terminals
import Predictive.Proofs.AutomatonListing
import Predictive.Proofs.TreeListing
import Predictive.Proofs.LineEndings
import Predictive.Proofs.FlatStack
import Predictive.Proofs.GroupIsolation
import Predictive.Proofs.InfixEvaluation
import Predictive.Proofs.OperandSupply
import Predictive.Proofs.OperandCount
import Predictive.Proofs.DefinitionFaults
import Predictive.Proofs.Copying
import Predictive.Proofs.Construction
import Predictive.Proofs.NameTables
