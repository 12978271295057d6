import Fexpr.Host.Tool
import Fexpr.Inspect
import Fexpr.Main
import Fexpr.Proofs.Independence
import Fexpr.Proofs.Lowering
import Fexpr.Proofs.Sessions
import Fexpr.Proofs.LongestMatch
import Fexpr.Proofs.Spans
import Fexpr.Proofs.EarliestError
import Fexpr.Proofs.JsonText
import Fexpr.Proofs.Rounding
import Fexpr.Proofs.JsonNumber
import Fexpr.Proofs.TreeJson
import Fexpr.Token.Reader
import Fexpr.Proofs.Coverage
import Fexpr.Proofs.Rendering
import Fexpr.Proofs.Continuation
import Fexpr.Proofs.ErrorPlaces
import Fexpr.Proofs.Rejection
import Fexpr.Proofs.Reachability
import Fexpr.Proofs.Isolation
import Fexpr.Proofs.LateBinding
import Fexpr.Proofs.InvalidCallee
import Fexpr.Proofs.Relocation
import Fexpr.Proofs.CallingConvention
import Fexpr.Proofs.Covering
import Fexpr.Proofs.ErrorOrigin
import Fexpr.Proofs.Blame
import Fexpr.Proofs.Renaming
import Fexpr.Proofs.ShortCircuit
import Fexpr.Proofs.WellFormed
import Fexpr.Proofs.Operations
import Fexpr.Proofs.ReachableStore
import Fexpr.Proofs.Noting
import Fexpr.Proofs.FunctionFree
import Fexpr.Proofs.StringLiterals
import Fexpr.Proofs.PrintedNumbers
import Fexpr.Proofs.Concatenation
import Fexpr.Proofs.ErrorLabels
import Fexpr.Proofs.Gathering
import Fexpr.Proofs.Checking
import Fexpr.Proofs.Names
import Fexpr.Proofs.SharedTables
import Fexpr.Proofs.ContextHistory
import Fexpr.Proofs.Signatures
import Fexpr.Proofs.EffectFree
import Fexpr.Proofs.Equality
