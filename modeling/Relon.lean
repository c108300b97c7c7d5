import Relon.Abi.Alignment
import Relon.Abi.VerifierComplete
import Relon.Eval.Recheck
import Relon.Eval.Budget
import Relon.Eval.Projection
import Relon.Codegen.Containment
import Relon.Eval.Comparison
import Relon.Eval.Imports
import Relon.Analyzer.Exhaustive
import Relon.Analyzer.ImportCycles
import Relon.Lowering.StaticMatch
import Relon.Codegen.ContainsCache
import Relon.Codegen.LlvmArena
import Relon.Codegen.Decimal
import Relon.Unicode.Composition
import Relon.Cache.Strict
import Relon.Cache.Remote
import Relon.Abi.BindingProofs
import Relon.Host.TopLevelRun
import Relon.Unicode.Glob
import Relon.Eval.SortBy
import Relon.Fmt.Imports
import Relon.Ir.Trimming
import Relon.Ir.Splitting
import Relon.Eval.Solution
import Relon.Cache.RoundTrip
import Relon.Abi.Evolution
