import TreeVM.Defer.Preservation
import TreeVM.Defer.CleanupOnce
import TreeVM.Defer.Idle
import TreeVM.Compile.Joins
import TreeVM.Compile.Jumps
import TreeVM.Compile.CodeTable
import TreeVM.Compile.Decoding
import TreeVM.VM.Slices
import TreeVM.Run.Arithmetic
import TreeVM.Run.Cleanup
import TreeVM.Run.Unwinding
import TreeVM.Verify.Calls
import TreeVM.Verify.Lval
import TreeVM.Frontend.Exits
import TreeVM.Frontend.Repl
import TreeVM.Frontend.TypePhrases
import TreeVM.Frontend.Counters
import TreeVM.IR.Portals
import TreeVM.Logic.Walks
import TreeVM.VM.Projections
import TreeVM.Verify.Aliases
import TreeVM.Verify.Cycles
import TreeVM.Verify.HoldLists
import TreeVM.Verify.ParTable
import TreeVM.Compile.FrameLayout
import TreeVM.Defer.Output
import TreeVM.Defer.Destinations
import TreeVM.Frontend.Callable
import TreeVM.Verify.Overlaps
import TreeVM.Run.Residue
import TreeVM.Frontend.OuterRun
import TreeVM.Run.Lowered
import TreeVM.Verify.Accepted
import TreeVM.Frontend.CodeCache
import TreeVM.Frontend.Stored
