import MiniC.Arena.Heap
import MiniC.Parse.Session
import MiniC.Tree.Forest
import MiniC.Proofs.Arena.Accounts
import MiniC.Proofs.Arena.Faults
import MiniC.Proofs.Arena.Readback
import MiniC.Proofs.Arena.Waste
import MiniC.Proofs.Halting.Lookahead
import MiniC.Proofs.Interning.Life
import MiniC.Proofs.Memory.Unit
import MiniC.Proofs.Parsing.Classification
import MiniC.Proofs.Parsing.Concatenation
import MiniC.Proofs.Parsing.Greedy
import MiniC.Proofs.Parsing.Layout
import MiniC.Proofs.Parsing.Nesting
import MiniC.Proofs.Parsing.Production
import MiniC.Proofs.Parsing.Repetition
import MiniC.Proofs.Parsing.Scanner
import MiniC.Proofs.Parsing.SourceLines
import MiniC.Proofs.Parsing.Stream
import MiniC.Proofs.Parsing.Texts
import MiniC.Proofs.Recursion.Ending
import MiniC.Proofs.Runs.Speculation
import MiniC.Proofs.Tree.Children
