import Javalette.Library.ColorTree
import Javalette.RbTree.Model
import Javalette.RbTree.Representation
import Javalette.RbTree.Insert
import Javalette.RbTree.Delete
import Javalette.RbTree.Correctness
import Javalette.RbTree.KeySet
import Javalette.Flow.Model
import Javalette.Library.Agrees
import Javalette.Library.BackwardFlow
import Javalette.Library.DepthFirst
import Javalette.Flow.Block
import Javalette.Flow.Round
import Javalette.Flow.Liveness
import Javalette.I386.DivMod
import Javalette.Gencode.Stack
import Javalette.Gencode.StackSound
import Javalette.Quadr.Generate
import Javalette.Library.LinkedList
import Javalette.Quadr.Layout
import Javalette.Quadr.Lowering
import Javalette.Tree.Eval
import Javalette.Quadr.Run
import Javalette.Quadr.Structure
import Javalette.Quadr.Translate
import Javalette.Quadr.Nodes
import Javalette.Quadr.Conditions
import Javalette.Quadr.Correct
import Javalette.Tree.Blocks
import Javalette.Tree.Increments
import Javalette.Tree.Returns
import Javalette.Tree.Entries
import Javalette.Tree.Store
import Javalette.Tree.Simulation
import Javalette.Tree.Control
import Javalette.Tree.Correct
import Javalette.Gencode.Location
import Javalette.Gencode.Moves
import Javalette.Flow.NextUse
import Javalette.Flow.Distance
import Javalette.Scope.Lexical
import Javalette.Library.DoublyLinked
import Javalette.Outbuf.Model
import Javalette.Outbuf.Buffer
import Javalette.Outbuf.FixStack
import Javalette.Mem.Alloc
import Javalette.Mem.Strtab
import Javalette.Mem.Interning
import Javalette.Library.FirstMax
import Javalette.Library.OrderedMap
import Javalette.Library.Doubles
import Javalette.Gencode.Belady
import Javalette.Types.Equiv
import Javalette.Scope.Table
import Javalette.Gencode.Rotate
import Javalette.Flow.Marks
import Javalette.Mem.Pool
import Javalette.RbTree.Copy
import Javalette.RbTree.Join
import Javalette.Opt.Dag
import Javalette.Opt.Keys
import Javalette.Check.TypeCheck
import Javalette.Check.Semantic
import Javalette.Opt.Values
import Javalette.Opt.CopyMeaning
import Javalette.Opt.Emit
import Javalette.Opt.Listed
import Javalette.Opt.Tidy
import Javalette.Opt.EmitSteps
import Javalette.Opt.EmitMeaning
import Javalette.Opt.Local
