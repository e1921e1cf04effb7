import Ycetl.Lib.Runs
import Ycetl.Lib.Loops
import Ycetl.Lib.Lifetimes
import Ycetl.Lib.Bisect
import Ycetl.Lib.WeakOrder
import Ycetl.Lib.WordRows
import Ycetl.Lib.Mixers
import Ycetl.Lib.Probes
import Ycetl.Lib.Holders
import Ycetl.Lib.Initializers
import Ycetl.Lib.IntegerLiterals
import Ycetl.Lib.Pools
import Ycetl.Lib.Records
import Ycetl.Lib.Ownership
import Ycetl.Lib.Movable
import Ycetl.Lib.Chains
import Ycetl.Lib.FirstSeen
import Ycetl.Lib.Refinement
import Ycetl.Lib.Sequences
import Ycetl.Lib.PostOrders
import Ycetl.Lib.Layouts
import Ycetl.Lib.Doubling
import Ycetl.Lib.Buffers
import Ycetl.Lib.Sieves
import Ycetl.Lib.Factorisations
import Ycetl.Lib.Heaps
import Ycetl.Lib.Rings
import Ycetl.Ref.HashTable
import Ycetl.Ref.Hash
import Ycetl.Ref.DynamicArray
import Ycetl.Ref.Ordered
import Ycetl.Ref.PriorityQueue
import Ycetl.Ref.Bitset
import Ycetl.Ref.BasicString
import Ycetl.Ref.DynamicMemory
import Ycetl.Ref.UniquePtr
import Ycetl.Ref.SharedPtr
import Ycetl.Ref.LinkedList
import Ycetl.Ref.Deque
import Ycetl.Ref.DequeBuffer
import Ycetl.Ref.Hive
import Ycetl.Ref.ImplicitMoves
import Ycetl.Ref.TypeSystem
import Ycetl.Ref.MultitypeHandler
import Ycetl.Ref.Webgpu
import Ycetl.Ref.PySpellings
import Ycetl.Ref.Macros
import Ycetl.Ref.Cursors
import Ycetl.Ref.PyModule
import Ycetl.Ref.CompileTime
import Ycetl.Ref.Tools
import Ycetl.Ref.InplaceVector
import Ycetl.Ref.Stack
import Ycetl.Proofs.HashTableScan
import Ycetl.Proofs.HashTableInv
import Ycetl.Proofs.HashTableLookup
import Ycetl.Proofs.UnorderedUnique
import Ycetl.Proofs.UnorderedPresent
import Ycetl.Proofs.UnorderedMulti
import Ycetl.Proofs.TableGrowth
import Ycetl.Proofs.FewErases
import Ycetl.Proofs.IntegerHash
import Ycetl.Proofs.StringHash
import Ycetl.Proofs.DynamicArrayLoops
import Ycetl.Proofs.DynamicArrayOps
import Ycetl.Proofs.OrderedOps
import Ycetl.Proofs.OrderedUnique
import Ycetl.Proofs.OrderedLookup
import Ycetl.Proofs.OrderedMulti
import Ycetl.Proofs.PriorityQueue
import Ycetl.Proofs.BitsetBits
import Ycetl.Proofs.BitsetPointwise
import Ycetl.Proofs.BitsetObservers
import Ycetl.Proofs.StringFind
import Ycetl.Proofs.DynamicArrayWorld
import Ycetl.Proofs.StaticMemory
import Ycetl.Proofs.StaticFootprint
import Ycetl.Proofs.ObjectLifetimes
import Ycetl.Proofs.DynamicMemoryHeap
import Ycetl.Proofs.DynamicMemory
import Ycetl.Proofs.UniquePtrDelete
import Ycetl.Proofs.UniquePtr
import Ycetl.Proofs.LinkedList
import Ycetl.Proofs.ListCalls
import Ycetl.Proofs.ForwardList
import Ycetl.Proofs.ForwardCalls
import Ycetl.Proofs.MovedLists
import Ycetl.Proofs.MovedArrays
import Ycetl.Proofs.Moves
import Ycetl.Proofs.RelevantTypes
import Ycetl.Proofs.MultitypeHandler
import Ycetl.Proofs.ArraySequences
import Ycetl.Proofs.StringAppend
import Ycetl.Proofs.Deque
import Ycetl.Proofs.OwnElements
import Ycetl.Proofs.SharedHeap
import Ycetl.Proofs.SharedRelease
import Ycetl.Proofs.SharedProgress
import Ycetl.Proofs.SharedFalls
import Ycetl.Proofs.SharedAssign
import Ycetl.Proofs.SharedCounts
import Ycetl.Proofs.SharedPtr
import Ycetl.Lib.Cycles
import Ycetl.Ref.SharedNodes
import Ycetl.Proofs.SharedLeaks
import Ycetl.Proofs.UniqueLeaks
import Ycetl.Proofs.Hive
import Ycetl.Proofs.ListSequences
import Ycetl.Proofs.ForwardSequences
import Ycetl.Proofs.PyTypeMap
import Ycetl.Proofs.Webgpu
import Ycetl.Proofs.PyLookup
import Ycetl.Proofs.PyExpansions
import Ycetl.Proofs.PyResolved
import Ycetl.Proofs.PyTypedefs
import Ycetl.Proofs.CtypesText
import Ycetl.Proofs.WebgpuTopology
import Ycetl.Proofs.HeaderTree
import Ycetl.Proofs.PyTables
import Ycetl.Proofs.PyNames
import Ycetl.Proofs.PyBindings
import Ycetl.Proofs.MacroConstants
import Ycetl.Proofs.CompileTimePrimes
import Ycetl.Proofs.CompileTimeTree
import Ycetl.Proofs.Tools
import Ycetl.Proofs.InplaceVector
import Ycetl.Proofs.Stack
