import PythonInternals.Foundation.Acyclic
import PythonInternals.Foundation.ForLoop
import PythonInternals.Foundation.Generator
import PythonInternals.Foundation.Histogram
import PythonInternals.Foundation.Interleaving
import PythonInternals.Foundation.LatestWrite
import PythonInternals.Foundation.Linearization
import PythonInternals.Foundation.LittleEndian
import PythonInternals.Foundation.Loop
import PythonInternals.Foundation.Operations
import PythonInternals.Foundation.Probing
import PythonInternals.Foundation.RunningTotal
import PythonInternals.Foundation.Search
import PythonInternals.Foundation.StackMachine
import PythonInternals.Foundation.Traversal
import PythonInternals.Foundation.Utf8
import PythonInternals.Gc.Heap
import PythonInternals.Gc.Detection
import PythonInternals.Gc.Bookkeeping
import PythonInternals.Gc.Verdict
import PythonInternals.Gil
import PythonInternals.Gil.Lock
import PythonInternals.Gil.Values
import PythonInternals.Ctypes
import PythonInternals.LongObject
import PythonInternals.Obmalloc
import PythonInternals.RefCount
import PythonInternals.ListObject
import PythonInternals.DictObject
import PythonInternals.Hashing
import PythonInternals.UnicodeObject
import PythonInternals.Probes
import PythonInternals.TypeObject
import PythonInternals.WeakNode
import PythonInternals.Descriptor
import PythonInternals.Attributes
import PythonInternals.Iterators
import PythonInternals.Super
import PythonInternals.Ast
import PythonInternals.FrameDepth
import PythonInternals.Tier2
import PythonInternals.Ceval.Code
import PythonInternals.Ceval.ShowOpStack
import PythonInternals.Ceval.Programs
import PythonInternals.Ceval.FrameStackDepth
import PythonInternals.Ceval.StackDiscipline
import PythonInternals.Ceval.Agreement
import PythonInternals.Ceval.Reference
import PythonInternals.Ceval.Superinstruction
import PythonInternals.Ceval.Specialize
