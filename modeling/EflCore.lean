import EflCore.Lifetime.Monitor
import EflCore.Lifetime.Object
import EflCore.Builtins
import EflCore.Layout
import EflCore.MimAllocator
import EflCore.AlignedStorage
import EflCore.Box
import EflCore.Box.Accounts
import EflCore.Box.Runs
import EflCore.Box.Assign
import EflCore.Option.Compare
import EflCore.Option.Cxx14
import EflCore.Option.Lifetime
import EflCore.Result
import EflCore.Result.Lifetime
import EflCore.Overload
import EflCore.Poly
import EflCore.Poly.Lifetime
import EflCore.Poly.Cxx14
import EflCore.Tuple
import EflCore.Checked
import EflCore.Enum
import EflCore.Option.Optional
import EflCore.Option.Refinement
import EflCore.Result.Sum
import EflCore.Result.Refinement
import EflCore.ArrayRef
import EflCore.StrRef
import EflCore.View.Slice
import EflCore.View.Reverse
import EflCore.Result.Assign
import EflCore.Poly.Assign
import EflCore.Poly.AsBase
import EflCore.Poly.HoldsType
import EflCore.Option.Reference
import EflCore.Option.Transform
import EflCore.Box.New
import EflCore.CxxType
import EflCore.PowerOf2
import EflCore.Traits.Std
import EflCore.Traits.StdInt
import EflCore.Guards
import EflCore.Traits.Invoke
import EflCore.Mimalloc.PageSafety
import EflCore.Mimalloc.Bins
import EflCore.Mimalloc.SegmentSafety
