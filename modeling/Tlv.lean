import Tlv.Lib.Octets
import Tlv.Lib.WhileLoop
import Tlv.Lib.Heap
import Tlv.Lib.Ownership
import Tlv.Host
import Tlv.Basic
import Tlv.Frame
import Tlv.Runtime
import Tlv.DynArr
import Tlv.Serialize
import Tlv.Deserialize
import Tlv.Accessors
import Tlv.Reader
import Tlv.Pass
import Tlv.Decode
import Tlv.RoundTrip
import Tlv.InputSafety
import Tlv.HostOrder
import Tlv.Tiling
import Tlv.Canonical
import Tlv.Concatenation
import Tlv.Release
import Tlv.Balance
import Tlv.Progress
import Tlv.ArrayOps
import Tlv.ArrayRuns
import Tlv.Limits
import Tlv.Sizes
import Tlv.Capacity
import Tlv.Accumulation
import Tlv.CStrings
import Tlv.Lib.FailStop
import Tlv.Refusal
import Tlv.Joins
import Tlv.Lib.PrefixCode
import Tlv.Truncation
import Tlv.Exchange
import Tlv.Relay
import Tlv.Lib.Layout
import Tlv.Lib.Blocks
import Tlv.RawArray
import Tlv.RawRuns
import Tlv.Session
import Tlv.Lib.Footprint
import Tlv.Isolation
import Tlv.Grammar
import Tlv.Lib.Growth
import Tlv.Costs
import Tlv.Lib.Cycles
import Tlv.Circles
import Tlv.Requests
