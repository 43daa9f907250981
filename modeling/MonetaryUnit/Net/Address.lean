/-
# MonetaryUnit.Net.Address — network addresses

`CNetAddr`, `CService` and `CAddress` of `netbase.h` and `protocol.h`: sixteen bytes in network
order, a port, and what a node says about itself with its address.
-/

import Mathlib.Data.BitVec

namespace MonetaryUnit

structure CNetAddr where
  ip : BitVec 128
deriving DecidableEq, Repr

structure CService extends CNetAddr where
  port : UInt16
deriving DecidableEq, Repr

/-- `nLastTry` is in memory only. -/
structure CAddress extends CService where
  nServices : UInt64
  nTime : UInt32
  nLastTry : Int64 := 0
deriving DecidableEq, Repr

end MonetaryUnit
