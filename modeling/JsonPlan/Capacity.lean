import JsonPlan.Options.Flags

/-! Expected output sizes, rounded up to a growth ladder and remembered per key. -/

namespace JsonPlan

/-- The largest size a 64-bit machine can name; sizes saturate here. -/
def maxSize : Nat := UInt64.size - 1

namespace Capacity

/-- The ladder's steps below and at the first whole chunk. -/
def ladder : List Nat := [16, 32, 64, 128, 256, 512, 1024, 2048, 4098, 8000]

/-- Sizes that have left the ladder grow by whole chunks. -/
def chunk : Nat := 8000

/-- The size reserved for `n` bytes: the next step of the ladder, or past it the next multiple of
`chunk` strictly above `n`. -/
def bucket (n : Nat) : Nat :=
  if n < chunk then (ladder.find? (n ≤ ·)).getD chunk
  else min maxSize (n + (chunk - n % chunk))

end Capacity

/-- What a remembered size belongs to: the identity of a root type and the options in force. -/
structure CapacityKey where
  type : Nat
  flags : OptionFlags
  deriving DecidableEq, Repr

/-- The size last recorded for each key. -/
structure CapacityCache where
  entries : List (CapacityKey × Nat)
  deriving Repr

namespace CapacityCache

def empty : CapacityCache := ⟨[]⟩

def size (c : CapacityCache) : Nat := c.entries.length

def get? (c : CapacityCache) (k : CapacityKey) : Option Nat := c.entries.lookup k

/-- The size handed out for a key that was never recorded. -/
def fallback : Nat := 16

def get (c : CapacityCache) (k : CapacityKey) : Nat := (c.get? k).getD fallback

/-- Records the bucket of `raw` for `k`, replacing what was there. -/
def set (c : CapacityCache) (k : CapacityKey) (raw : Nat) : CapacityCache :=
  ⟨(k, Capacity.bucket raw) :: c.entries.filter (·.1 ≠ k)⟩

end CapacityCache
end JsonPlan
