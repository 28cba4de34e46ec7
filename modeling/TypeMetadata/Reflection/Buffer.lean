import TypeMetadata.World

/-!
# Buffers

A buffer is a run of target memory that holds one value. An owned buffer is a heap block that goes
with its value; a view is memory of someone else's and stays.
-/

namespace TypeMetadata

/-- Memory that holds one value. -/
structure Buffer where
  address : Address
  size : UInt64
  owned : Bool
deriving DecidableEq

namespace Buffer

/-- A new owned buffer of `size` zeros. -/
def allocate (size : UInt64) : Inspect Buffer := do
  match (← get).memory.allocate (max size 1) with
  | .ok (address, memory) =>
    modify fun w => { w with memory }
    return ⟨address, size, true⟩
  | .error e => throw (.memory e)

/-- The `size` bytes at `address`, owned by someone else. -/
def view (address : Address) (size : UInt64) : Buffer := ⟨address, size, false⟩

/-- The bytes that the buffer holds now. As for a block of the heap, what a host has room for is not
modelled. -/
def bytes (b : Buffer) : Decoder (List UInt8) :=
  Decoder.access fun m => m.read b.address b.size.toNat

/-- The world without the buffer, if it is owned. A refusal is put on record. -/
def release (b : Buffer) (w : World) : World :=
  if b.owned then
    match w.memory.free b.address with
    | .ok memory => { w with memory }
    | .error _ => { w with refusals := b.address :: w.refusals }
  else w

end Buffer

end TypeMetadata
