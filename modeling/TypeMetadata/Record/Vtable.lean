import TypeMetadata.Record.Flags
import TypeMetadata.Record.Pointer

/-!
# Vtables

A vtable header is followed by one slot per method. A slot without an implementation is passed over,
whatever its flags say; every other slot must hold a kind of method that exists. The size that a
header declares is checked before the first slot is read, so the walk ends at the slot it computed.
-/

namespace TypeMetadata

/-- Header of a vtable; the offset is that of the vtable in class metadata, in words. -/
structure VtableHeader where
  address : Address
  vtableOffset : UInt32
  vtableSize : UInt32
deriving DecidableEq

/-- A vtable slot that holds a method. -/
structure MethodSlot where
  address : Address
  flags : MethodFlags
  implementation : Address
deriving DecidableEq

namespace MethodSlot

/-- Bytes of a slot. -/
def size : UInt64 := 8

def implementationOffset : UInt64 := 4

/-- The kind of method, when it exists. -/
def kind (s : MethodSlot) : Except Error MethodKind :=
  match s.flags.kind? with
  | some k => .ok k
  | none => .error (.decode (.unknownMethodKind s.address s.flags.kindRaw))

/-- The method in the slot at `a`; `none` without an implementation. -/
def read (a : Address) : Decoder (Option MethodSlot) := do
  let flags : MethodFlags := ⟨← Decoder.u32 a⟩
  let some implementation ← RelativePointer.direct (a + implementationOffset) | return none
  let slot : MethodSlot := ⟨a, flags, implementation⟩
  let _ ← slot.kind
  return some slot

end MethodSlot

namespace VtableHeader

/-- Bytes of a header. -/
def size : UInt64 := 8

def vtableSizeOffset : UInt64 := 4

/-- The header at `a`. -/
def read (a : Address) : Decoder VtableHeader := do
  let vtableOffset ← Decoder.u32 a
  let vtableSize ← Decoder.u32 (a + vtableSizeOffset)
  return ⟨a, vtableOffset, vtableSize⟩

/-- Where the first slot is. -/
def methodsStart (h : VtableHeader) : Address := h.address + size

/-- The methods of the vtable, in slot order. -/
def methods (limits : Limits) (h : VtableHeader) : Decoder (List MethodSlot) := do
  if limits.vtableSize < h.vtableSize then
    Decoder.fail (.vtableTooLarge h.methodsStart h.vtableSize limits.vtableSize)
  if (h.methodsStart.add? (h.vtableSize.toUInt64 * MethodSlot.size)).isNone then
    Decoder.fail (.vtableOverflow h.methodsStart h.vtableSize)
  let slots ← Decoder.series MethodSlot.read MethodSlot.size h.vtableSize.toNat h.methodsStart
  return slots.filterMap id

end VtableHeader

end TypeMetadata
