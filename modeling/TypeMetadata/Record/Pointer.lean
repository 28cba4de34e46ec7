import TypeMetadata.Decoder

/-!
# Relative pointers

Records refer to each other by signed 32-bit offsets from the address of the offset itself, so that
an image means the same wherever it is loaded. Offset zero means no target.
-/

namespace TypeMetadata.RelativePointer

/-- What the offset `raw` found at `a` refers to. -/
def apply (a : Address) (raw : Int32) : Option Address :=
  if raw = 0 then none else some (a.displace raw.toInt64)

/-- The target of the direct relative pointer at `a`. -/
def direct (a : Address) : Decoder (Option Address) := return apply a (← Decoder.i32 a)

/-- The target of the relative pointer at `a`, which an odd offset refers to through a pointer: the
offset less its low bit leads to that pointer, and there null means no target. -/
def indirectable (a : Address) : Decoder (Option Address) := do
  let raw ← Decoder.i32 a
  if raw.toUInt32 &&& 1 = 0 then return apply a raw
  let target ← Decoder.pointer (a.displace (raw.toUInt32 &&& ~~~1).toInt32.toInt64)
  return target.nonNull?

/-- The relative pointer at `a` whose bits under `mask` are a mark: the target of the other bits,
and the mark. -/
def marked (a : Address) (mask : UInt32) : Decoder (Option Address × UInt32) := do
  let raw ← Decoder.u32 a
  return (apply a (raw &&& ~~~mask).toInt32, raw &&& mask)

/-- The target of a direct relative pointer that must not be null. -/
def required (a : Address) : Decoder Address := do
  Decoder.require (← direct a) (.nullPointer a)

end TypeMetadata.RelativePointer
