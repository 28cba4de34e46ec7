import TypeMetadata.Image.Basic

/-!
# Patching an image

Patches write over bytes laid out earlier, which is how a record refers to one that follows it. A
relative pointer holds the signed 32-bit distance from its own address to its target, with zero for
no target; the low bits of such a word may carry a mark of their own.
-/

namespace TypeMetadata

namespace Image

/-- The image with `bs` at `a`, when that range lies within the bytes laid out so far. -/
def patch (i : Image) (a : Address) (bs : List UInt8) : Except PatchError Image :=
  let start := a.distanceFrom i.base
  if 0 ≤ start ∧ start.toNatClampNeg + bs.length ≤ i.bytes.size then
    .ok { i with bytes := overlay i.bytes start.toNatClampNeg bs }
  else .error (.outside a i.bytes.size i.base)

end Image

/-- The distance from `origin` to `target` as a relative pointer holds it. -/
def displacement (origin target : Address) : Except PatchError Int32 :=
  let delta := target.distanceFrom origin
  if delta.toInt32.toInt64 = delta then .ok delta.toInt32 else .error (.tooFar origin target)

namespace Build

def patch (a : Address) (bs : List UInt8) : Build Unit := do
  set (← (← get).patch a bs)

def patchU32 (a : Address) (n : UInt32) : Build Unit := patch a (bytesOf32 n)

def patchU64 (a : Address) (n : UInt64) : Build Unit := patch a (bytesOf64 n)

def patchPointer (a target : Address) : Build Unit := patchU64 a target.val

/-- A direct relative pointer at `a`. -/
def patchRelative (a : Address) (target : Option Address) : Build Unit := do
  let raw ← match target with
    | none => pure 0
    | some t => displacement a t
  patchU32 a raw.toUInt32

/-- A relative pointer at `a` that goes through the pointer at `slot`, marked by its low bit. -/
def patchRelativeIndirect (a slot : Address) : Build Unit := do
  let raw ← displacement a slot
  if raw.toUInt32 &&& 1 ≠ 0 then throw (.oddSlot slot)
  patchU32 a (raw.toUInt32 ||| 1)

/-- A relative pointer at `a` whose low bits carry `mark`. -/
def patchRelativeMarked (a target : Address) (mark : UInt32) : Build Unit := do
  let raw ← displacement a target
  patchU32 a (raw.toUInt32 ||| mark)

end Build

end TypeMetadata
