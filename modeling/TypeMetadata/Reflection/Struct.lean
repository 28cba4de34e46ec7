import TypeMetadata.Reflection.Value

/-!
# Structs

A struct's values can be made of zeros, viewed where they are, or copied.
-/

namespace TypeMetadata

/-- A struct. -/
structure StructType where
  core : ValueType

namespace StructType

def read (settings : Settings) (d : StructDescriptor) : Inspect StructType :=
  return ⟨← ValueType.read settings d.toNominalDescriptor⟩

def descriptor (t : StructType) : StructDescriptor := ⟨t.core.info.descriptor⟩

def numFields (t : StructType) : Decoder UInt32 := t.descriptor.numFields

/-- Offset of each stored property in a value, in the order of declaration; none are listed if the
metadata has no place for them. -/
def fieldOffsets (t : StructType) : Decoder (List UInt32) := do
  let metadata ← Metadata.read (← t.core.requireMetadata)
  let vector ← t.descriptor.fieldOffsetVectorOffset
  let count ← t.descriptor.numFields
  if vector = 0 then return []
  metadata.fieldOffsets vector count

/-- A value of zeros. -/
def emptyValue (t : StructType) : Inspect Value := return .struct t.core (← t.core.allocate)

/-- The value at `a`, which stays where it is. -/
def valueAt (t : StructType) (a : Address) : Except Error Value :=
  return .struct t.core (← t.core.view a)

/-- A copy of the value at `src`. -/
def copyOf (t : StructType) (src : Address) : Inspect Value :=
  return .struct t.core (← t.core.allocateCopy src)

end StructType

end TypeMetadata
