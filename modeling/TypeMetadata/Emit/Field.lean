import TypeMetadata.Emit.Context

/-!
# Laying out field descriptors

All records come first, a fixed number of bytes apart, and then the names they refer to, in the
order of the records.
-/

namespace TypeMetadata

/-- A stored property, or an enum case, which has no type if it has no payload. -/
structure FieldSpec where
  name : String
  mangledType : Option String := none
  isVar : Bool := false

/-- Where a field descriptor was laid out, and where the type name of each field. -/
structure EmittedFields where
  address : Address
  mangledNames : List (Option Address)

namespace Emit

/-- A field record without its names, padded to `recordSize`. -/
def fieldRecord (recordSize : UInt16) (field : FieldSpec) : Build Address := do
  let start ← Build.pushU32 (FieldFlags.ofVar field.isVar).bits
  let _ ← Build.pushU32 0
  let _ ← Build.pushU32 0
  let _ ← Build.reserve (recordSize.toNat - FieldRecord.minimumSize.toNat)
  return start

/-- The names of `field`, referred to from its record at `a`. -/
def fieldNames (field : FieldSpec) (a : Address) : Build (Option Address) := do
  let mangled ← field.mangledType.mapM (textAt (a + FieldRecord.mangledTypeNameOffset))
  nameAt (a + FieldRecord.nameOffset) field.name
  return mangled

/-- A field descriptor that declares `recordSize` bytes per record. -/
def fieldDescriptor (kind : FieldKind) (fields : List FieldSpec)
    (recordSize : UInt16 := FieldRecord.minimumSize) : Build EmittedFields := do
  let _ ← Build.align 4
  let start ← Build.pushU32 0
  let _ ← Build.pushU32 0
  let _ ← Build.pushU16 (UInt16.ofNat kind.raw)
  let _ ← Build.pushU16 recordSize
  let _ ← Build.pushU32 (UInt32.ofNat fields.length)
  let records ← fields.mapM (fieldRecord recordSize)
  let mangledNames ← (fields.zip records).mapM fun (field, a) => fieldNames field a
  return ⟨start, mangledNames⟩

end Emit

end TypeMetadata
