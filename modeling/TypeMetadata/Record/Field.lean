import TypeMetadata.Record.Flags
import TypeMetadata.Record.Name

/-!
# Field descriptors

A field descriptor lists the stored properties of a type, or the cases of an enum, in the order in
which they are declared. It says itself how far apart its records are; what it says is checked
before the first record is read.
-/

namespace TypeMetadata

/-- One stored property or enum case. A case without a payload has no type name. -/
structure FieldRecord where
  flags : FieldFlags
  mangledTypeName : Option Address
  name : String
deriving DecidableEq

/-- A field descriptor and its records. -/
structure FieldDescriptor where
  address : Address
  kind : FieldKind
  mangledTypeName : Option Address
  superclass : Option Address
  records : List FieldRecord
deriving DecidableEq

namespace FieldRecord

def mangledTypeNameOffset : UInt64 := 4

def nameOffset : UInt64 := 8

/-- Bytes that a record takes at least. -/
def minimumSize : UInt16 := 12

def isVar (r : FieldRecord) : Bool := r.flags.isVar

def isIndirectCase (r : FieldRecord) : Bool := r.flags.isIndirectCase

/-- The record at `a`; a null pointer to its name stands for the empty name. -/
def read (limits : Limits) (a : Address) : Decoder FieldRecord := do
  let flags : FieldFlags := ⟨← Decoder.u32 a⟩
  let mangledTypeName ← RelativePointer.direct (a + mangledTypeNameOffset)
  let name ← match ← RelativePointer.direct (a + nameOffset) with
    | some target => Name.read limits target
    | none => pure ""
  return ⟨flags, mangledTypeName, name⟩

end FieldRecord

namespace FieldDescriptor

def superclassOffset : UInt64 := 4

def kindOffset : UInt64 := 8

def recordSizeOffset : UInt64 := 10

def countOffset : UInt64 := 12

def recordsOffset : UInt64 := 16

/-- The field descriptor at `a`. -/
def read (limits : Limits) (a : Address) : Decoder FieldDescriptor := do
  let rawKind ← Decoder.u16 (a + kindOffset)
  let kind ← Decoder.require (FieldKind.ofRaw? rawKind.toNat) (.unknownFieldKind a rawKind)
  let recordSize ← Decoder.u16 (a + recordSizeOffset)
  let count ← Decoder.u32 (a + countOffset)
  if limits.fields < count then Decoder.fail (.tooManyFields a count limits.fields)
  if 0 < count ∧ recordSize < FieldRecord.minimumSize then
    Decoder.fail (.fieldRecordSize a recordSize FieldRecord.minimumSize)
  let records ← Decoder.series (FieldRecord.read limits) recordSize.toUInt64 count.toNat
    (a + recordsOffset)
  let mangledTypeName ← RelativePointer.direct a
  let superclass ← RelativePointer.direct (a + superclassOffset)
  return ⟨a, kind, mangledTypeName, superclass, records⟩

end FieldDescriptor

end TypeMetadata
