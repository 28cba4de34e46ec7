import TypeMetadata.Record.Flags
import TypeMetadata.Record.Pointer

/-!
# Type and conformance records

Two sections of an image list what it holds: one a reference to each type, the other a reference to
each conformance of a type to a protocol. Entries are one relative pointer each.
-/

namespace TypeMetadata

/-- What a record refers to as a type: its descriptor, or an Objective-C class by its name or
through a slot. -/
inductive TypeReference where
  | descriptor (address : Address)
  | objcClassName (address : Address)
  | indirectObjcClass (address : Address)
deriving DecidableEq

namespace TypeReference

/-- What `target` refers to in the given way; a null slot refers to nothing. -/
def ofTarget (kind : TypeReferenceKind) (target : Address) : Decoder (Option TypeReference) := do
  match kind with
  | .directDescriptor => return some (.descriptor target)
  | .indirectDescriptor => return (← Decoder.pointer target).nonNull?.map .descriptor
  | .directObjcClassName => return some (.objcClassName target)
  | .indirectObjcClass => return some (.indirectObjcClass target)

/-- What a target refers to, if there is one. -/
def ofTarget? (kind : TypeReferenceKind) (target : Option Address) :
    Decoder (Option TypeReference) :=
  match target with
  | some a => ofTarget kind a
  | none => pure none

def address : TypeReference → Address
  | descriptor a | objcClassName a | indirectObjcClass a => a

/-- The referred type's descriptor; Objective-C classes have none. -/
def descriptor? : TypeReference → Option Address
  | descriptor a => some a
  | objcClassName _ | indirectObjcClass _ => none

def kindName : TypeReference → String
  | descriptor _ => "Descriptor"
  | objcClassName _ => "ObjCClassName"
  | indirectObjcClass _ => "IndirectObjCClass"

end TypeReference

/-- Bytes of a section entry. -/
def sectionEntrySize : UInt64 := 4

/-- Entry of the section of types. -/
structure TypeRecord where
  address : Address
  reference : Option TypeReference
deriving DecidableEq

namespace TypeRecord

/-- Low bits of an entry, which hold the kind of reference. -/
def kindMask : UInt32 := 3

def read (a : Address) : Decoder TypeRecord := do
  let (target, mark) ← RelativePointer.marked a kindMask
  let kind ← Decoder.require (TypeReferenceKind.ofRaw? mark.toNat)
    (.unknownTypeReferenceKind a mark.toNat)
  let reference ← TypeReference.ofTarget? kind target
  return ⟨a, reference⟩

/-- The `count` entries of the section at `a`. -/
def readSection (a : Address) (count : Nat) : Decoder (List TypeRecord) :=
  Decoder.series read sectionEntrySize count a

end TypeRecord

/-- A type's conformance to a protocol. -/
structure ConformanceRecord where
  address : Address
  protocol : Option Address
  conformingType : Option TypeReference
  witnessTable : Option Address
  flags : ConformanceFlags
deriving DecidableEq

namespace ConformanceRecord

def typeOffset : UInt64 := 4

def witnessTableOffset : UInt64 := 8

def flagsOffset : UInt64 := 12

def read (a : Address) : Decoder ConformanceRecord := do
  let flags : ConformanceFlags := ⟨← Decoder.u32 (a + flagsOffset)⟩
  let kind ← Decoder.require flags.referenceKind?
    (.unknownTypeReferenceKind a flags.referenceKindRaw)
  let protocol ← RelativePointer.indirectable a
  let target ← RelativePointer.direct (a + typeOffset)
  let conformingType ← TypeReference.ofTarget? kind target
  let witnessTable ← RelativePointer.direct (a + witnessTableOffset)
  return ⟨a, protocol, conformingType, witnessTable, flags⟩

/-- The conformance that the section entry at `a` refers to. -/
def readEntry (a : Address) : Decoder (Option ConformanceRecord) := do
  let some target ← RelativePointer.direct a | return none
  return some (← read target)

/-- The conformances that the `count` entries at `a` refer to; null entries refer to none. Only what
the entries say can make it fail: a host that cannot make room for `count` conformances, and so
gives no answer before it reads the first, is not modelled. -/
def readSection (a : Address) (count : Nat) : Decoder (List ConformanceRecord) := do
  let entries ← Decoder.series readEntry sectionEntrySize count a
  return entries.filterMap id

end ConformanceRecord

end TypeMetadata
