import TypeMetadata.Record.Context
import TypeMetadata.Record.Field
import TypeMetadata.Record.Vtable

/-!
# Context descriptors

The kind of a context settles which words follow its header. `ContextDescriptor.decode` is where the
kind is looked at; what it returns has just the readers that make sense for that kind. A class
descriptor ends in optional parts whose presence its flags declare, with the vtable last.
-/

namespace TypeMetadata

/-- Descriptor of a module. -/
structure ModuleDescriptor extends Context
deriving DecidableEq

/-- Descriptor of a protocol. -/
structure ProtocolDescriptor extends Context
deriving DecidableEq

/-- What the descriptors of classes, structs and enums have in common. -/
structure NominalDescriptor extends Context
deriving DecidableEq

/-- Descriptor of a class. -/
structure ClassDescriptor extends NominalDescriptor
deriving DecidableEq

/-- Descriptor of a struct. -/
structure StructDescriptor extends NominalDescriptor
deriving DecidableEq

/-- Descriptor of an enum. -/
structure EnumDescriptor extends NominalDescriptor
deriving DecidableEq

/-- A descriptor by its kind; `other` holds extensions, anonymous contexts and opaque types. -/
inductive ContextDescriptor where
  | moduleContext (d : ModuleDescriptor)
  | protocolType (d : ProtocolDescriptor)
  | classType (d : ClassDescriptor)
  | structType (d : StructDescriptor)
  | enumType (d : EnumDescriptor)
  | other (c : Context)
deriving DecidableEq

namespace ContextDescriptor

/-- The descriptor with header `c`. -/
def ofContext (c : Context) : ContextDescriptor :=
  match c.kind with
  | .moduleContext => .moduleContext ⟨c⟩
  | .protocolType => .protocolType ⟨c⟩
  | .classType => .classType ⟨⟨c⟩⟩
  | .structType => .structType ⟨⟨c⟩⟩
  | .enumType => .enumType ⟨⟨c⟩⟩
  | .extensionContext | .anonymousContext | .opaqueType => .other c

/-- The descriptor at `a`. -/
def decode (a : Address) : Decoder ContextDescriptor := return ofContext (← Context.read a)

def context : ContextDescriptor → Context
  | moduleContext d => d.toContext
  | protocolType d => d.toContext
  | classType d => d.toContext
  | structType d => d.toContext
  | enumType d => d.toContext
  | other c => c

/-- The descriptor as that of a class, struct or enum. -/
def nominal? : ContextDescriptor → Option NominalDescriptor
  | classType d => some d.toNominalDescriptor
  | structType d => some d.toNominalDescriptor
  | enumType d => some d.toNominalDescriptor
  | _ => none

/-- The failure of finding `d` where something else is needed. -/
def unexpected (d : ContextDescriptor) (expected : String) : DecodeError :=
  .unexpectedKind d.context.address expected d.context.kind

/-- The descriptor as that of a protocol. -/
def expectProtocol : ContextDescriptor → Except Error ProtocolDescriptor
  | protocolType d => .ok d
  | d => .error (.decode (d.unexpected "protocol"))

@[simp] theorem context_ofContext (c : Context) : (ofContext c).context = c := by
  unfold ofContext
  split <;> rfl

end ContextDescriptor

namespace ProtocolDescriptor

def requirementsInSignatureOffset : UInt64 := 0xC

def requirementsOffset : UInt64 := 0x10

def protocolFlags (d : ProtocolDescriptor) : ProtocolFlags := ⟨d.flags.kindSpecific⟩

def numRequirementsInSignature (d : ProtocolDescriptor) : Decoder UInt32 :=
  Decoder.u32 (d.address + requirementsInSignatureOffset)

def numRequirements (d : ProtocolDescriptor) : Decoder UInt32 :=
  Decoder.u32 (d.address + requirementsOffset)

/-- Only classes may conform. -/
def isClassOnly (d : ProtocolDescriptor) : Bool := d.protocolFlags.classConstraint = .classOnly

end ProtocolDescriptor

namespace NominalDescriptor

def accessFunctionOffset : UInt64 := 0xC

def fieldsOffset : UInt64 := 0x10

def nominalFlags (d : NominalDescriptor) : NominalFlags := ⟨d.flags.kindSpecific⟩

/-- The function that returns the type's metadata. -/
def accessFunction (d : NominalDescriptor) : Decoder Address :=
  RelativePointer.required (d.address + accessFunctionOffset)

/-- Where the field descriptor is; `none` for a type that cannot be reflected on. -/
def fieldsAddress (d : NominalDescriptor) : Decoder (Option Address) :=
  RelativePointer.direct (d.address + fieldsOffset)

def isReflectable (d : NominalDescriptor) : Decoder Bool := return (← d.fieldsAddress).isSome

def fields (limits : Limits) (d : NominalDescriptor) : Decoder (Option FieldDescriptor) := do
  match ← d.fieldsAddress with
  | some a => return some (← FieldDescriptor.read limits a)
  | none => return none

end NominalDescriptor

namespace ClassDescriptor

def superclassOffset : UInt64 := 0x14

def immediateMembersOffset : UInt64 := 0x20

def fieldCountOffset : UInt64 := 0x24

def fieldVectorOffset : UInt64 := 0x28

/-- Where the optional parts of a class that is not generic begin. -/
def trailingOffset : UInt64 := 0x2C

/-- Bytes of the reference to a resilient superclass. -/
def resilientSuperclassSize : UInt64 := 4

/-- Bytes that a way of metadata initialization takes; the reserved one takes none. -/
def initializationSize : Option MetadataInitialization → UInt64
  | some .foreign => 4
  | some .singleton => 12
  | some .none | none => 0

def hasVtable (d : ClassDescriptor) : Bool := d.nominalFlags.hasVtable

def superclass (d : ClassDescriptor) : Decoder (Option Address) :=
  RelativePointer.direct (d.address + superclassOffset)

def numImmediateMembers (d : ClassDescriptor) : Decoder UInt32 :=
  Decoder.u32 (d.address + immediateMembersOffset)

def numFields (d : ClassDescriptor) : Decoder UInt32 := Decoder.u32 (d.address + fieldCountOffset)

/-- Where the field offsets are in the metadata, in words. -/
def fieldOffsetVectorOffset (d : ClassDescriptor) : Decoder UInt32 :=
  Decoder.u32 (d.address + fieldVectorOffset)

/-- Where the vtable header of a class that is not generic is. -/
def vtableHeaderAddress (d : ClassDescriptor) : Address :=
  let superclassSize := if d.nominalFlags.hasResilientSuperclass then resilientSuperclassSize else 0
  d.address + (trailingOffset + superclassSize
    + initializationSize d.nominalFlags.metadataInitialization?)

/-- The vtable header; generic classes and those without a vtable have none. -/
def vtableHeader (d : ClassDescriptor) : Decoder (Option VtableHeader) := do
  if !d.hasVtable || d.isGeneric then return none
  return some (← VtableHeader.read d.vtableHeaderAddress)

/-- The methods of the vtable in slot order, none without a vtable header. -/
def methods (limits : Limits) (d : ClassDescriptor) : Decoder (List MethodSlot) := do
  match ← d.vtableHeader with
  | some h => h.methods limits
  | none => return []

end ClassDescriptor

namespace StructDescriptor

def fieldCountOffset : UInt64 := 0x14

def fieldVectorOffset : UInt64 := 0x18

def numFields (d : StructDescriptor) : Decoder UInt32 := Decoder.u32 (d.address + fieldCountOffset)

/-- Where the field offsets are in the metadata, in words; zero for nowhere. -/
def fieldOffsetVectorOffset (d : StructDescriptor) : Decoder UInt32 :=
  Decoder.u32 (d.address + fieldVectorOffset)

def hasFieldOffsetVector (d : StructDescriptor) : Decoder Bool :=
  return (← d.fieldOffsetVectorOffset) ≠ 0

end StructDescriptor

/-- Whether an enum case carries a value. -/
inductive CaseKind where
  | payload
  | empty
deriving DecidableEq

namespace CaseKind

def name : CaseKind → String
  | payload => "Payload"
  | empty => "Empty"

/-- A case carries a value exactly if its record names a type. -/
def ofRecord (r : FieldRecord) : CaseKind :=
  if r.mangledTypeName.isSome then payload else empty

end CaseKind

namespace EnumDescriptor

/-- Offset of the word with the payload case count in its low 24 bits. -/
def payloadWordOffset : UInt64 := 0x14

def emptyCasesOffset : UInt64 := 0x18

/-- How many payload cases can be declared. -/
def payloadCasesMask : UInt32 := 0xFFFFFF

def payloadWord (d : EnumDescriptor) : Decoder UInt32 :=
  Decoder.u32 (d.address + payloadWordOffset)

def numPayloadCases (d : EnumDescriptor) : Decoder UInt32 :=
  return (← d.payloadWord) &&& payloadCasesMask

def payloadSizeOffset (d : EnumDescriptor) : Decoder UInt8 :=
  return ((← d.payloadWord) >>> 24).toUInt8

def numEmptyCases (d : EnumDescriptor) : Decoder UInt32 :=
  Decoder.u32 (d.address + emptyCasesOffset)

def numCases (d : EnumDescriptor) : Decoder UInt32 := do
  let payload ← d.numPayloadCases
  let empty ← d.numEmptyCases
  if 0x100000000 ≤ payload.toNat + empty.toNat then
    Decoder.fail (.caseCountOverflow d.address payload empty)
  return payload + empty

/-- The cases of `fields` in record order. With `verify`, as many of each kind as the descriptor
declares. -/
def classifyCases (d : EnumDescriptor) (fields : FieldDescriptor) (verify : Bool) :
    Decoder (List CaseKind) := do
  let cases := fields.records.map CaseKind.ofRecord
  if verify then
    let payload := UInt32.ofNat (cases.count .payload)
    let empty := UInt32.ofNat (cases.count .empty)
    let expectedPayload ← d.numPayloadCases
    let expectedEmpty ← d.numEmptyCases
    if payload ≠ expectedPayload ∨ empty ≠ expectedEmpty then
      Decoder.fail (.enumCaseMismatch d.address payload empty expectedPayload expectedEmpty)
  return cases

/-- Whether the case at `index` carries a value; `none` when there is no such record. -/
def isPayloadCase (limits : Limits) (d : EnumDescriptor) (index : Nat) : Decoder (Option Bool) := do
  let some fields ← d.fields limits | return none
  let cases ← d.classifyCases fields false
  return cases[index]?.map (· = .payload)

end EnumDescriptor

end TypeMetadata
