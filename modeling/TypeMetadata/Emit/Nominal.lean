import TypeMetadata.Emit.Context

/-!
# Laying out classes, structs and enums
-/

namespace TypeMetadata

/-- What the descriptors of classes, structs and enums have in common. -/
structure NominalSpec where
  name : String
  parent : Address
  accessFunction : Option Address := none
  fields : Option Address := none
  generic : Bool := false

/-- A vtable slot; `none` leaves it without an implementation. -/
structure MethodSpec where
  kind : MethodKind := .method
  isInstance : Bool := true
  implementation : Option Address := none

/-- A class; without `methods` it has no vtable. -/
structure ClassSpec extends NominalSpec where
  numFields : UInt32 := 0
  fieldOffsetVectorOffset : UInt32 := 0
  methods : Option (List MethodSpec) := none
  resilientSuperclass : Bool := false
  initialization : MetadataInitialization := .none

namespace Emit

/-- The part that the three kinds of descriptor share, all but its name. -/
def nominalHeader (kind : ContextKind) (spec : NominalSpec) (kindSpecific : UInt16) :
    Build Address := do
  let start ← contextHeader (.pack kind spec.generic kindSpecific) (some spec.parent)
  let _ ← Build.pushU32 0
  let _ ← Build.pushU32 0
  let _ ← Build.pushU32 0
  Build.patchRelative (start + NominalDescriptor.accessFunctionOffset) spec.accessFunction
  Build.patchRelative (start + NominalDescriptor.fieldsOffset) spec.fields
  return start

/-- A struct. -/
def structType (spec : NominalSpec) (numFields fieldOffsetVectorOffset : UInt32) :
    Build Address := do
  let start ← nominalHeader .structType spec 0
  let _ ← Build.pushU32 numFields
  let _ ← Build.pushU32 fieldOffsetVectorOffset
  nameAt (start + Context.nameOffset) spec.name
  return start

/-- An enum. -/
def enumType (spec : NominalSpec) (numPayloadCases numEmptyCases : UInt32) : Build Address := do
  let start ← nominalHeader .enumType spec 0
  let _ ← Build.pushU32 (numPayloadCases &&& EnumDescriptor.payloadCasesMask)
  let _ ← Build.pushU32 numEmptyCases
  nameAt (start + Context.nameOffset) spec.name
  return start

/-- Where class metadata keeps the vtable, in words. -/
def classVtableOffset : UInt32 := 10

/-- A vtable slot. -/
def methodSlot (method : MethodSpec) : Build Unit := do
  let start ← Build.pushU32 (MethodFlags.pack method.kind method.isInstance).bits
  let _ ← Build.pushU32 0
  Build.patchRelative (start + MethodSlot.implementationOffset) method.implementation

/-- A vtable header and its slots. -/
def vtable (methods : List MethodSpec) : Build Unit := do
  let _ ← Build.pushU32 classVtableOffset
  let _ ← Build.pushU32 (UInt32.ofNat methods.length)
  methods.forM methodSlot

/-- The words of a class that come after what all nominal types share. -/
def classWords (spec : ClassSpec) : Build Unit := do
  let numMethods := UInt32.ofNat (spec.methods.elim 0 List.length)
  let _ ← Build.pushU32 0
  let _ ← Build.pushU32 2
  let _ ← Build.pushU32 (classVtableOffset + numMethods)
  let _ ← Build.pushU32 numMethods
  let _ ← Build.pushU32 spec.numFields
  let _ ← Build.pushU32 spec.fieldOffsetVectorOffset

/-- The optional parts in front of the vtable, all zeros. -/
def classParts (spec : ClassSpec) : Build Unit := do
  if spec.resilientSuperclass then
    let _ ← Build.reserve ClassDescriptor.resilientSuperclassSize.toNat
  let _ ← Build.reserve (ClassDescriptor.initializationSize (some spec.initialization)).toNat

/-- A class, with the optional parts that it declares. -/
def classType (spec : ClassSpec) : Build Address := do
  let flags := NominalFlags.packClass spec.initialization spec.resilientSuperclass
    spec.methods.isSome
  let start ← nominalHeader .classType spec.toNominalSpec flags.bits
  classWords spec
  classParts spec
  spec.methods.forM vtable
  nameAt (start + Context.nameOffset) spec.name
  return start

end Emit

end TypeMetadata
