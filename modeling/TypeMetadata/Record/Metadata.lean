import TypeMetadata.Record.Flags
import TypeMetadata.Decoder

/-!
# Metadata

Metadata is what stands for a concrete type while the target runs. That of a struct or an enum has a
pointer to a value witness table in the word before it: the functions that copy and destroy its
values, the layout of a value, and for enums the functions that read and write the case.
-/

namespace TypeMetadata

/-- Size, stride and flags of the values of a type. -/
structure TypeLayout where
  size : UInt64
  stride : UInt64
  flags : WitnessFlags
  extraInhabitants : UInt32
deriving DecidableEq

/-- The enum part of a value witness table. -/
structure EnumWitnesses where
  getTag : Address
  projectPayload : Address
  injectTag : Address
deriving DecidableEq

/-- A value witness table. Its slots hold code addresses. -/
structure WitnessTable where
  address : Address
  initializeBufferWithCopyOfBuffer : Address
  destroy : Address
  initializeWithCopy : Address
  assignWithCopy : Address
  initializeWithTake : Address
  assignWithTake : Address
  getEnumTagSinglePayload : Address
  storeEnumTagSinglePayload : Address
  layout : TypeLayout
  enumWitnesses : Option EnumWitnesses
deriving DecidableEq

namespace WitnessTable

def sizeOffset : UInt64 := 0x40

def strideOffset : UInt64 := 0x48

def flagsOffset : UInt64 := 0x50

def extraInhabitantsOffset : UInt64 := 0x54

/-- Where the enum part begins. -/
def enumOffset : UInt64 := 0x58

/-- The enum part of the table at `a`. -/
def readEnumWitnesses (a : Address) : Decoder EnumWitnesses := do
  let getTag ← Decoder.pointer (a + enumOffset)
  let projectPayload ← Decoder.pointer (a + (enumOffset + 8))
  let injectTag ← Decoder.pointer (a + (enumOffset + 16))
  return ⟨getTag, projectPayload, injectTag⟩

/-- The table at `a`; its flags say whether there is an enum part. -/
def read (a : Address) : Decoder WitnessTable := do
  let flags : WitnessFlags := ⟨← Decoder.u32 (a + flagsOffset)⟩
  let enumWitnesses ←
    if flags.hasEnumWitnesses then some <$> readEnumWitnesses a else pure none
  let initializeBufferWithCopyOfBuffer ← Decoder.pointer a
  let destroy ← Decoder.pointer (a + (0x08 : UInt64))
  let initializeWithCopy ← Decoder.pointer (a + (0x10 : UInt64))
  let assignWithCopy ← Decoder.pointer (a + (0x18 : UInt64))
  let initializeWithTake ← Decoder.pointer (a + (0x20 : UInt64))
  let assignWithTake ← Decoder.pointer (a + (0x28 : UInt64))
  let getEnumTagSinglePayload ← Decoder.pointer (a + (0x30 : UInt64))
  let storeEnumTagSinglePayload ← Decoder.pointer (a + (0x38 : UInt64))
  let size ← Decoder.u64 (a + sizeOffset)
  let stride ← Decoder.u64 (a + strideOffset)
  let extraInhabitants ← Decoder.u32 (a + extraInhabitantsOffset)
  return {
    address := a
    initializeBufferWithCopyOfBuffer, destroy, initializeWithCopy, assignWithCopy
    initializeWithTake, assignWithTake, getEnumTagSinglePayload, storeEnumTagSinglePayload
    layout := ⟨size, stride, flags, extraInhabitants⟩
    enumWitnesses }

/-- The slots that every table has, in table order. -/
def slots (t : WitnessTable) : List Address :=
  [t.initializeBufferWithCopyOfBuffer, t.destroy, t.initializeWithCopy, t.assignWithCopy,
    t.initializeWithTake, t.assignWithTake, t.getEnumTagSinglePayload, t.storeEnumTagSinglePayload]

end WitnessTable

/-- A metadata record's address and kind. -/
structure Metadata where
  address : Address
  kind : MetadataKind
deriving DecidableEq

namespace Metadata

def descriptionOffset : UInt64 := 8

/-- The metadata at `a`. -/
def read (a : Address) : Decoder Metadata := do
  let raw ← Decoder.u64 a
  let kind ← Decoder.require (MetadataKind.ofRaw? raw.toNat) (.unknownMetadataKind a raw)
  return ⟨a, kind⟩

/-- Refuses kinds without a value witness table. -/
def requireValue (d : Metadata) : Decoder Unit :=
  if d.kind.hasValueWitnesses then pure () else throw (.precondition (.noValueWitnesses d.kind))

/-- The type's descriptor. -/
def description (d : Metadata) : Decoder (Option Address) := do
  d.requireValue
  return (← Decoder.pointer (d.address + descriptionOffset)).nonNull?

/-- The table that the word before the metadata points to. -/
def valueWitnesses (d : Metadata) : Decoder WitnessTable := do
  d.requireValue
  WitnessTable.read (← Decoder.pointer (d.address - pointerSize))

def typeLayout (d : Metadata) : Decoder TypeLayout := return (← d.valueWitnesses).layout

/-- `count` field offsets, from `vectorOffset` words into the metadata on. -/
def fieldOffsets (d : Metadata) (vectorOffset count : UInt32) : Decoder (List UInt32) := do
  d.requireValue
  Decoder.series Decoder.u32 4 count.toNat (d.address + vectorOffset.toUInt64 * pointerSize)

end Metadata

end TypeMetadata
