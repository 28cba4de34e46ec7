import TypeMetadata.Image.Patch
import TypeMetadata.Record.Metadata

/-!
# Laying out metadata

The metadata of a value type follows its witness table, with a pointer to the table in the word
between them. Class metadata starts with a pointer, to itself, which is what tells it apart.
-/

namespace TypeMetadata

/-- A value type's witness table and metadata. With enum witnesses the table is marked as having
them, whatever the flags say. -/
structure ValueMetadataSpec where
  kind : MetadataKind
  description : Address := .null
  layout : TypeLayout
  destroy : Address := .null
  initializeWithCopy : Address := .null
  enumWitnesses : Option EnumWitnesses := none
  fieldOffsets : List UInt32 := []

namespace TypeLayout

/-- The layout of plain data, aligned to its size but to eight bytes at most. -/
def plain (size : UInt64) : TypeLayout :=
  let alignment := if size < 1 then 1 else if 8 < size then 8 else size
  let rounded := if size < 1 then 1 else size
  let excess := rounded % alignment
  { size
    stride := if excess = 0 then rounded else rounded + (alignment - excess)
    flags := .ofAlignment alignment
    extraInhabitants := 0 }

end TypeLayout

namespace Emit

/-- Words of metadata before the field offsets. -/
def fieldOffsetVector : UInt32 := 2

/-- A witness table and then the metadata, whose address is returned. -/
def valueMetadata (spec : ValueMetadataSpec) : Build Address := do
  let flags := if spec.enumWitnesses.isSome then spec.layout.flags.withEnumWitnesses
    else spec.layout.flags
  let table ← Build.pushPointer .null
  let _ ← Build.pushPointer spec.destroy
  let _ ← Build.pushPointer spec.initializeWithCopy
  (List.replicate 5 Address.null).forM fun a => discard (Build.pushPointer a)
  let _ ← Build.pushU64 spec.layout.size
  let _ ← Build.pushU64 spec.layout.stride
  let _ ← Build.pushU32 flags.bits
  let _ ← Build.pushU32 spec.layout.extraInhabitants
  if let some witnesses := spec.enumWitnesses then
    let _ ← Build.pushPointer witnesses.getTag
    let _ ← Build.pushPointer witnesses.projectPayload
    let _ ← Build.pushPointer witnesses.injectTag
  let _ ← Build.pushPointer table
  let metadata ← Build.pushU64 (UInt64.ofNat spec.kind.raw)
  let _ ← Build.pushPointer spec.description
  spec.fieldOffsets.forM fun offset => discard (Build.pushU32 offset)
  let _ ← Build.align pointerSize
  return metadata

/-- Class metadata: a pointer to itself, and one to the class's descriptor. -/
def classMetadata (description : Address) : Build Address := do
  let metadata ← Build.pushPointer .null
  Build.patchPointer metadata metadata
  let _ ← Build.pushPointer description
  return metadata

end Emit

end TypeMetadata
