import TypeMetadata.Record.Metadata
import TypeMetadata.Reflection.Buffer
import TypeMetadata.Reflection.TypeInfo

/-!
# Value types

Structs and enums have in common that their values have a layout and are copied through a value
witness table. A generic type has neither, and every request that needs one is refused before the
target is called.
-/

namespace TypeMetadata

/-- A struct or enum, with its witness table unless it is generic. -/
structure ValueType where
  info : TypeInfo
  witnesses : Option WitnessTable

namespace ValueType

/-- Read the value type with descriptor `d`. -/
def read (settings : Settings) (d : NominalDescriptor) : Inspect ValueType := do
  let info ← TypeInfo.read settings d
  match info.metadata with
  | none => return ⟨info, none⟩
  | some a =>
    let metadata ← Inspect.decode (Metadata.read a)
    let witnesses ← Inspect.decode metadata.valueWitnesses
    return ⟨info, some witnesses⟩

def qualifiedName (t : ValueType) : String := t.info.qualifiedName

def layout (t : ValueType) : Option TypeLayout := t.witnesses.map WitnessTable.layout

/-- What must be there, or a refusal. -/
def require {α : Type} (x : Option α) (p : Precondition) : Except Error α :=
  match x with
  | some x => .ok x
  | none => .error (.precondition p)

def requireWitnesses (t : ValueType) : Except Error WitnessTable :=
  require t.witnesses (.genericLayout t.qualifiedName)

def requireLayout (t : ValueType) : Except Error TypeLayout := return (← t.requireWitnesses).layout

def requireMetadata (t : ValueType) : Except Error Address :=
  require t.info.metadata (.noMetadata t.qualifiedName)

def requireEnumWitnesses (t : ValueType) : Except Error EnumWitnesses := do
  require (← t.requireWitnesses).enumWitnesses (.noEnumWitnesses t.qualifiedName)

/-- An owned buffer for one value, a whole stride of zeros. -/
def allocate (t : ValueType) : Inspect Buffer := do
  let layout ← t.requireLayout
  Buffer.allocate layout.stride

/-- The value at `a` in memory of someone else's. -/
def view (t : ValueType) (a : Address) : Except Error Buffer := do
  let layout ← t.requireLayout
  return Buffer.view a layout.stride

/-- Make `dest` a copy of the value at `src`, through the witness for it. -/
def copy (t : ValueType) (dest src : Address) : Inspect Unit := do
  let witnesses ← t.requireWitnesses
  let metadata ← t.requireMetadata
  discard <| Inspect.call
    { function := witnesses.initializeWithCopy, args := [dest.val, src.val, metadata.val] }

/-- Run `fill` on a new buffer; the buffer does not outlive a failure. -/
def allocateFilled (t : ValueType) (fill : Buffer → Inspect Unit) : Inspect Buffer := do
  let buffer ← t.allocate
  tryCatch (fill buffer) fun e => do
    modify buffer.release
    throw e
  return buffer

/-- An owned copy of the value at `src`. -/
def allocateCopy (t : ValueType) (src : Address) : Inspect Buffer :=
  t.allocateFilled fun buffer => t.copy buffer.address src

/-- An owned buffer for an enum value; a type whose tag cannot be written gets none. -/
def allocateEnum (t : ValueType) : Inspect Buffer := do
  let _ ← t.requireEnumWitnesses
  let _ ← t.requireMetadata
  t.allocate

/-- Write a case into the enum value at `a`. -/
def injectTag (t : ValueType) (a : Address) (tag : UInt32) : Inspect Unit := do
  let witnesses ← t.requireEnumWitnesses
  let metadata ← t.requireMetadata
  discard <| Inspect.call
    { function := witnesses.injectTag, args := [a.val, tag.toUInt64, metadata.val] }

/-- The case of the enum value at `a`. -/
def readTag (t : ValueType) (a : Address) : Inspect UInt32 := do
  let witnesses ← t.requireEnumWitnesses
  let metadata ← t.requireMetadata
  let tag ← Inspect.call { function := witnesses.getTag, args := [a.val, metadata.val] }
  return tag.toUInt32

end ValueType

end TypeMetadata
