import TypeMetadata.Reflection.Class
import TypeMetadata.Reflection.Enum
import TypeMetadata.Reflection.Protocol
import TypeMetadata.Reflection.Struct

/-!
# Nominal types

A class, struct or enum, with the conformances that are known of it. `NominalType.read` builds the
type that a descriptor describes and refuses descriptors of anything else.
-/

namespace TypeMetadata

/-- What a nominal type is. -/
inductive TypeShape where
  | classType (c : ClassType)
  | structType (s : StructType)
  | enumType (e : EnumType)

/-- A nominal type. -/
structure NominalType where
  shape : TypeShape
  conformances : List Conformance := []

namespace NominalType

/-- The type with its descriptor at `a`. -/
def read (settings : Settings) (a : Address) : Inspect NominalType := do
  match ← Inspect.decode (ContextDescriptor.decode a) with
  | .classType d => return ⟨.classType (← ClassType.read settings d), []⟩
  | .structType d => return ⟨.structType (← StructType.read settings d), []⟩
  | .enumType d => return ⟨.enumType (← EnumType.read settings d), []⟩
  | d => throw (.decode (d.unexpected "type"))

def info (t : NominalType) : TypeInfo :=
  match t.shape with
  | .classType c => c.info
  | .structType s => s.core.info
  | .enumType e => e.core.info

def name (t : NominalType) : String := t.info.name

def qualifiedName (t : NominalType) : String := t.info.qualifiedName

/-- Where the type's descriptor is. -/
def descriptorAddress (t : NominalType) : Address := t.info.descriptor.address

def kindName (t : NominalType) : String :=
  match t.shape with
  | .classType _ => "Class"
  | .structType _ => "Struct"
  | .enumType _ => "Enum"

def structType? (t : NominalType) : Option StructType :=
  match t.shape with
  | .structType s => some s
  | _ => none

def enumType? (t : NominalType) : Option EnumType :=
  match t.shape with
  | .enumType e => some e
  | _ => none

/-- The value type that a struct or enum is. -/
def valueType? (t : NominalType) : Option ValueType :=
  match t.shape with
  | .classType _ => none
  | .structType s => some s.core
  | .enumType e => some e.core

/-- The layout of values; classes and generic types have none. -/
def layout (t : NominalType) : Option TypeLayout := t.valueType?.bind ValueType.layout

def isClass (t : NominalType) : Bool :=
  match t.shape with
  | .classType _ => true
  | _ => false

/-- Whether a conformance is known under this name. -/
def conformsTo (t : NominalType) (protocol : String) : Bool :=
  (Keyed.find? Conformance.key protocol t.conformances).isSome

/-- Attach a conformance, instead of the one under its name. -/
def attach (t : NominalType) (c : Conformance) : NominalType :=
  { t with conformances := Keyed.put Conformance.key c t.conformances }

/-- Inspect a type as a class, unless it is none. -/
def onClass {α : Type} (x : InspectOn ClassType α) : InspectOn NominalType (Option α) := do
  match (← InspectOn.current).shape with
  | .classType c =>
    InspectOn.onPart (fun _ => c) (fun t c => { t with shape := .classType c }) (some <$> x)
  | _ => return none

/-- Inspect a type as an enum, unless it is none. -/
def onEnum {α : Type} (x : InspectOn EnumType α) : InspectOn NominalType (Option α) := do
  match (← InspectOn.current).shape with
  | .enumType e =>
    InspectOn.onPart (fun _ => e) (fun t e => { t with shape := .enumType e }) (some <$> x)
  | _ => return none

/-- The members of a summary that every type has. -/
def summary (t : NominalType) : List (String × Json) :=
  Json.member? "fields" (t.info.fields.map fun fields => .list (fields.map Field.toJson))
    ++ [("conformances", .list (t.conformances.map fun c => .text c.key))]

/-- A summary of the type, with the methods of a class. -/
def toJson : InspectOn NominalType Json := do
  let t ← InspectOn.current
  match ← onClass ClassType.methods with
  | some methods =>
    return .object (t.summary ++ [("methods", .list (methods.map Method.toJson))])
  | none => return .object t.summary

/-- The world without what the type's values of its own own. -/
def release (t : NominalType) (w : World) : World :=
  match t.shape with
  | .enumType e => e.release w
  | _ => w

end NominalType

end TypeMetadata
