import TypeMetadata.Json
import TypeMetadata.Record.Descriptor
import TypeMetadata.World

/-!
# What a type knows about itself

`TypeInfo.read` reads the names of a type, asks the target for its metadata, and reads its fields,
in this order. The target is asked by calling the type's access function, unless the type is
generic: generic types are never instantiated, so their access function is not called and they have
no metadata.
-/

namespace TypeMetadata

/-- A stored property or enum case, with its type's name if that is known. -/
structure Field where
  name : String
  typeName : Option String
  isVar : Bool
deriving DecidableEq

namespace Field

/-- The field that a record describes. -/
def ofRecord (s : Settings) (w : World) (r : FieldRecord) : Field :=
  ⟨r.name, r.mangledTypeName.bind (s.typeName w), r.isVar⟩

def toJson (f : Field) : Json :=
  .object <| [("name", .text f.name), ("isVar", .bool f.isVar)]
    ++ Json.member? "typeName" (f.typeName.map .text)

end Field

/-- The names, metadata and fields of a class, struct or enum. -/
structure TypeInfo where
  settings : Settings
  descriptor : NominalDescriptor
  name : String
  moduleName : String
  metadata : Option Address
  fields : Option (List Field)

namespace TypeInfo

/-- The name by which a type is known, with its module's. -/
def qualifiedName (i : TypeInfo) : String := i.moduleName ++ "." ++ i.name

def isGeneric (i : TypeInfo) : Bool := i.descriptor.isGeneric

/-- The metadata that the access function of a type returns. -/
def requestMetadata (d : NominalDescriptor) : Inspect (Option Address) := do
  if d.isGeneric then return none
  let function ← Inspect.decode d.accessFunction
  let metadata ← Inspect.call { function }
  return some ⟨metadata⟩

/-- The fields that are listed; a type that lists none is one that has no field descriptor. -/
def listedFields (s : Settings) (w : World) : Option FieldDescriptor → Option (List Field)
  | some d => if d.records = [] then none else some (d.records.map (Field.ofRecord s w))
  | none => none

/-- Read the type with descriptor `d`. -/
def read (settings : Settings) (d : NominalDescriptor) : Inspect TypeInfo := do
  let name ← Inspect.decode (d.name settings.limits)
  let moduleName ← Inspect.decode (d.moduleName settings.limits)
  let metadata ← requestMetadata d
  let fields? ← Inspect.decode (d.fields settings.limits)
  let fields := listedFields settings (← get) fields?
  return { settings, descriptor := d, name, moduleName, metadata, fields }

end TypeInfo

end TypeMetadata
