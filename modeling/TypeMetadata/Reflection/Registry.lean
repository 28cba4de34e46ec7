import TypeMetadata.Record.Conformance
import TypeMetadata.Reflection.NominalType

/-!
# Registries

A registry holds types and protocols by their qualified names, in the order in which they came. The
first type or protocol with a name keeps it: another type with that name is passed over whenever it
comes, while another protocol with that name is taken for the first from then on. Loading a section
goes through its records one after another, and what was registered before a failure stays.
-/

namespace TypeMetadata

/-- The types and protocols found so far. -/
structure Registry where
  settings : Settings
  /-- Types by qualified name, in the order in which they came. -/
  typeEntries : List (String × NominalType) := []
  /-- Protocols by qualified name, in the order in which they came. -/
  protocolEntries : List (String × Protocol) := []
  /-- The name under which the type with its descriptor at this address is registered. -/
  typeNames : List (Address × String) := []
  /-- The name under which the protocol with a descriptor at this address is registered. -/
  protocolNames : List (Address × String) := []

namespace Registry

def types (r : Registry) : List NominalType := r.typeEntries.map Prod.snd

def protocols (r : Registry) : List Protocol := r.protocolEntries.map Prod.snd

def typeNamed? (r : Registry) (name : String) : Option NominalType :=
  Keyed.lookup? name r.typeEntries

def protocolNamed? (r : Registry) (name : String) : Option Protocol :=
  Keyed.lookup? name r.protocolEntries

/-- The name that a type's descriptor is registered under. -/
def typeName? (r : Registry) (a : Address) : Option String := Keyed.lookup? a r.typeNames

/-- The name that a protocol's descriptor is registered under. -/
def protocolName? (r : Registry) (a : Address) : Option String := Keyed.lookup? a r.protocolNames

/-- The type that the descriptor at `a` is registered as. -/
def typeAt? (r : Registry) (a : Address) : Option NominalType := do
  r.typeNamed? (← r.typeName? a)

/-- The protocol that the descriptor at `a` is registered as. -/
def protocolAt? (r : Registry) (a : Address) : Option Protocol := do
  r.protocolNamed? (← r.protocolName? a)

/-- How many types and protocols there are. -/
def count (r : Registry) : Nat := r.typeEntries.length + r.protocolEntries.length

/-- Put a type in the place of the one with its name, or last. -/
def putType (r : Registry) (t : NominalType) : Registry :=
  { r with typeEntries := Keyed.put Prod.fst (t.qualifiedName, t) r.typeEntries }

/-- The registry with the type `t` of the descriptor at `a`, and the type that now has its name. A
descriptor whose name was taken is not kept. -/
def addType (r : Registry) (a : Address) (t : NominalType) : NominalType × Registry :=
  match r.typeNamed? t.qualifiedName with
  | some first => (first, r)
  | none =>
    (t, { r.putType t with typeNames := Keyed.put Prod.fst (a, t.qualifiedName) r.typeNames })

/-- The registry with the protocol `p` of the descriptor at `a`, and the protocol that now has its
name. A descriptor whose name was taken stands for the protocol that took it. -/
def addProtocol (r : Registry) (a : Address) (p : Protocol) : Protocol × Registry :=
  let name := p.qualifiedName
  let r := { r with protocolNames := Keyed.put Prod.fst (a, name) r.protocolNames }
  match r.protocolNamed? name with
  | some first => (first, r)
  | none =>
    (p, { r with protocolEntries := Keyed.put Prod.fst (name, p) r.protocolEntries })

/-- Register the type with its descriptor at `a`, and return the type that has its name. -/
def registerType (a : Address) : InspectOn Registry NominalType := do
  let r ← InspectOn.current
  match r.typeAt? a with
  | some t => return t
  | none =>
    let (t, r) := r.addType a (← InspectOn.lift (NominalType.read r.settings a))
    InspectOn.replace r
    return t

/-- Register the protocol with its descriptor at `a`, and return the protocol that has its name. -/
def registerProtocol (a : Address) : InspectOn Registry Protocol := do
  let r ← InspectOn.current
  match r.protocolAt? a with
  | some p => return p
  | none =>
    let (p, r) := r.addProtocol a (← Inspect.decode (Protocol.read r.settings.limits a))
    InspectOn.replace r
    return p

/-- Register what a type record refers to, if it is a type or a protocol. -/
def loadTypeRecord (record : TypeRecord) : InspectOn Registry Unit := do
  let some a := record.reference.bind TypeReference.descriptor? | return
  match ← Inspect.decode (ContextDescriptor.decode a) with
  | .protocolType _ => discard (registerProtocol a)
  | .classType _ | .structType _ | .enumType _ => discard (registerType a)
  | .moduleContext _ | .other _ => return

/-- Register what the `count` type records at `start` refer to; the answer counts the new names. -/
def loadTypes (start : Address) (count : Nat) : InspectOn Registry Nat := do
  let records ← Inspect.decode (TypeRecord.readSection start count)
  let before := (← InspectOn.current).count
  records.forM loadTypeRecord
  return (← InspectOn.current).count - before

/-- Attach a conformance to its type, with both registered on the way, and return whether that was
done. It is not if the record refers to no protocol or to no type with a descriptor, or if another
type has the type's name. -/
def loadConformance (record : ConformanceRecord) : InspectOn Registry Bool := do
  let some p := record.protocol | return false
  let some a := record.conformingType.bind TypeReference.descriptor? | return false
  let protocol ← registerProtocol p
  let t ← registerType a
  if t.descriptorAddress ≠ a then return false
  let r ← InspectOn.current
  InspectOn.replace (r.putType (t.attach ⟨protocol, record.witnessTable⟩))
  return true

/-- Attach the conformances that the `count` records at `start` refer to, and return how many were
attached. -/
def loadConformances (start : Address) (count : Nat) : InspectOn Registry Nat := do
  let records ← Inspect.decode (ConformanceRecord.readSection start count)
  let attached ← records.mapM loadConformance
  return attached.count true

/-- The world without what the registered types own. -/
def release (r : Registry) (w : World) : World := r.types.foldl (fun w t => t.release w) w

end Registry

end TypeMetadata
