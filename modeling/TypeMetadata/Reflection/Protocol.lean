import TypeMetadata.Json
import TypeMetadata.Record.Descriptor
import TypeMetadata.Settings

/-!
# Protocols

A protocol is read from its descriptor once. Protocols can be asked for together, and only classes
can conform to all of them if only classes can conform to one.
-/

namespace TypeMetadata

/-- A protocol. -/
structure Protocol where
  descriptor : ProtocolDescriptor
  name : String
  moduleName : String
  numRequirements : UInt32
  isClassOnly : Bool
deriving DecidableEq

namespace Protocol

/-- The protocol with its descriptor at `a`. -/
def read (limits : Limits) (a : Address) : Decoder Protocol := do
  let descriptor ← (← ContextDescriptor.decode a).expectProtocol
  let name ← descriptor.name limits
  let moduleName ← descriptor.moduleName limits
  let numRequirements ← descriptor.numRequirements
  return ⟨descriptor, name, moduleName, numRequirements, descriptor.isClassOnly⟩

/-- The name by which a protocol is known, with its module's. -/
def qualifiedName (p : Protocol) : String := p.moduleName ++ "." ++ p.name

def toJson (p : Protocol) : Json :=
  .object [("numRequirements", .number p.numRequirements.toNat),
    ("isClassOnly", .bool p.isClassOnly)]

end Protocol

/-- Several protocols at once. -/
structure ProtocolComposition where
  protocols : List Protocol

namespace ProtocolComposition

/-- The protocols with their descriptors at these addresses. -/
def read (limits : Limits) (addresses : List Address) : Decoder ProtocolComposition :=
  return ⟨← addresses.mapM (Protocol.read limits)⟩

def size (c : ProtocolComposition) : Nat := c.protocols.length

def isClassOnly (c : ProtocolComposition) : Bool := c.protocols.any Protocol.isClassOnly

end ProtocolComposition

/-- That a type conforms to a protocol. -/
structure Conformance where
  protocol : Protocol
  witnessTable : Option Address
deriving DecidableEq

/-- What a type's conformances are told apart by: the protocol's name without its module's. -/
def Conformance.key (c : Conformance) : String := c.protocol.name

end TypeMetadata
