import TypeMetadata.Reflection.TypeInfo
import TypeMetadata.Signature.Parser

/-!
# Classes

The methods of a class are the slots of its vtable, named by their symbols. An initializer is a
method of that kind whose symbol spells a signature; it is known by its selector, and of two with
one selector the later one counts, at the place of the earlier. Both lists are read when they are
first asked for, and the first answer stays.
-/

namespace TypeMetadata

/-- A vtable entry. -/
structure Method where
  address : Address
  name : Option String
  kind : MethodKind
deriving DecidableEq

/-- An initializer of a class. -/
structure Initializer where
  signature : Signature
  address : Address
  metadata : Address
  className : String
deriving DecidableEq

def Initializer.selector (i : Initializer) : String := i.signature.selector

namespace Method

/-- The method in a vtable slot. -/
def ofSlot (s : Settings) (w : World) (slot : MethodSlot) : Except Error Method := do
  let kind ← slot.kind
  let name := if s.resolveMethodNames then s.symbolName w slot.implementation else none
  return ⟨slot.implementation, name, kind⟩

/-- The signature of an initializer. -/
def initializerSignature? (m : Method) : Option Signature :=
  if m.kind = .init then m.name.bind Signature.parse? else none

def toJson (m : Method) : Json :=
  .object <| [("address", .text (toString m.address)), ("type", .text m.kind.name)]
    ++ Json.member? "name" (m.name.map .text)

end Method

/-- A class, with its methods and initializers once they are known. -/
structure ClassType where
  info : TypeInfo
  knownMethods : Option (List Method) := none
  knownInitializers : Option (List Initializer) := none

namespace ClassType

def read (settings : Settings) (d : ClassDescriptor) : Inspect ClassType :=
  return { info := ← TypeInfo.read settings d.toNominalDescriptor }

def descriptor (c : ClassType) : ClassDescriptor := ⟨c.info.descriptor⟩

/-- The methods as memory and symbols have them now. -/
def readMethods (c : ClassType) (w : World) : Except Error (List Method) := do
  let slots ← w.decode (c.descriptor.methods c.info.settings.limits)
  slots.mapM (Method.ofSlot c.info.settings w)

/-- The initializers among `methods`. -/
def initializersOf (c : ClassType) (metadata : Address) (methods : List Method) :
    List Initializer :=
  methods.foldl (fun known m =>
    match m.initializerSignature? with
    | some signature =>
      Keyed.put Initializer.selector ⟨signature, m.address, metadata, c.info.qualifiedName⟩ known
    | none => known) []

/-- The methods in slot order. -/
def methods : InspectOn ClassType (List Method) := do
  let c ← InspectOn.current
  match c.knownMethods with
  | some known => return known
  | none =>
    let found ← c.readMethods (← InspectOn.lift get)
    InspectOn.replace { c with knownMethods := some found }
    return found

/-- The initializers as the methods have them; none of a generic class, or if they are not to be
bound. -/
def readInitializers : InspectOn ClassType (List Initializer) := do
  let c ← InspectOn.current
  match c.info.metadata, c.info.settings.bindInitializers with
  | some metadata, true =>
    let found ← methods
    return c.initializersOf metadata found
  | _, _ => return []

/-- The initializers, one for each selector. -/
def initializers : InspectOn ClassType (List Initializer) := do
  match (← InspectOn.current).knownInitializers with
  | some known => return known
  | none =>
    let found ← readInitializers
    let c ← InspectOn.current
    InspectOn.replace { c with knownInitializers := some found }
    return found

def initializer? (selector : String) : InspectOn ClassType (Option Initializer) :=
  return Keyed.find? Initializer.selector selector (← initializers)

end ClassType

end TypeMetadata
