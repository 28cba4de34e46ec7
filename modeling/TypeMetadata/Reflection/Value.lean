import TypeMetadata.Reflection.ValueType

/-!
# Values

A struct value has a buffer from the start. An enum value made from a case has a tag and maybe a
payload, and gets a buffer when its address is first asked for: the payload is copied in by the
payload's own witness, and then the tag is written. One made over memory has a buffer, and its tag
is read when it is first asked for. So `EnumState` has no place for an enum value that has neither,
and once known, tag and buffer stay.
-/

namespace TypeMetadata

/-- What is known of an enum value. -/
inductive EnumState where
  | tagged (tag : UInt32)
  | stored (buffer : Buffer)
  | complete (tag : UInt32) (buffer : Buffer)
deriving DecidableEq

namespace EnumState

def tag? : EnumState → Option UInt32
  | tagged tag | complete tag _ => some tag
  | stored _ => none

def buffer? : EnumState → Option Buffer
  | stored buffer | complete _ buffer => some buffer
  | tagged _ => none

end EnumState

/-- A reference to an instance of a class. -/
structure ObjectReference where
  address : Address
  metadata : Address
  className : String
deriving DecidableEq

/-- A value in the target. -/
inductive Value where
  | struct (type : ValueType) (buffer : Buffer)
  | enum (type : ValueType) (state : EnumState) (payload : Option Value)
  | object (reference : ObjectReference)

namespace Value

/-- The case of an enum value that is given by its tag. -/
def ofCase (type : ValueType) (tag : UInt32) (payload : Option Value) : Value :=
  .enum type (.tagged tag) payload

/-- An enum value that is in memory. -/
def ofBuffer (type : ValueType) (buffer : Buffer) : Value := .enum type (.stored buffer) none

/-- Name of the value's type, with its module's. -/
def typeName : Value → String
  | struct type _ | enum type _ _ => type.qualifiedName
  | object reference => reference.className

/-- What a value is a value of. -/
def kindName : Value → String
  | struct .. => "Struct"
  | enum .. => "Enum"
  | object _ => "Object"

/-- The value that an enum value was made with. -/
def payload? : Value → Option Value
  | enum _ _ payload => payload
  | _ => none

/-- The payload of an enum value, that payload's payload, and so on inwards. -/
def payloads : Value → List Value
  | enum _ _ (some inner) => inner :: inner.payloads
  | _ => []
termination_by structural v => v

/-- Copy a value that is at `src` to `dest`: a value type's by its witness, and of an object the
pointer. -/
def copyTo (v : Value) (src dest : Address) : Inspect Unit :=
  match v with
  | struct type _ | enum type _ _ => type.copy dest src
  | object _ => Inspect.update fun m => m.writePointer dest src

/-- Build the enum value with this tag and the payload at `source`: first the payload is copied in,
then the tag is written. -/
def placeIn (payload : Value) (type : ValueType) (tag : UInt32) (source : Except Error Address)
    (buffer : Buffer) : Inspect Unit := do
  payload.copyTo (← source) buffer.address
  type.injectTag buffer.address tag

/-- Give a value its place in memory, and return where that is. If the case cannot be built the
buffer for it is released, but a payload that has got its place by then keeps it. -/
def settle : Value → StateM World (Except Error Address × Value)
  | struct type buffer => pure (.ok buffer.address, struct type buffer)
  | object reference => pure (.ok reference.address, object reference)
  | enum type (.stored buffer) payload =>
    pure (.ok buffer.address, enum type (.stored buffer) payload)
  | enum type (.complete tag buffer) payload =>
    pure (.ok buffer.address, enum type (.complete tag buffer) payload)
  | enum type (.tagged tag) none => do
    match ← (type.allocateEnum).run with
    | .error e => return (.error e, enum type (.tagged tag) none)
    | .ok buffer =>
      match ← (type.injectTag buffer.address tag).run with
      | .ok () => return (.ok buffer.address, enum type (.complete tag buffer) none)
      | .error e =>
        modify buffer.release
        return (.error e, enum type (.tagged tag) none)
  | enum type (.tagged tag) (some inner) => do
    match ← (type.allocateEnum).run with
    | .error e => return (.error e, enum type (.tagged tag) (some inner))
    | .ok buffer =>
      let (source, inner) ← inner.settle
      match ← (inner.placeIn type tag source buffer).run with
      | .ok () => return (.ok buffer.address, enum type (.complete tag buffer) (some inner))
      | .error e =>
        modify buffer.release
        return (.error e, enum type (.tagged tag) (some inner))
termination_by structural v => v

/-- Where the value is. -/
def address : InspectOn Value Address := .ofFunction settle

/-- The buffer of a value as far as it has one; an object never has. -/
def buffer? : Value → Option Buffer
  | struct _ buffer => some buffer
  | enum _ state _ => state.buffer?
  | object _ => none

/-- The buffer of a value, which an enum value gets for that; `none` for an object. -/
def buffer : InspectOn Value (Option Buffer) := do
  let _ ← address
  return (← InspectOn.current).buffer?

/-- The tag of an enum value; other values have none. -/
def tag : InspectOn Value (Option UInt32) := do
  match ← InspectOn.current with
  | enum type (.stored buffer) payload =>
    let tag ← type.readTag buffer.address
    InspectOn.replace (enum type (.complete tag buffer) payload)
    return some tag
  | enum _ state _ => return state.tag?
  | _ => return none

/-- The bytes of a value's buffer. -/
def bytes : InspectOn Value (Option (List UInt8)) := do
  match ← buffer with
  | some b => return some (← Inspect.decode b.bytes)
  | none => return none

/-- The world without what a value owns. -/
def release : Value → World → World
  | struct _ buffer, w => buffer.release w
  | enum _ state none, w => state.buffer?.elim w fun b => b.release w
  | enum _ state (some inner), w =>
    let w := inner.release w
    state.buffer?.elim w fun b => b.release w
  | object _, w => w
termination_by structural v => v

end Value

end TypeMetadata
