import TypeMetadata.Reflection.Value

/-!
# Enums

The cases of an enum are its field records, and the tag of a case is its place among them. A case
without a payload has one value, which is the enum's own and is kept with it; values of other cases
are made. Where several cases have one name, the first is meant.
-/

namespace TypeMetadata

/-- A case of an enum. -/
structure EnumCase where
  name : String
  tag : UInt32
  kind : CaseKind
  payloadTypeName : Option String
deriving DecidableEq

def EnumCase.hasPayload (c : EnumCase) : Bool := c.kind = .payload

/-- A case, with what is known of its value if it carries no payload. -/
structure CaseEntry where
  case : EnumCase
  state : EnumState

/-- An enum. -/
structure EnumType where
  core : ValueType
  entries : List CaseEntry

namespace EnumType

/-- The entry for the record at `index`. -/
def entryOf (s : Settings) (w : World) (index : Nat) (r : FieldRecord) (kind : CaseKind) :
    CaseEntry :=
  let tag := UInt32.ofNat index
  ⟨⟨r.name, tag, kind, r.mangledTypeName.bind (s.typeName w)⟩, .tagged tag⟩

/-- The entries for `records`, the first of which has the given index. -/
def entriesFrom (s : Settings) (w : World) : Nat → List FieldRecord → List CaseKind → List CaseEntry
  | index, r :: records, k :: kinds =>
    entryOf s w index r k :: entriesFrom s w (index + 1) records kinds
  | _, _, _ => []

/-- The entries for the cases that are listed. -/
def readEntries (settings : Settings) (d : EnumDescriptor) : Inspect (List CaseEntry) := do
  let some fields ← Inspect.decode (d.fields settings.limits) | return []
  if fields.records = [] then return []
  let kinds ← Inspect.decode (d.classifyCases fields settings.verifyEnumCases)
  return entriesFrom settings (← get) 0 fields.records kinds

def read (settings : Settings) (d : EnumDescriptor) : Inspect EnumType := do
  let core ← ValueType.read settings d.toNominalDescriptor
  let entries ← readEntries settings d
  return ⟨core, entries⟩

def descriptor (t : EnumType) : EnumDescriptor := ⟨t.core.info.descriptor⟩

def cases (t : EnumType) : List EnumCase := t.entries.map CaseEntry.case

/-- The entry of the case with this name. -/
def entry? (t : EnumType) (name : String) : Option CaseEntry :=
  Keyed.find? (fun e : CaseEntry => e.case.name) name t.entries

def case? (t : EnumType) (name : String) : Option EnumCase := (t.entry? name).map CaseEntry.case

/-- The case at `index`. -/
def caseAt (t : EnumType) (index : Nat) : Except Error EnumCase :=
  ValueType.require t.cases[index]? (.caseIndexOutOfRange index t.cases.length)

def isPayloadCase (t : EnumType) (index : Nat) : Except Error Bool :=
  return (← t.caseAt index).hasPayload

def requireEntry (t : EnumType) (name : String) : Except Error CaseEntry :=
  ValueType.require (t.entry? name) (.unknownCase t.core.qualifiedName name)

/-- The entry of a case that has a value of its own. -/
def requireEmptyCase (t : EnumType) (name : String) : Except Error CaseEntry := do
  let entry ← t.requireEntry name
  if entry.case.hasPayload then throw (.precondition (.payloadRequired entry.case.name))
  return entry

/-- The value of a case without a payload. -/
def caseValue (t : EnumType) (name : String) : Except Error Value :=
  return .enum t.core (← t.requireEmptyCase name).state none

/-- Keep what is now known of the value of a case. -/
def keep (t : EnumType) (entry : CaseEntry) : Value → EnumType
  | .enum _ state _ =>
    { t with
      entries := Keyed.put (fun e : CaseEntry => e.case.name) { entry with state } t.entries }
  | _ => t

/-- Inspect the value of a case without a payload; what becomes known of it is kept. -/
def onCaseValue {α : Type} (name : String) (x : InspectOn Value α) : InspectOn EnumType α := do
  let t ← InspectOn.current
  let entry ← t.requireEmptyCase name
  InspectOn.onPart (fun t => .enum t.core entry.state none) (fun t v => t.keep entry v) x

/-- The value of the case with this name, with a payload exactly if the case takes one. The type of
the payload is not looked at. -/
def caseOf (t : EnumType) (name : String) (payload : Option Value) : Except Error Value := do
  let entry ← t.requireEntry name
  match entry.case.kind, payload with
  | .payload, none => throw (.precondition (.payloadRequired entry.case.name))
  | .empty, some _ => throw (.precondition (.unexpectedPayload entry.case.name))
  | _, payload => return .ofCase t.core entry.case.tag payload

/-- Make the value of a case. A payload that is not taken is released. -/
def makeCase (t : EnumType) (name : String) (payload : Option Value) : Inspect Value :=
  match t.caseOf name payload with
  | .ok value => pure value
  | .error e => do
    modify fun w => payload.elim w fun p => p.release w
    throw e

/-- No value of an enum is known to be made of zeros. -/
def emptyValue (t : EnumType) : Except Error Value :=
  .error (.precondition (.emptyEnumValue t.core.qualifiedName))

/-- The value at `a`, which stays where it is. -/
def valueAt (t : EnumType) (a : Address) : Except Error Value :=
  return .ofBuffer t.core (← t.core.view a)

/-- A copy of the value at `src`. -/
def copyOf (t : EnumType) (src : Address) : Inspect Value :=
  return .ofBuffer t.core (← t.core.allocateCopy src)

/-- The world without what the values of the cases own. -/
def release (t : EnumType) (w : World) : World :=
  t.entries.foldl (fun w e => e.state.buffer?.elim w fun b => b.release w) w

end EnumType

end TypeMetadata
