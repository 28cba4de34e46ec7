import TypeMetadata.Native.Call
import TypeMetadata.Record.Kind

/-!
# What can go wrong

A failure is a value that names its cause: memory refused an access, bytes do not describe what they
should, a type was asked for what it cannot provide, a call gave no result, or a name is not known.
`Error.message` is the wording of each, and `Error.label` what all failures of one kind have in
common.
-/

namespace TypeMetadata

/-- Bytes that do not describe what they should. -/
inductive DecodeError where
  | unknownContextKind (address : Address) (raw : Nat)
  | unknownMetadataKind (address : Address) (raw : UInt64)
  | unknownMethodKind (address : Address) (raw : Nat)
  | unknownFieldKind (address : Address) (raw : UInt16)
  | unknownTypeReferenceKind (address : Address) (raw : Nat)
  | unexpectedKind (address : Address) (expected : String) (found : ContextKind)
  | invalidUtf8 (address : Address)
  | unterminatedString (address : Address) (limit : Nat)
  | nullPointer (address : Address)
  | vtableOverflow (start : Address) (size : UInt32)
  | vtableTooLarge (start : Address) (size limit : UInt32)
  | tooManyFields (address : Address) (count limit : UInt32)
  | fieldRecordSize (address : Address) (size minimum : UInt16)
  | enumCaseMismatch (address : Address) (payload empty expectedPayload expectedEmpty : UInt32)
  | caseCountOverflow (address : Address) (payload empty : UInt32)
  | missingModule (address : Address) (depth : Nat)
deriving DecidableEq

namespace DecodeError

def label : DecodeError → String
  | unknownContextKind .. => "Decode.UnknownContextKind"
  | unknownMetadataKind .. => "Decode.UnknownMetadataKind"
  | unknownMethodKind .. => "Decode.UnknownMethodKind"
  | unknownFieldKind .. => "Decode.UnknownFieldDescriptorKind"
  | unknownTypeReferenceKind .. => "Decode.UnknownTypeReferenceKind"
  | unexpectedKind .. => "Decode.UnexpectedKind"
  | invalidUtf8 .. => "Decode.InvalidUtf8"
  | unterminatedString .. => "Decode.UnterminatedString"
  | nullPointer .. => "Decode.NullPointer"
  | vtableOverflow .. => "Decode.VTableOverflow"
  | vtableTooLarge .. => "Decode.VTableTooLarge"
  | tooManyFields .. => "Decode.TooManyFields"
  | fieldRecordSize .. => "Decode.FieldRecordSize"
  | enumCaseMismatch .. => "Decode.EnumCaseMismatch"
  | caseCountOverflow .. => "Decode.CaseCountOverflow"
  | missingModule .. => "Decode.MissingModule"

def message : DecodeError → String
  | unknownContextKind address raw => s!"unknown context descriptor kind {raw} at {address}"
  | unknownMetadataKind address raw =>
    "unknown metadata kind " ++ hexText raw.toNat ++ s!" at {address}"
  | unknownMethodKind address raw => s!"unknown method descriptor kind {raw} at {address}"
  | unknownFieldKind address raw => s!"unknown field descriptor kind {raw} at {address}"
  | unknownTypeReferenceKind address raw => s!"unknown type reference kind {raw} at {address}"
  | unexpectedKind address expected found =>
    s!"expected a {expected} descriptor at {address}, found {found.name}"
  | invalidUtf8 address => s!"string at {address} is not valid UTF-8"
  | unterminatedString address limit =>
    s!"string at {address} is not terminated within {limit} bytes"
  | nullPointer address => s!"required relative pointer at {address} is null"
  | vtableOverflow start size =>
    s!"vtable at {start} with {size} slots overflows the address space"
  | vtableTooLarge start size limit =>
    s!"vtable at {start} declares {size} slots (limit {limit})"
  | tooManyFields address count limit =>
    s!"field descriptor at {address} declares {count} fields (limit {limit})"
  | fieldRecordSize address size minimum =>
    s!"field record size {size} at {address} is smaller than {minimum}"
  | enumCaseMismatch address payload empty expectedPayload expectedEmpty =>
    s!"enum at {address}: field records hold {payload} payload and {empty} empty cases, " ++
      s!"descriptor declares {expectedPayload} and {expectedEmpty}"
  | caseCountOverflow address payload empty =>
    s!"enum at {address} declares {payload} payload and {empty} empty cases, " ++
      "overflowing the case count"
  | missingModule address depth =>
    s!"context at {address} has no enclosing module within {depth} levels"

end DecodeError

/-- A request that the type or value at hand cannot meet. -/
inductive Precondition where
  | noValueWitnesses (kind : MetadataKind)
  | genericLayout (typeName : String)
  | noMetadata (typeName : String)
  | noEnumWitnesses (typeName : String)
  | payloadRequired (case : String)
  | unexpectedPayload (case : String)
  | emptyEnumValue (typeName : String)
  | unknownCase (typeName case : String)
  | caseIndexOutOfRange (index count : Nat)
  | arityMismatch (name : String) (expected actual : Nat)
  | argumentTypeMismatch (name : String) (index : Nat) (expected actual : String)
  | unsupportedArgument (name : String) (index : Nat) (size : UInt64)
deriving DecidableEq

namespace Precondition

/-- A name between back quotes. -/
def quoted (name : String) : String := "`" ++ name ++ "`"

def label : Precondition → String
  | noValueWitnesses .. => "Precondition.NoValueWitnesses"
  | genericLayout .. => "Precondition.GenericLayout"
  | noMetadata .. => "Precondition.NoMetadata"
  | noEnumWitnesses .. => "Precondition.NoEnumWitnesses"
  | payloadRequired .. => "Precondition.PayloadRequired"
  | unexpectedPayload .. => "Precondition.UnexpectedPayload"
  | emptyEnumValue .. => "Precondition.EmptyEnumValue"
  | unknownCase .. => "Precondition.UnknownCase"
  | caseIndexOutOfRange .. => "Precondition.CaseIndexOutOfRange"
  | arityMismatch .. => "Precondition.ArityMismatch"
  | argumentTypeMismatch .. => "Precondition.ArgumentTypeMismatch"
  | unsupportedArgument .. => "Precondition.UnsupportedArgument"

def message : Precondition → String
  | noValueWitnesses kind => s!"metadata kind {kind.name} has no value witness table"
  | genericLayout typeName =>
    s!"{quoted typeName} is generic; its layout depends on the instantiation"
  | noMetadata typeName => s!"{quoted typeName} is generic and has no unspecialized metadata"
  | noEnumWitnesses typeName => s!"{quoted typeName} has no enum value witnesses"
  | payloadRequired case => s!"case {quoted case} requires an associated value"
  | unexpectedPayload case => s!"case {quoted case} has no associated value"
  | emptyEnumValue typeName => s!"enum {quoted typeName} has no empty value"
  | unknownCase typeName case => s!"{quoted typeName} has no case {quoted case}"
  | caseIndexOutOfRange index count => s!"case index {index} out of range for {count} cases"
  | arityMismatch name expected actual =>
    s!"{quoted name} takes {expected} arguments, got {actual}"
  | argumentTypeMismatch name index expected actual =>
    s!"argument {index} of {quoted name} expects {quoted expected}, got {quoted actual}"
  | unsupportedArgument name index size =>
    s!"argument {index} of {quoted name} is a {size}-byte value; " ++
      "only single-word values can be passed"

end Precondition

/-- Why an operation gave no result. -/
inductive Error where
  | memory (cause : MemoryError)
  | decode (cause : DecodeError)
  | precondition (cause : Precondition)
  | call (cause : CallError)
  | unknownType (name : String)
deriving DecidableEq

instance decidableEqExcept {ε α : Type} [DecidableEq ε] [DecidableEq α] :
    DecidableEq (Except ε α)
  | .ok a, .ok b => decidable_of_iff (a = b) ⟨congrArg _, Except.ok.inj⟩
  | .error e, .error f => decidable_of_iff (e = f) ⟨congrArg _, Except.error.inj⟩
  | .ok _, .error _ => isFalse nofun
  | .error _, .ok _ => isFalse nofun

namespace Error

/-- What kind of failure it is, in a word by which tools can tell. -/
def label : Error → String
  | memory cause => cause.label
  | decode cause => cause.label
  | precondition cause => cause.label
  | call cause => cause.label
  | unknownType _ => "UnknownType"

def message : Error → String
  | memory cause => cause.message
  | decode cause => cause.message
  | precondition cause => cause.message
  | call cause => cause.message
  | unknownType name => s!"unknown type {Precondition.quoted name}"

end Error

end TypeMetadata
