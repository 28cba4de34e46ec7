/-!
# Kinds

The discriminants that records hold. Each kind has the number that stands for it; `ofRaw?` is the
way back, and answers `none` for numbers that stand for nothing.
-/

namespace TypeMetadata

/-- Kinds that can be listed and called by name. -/
class NamedKind (κ : Type) where
  all : List κ
  name : κ → String

/-- The kind with a name. -/
def NamedKind.ofName? {κ : Type} [NamedKind κ] (s : String) : Option κ :=
  all.find? fun k : κ => name k = s

/-- The kind among `all` whose number is `n`. -/
def kindOfRaw? {κ : Type} (all : List κ) (raw : κ → Nat) (n : Nat) : Option κ :=
  all.find? fun k => raw k = n

/-- What a context descriptor describes. -/
inductive ContextKind where
  | moduleContext
  | extensionContext
  | anonymousContext
  | protocolType
  | opaqueType
  | classType
  | structType
  | enumType
deriving DecidableEq

namespace ContextKind

def all : List ContextKind :=
  [moduleContext, extensionContext, anonymousContext, protocolType, opaqueType, classType,
    structType, enumType]

def raw : ContextKind → Nat
  | moduleContext => 0
  | extensionContext => 1
  | anonymousContext => 2
  | protocolType => 3
  | opaqueType => 4
  | classType => 16
  | structType => 17
  | enumType => 18

def ofRaw? (n : Nat) : Option ContextKind := kindOfRaw? all raw n

def name : ContextKind → String
  | moduleContext => "Module"
  | extensionContext => "Extension"
  | anonymousContext => "Anonymous"
  | protocolType => "Protocol"
  | opaqueType => "OpaqueType"
  | classType => "Class"
  | structType => "Struct"
  | enumType => "Enum"

/-- Classes, structs and enums. -/
def isNominal : ContextKind → Bool
  | classType | structType | enumType => true
  | _ => false

instance : NamedKind ContextKind := ⟨all, name⟩

@[simp] theorem ofRaw?_raw (k : ContextKind) : ofRaw? k.raw = some k := by cases k <;> rfl

/-- A kind takes five bits. -/
theorem raw_lt (k : ContextKind) : k.raw < 32 := by cases k <;> decide

end ContextKind

/-- What a metadata record is the metadata of. -/
inductive MetadataKind where
  | classType
  | structType
  | enumType
  | optionalType
  | foreignClass
  | foreignReferenceType
  | opaqueType
  | tuple
  | function
  | existential
  | metatype
  | objcClassWrapper
  | existentialMetatype
  | extendedExistential
  | fixedArray
  | heapLocalVariable
  | heapGenericLocalVariable
  | errorObject
  | task
  | job
deriving DecidableEq

namespace MetadataKind

def all : List MetadataKind :=
  [classType, structType, enumType, optionalType, foreignClass, foreignReferenceType, opaqueType,
    tuple, function, existential, metatype, objcClassWrapper, existentialMetatype,
    extendedExistential, fixedArray, heapLocalVariable, heapGenericLocalVariable, errorObject,
    task, job]

def raw : MetadataKind → Nat
  | classType => 0x000
  | structType => 0x200
  | enumType => 0x201
  | optionalType => 0x202
  | foreignClass => 0x203
  | foreignReferenceType => 0x204
  | opaqueType => 0x300
  | tuple => 0x301
  | function => 0x302
  | existential => 0x303
  | metatype => 0x304
  | objcClassWrapper => 0x305
  | existentialMetatype => 0x306
  | extendedExistential => 0x307
  | fixedArray => 0x308
  | heapLocalVariable => 0x400
  | heapGenericLocalVariable => 0x500
  | errorObject => 0x501
  | task => 0x502
  | job => 0x503

/-- Kind words above this one are pointers, which only class metadata starts with. -/
def lastEnumerated : Nat := 0x7FF

/-- The kind that a pointer-sized kind word stands for. -/
def ofRaw? (n : Nat) : Option MetadataKind :=
  if lastEnumerated < n then some classType else kindOfRaw? all raw n

def name : MetadataKind → String
  | classType => "Class"
  | structType => "Struct"
  | enumType => "Enum"
  | optionalType => "Optional"
  | foreignClass => "ForeignClass"
  | foreignReferenceType => "ForeignReferenceType"
  | opaqueType => "Opaque"
  | tuple => "Tuple"
  | function => "Function"
  | existential => "Existential"
  | metatype => "Metatype"
  | objcClassWrapper => "ObjCClassWrapper"
  | existentialMetatype => "ExistentialMetatype"
  | extendedExistential => "ExtendedExistential"
  | fixedArray => "FixedArray"
  | heapLocalVariable => "HeapLocalVariable"
  | heapGenericLocalVariable => "HeapGenericLocalVariable"
  | errorObject => "ErrorObject"
  | task => "Task"
  | job => "Job"

/-- Whether a pointer to a value witness table stands before the metadata. -/
def hasValueWitnesses : MetadataKind → Bool
  | structType | enumType | optionalType => true
  | _ => false

instance : NamedKind MetadataKind := ⟨all, name⟩

@[simp] theorem ofRaw?_raw (k : MetadataKind) : ofRaw? k.raw = some k := by cases k <;> rfl

end MetadataKind

/-- What a vtable slot holds. -/
inductive MethodKind where
  | method
  | init
  | getter
  | setter
  | modifyCoroutine
  | readCoroutine
deriving DecidableEq

namespace MethodKind

def all : List MethodKind := [method, init, getter, setter, modifyCoroutine, readCoroutine]

def raw : MethodKind → Nat
  | method => 0
  | init => 1
  | getter => 2
  | setter => 3
  | modifyCoroutine => 4
  | readCoroutine => 5

def ofRaw? (n : Nat) : Option MethodKind := kindOfRaw? all raw n

def name : MethodKind → String
  | method => "Method"
  | init => "Init"
  | getter => "Getter"
  | setter => "Setter"
  | modifyCoroutine => "ModifyCoroutine"
  | readCoroutine => "ReadCoroutine"

instance : NamedKind MethodKind := ⟨all, name⟩

@[simp] theorem ofRaw?_raw (k : MethodKind) : ofRaw? k.raw = some k := by cases k <;> rfl

end MethodKind

/-- What a field descriptor lists the fields of. -/
inductive FieldKind where
  | structType
  | classType
  | enumType
  | multiPayloadEnum
  | protocolType
  | classProtocol
  | objcProtocol
  | objcClass
deriving DecidableEq

namespace FieldKind

def all : List FieldKind :=
  [structType, classType, enumType, multiPayloadEnum, protocolType, classProtocol, objcProtocol,
    objcClass]

def raw : FieldKind → Nat
  | structType => 0
  | classType => 1
  | enumType => 2
  | multiPayloadEnum => 3
  | protocolType => 4
  | classProtocol => 5
  | objcProtocol => 6
  | objcClass => 7

def ofRaw? (n : Nat) : Option FieldKind := kindOfRaw? all raw n

def name : FieldKind → String
  | structType => "Struct"
  | classType => "Class"
  | enumType => "Enum"
  | multiPayloadEnum => "MultiPayloadEnum"
  | protocolType => "Protocol"
  | classProtocol => "ClassProtocol"
  | objcProtocol => "ObjCProtocol"
  | objcClass => "ObjCClass"

def isEnum : FieldKind → Bool
  | enumType | multiPayloadEnum => true
  | _ => false

instance : NamedKind FieldKind := ⟨all, name⟩

@[simp] theorem ofRaw?_raw (k : FieldKind) : ofRaw? k.raw = some k := by cases k <;> rfl

end FieldKind

/-- How a record refers to a type. -/
inductive TypeReferenceKind where
  | directDescriptor
  | indirectDescriptor
  | directObjcClassName
  | indirectObjcClass
deriving DecidableEq

namespace TypeReferenceKind

def all : List TypeReferenceKind :=
  [directDescriptor, indirectDescriptor, directObjcClassName, indirectObjcClass]

def raw : TypeReferenceKind → Nat
  | directDescriptor => 0
  | indirectDescriptor => 1
  | directObjcClassName => 2
  | indirectObjcClass => 3

def ofRaw? (n : Nat) : Option TypeReferenceKind := kindOfRaw? all raw n

def name : TypeReferenceKind → String
  | directDescriptor => "DirectTypeDescriptor"
  | indirectDescriptor => "IndirectTypeDescriptor"
  | directObjcClassName => "DirectObjCClassName"
  | indirectObjcClass => "IndirectObjCClass"

instance : NamedKind TypeReferenceKind := ⟨all, name⟩

@[simp] theorem ofRaw?_raw (k : TypeReferenceKind) : ofRaw? k.raw = some k := by cases k <;> rfl

end TypeReferenceKind

/-- Who may conform to a protocol. -/
inductive ClassConstraint where
  | classOnly
  | any
deriving DecidableEq

def ClassConstraint.name : ClassConstraint → String
  | classOnly => "Class"
  | any => "Any"

/-- How the metadata of a type comes into being. -/
inductive MetadataInitialization where
  | none
  | singleton
  | foreign
deriving DecidableEq

namespace MetadataInitialization

def all : List MetadataInitialization := [none, singleton, foreign]

def raw : MetadataInitialization → Nat
  | none => 0
  | singleton => 1
  | foreign => 2

def ofRaw? (n : Nat) : Option MetadataInitialization := kindOfRaw? all raw n

def name : MetadataInitialization → String
  | none => "None"
  | singleton => "Singleton"
  | foreign => "Foreign"

instance : NamedKind MetadataInitialization := ⟨all, name⟩

@[simp] theorem ofRaw?_raw (k : MetadataInitialization) : ofRaw? k.raw = some k := by
  cases k <;> rfl

end MetadataInitialization

end TypeMetadata
