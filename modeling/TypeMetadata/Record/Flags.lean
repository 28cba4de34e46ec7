import TypeMetadata.Record.Kind

/-!
# Flag words

Records pack small numbers and yes-no answers into one word. Each word has its own type here, with
one reader per part; bit 0 is the least significant.
-/

namespace TypeMetadata

/-- The `width` bits of `word` from bit `low` on. -/
def bitsOf (word low width : Nat) : Nat := (word >>> low) % (1 <<< width)

/-- Leading word of a context descriptor. -/
structure ContextFlags where
  bits : UInt32
deriving DecidableEq

namespace ContextFlags

def kindRaw (f : ContextFlags) : Nat := bitsOf f.bits.toNat 0 5

def kind? (f : ContextFlags) : Option ContextKind := ContextKind.ofRaw? f.kindRaw

def isUnique (f : ContextFlags) : Bool := f.bits.toNat.testBit 6

def isGeneric (f : ContextFlags) : Bool := f.bits.toNat.testBit 7

def version (f : ContextFlags) : Nat := bitsOf f.bits.toNat 8 8

/-- The upper half, whose meaning depends on the kind. -/
def kindSpecific (f : ContextFlags) : UInt16 := UInt16.ofNat (bitsOf f.bits.toNat 16 16)

/-- The flags of a unique context. -/
def pack (kind : ContextKind) (generic : Bool) (kindSpecific : UInt16) : ContextFlags :=
  ⟨UInt32.ofNat (kind.raw + 0x40 + generic.toNat * 0x80 + kindSpecific.toNat * 0x10000)⟩

theorem toNat_pack (kind : ContextKind) (generic : Bool) (kindSpecific : UInt16) :
    (pack kind generic kindSpecific).bits.toNat =
      kind.raw + 0x40 + generic.toNat * 0x80 + kindSpecific.toNat * 0x10000 := by
  have hkind := kind.raw_lt
  have hgeneric := generic.toNat_lt
  have hspecific := kindSpecific.toNat_lt
  rw [pack, UInt32.toNat_ofNat']
  omega

theorem kind?_pack (kind : ContextKind) (generic : Bool) (kindSpecific : UInt16) :
    (pack kind generic kindSpecific).kind? = some kind := by
  have hkind := kind.raw_lt
  have hraw : (pack kind generic kindSpecific).kindRaw = kind.raw := by
    rw [kindRaw, toNat_pack, bitsOf, Nat.one_shiftLeft]
    omega
  rw [kind?, hraw, ContextKind.ofRaw?_raw]

theorem isGeneric_pack (kind : ContextKind) (generic : Bool) (kindSpecific : UInt16) :
    (pack kind generic kindSpecific).isGeneric = generic := by
  have hkind := kind.raw_lt
  rw [isGeneric, toNat_pack, Nat.testBit_eq_decide_div_mod_eq]
  cases generic <;> simp <;> omega

theorem kindSpecific_pack (kind : ContextKind) (generic : Bool) (kindSpecific : UInt16) :
    (pack kind generic kindSpecific).kindSpecific = kindSpecific := by
  have hkind := kind.raw_lt
  have hgeneric := generic.toNat_lt
  have hspecific := kindSpecific.toNat_lt
  have hbits : bitsOf (pack kind generic kindSpecific).bits.toNat 16 16 = kindSpecific.toNat := by
    rw [toNat_pack, bitsOf, Nat.one_shiftLeft]
    omega
  rw [ContextFlags.kindSpecific, hbits]
  exact UInt16.ofNat_toNat

end ContextFlags

/-- Kind-specific half of the flags of classes, structs and enums. -/
structure NominalFlags where
  bits : UInt16
deriving DecidableEq

namespace NominalFlags

/-- `none` for the one pattern that is reserved. -/
def metadataInitialization? (f : NominalFlags) : Option MetadataInitialization :=
  MetadataInitialization.ofRaw? (bitsOf f.bits.toNat 0 2)

def hasImportInfo (f : NominalFlags) : Bool := f.bits.toNat.testBit 2

def hasPrespecializations (f : NominalFlags) : Bool := f.bits.toNat.testBit 3

def hasLayoutString (f : NominalFlags) : Bool := f.bits.toNat.testBit 4

def isActor (f : NominalFlags) : Bool := f.bits.toNat.testBit 7

def isDefaultActor (f : NominalFlags) : Bool := f.bits.toNat.testBit 8

def resilientSuperclassReferenceKind (f : NominalFlags) : Nat := bitsOf f.bits.toNat 9 3

def areImmediateMembersNegative (f : NominalFlags) : Bool := f.bits.toNat.testBit 12

def hasResilientSuperclass (f : NominalFlags) : Bool := f.bits.toNat.testBit 13

def hasOverrideTable (f : NominalFlags) : Bool := f.bits.toNat.testBit 14

def hasVtable (f : NominalFlags) : Bool := f.bits.toNat.testBit 15

/-- The flags of a class with these properties and no others. -/
def packClass (initialization : MetadataInitialization) (resilientSuperclass vtable : Bool) :
    NominalFlags :=
  ⟨UInt16.ofNat (initialization.raw + resilientSuperclass.toNat * 0x2000 + vtable.toNat * 0x8000)⟩

section PackClass

variable (initialization : MetadataInitialization) (resilientSuperclass vtable : Bool)

theorem metadataInitialization?_packClass :
    (packClass initialization resilientSuperclass vtable).metadataInitialization? =
      some initialization := by
  have hraw : bitsOf (packClass initialization resilientSuperclass vtable).bits.toNat 0 2 =
      initialization.raw := by
    cases initialization <;> cases resilientSuperclass <;> cases vtable <;> rfl
  rw [metadataInitialization?, hraw, MetadataInitialization.ofRaw?_raw]

theorem hasResilientSuperclass_packClass :
    (packClass initialization resilientSuperclass vtable).hasResilientSuperclass =
      resilientSuperclass := by
  cases initialization <;> cases resilientSuperclass <;> cases vtable <;> rfl

theorem hasVtable_packClass :
    (packClass initialization resilientSuperclass vtable).hasVtable = vtable := by
  cases initialization <;> cases resilientSuperclass <;> cases vtable <;> rfl

end PackClass

end NominalFlags

/-- Kind-specific half of the flags of protocols. -/
structure ProtocolFlags where
  bits : UInt16
deriving DecidableEq

namespace ProtocolFlags

def classConstraint (f : ProtocolFlags) : ClassConstraint :=
  if f.bits.toNat.testBit 0 then .any else .classOnly

def isResilient (f : ProtocolFlags) : Bool := f.bits.toNat.testBit 1

def specialProtocol (f : ProtocolFlags) : Nat := bitsOf f.bits.toNat 2 6

end ProtocolFlags

/-- Leading word of a vtable slot. -/
structure MethodFlags where
  bits : UInt32
deriving DecidableEq

namespace MethodFlags

def kindRaw (f : MethodFlags) : Nat := bitsOf f.bits.toNat 0 4

def kind? (f : MethodFlags) : Option MethodKind := MethodKind.ofRaw? f.kindRaw

def isInstance (f : MethodFlags) : Bool := f.bits.toNat.testBit 4

def isDynamic (f : MethodFlags) : Bool := f.bits.toNat.testBit 5

def isAsync (f : MethodFlags) : Bool := f.bits.toNat.testBit 6

def extraDiscriminator (f : MethodFlags) : Nat := bitsOf f.bits.toNat 16 16

/-- The flags of a slot of this kind. -/
def pack (kind : MethodKind) (isInstance : Bool) : MethodFlags :=
  ⟨UInt32.ofNat (kind.raw + isInstance.toNat * 0x10)⟩

theorem kind?_pack (kind : MethodKind) (isInstance : Bool) :
    (pack kind isInstance).kind? = some kind := by
  have hraw : (pack kind isInstance).kindRaw = kind.raw := by
    cases kind <;> cases isInstance <;> rfl
  rw [kind?, hraw, MethodKind.ofRaw?_raw]

theorem isInstance_pack (kind : MethodKind) (isInstance : Bool) :
    (pack kind isInstance).isInstance = isInstance := by
  cases kind <;> cases isInstance <;> rfl

end MethodFlags

/-- Flags word of a value witness table; its low byte holds the alignment less one. -/
structure WitnessFlags where
  bits : UInt32
deriving DecidableEq

namespace WitnessFlags

def alignmentMask (f : WitnessFlags) : Nat := bitsOf f.bits.toNat 0 8

def alignment (f : WitnessFlags) : Nat := f.alignmentMask + 1

def isPod (f : WitnessFlags) : Bool := !f.bits.toNat.testBit 16

def isInlineStorage (f : WitnessFlags) : Bool := !f.bits.toNat.testBit 17

def isBitwiseTakable (f : WitnessFlags) : Bool := !f.bits.toNat.testBit 20

def hasEnumWitnesses (f : WitnessFlags) : Bool := f.bits.toNat.testBit 21

def isIncomplete (f : WitnessFlags) : Bool := f.bits.toNat.testBit 22

def isCopyable (f : WitnessFlags) : Bool := !f.bits.toNat.testBit 23

/-- The flags of plain data with this alignment. -/
def ofAlignment (alignment : UInt64) : WitnessFlags := ⟨(alignment - 1).toUInt32⟩

/-- The flags with the mark of a table that has enum witnesses. -/
def withEnumWitnesses (f : WitnessFlags) : WitnessFlags := ⟨f.bits ||| 0x200000⟩

theorem hasEnumWitnesses_withEnumWitnesses (f : WitnessFlags) :
    f.withEnumWitnesses.hasEnumWitnesses = true := by
  unfold hasEnumWitnesses withEnumWitnesses
  rw [UInt32.toNat_or, Nat.testBit_or]
  simp only [show (0x200000 : UInt32).toNat.testBit 21 = true by decide, Bool.or_true]

end WitnessFlags

/-- Flags word of a field record. -/
structure FieldFlags where
  bits : UInt32
deriving DecidableEq

namespace FieldFlags

def isIndirectCase (f : FieldFlags) : Bool := f.bits.toNat.testBit 0

def isVar (f : FieldFlags) : Bool := f.bits.toNat.testBit 1

def isArtificial (f : FieldFlags) : Bool := f.bits.toNat.testBit 2

/-- The flags of a field that is or is not a variable. -/
def ofVar (isVar : Bool) : FieldFlags := ⟨if isVar then 2 else 0⟩

theorem isVar_ofVar (b : Bool) : (ofVar b).isVar = b := by cases b <;> rfl

theorem isIndirectCase_ofVar (b : Bool) : (ofVar b).isIndirectCase = false := by cases b <;> rfl

end FieldFlags

/-- Flags word of a conformance record. -/
structure ConformanceFlags where
  bits : UInt32
deriving DecidableEq

namespace ConformanceFlags

def referenceKindRaw (f : ConformanceFlags) : Nat := bitsOf f.bits.toNat 3 3

def referenceKind? (f : ConformanceFlags) : Option TypeReferenceKind :=
  TypeReferenceKind.ofRaw? f.referenceKindRaw

def isRetroactive (f : ConformanceFlags) : Bool := f.bits.toNat.testBit 6

def isSynthesizedNonUnique (f : ConformanceFlags) : Bool := f.bits.toNat.testBit 7

def conditionalRequirementCount (f : ConformanceFlags) : Nat := bitsOf f.bits.toNat 8 8

def hasResilientWitnesses (f : ConformanceFlags) : Bool := f.bits.toNat.testBit 16

def hasGenericWitnessTable (f : ConformanceFlags) : Bool := f.bits.toNat.testBit 17

end ConformanceFlags

end TypeMetadata
