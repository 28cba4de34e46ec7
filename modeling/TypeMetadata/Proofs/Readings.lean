import TypeMetadata.Record.Conformance
import TypeMetadata.Record.Descriptor
import TypeMetadata.Record.Metadata

/-!
# What can be read of records

`Reading` lists what the records in memory can be asked for, with the type of the answer. A reading
asks nothing of memory but to read a few bytes, and of the limits nothing but whether something is
within them. So if memory and limits are replaced by others that allow what these allow
(`Widening`), an answer stays as it is, and so does a failure, unless it is one of those that the
replacement may mend: `Reading.follows`, by one lemma for each reader that records are read with.
-/

namespace TypeMetadata

/-- Something to read of the records in memory. -/
inductive Reading : Type → Type where
  | text (a : Address) : Reading String
  | referredText (a : Address) : Reading String
  | relative (a : Address) : Reading (Option Address)
  | indirectable (a : Address) : Reading (Option Address)
  | marked (a : Address) (mask : UInt32) : Reading (Option Address × UInt32)
  | context (a : Address) : Reading Context
  | descriptor (a : Address) : Reading ContextDescriptor
  | parent (c : Context) : Reading (Option Address)
  | name (c : Context) : Reading String
  | moduleName (c : Context) : Reading String
  | requirementsInSignature (d : ProtocolDescriptor) : Reading UInt32
  | requirements (d : ProtocolDescriptor) : Reading UInt32
  | accessFunction (d : NominalDescriptor) : Reading Address
  | fieldsAddress (d : NominalDescriptor) : Reading (Option Address)
  | isReflectable (d : NominalDescriptor) : Reading Bool
  | fields (d : NominalDescriptor) : Reading (Option FieldDescriptor)
  | superclass (d : ClassDescriptor) : Reading (Option Address)
  | immediateMembers (d : ClassDescriptor) : Reading UInt32
  | classFields (d : ClassDescriptor) : Reading UInt32
  | classFieldVector (d : ClassDescriptor) : Reading UInt32
  | classVtable (d : ClassDescriptor) : Reading (Option VtableHeader)
  | classMethods (d : ClassDescriptor) : Reading (List MethodSlot)
  | structFields (d : StructDescriptor) : Reading UInt32
  | structFieldVector (d : StructDescriptor) : Reading UInt32
  | structHasFieldVector (d : StructDescriptor) : Reading Bool
  | payloadCases (d : EnumDescriptor) : Reading UInt32
  | payloadSizeOffset (d : EnumDescriptor) : Reading UInt8
  | emptyCases (d : EnumDescriptor) : Reading UInt32
  | caseCount (d : EnumDescriptor) : Reading UInt32
  | classifiedCases (d : EnumDescriptor) (listed : FieldDescriptor) (verify : Bool) :
    Reading (List CaseKind)
  | listedCases (d : EnumDescriptor) (verify : Bool) : Reading (Option (List CaseKind))
  | isPayloadCase (d : EnumDescriptor) (index : Nat) : Reading (Option Bool)
  | fieldDescriptor (a : Address) : Reading FieldDescriptor
  | vtableHeader (a : Address) : Reading VtableHeader
  | methods (h : VtableHeader) : Reading (List MethodSlot)
  | metadata (a : Address) : Reading Metadata
  | description (d : Metadata) : Reading (Option Address)
  | valueWitnesses (d : Metadata) : Reading WitnessTable
  | typeLayout (d : Metadata) : Reading TypeLayout
  | fieldOffsets (d : Metadata) (vectorOffset count : UInt32) : Reading (List UInt32)
  | witnessTable (a : Address) : Reading WitnessTable
  | typeReference (kind : TypeReferenceKind) (target : Address) : Reading (Option TypeReference)
  | typeRecord (a : Address) : Reading TypeRecord
  | typeRecords (a : Address) (count : Nat) : Reading (List TypeRecord)
  | conformance (a : Address) : Reading ConformanceRecord
  | conformances (a : Address) (count : Nat) : Reading (List ConformanceRecord)

namespace EnumDescriptor

/-- The cases of the fields that the enum lists, if there is a field descriptor. -/
def listedCases (limits : Limits) (d : EnumDescriptor) (verify : Bool) :
    Decoder (Option (List CaseKind)) := do
  match ← d.fields limits with
  | some fields => return some (← d.classifyCases fields verify)
  | none => return none

end EnumDescriptor

namespace Reading

/-- Read it, within these limits. -/
def decode {α : Type} (limits : Limits) : Reading α → Decoder α
  | text a => Name.read limits a
  | referredText a => Name.readRelative limits a
  | relative a => RelativePointer.direct a
  | indirectable a => RelativePointer.indirectable a
  | marked a mask => RelativePointer.marked a mask
  | context a => Context.read a
  | descriptor a => ContextDescriptor.decode a
  | parent c => c.parent
  | name c => c.name limits
  | moduleName c => c.moduleName limits
  | requirementsInSignature d => d.numRequirementsInSignature
  | requirements d => d.numRequirements
  | accessFunction d => d.accessFunction
  | fieldsAddress d => d.fieldsAddress
  | isReflectable d => d.isReflectable
  | fields d => d.fields limits
  | superclass d => d.superclass
  | immediateMembers d => d.numImmediateMembers
  | classFields d => d.numFields
  | classFieldVector d => d.fieldOffsetVectorOffset
  | classVtable d => d.vtableHeader
  | classMethods d => d.methods limits
  | structFields d => d.numFields
  | structFieldVector d => d.fieldOffsetVectorOffset
  | structHasFieldVector d => d.hasFieldOffsetVector
  | payloadCases d => d.numPayloadCases
  | payloadSizeOffset d => d.payloadSizeOffset
  | emptyCases d => d.numEmptyCases
  | caseCount d => d.numCases
  | classifiedCases d listed verify => d.classifyCases listed verify
  | listedCases d verify => d.listedCases limits verify
  | isPayloadCase d index => d.isPayloadCase limits index
  | fieldDescriptor a => FieldDescriptor.read limits a
  | vtableHeader a => VtableHeader.read a
  | methods h => h.methods limits
  | metadata a => Metadata.read a
  | description d => d.description
  | valueWitnesses d => d.valueWitnesses
  | typeLayout d => d.typeLayout
  | fieldOffsets d vectorOffset count => d.fieldOffsets vectorOffset count
  | witnessTable a => WitnessTable.read a
  | typeReference kind target => TypeReference.ofTarget kind target
  | typeRecord a => TypeRecord.read a
  | typeRecords a count => TypeRecord.readSection a count
  | conformance a => ConformanceRecord.read a
  | conformances a count => ConformanceRecord.readSection a count

end Reading

/-! ## Answers that stay -/

/-- `r'` is the answer `r`, or the failure, unless that is one that is excused. -/
def Retains {ε α : Type} (excused : ε → Prop) (r r' : Except ε α) : Prop :=
  (∃ e, excused e ∧ r = .error e) ∨ r' = r

namespace Retains

variable {ε α β : Type} {excused : ε → Prop} {r r' : Except ε α}

theorem refl (r : Except ε α) : Retains excused r r := .inr rfl

theorem error {e : ε} (he : excused e) (h : r = .error e) : Retains excused r r' :=
  .inl ⟨e, he, h⟩

theorem bind {f f' : α → Except ε β} (h : Retains excused r r')
    (hf : ∀ a, Retains excused (f a) (f' a)) : Retains excused (r >>= f) (r' >>= f') := by
  rcases h with ⟨e, he, rfl⟩ | rfl
  · exact error he rfl
  · cases r' with
    | error e => exact .refl _
    | ok a => exact hf a

/-- Of an optional answer: it stays, or there was none, and `short` is why. -/
def OrCut (excused : ε → Prop) (short : Prop) (r r' : Except ε (Option α)) : Prop :=
  short ∧ r = .ok none ∨ Retains excused r r'

theorem bind_orCut {short : Prop} {f f' : α → Except ε (Option β)} (h : Retains excused r r')
    (hf : ∀ a, OrCut excused short (f a) (f' a)) : OrCut excused short (r >>= f) (r' >>= f') := by
  rcases h with ⟨e, he, rfl⟩ | rfl
  · exact .inr (error he rfl)
  · cases r' with
    | error e => exact .inr (.refl _)
    | ok a => exact hf a

/-- An answer stays, and so does every failure that is not excused. -/
theorem settled (h : Retains excused r r') :
    (∀ a, r = .ok a → r' = .ok a) ∧ ∀ e, r = .error e → ¬excused e → r' = .error e := by
  rcases h with ⟨e, he, rfl⟩ | rfl
  · refine ⟨fun a ha => ?_, fun e' he' hne => ?_⟩
    · cases ha
    · cases he'
      exact absurd he hne
  · exact ⟨fun _ ha => ha, fun _ he _ => he⟩

end Retains

/-- `m'` and `l'` allow what `m` and `l` allow: bytes that can be read stay as they are, and no
limit is stricter. What was refused may be allowed now if the refusal is one that is excused. -/
structure Widening (excused : Error → Prop) (m m' : Memory) (l l' : Limits) : Prop where
  read : ∀ a n, 0 < n → Retains (fun e => excused (.memory e)) (m.read a n) (m'.read a n)
  nameLength : l'.nameLength = l.nameLength ∨
    l.nameLength < l'.nameLength ∧ ∀ a, excused (.decode (.unterminatedString a l.nameLength))
  vtableSize : l'.vtableSize = l.vtableSize ∨ l.vtableSize ≤ l'.vtableSize ∧
    ∀ start size, excused (.decode (.vtableTooLarge start size l.vtableSize))
  fields : l'.fields = l.fields ∨
    l.fields ≤ l'.fields ∧ ∀ a count, excused (.decode (.tooManyFields a count l.fields))
  contextDepth : l'.contextDepth = l.contextDepth ∨
    l.contextDepth < l'.contextDepth ∧ ∀ a, excused (.decode (.missingModule a l.contextDepth))

namespace Decoder

variable {α β : Type} {excused : Error → Prop} {m m' : Memory} {x y : Decoder α}

/-- `y` on `m'` answers as `x` on `m`, unless that fails in a way that is excused. -/
def Follows (excused : Error → Prop) (m m' : Memory) (x y : Decoder α) : Prop :=
  Retains excused (x m) (y m')

namespace Follows

theorem pure (a : α) : Follows excused m m' (pure a) (pure a) := .refl _

theorem throw (e : Error) : Follows excused m m' (throw e : Decoder α) (throw e) := .refl _

theorem error {e : Error} (he : excused e) (h : x m = .error e) : Follows excused m m' x y :=
  Retains.error he h

theorem bind {f f' : α → Decoder β} (h : Follows excused m m' x y)
    (hf : ∀ a, Follows excused m m' (f a) (f' a)) : Follows excused m m' (x >>= f) (y >>= f') :=
  Retains.bind h hf

theorem map {f : α → β} (h : Follows excused m m' x y) :
    Follows excused m m' (f <$> x) (f <$> y) := by
  rw [map_eq_pure_bind, map_eq_pure_bind]
  exact h.bind fun a => .pure (f a)

theorem require (x : Option α) (e : DecodeError) :
    Follows excused m m' (require x e) (Decoder.require x e) := by
  cases x with
  | none => exact .throw _
  | some a => exact .pure a

theorem access {f f' : Memory → Except MemoryError α}
    (h : Retains (fun e => excused (.memory e)) (f m) (f' m')) :
    Follows excused m m' (Decoder.access f) (Decoder.access f') := by
  unfold Follows Decoder.access
  rcases h with ⟨e, he, h⟩ | h <;> rw [h]
  · exact .error he rfl
  · exact .refl _

theorem access_orCut {short : Prop} {f f' : Memory → Except MemoryError (Option α)}
    (h : Retains.OrCut (fun e => excused (.memory e)) short (f m) (f' m')) :
    Retains.OrCut excused short (Decoder.access f m) (Decoder.access f' m') := by
  rcases h with ⟨hshort, h⟩ | h
  · refine .inl ⟨hshort, ?_⟩
    unfold Decoder.access
    rw [h]
  · exact .inr (access h)

/-- Where an answer is required that was cut off before, that failure is excused. -/
theorem require_orCut {short : Prop} {x y : Decoder (Option α)} {e e' : DecodeError}
    {f f' : α → Decoder β} (h : Retains.OrCut excused short (x m) (y m'))
    (he : e' = e ∧ ¬short ∨ excused (.decode e)) (hf : ∀ a, Follows excused m m' (f a) (f' a)) :
    Follows excused m m' (x >>= fun a? => Decoder.require a? e >>= f)
      (y >>= fun a? => Decoder.require a? e' >>= f') := by
  rcases he with ⟨rfl, hshort⟩ | he
  · refine bind (h.resolve_left fun hcut => hshort hcut.1) fun a? => ?_
    exact (require a? e').bind hf
  · rcases h with ⟨-, hnone⟩ | h
    · refine .error he ?_
      rw [Decoder.bind_of_ok hnone]
      rfl
    · refine bind h fun a? => ?_
      cases a? with
      | none => exact .error he rfl
      | some a => exact hf a

/-- A refusal that is still made, or whose making is excused. -/
theorem guard {c c' : Prop} [Decidable c] [Decidable c'] {e e' : DecodeError}
    {f f' : PUnit → Decoder β} (hguard : (c' ↔ c) ∧ e' = e ∨ (c' → c) ∧ excused (.decode e))
    (h : Follows excused m m' (f ⟨⟩) (f' ⟨⟩)) :
    Follows excused m m' (if c then fail e >>= f else f ⟨⟩)
      (if c' then fail e' >>= f' else f' ⟨⟩) := by
  by_cases hc : c
  · rw [if_pos hc]
    rcases hguard with ⟨hiff, rfl⟩ | ⟨-, he⟩
    · rw [if_pos (hiff.2 hc)]
      exact .refl _
    · exact .error he rfl
  · have hc' : ¬c' := fun h => hc (hguard.elim (fun g => g.1.1 h) fun g => g.1 h)
    rw [if_neg hc, if_neg hc']
    exact h

/-- One of two ways to go on. -/
theorem either {c : Prop} [Decidable c] {x₁ x₂ y₁ y₂ : Decoder α} {f f' : α → Decoder β}
    (h₁ : Follows excused m m' x₁ y₁) (h₂ : Follows excused m m' x₂ y₂)
    (hf : ∀ a, Follows excused m m' (f a) (f' a)) :
    Follows excused m m' (if c then x₁ >>= f else x₂ >>= f)
      (if c then y₁ >>= f' else y₂ >>= f') := by
  split
  · exact h₁.bind hf
  · exact h₂.bind hf

theorem series {read read' : Address → Decoder α} {stride : UInt64}
    (h : ∀ a, Follows excused m m' (read a) (read' a)) :
    ∀ n a, Follows excused m m' (Decoder.series read stride n a) (Decoder.series read' stride n a)
  | 0, _ => .pure []
  | n + 1, a => (h a).bind fun x => (series h n (a + stride)).bind fun xs => .pure (x :: xs)

end Follows

end Decoder

/-! ## Readers -/

section Readers

variable {excused : Error → Prop} {m m' : Memory} {l l' : Limits}

open Decoder (Follows)

namespace Widening

variable (h : Widening excused m m' l l')
include h

/-- A word of `n` bytes at a multiple of `align`. -/
theorem word {α : Type} {n : Nat} (hn : 0 < n) (a : Address) (align : UInt64)
    (f : List UInt8 → α) :
    Retains (fun e => excused (.memory e))
      (do Memory.checkAligned a align; return f (← m.read a n))
      (do Memory.checkAligned a align; return f (← m'.read a n)) :=
  (Retains.refl _).bind fun _ => (h.read a n hn).bind fun _ => .refl _

theorem u16 (a : Address) : Follows excused m m' (Decoder.u16 a) (Decoder.u16 a) :=
  .access (h.word (by decide) a 2 _)

theorem u32 (a : Address) : Follows excused m m' (Decoder.u32 a) (Decoder.u32 a) :=
  .access (h.word (by decide) a 4 _)

theorem i32 (a : Address) : Follows excused m m' (Decoder.i32 a) (Decoder.i32 a) :=
  .access ((h.word (by decide) a 4 _).bind fun _ => .refl _)

theorem u64 (a : Address) : Follows excused m m' (Decoder.u64 a) (Decoder.u64 a) :=
  .access (h.word (by decide) a 8 _)

theorem pointer (a : Address) : Follows excused m m' (Decoder.pointer a) (Decoder.pointer a) :=
  .access ((h.word (by decide) a 8 _).bind fun _ => .refl _)

/-- The bytes of a text are as before, unless it was cut off where it no longer is. -/
theorem readCString : ∀ {n n' : Nat} (a : Address), n ≤ n' →
    Retains.OrCut (fun e => excused (.memory e)) (n < n') (m.readCString n a)
      (m'.readCString n' a)
  | 0, 0, _, _ => .inr (.refl _)
  | 0, n' + 1, _, _ => .inl ⟨by omega, rfl⟩
  | n + 1, 0, _, hn => by omega
  | n + 1, n' + 1, a, hn => by
    have hbyte : Retains (fun e => excused (.memory e)) (m.readU8 a) (m'.readU8 a) :=
      (h.read a 1 (by decide)).bind fun _ => .refl _
    refine hbyte.bind_orCut fun b => ?_
    split
    · exact .inr (.refl _)
    · have hle : n ≤ n' := by omega
      rcases readCString (a + (1 : UInt64)) hle with ⟨hlt, hnone⟩ | hrest
      · refine .inl ⟨by omega, ?_⟩
        rw [hnone]
        rfl
      · exact .inr (hrest.bind fun _ => .refl _)

theorem direct (a : Address) :
    Follows excused m m' (RelativePointer.direct a) (RelativePointer.direct a) :=
  (h.i32 a).bind fun _ => .pure _

theorem indirectable (a : Address) :
    Follows excused m m' (RelativePointer.indirectable a) (RelativePointer.indirectable a) := by
  refine (h.i32 a).bind fun raw => ?_
  split
  · exact .pure _
  · exact (h.pointer _).bind fun _ => .pure _

theorem marked (a : Address) (mask : UInt32) :
    Follows excused m m' (RelativePointer.marked a mask) (RelativePointer.marked a mask) :=
  (h.u32 a).bind fun _ => .pure _

theorem required (a : Address) :
    Follows excused m m' (RelativePointer.required a) (RelativePointer.required a) :=
  (h.direct a).bind fun _ => .require _ _

theorem text (a : Address) : Follows excused m m' (Name.read l a) (Name.read l' a) := by
  have hle : l.nameLength ≤ l'.nameLength := by
    rcases h.nameLength with heq | ⟨hlt, -⟩ <;> omega
  refine .require_orCut (Follows.access_orCut (h.readCString a hle)) ?_ fun bs => .require _ _
  rcases h.nameLength with heq | ⟨-, he⟩
  · exact .inl ⟨by rw [heq], by omega⟩
  · exact .inr (he a)

theorem referredText (a : Address) :
    Follows excused m m' (Name.readRelative l a) (Name.readRelative l' a) :=
  (h.required a).bind fun target => h.text target

theorem context (a : Address) : Follows excused m m' (Context.read a) (Context.read a) :=
  (h.u32 a).bind fun _ => (Follows.require _ _).bind fun _ => .pure _

theorem parent (c : Context) : Follows excused m m' c.parent c.parent := h.indirectable _

/-- The nearest module is found as before, unless it was too far away. -/
theorem enclosingModule? : ∀ {n n' : Nat} (c : Context), n ≤ n' →
    Retains.OrCut excused (n < n') (c.enclosingModule? n m) (c.enclosingModule? n' m')
  | 0, 0, _, _ => .inr (.refl _)
  | 0, n' + 1, _, _ => .inl ⟨by omega, rfl⟩
  | n + 1, 0, _, hn => by omega
  | n + 1, n' + 1, c, hn => by
    refine (h.parent c).bind_orCut fun parent? => ?_
    cases parent? with
    | none => exact .inr (.refl _)
    | some a =>
      refine (h.context a).bind_orCut fun outer => ?_
      by_cases hmodule : outer.kind = .moduleContext
      · simp only [if_pos hmodule]
        exact .inr (.refl _)
      · simp only [if_neg hmodule]
        exact (enclosingModule? outer (by omega)).imp (fun hcut => ⟨by omega, hcut.2⟩) id

theorem moduleName (c : Context) :
    Follows excused m m' (c.moduleName l) (c.moduleName l') := by
  have hle : l.contextDepth ≤ l'.contextDepth := by
    rcases h.contextDepth with heq | ⟨hlt, -⟩ <;> omega
  refine .require_orCut (h.enclosingModule? c hle) ?_ fun outer => h.referredText _
  rcases h.contextDepth with heq | ⟨-, he⟩
  · exact .inl ⟨by rw [heq], by omega⟩
  · exact .inr (he c.address)

theorem fieldRecord (a : Address) :
    Follows excused m m' (FieldRecord.read l a) (FieldRecord.read l' a) := by
  refine (h.u32 a).bind fun flags => (h.direct _).bind fun mangled => ?_
  refine (h.direct _).bind fun target => ?_
  cases target with
  | some target => exact (h.text target).bind fun _ => .pure _
  | none => exact .pure _

theorem fieldDescriptor (a : Address) :
    Follows excused m m' (FieldDescriptor.read l a) (FieldDescriptor.read l' a) := by
  refine (h.u16 _).bind fun rawKind => (Follows.require _ _).bind fun kind => ?_
  refine (h.u16 _).bind fun recordSize => (h.u32 _).bind fun count => ?_
  refine .guard ?_ (.guard (.inl ⟨.rfl, rfl⟩) ?_)
  · rcases h.fields with heq | ⟨hle, he⟩
    · exact .inl ⟨by rw [heq], by rw [heq]⟩
    · exact .inr ⟨fun hlt => UInt32.lt_of_le_of_lt hle hlt, he a count⟩
  · refine (Follows.series h.fieldRecord _ _).bind fun records => ?_
    exact (h.direct _).bind fun mangled => (h.direct _).bind fun superclass => .pure _

theorem nominalFields (d : NominalDescriptor) :
    Follows excused m m' (d.fields l) (d.fields l') := by
  refine (h.direct _).bind fun target => ?_
  cases target with
  | some a => exact (h.fieldDescriptor a).bind fun _ => .pure _
  | none => exact .pure none

theorem classifyCases (d : EnumDescriptor) (listed : FieldDescriptor) (verify : Bool) :
    Follows excused m m' (d.classifyCases listed verify) (d.classifyCases listed verify) := by
  unfold EnumDescriptor.classifyCases
  split
  · refine ((h.u32 _).bind fun _ => .pure _).bind fun payload => (h.u32 _).bind fun empty => ?_
    exact .guard (.inl ⟨.rfl, rfl⟩) (.pure _)
  · exact .pure _

theorem listedCases (d : EnumDescriptor) (verify : Bool) :
    Follows excused m m' (d.listedCases l verify) (d.listedCases l' verify) := by
  refine (h.nominalFields _).bind fun fields? => ?_
  cases fields? with
  | some listed => exact (h.classifyCases d listed verify).bind fun _ => .pure _
  | none => exact .pure none

theorem isPayloadCase (d : EnumDescriptor) (index : Nat) :
    Follows excused m m' (d.isPayloadCase l index) (d.isPayloadCase l' index) := by
  refine (h.nominalFields _).bind fun fields? => ?_
  cases fields? with
  | some listed => exact (h.classifyCases d listed false).bind fun _ => .pure _
  | none => exact .pure none

theorem caseCount (d : EnumDescriptor) : Follows excused m m' d.numCases d.numCases := by
  refine ((h.u32 _).bind fun _ => .pure _).bind fun payload => (h.u32 _).bind fun empty => ?_
  exact .guard (.inl ⟨.rfl, rfl⟩) (.pure _)

theorem vtableHeader (a : Address) :
    Follows excused m m' (VtableHeader.read a) (VtableHeader.read a) :=
  (h.u32 _).bind fun _ => (h.u32 _).bind fun _ => .pure _

theorem methodSlot (a : Address) :
    Follows excused m m' (MethodSlot.read a) (MethodSlot.read a) := by
  refine (h.u32 a).bind fun flags => (h.direct _).bind fun target => ?_
  cases target with
  | none => exact .pure none
  | some implementation =>
    refine Follows.bind (α := MethodKind) ?_ fun _ => .pure _
    exact .refl _

theorem methods (header : VtableHeader) :
    Follows excused m m' (header.methods l) (header.methods l') := by
  unfold VtableHeader.methods
  refine .guard ?_ (.guard (.inl ⟨.rfl, rfl⟩) ?_)
  · rcases h.vtableSize with heq | ⟨hle, he⟩
    · exact .inl ⟨by rw [heq], by rw [heq]⟩
    · exact .inr ⟨fun hlt => UInt32.lt_of_le_of_lt hle hlt, he _ _⟩
  · exact (Follows.series h.methodSlot _ _).bind fun slots => .pure _

theorem classVtable (d : ClassDescriptor) : Follows excused m m' d.vtableHeader d.vtableHeader := by
  unfold ClassDescriptor.vtableHeader
  split
  · exact .pure none
  · exact (h.vtableHeader _).bind fun _ => .pure _

theorem classMethods (d : ClassDescriptor) :
    Follows excused m m' (d.methods l) (d.methods l') := by
  refine (h.classVtable d).bind fun header? => ?_
  cases header? with
  | some header => exact h.methods header
  | none => exact .pure []

theorem metadata (a : Address) : Follows excused m m' (Metadata.read a) (Metadata.read a) :=
  (h.u64 a).bind fun _ => (Follows.require _ _).bind fun _ => .pure _

omit h in
theorem requireValue (d : Metadata) : Follows excused m m' d.requireValue d.requireValue := by
  unfold Metadata.requireValue
  split
  · exact .pure _
  · exact .throw _

theorem enumWitnesses (a : Address) : Follows excused m m' (WitnessTable.readEnumWitnesses a)
    (WitnessTable.readEnumWitnesses a) :=
  (h.pointer _).bind fun _ => (h.pointer _).bind fun _ => (h.pointer _).bind fun _ => .pure _

theorem witnessTable (a : Address) :
    Follows excused m m' (WitnessTable.read a) (WitnessTable.read a) := by
  refine (h.u32 _).bind fun bits => ?_
  refine .either (h.enumWitnesses a).map (.pure none) fun enumWitnesses => ?_
  -- the eight slots, and then the layout
  refine (h.pointer _).bind fun _ => (h.pointer _).bind fun _ => (h.pointer _).bind fun _ => ?_
  refine (h.pointer _).bind fun _ => (h.pointer _).bind fun _ => (h.pointer _).bind fun _ => ?_
  refine (h.pointer _).bind fun _ => (h.pointer _).bind fun _ => ?_
  exact (h.u64 _).bind fun _ => (h.u64 _).bind fun _ => (h.u32 _).bind fun _ => .pure _

theorem valueWitnesses (d : Metadata) :
    Follows excused m m' d.valueWitnesses d.valueWitnesses :=
  (requireValue d).bind fun _ => (h.pointer _).bind fun table => h.witnessTable table

theorem fieldOffsets (d : Metadata) (vectorOffset count : UInt32) :
    Follows excused m m' (d.fieldOffsets vectorOffset count) (d.fieldOffsets vectorOffset count) :=
  (requireValue d).bind fun _ => .series h.u32 _ _

theorem description (d : Metadata) : Follows excused m m' d.description d.description :=
  (requireValue d).bind fun _ => (h.pointer _).bind fun _ => .pure _

theorem typeReference (kind : TypeReferenceKind) (target : Address) :
    Follows excused m m' (TypeReference.ofTarget kind target)
      (TypeReference.ofTarget kind target) := by
  cases kind with
  | indirectDescriptor => exact (h.pointer target).bind fun _ => .pure _
  | directDescriptor | directObjcClassName | indirectObjcClass => exact .pure _

theorem typeReference? (kind : TypeReferenceKind) (target : Option Address) :
    Follows excused m m' (TypeReference.ofTarget? kind target)
      (TypeReference.ofTarget? kind target) := by
  cases target with
  | some a => exact h.typeReference kind a
  | none => exact .pure none

theorem typeRecord (a : Address) :
    Follows excused m m' (TypeRecord.read a) (TypeRecord.read a) := by
  refine (h.marked a _).bind fun marked => (Follows.require _ _).bind fun kind => ?_
  exact (h.typeReference? kind _).bind fun _ => .pure _

theorem conformance (a : Address) :
    Follows excused m m' (ConformanceRecord.read a) (ConformanceRecord.read a) := by
  refine (h.u32 _).bind fun flags => (Follows.require _ _).bind fun kind => ?_
  refine (h.indirectable a).bind fun protocol => (h.direct _).bind fun target => ?_
  exact (h.typeReference? kind target).bind fun _ => (h.direct _).bind fun _ => .pure _

theorem conformanceEntry (a : Address) :
    Follows excused m m' (ConformanceRecord.readEntry a) (ConformanceRecord.readEntry a) := by
  refine (h.direct a).bind fun target => ?_
  cases target with
  | none => exact .pure none
  | some a => exact (h.conformance a).bind fun _ => .pure _

end Widening

end Readers

/-- What is read stays as it is, whatever is read. -/
theorem Reading.follows {α : Type} {excused : Error → Prop} {m m' : Memory} {l l' : Limits}
    (h : Widening excused m m' l l') (q : Reading α) :
    Retains excused (q.decode l m) (q.decode l' m') := by
  change Decoder.Follows excused m m' (q.decode l) (q.decode l')
  cases q with
  | text a => exact h.text a
  | referredText a => exact h.referredText a
  | relative a => exact h.direct a
  | indirectable a => exact h.indirectable a
  | marked a mask => exact h.marked a mask
  | context a => exact h.context a
  | descriptor a => exact (h.context a).bind fun _ => .pure _
  | parent c => exact h.parent c
  | name c => exact h.referredText _
  | moduleName c => exact h.moduleName c
  | requirementsInSignature d | requirements d | immediateMembers d | classFields d
  | classFieldVector d | structFields d | structFieldVector d | emptyCases d => exact h.u32 _
  | accessFunction d => exact h.required _
  | fieldsAddress d | superclass d => exact h.direct _
  | isReflectable d => exact (h.direct _).bind fun _ => .pure _
  | fields d => exact h.nominalFields d
  | classVtable d => exact h.classVtable d
  | classMethods d => exact h.classMethods d
  | structHasFieldVector d | payloadCases d | payloadSizeOffset d =>
    exact (h.u32 _).bind fun _ => .pure _
  | caseCount d => exact h.caseCount d
  | classifiedCases d listed verify => exact h.classifyCases d listed verify
  | listedCases d verify => exact h.listedCases d verify
  | isPayloadCase d index => exact h.isPayloadCase d index
  | fieldDescriptor a => exact h.fieldDescriptor a
  | vtableHeader a => exact h.vtableHeader a
  | methods header => exact h.methods header
  | metadata a => exact h.metadata a
  | description d => exact h.description d
  | valueWitnesses d => exact h.valueWitnesses d
  | typeLayout d => exact (h.valueWitnesses d).bind fun _ => .pure _
  | fieldOffsets d vectorOffset count => exact h.fieldOffsets d vectorOffset count
  | witnessTable a => exact h.witnessTable a
  | typeReference kind target => exact h.typeReference kind target
  | typeRecord a => exact h.typeRecord a
  | typeRecords a count => exact .series h.typeRecord _ _
  | conformance a => exact h.conformance a
  | conformances a count =>
    exact (Decoder.Follows.series h.conformanceEntry _ _).bind fun _ => .pure _

end TypeMetadata
