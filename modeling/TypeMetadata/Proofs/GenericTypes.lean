import TypeMetadata.Proofs.EnumCases

/-!
# Generic types are never instantiated

A generic type is read off memory alone: its access function is not called, nor is it looked for, so
it makes no difference if there is none (`NominalType.run_read_generic`). What is read is
`Uninstantiated`, and a type that is so has nothing to call: its values have no layout and no
witnesses, and a class of that kind has neither methods nor initializers.
-/

namespace TypeMetadata

/-! ## What is left of a type without metadata -/

namespace ValueType

/-- The refusal of all that takes a layout. -/
def noLayout (t : ValueType) : Error := .precondition (.genericLayout t.qualifiedName)

/-- Neither metadata nor a witness table is known of the type. -/
structure Uninstantiated (t : ValueType) : Prop where
  metadata : t.info.metadata = none
  witnesses : t.witnesses = none

namespace Uninstantiated

variable {t : ValueType}

theorem layout (h : t.Uninstantiated) : t.layout = none := by
  rw [ValueType.layout, h.witnesses]
  rfl

theorem requireWitnesses (h : t.Uninstantiated) : t.requireWitnesses = .error t.noLayout := by
  rw [ValueType.requireWitnesses, h.witnesses]
  rfl

theorem requireLayout (h : t.Uninstantiated) : t.requireLayout = .error t.noLayout := by
  rw [ValueType.requireLayout, h.requireWitnesses]
  rfl

theorem requireMetadata (h : t.Uninstantiated) :
    t.requireMetadata = .error (.precondition (.noMetadata t.qualifiedName)) := by
  rw [ValueType.requireMetadata, h.metadata]
  rfl

theorem requireEnumWitnesses (h : t.Uninstantiated) :
    t.requireEnumWitnesses = .error t.noLayout := by
  rw [ValueType.requireEnumWitnesses, h.requireWitnesses]
  rfl

theorem run_allocate (h : t.Uninstantiated) (w : World) :
    t.allocate.run w = (.error t.noLayout, w) := by
  rw [ValueType.allocate, h.requireLayout]
  rfl

theorem run_allocateEnum (h : t.Uninstantiated) (w : World) :
    t.allocateEnum.run w = (.error t.noLayout, w) := by
  rw [ValueType.allocateEnum, h.requireEnumWitnesses]
  rfl

theorem view (h : t.Uninstantiated) (a : Address) : t.view a = .error t.noLayout := by
  rw [ValueType.view, h.requireLayout]
  rfl

theorem run_copy (h : t.Uninstantiated) (dest src : Address) (w : World) :
    (t.copy dest src).run w = (.error t.noLayout, w) := by
  rw [ValueType.copy, h.requireWitnesses]
  rfl

theorem run_allocateCopy (h : t.Uninstantiated) (src : Address) (w : World) :
    (t.allocateCopy src).run w = (.error t.noLayout, w) := by
  rw [ValueType.allocateCopy, ValueType.allocateFilled, Inspect.run_bind, h.run_allocate]

end Uninstantiated

end ValueType

/-- An enum of which all that is known of the values of its cases is their tags. -/
structure EnumType.Uninstantiated (t : EnumType) : Prop where
  core : t.core.Uninstantiated
  entries : ∀ e ∈ t.entries, e.state = .tagged e.case.tag

/-- A class of which no method and no initializer is known. -/
structure ClassType.Uninstantiated (c : ClassType) : Prop where
  generic : c.descriptor.isGeneric = true
  metadata : c.info.metadata = none
  methods : ∀ known, c.knownMethods = some known → known = []
  initializers : ∀ known, c.knownInitializers = some known → known = []

/-- A type that is never instantiated. -/
def NominalType.Uninstantiated (t : NominalType) : Prop :=
  match t.shape with
  | .classType c => c.Uninstantiated
  | .structType s => s.core.Uninstantiated
  | .enumType e => e.Uninstantiated

theorem NominalType.shape_of_enumType? {t : NominalType} {e : EnumType}
    (h : t.enumType? = some e) : t.shape = .enumType e := by
  unfold NominalType.enumType? at h
  split at h
  · rename_i e' he
    rw [he, Option.some.inj h]
  · cases h

namespace NominalType.Uninstantiated

variable {t : NominalType}

theorem metadata (h : t.Uninstantiated) : t.info.metadata = none := by
  obtain ⟨shape, conformances⟩ := t
  cases shape with
  | classType c => exact ClassType.Uninstantiated.metadata h
  | structType s => exact ValueType.Uninstantiated.metadata h
  | enumType e => exact (EnumType.Uninstantiated.core h).metadata

theorem layout (h : t.Uninstantiated) : t.layout = none := by
  obtain ⟨shape, conformances⟩ := t
  cases shape with
  | classType c => rfl
  | structType s => exact ValueType.Uninstantiated.layout h
  | enumType e => exact (EnumType.Uninstantiated.core h).layout

theorem enumType (h : t.Uninstantiated) {e : EnumType} (he : t.enumType? = some e) :
    e.Uninstantiated := by
  obtain ⟨shape, conformances⟩ := t
  cases shape with
  | classType c => cases he
  | structType s => cases he
  | enumType e => cases he; exact h

theorem valueType (h : t.Uninstantiated) {v : ValueType} (hv : t.valueType? = some v) :
    v.Uninstantiated := by
  obtain ⟨shape, conformances⟩ := t
  cases shape with
  | classType c => cases hv
  | structType s => cases hv; exact h
  | enumType e => cases hv; exact EnumType.Uninstantiated.core h

end NominalType.Uninstantiated

/-! ### What it refuses and what it answers -/

/-- The struct gives no values, copies none and has no places for its fields. -/
structure StructType.Refuses (t : StructType) : Prop where
  zeros : ∀ w, t.emptyValue.run w = (.error t.core.noLayout, w)
  view : ∀ a, t.valueAt a = .error t.core.noLayout
  copyOf : ∀ source w, (t.copyOf source).run w = (.error t.core.noLayout, w)
  copyRaw : ∀ dest source w, (t.core.copy dest source).run w = (.error t.core.noLayout, w)
  fieldOffsets : ∀ m, t.fieldOffsets m = .error (.precondition (.noMetadata t.core.qualifiedName))

theorem StructType.refuses {t : StructType} (h : t.core.Uninstantiated) : t.Refuses where
  zeros w := by rw [emptyValue, Inspect.run_bind, h.run_allocate]
  view a := by rw [valueAt, h.view]; rfl
  copyOf source w := by rw [copyOf, Inspect.run_bind, h.run_allocateCopy]
  copyRaw := h.run_copy
  fieldOffsets m := by rw [fieldOffsets, h.requireMetadata]; rfl

/-- The enum gives no values that are in memory and copies none. -/
structure EnumType.Refuses (t : EnumType) : Prop where
  view : ∀ a, t.valueAt a = .error t.core.noLayout
  copyOf : ∀ source w, (t.copyOf source).run w = (.error t.core.noLayout, w)
  copyRaw : ∀ dest source w, (t.core.copy dest source).run w = (.error t.core.noLayout, w)

theorem EnumType.refuses {t : EnumType} (h : t.core.Uninstantiated) : t.Refuses where
  view a := by rw [valueAt, h.view]; rfl
  copyOf source w := by rw [copyOf, Inspect.run_bind, h.run_allocateCopy]
  copyRaw := h.run_copy

namespace ClassType.Uninstantiated

variable {c : ClassType}

/-- The vtable is not looked at, whether or not the flags say that there is one. -/
theorem readMethods (h : c.Uninstantiated) (w : World) : c.readMethods w = .ok [] := by
  have hheader : ∀ m, c.descriptor.vtableHeader m = .ok none := by
    intro m
    unfold ClassDescriptor.vtableHeader
    rw [h.generic, Bool.or_true]
    rfl
  have hslots : w.decode (c.descriptor.methods c.info.settings.limits) = .ok [] := by
    unfold World.decode ClassDescriptor.methods
    change (c.descriptor.vtableHeader w.memory >>= _) = _
    rw [hheader]
    rfl
  rw [ClassType.readMethods, hslots]
  rfl

theorem runOn_methods (h : c.Uninstantiated) (w : World) :
    ClassType.methods.runOn c w = ((.ok [], { c with knownMethods := some [] }), w) := by
  obtain ⟨info, knownMethods, knownInitializers⟩ := c
  unfold ClassType.methods
  rw [InspectOn.runOn_bind, InspectOn.runOn_current]
  simp only
  rcases knownMethods with _ | known
  · simp only
    rw [InspectOn.runOn_bind, InspectOn.runOn_lift, Inspect.run_get]
    simp only
    rw [h.readMethods]
    rfl
  · rw [h.methods known rfl]
    rfl

theorem runOn_initializers (h : c.Uninstantiated) (w : World) :
    ClassType.initializers.runOn c w = ((.ok [], { c with knownInitializers := some [] }), w) := by
  have hread : readInitializers.runOn c w = ((.ok [], c), w) := by
    unfold readInitializers
    rw [InspectOn.runOn_bind, InspectOn.runOn_current]
    simp only [h.metadata]
    rfl
  obtain ⟨info, knownMethods, knownInitializers⟩ := c
  unfold ClassType.initializers
  rw [InspectOn.runOn_bind, InspectOn.runOn_current]
  simp only
  rcases knownInitializers with _ | known
  · simp only
    rw [InspectOn.runOn_bind, hread]
    rfl
  · rw [h.initializers known rfl]
    rfl

theorem runOn_initializer? (h : c.Uninstantiated) (selector : String) (w : World) :
    (ClassType.initializer? selector).runOn c w =
      ((.ok none, { c with knownInitializers := some [] }), w) := by
  unfold ClassType.initializer?
  rw [InspectOn.runOn_bind, h.runOn_initializers]
  rfl

/-- That it has no methods or initializers may be all that becomes known of the class. -/
theorem keep_methods (h : c.Uninstantiated) :
    ({ c with knownMethods := some [] } : ClassType).Uninstantiated :=
  { h with methods := fun _ hknown => (Option.some.inj hknown).symm }

theorem keep_initializers (h : c.Uninstantiated) :
    ({ c with knownInitializers := some [] } : ClassType).Uninstantiated :=
  { h with initializers := fun _ hknown => (Option.some.inj hknown).symm }

end ClassType.Uninstantiated

/-! ## How a generic type is read -/

section Reading

variable {s : Settings} {w : World}

/-- What a generic type knows about itself, as memory and the names of types have it. -/
def TypeInfo.ofGeneric (s : Settings) (w : World) (d : NominalDescriptor) :
    Except Error TypeInfo := do
  let name ← w.decode (d.name s.limits)
  let moduleName ← w.decode (d.moduleName s.limits)
  let fields? ← w.decode (d.fields s.limits)
  return ⟨s, d, name, moduleName, none, TypeInfo.listedFields s w fields?⟩

/-- The generic type with this descriptor, as memory and the names of types have it. Nothing else of
the process comes into it, nor does the access function. -/
def NominalType.ofGeneric (s : Settings) (w : World) :
    ContextDescriptor → Except Error NominalType
  | .classType d => do
    let info ← TypeInfo.ofGeneric s w d.toNominalDescriptor
    return ⟨.classType { info }, []⟩
  | .structType d => do
    let info ← TypeInfo.ofGeneric s w d.toNominalDescriptor
    return ⟨.structType ⟨⟨info, none⟩⟩, []⟩
  | .enumType d => do
    let info ← TypeInfo.ofGeneric s w d.toNominalDescriptor
    let entries ← EnumType.listedEntries s d w
    return ⟨.enumType ⟨⟨info, none⟩, entries⟩, []⟩
  | d => .error (.decode (d.unexpected "type"))

theorem TypeInfo.of_ofGeneric {d : NominalDescriptor} {info : TypeInfo}
    (h : TypeInfo.ofGeneric s w d = .ok info) : info.descriptor = d ∧ info.metadata = none := by
  unfold TypeInfo.ofGeneric at h
  rcases hname : w.decode (d.name s.limits) with e | name <;> rw [hname] at h
  · cases h
  rcases hmodule : w.decode (d.moduleName s.limits) with e | moduleName <;> rw [hmodule] at h
  · cases h
  rcases hfields : w.decode (d.fields s.limits) with e | fields? <;> rw [hfields] at h
  · cases h
  · cases h
    exact ⟨rfl, rfl⟩

theorem TypeInfo.run_read_generic {d : NominalDescriptor} (h : d.isGeneric = true) :
    (TypeInfo.read s d).run w = (TypeInfo.ofGeneric s w d, w) := by
  have hmetadata : (requestMetadata d).run w = (.ok none, w) := by
    rw [requestMetadata, h]
    rfl
  unfold TypeInfo.read TypeInfo.ofGeneric
  rw [Inspect.run_bind, Inspect.run_decode]
  rcases w.decode (d.name s.limits) with e | name
  · rfl
  simp only
  rw [Inspect.run_bind, Inspect.run_decode]
  rcases w.decode (d.moduleName s.limits) with e | moduleName
  · rfl
  simp only
  rw [Inspect.run_bind, hmetadata]
  simp only
  rw [Inspect.run_bind, Inspect.run_decode]
  rcases w.decode (d.fields s.limits) with e | fields? <;> rfl

theorem ValueType.run_read_generic {d : NominalDescriptor} (h : d.isGeneric = true) :
    (ValueType.read s d).run w = ((TypeInfo.ofGeneric s w d).map fun info => ⟨info, none⟩, w) := by
  unfold ValueType.read
  rw [Inspect.run_bind, TypeInfo.run_read_generic h]
  rcases hinfo : TypeInfo.ofGeneric s w d with e | info
  · rfl
  · simp only [(TypeInfo.of_ofGeneric hinfo).2]
    rfl

namespace NominalType

variable {a : Address} {d : ContextDescriptor} {n : NominalDescriptor}

/-- To read a generic type is to read memory, and leaves the process as it is. -/
theorem run_read_generic (hd : w.decode (ContextDescriptor.decode a) = .ok d)
    (hn : d.nominal? = some n) (hgeneric : n.isGeneric = true) :
    (NominalType.read s a).run w = (ofGeneric s w d, w) := by
  cases d with
  | classType d =>
    cases hn
    unfold NominalType.read ClassType.read
    rw [Inspect.run_bind, Inspect.run_decode, hd]
    simp only
    rw [Inspect.run_bind, Inspect.run_bind, TypeInfo.run_read_generic hgeneric, ofGeneric]
    rcases TypeInfo.ofGeneric s w d.toNominalDescriptor with e | info <;> rfl
  | structType d =>
    cases hn
    unfold NominalType.read StructType.read
    rw [Inspect.run_bind, Inspect.run_decode, hd]
    simp only
    rw [Inspect.run_bind, Inspect.run_bind, ValueType.run_read_generic hgeneric, ofGeneric]
    rcases TypeInfo.ofGeneric s w d.toNominalDescriptor with e | info <;> rfl
  | enumType d =>
    cases hn
    rw [run_read_enum hd, ValueType.run_read_generic hgeneric, ofGeneric]
    rcases TypeInfo.ofGeneric s w d.toNominalDescriptor with e | info
    · rfl
    · rcases hentries : EnumType.listedEntries s d w with e | entries <;>
        simp only [Except.map, hentries] <;> rfl
  | moduleContext d | protocolType d | other c => cases hn

end NominalType

theorem EnumType.state_of_mem_entriesFrom {records : List FieldRecord} {kinds : List CaseKind}
    {index : Nat} {e : CaseEntry} (h : e ∈ entriesFrom s w index records kinds) :
    e.state = .tagged e.case.tag := by
  induction records generalizing index kinds with
  | nil => cases h
  | cons r records ih =>
    cases kinds with
    | nil => cases h
    | cons k kinds =>
      rcases List.mem_cons.1 h with rfl | h
      · rfl
      · exact ih h

theorem EnumType.state_of_listedEntries {d : EnumDescriptor} {es : List CaseEntry}
    (h : listedEntries s d w = .ok es) : ∀ e ∈ es, e.state = .tagged e.case.tag := by
  unfold listedEntries at h
  split at h
  · cases h
  · cases h
    exact List.forall_mem_nil _
  · split at h
    · cases h
      exact List.forall_mem_nil _
    · rename_i fields _ _
      rcases hk : w.decode (d.classifyCases fields s.verifyEnumCases) with e | ks <;> rw [hk] at h
      · cases h
      · cases h
        exact fun e he => state_of_mem_entriesFrom he

/-- What is read of a generic type is never instantiated. -/
theorem NominalType.uninstantiated_of_ofGeneric {d : ContextDescriptor} {n : NominalDescriptor}
    {t : NominalType} (hn : d.nominal? = some n) (hgeneric : n.isGeneric = true)
    (h : ofGeneric s w d = .ok t) : t.Uninstantiated := by
  cases d with
  | classType d =>
    cases hn
    rw [ofGeneric] at h
    rcases hinfo : TypeInfo.ofGeneric s w d.toNominalDescriptor with e | info <;> rw [hinfo] at h
    · cases h
    · cases h
      obtain ⟨hdescriptor, hmetadata⟩ := TypeInfo.of_ofGeneric hinfo
      have hisGeneric : info.descriptor.isGeneric = true := hdescriptor ▸ hgeneric
      exact ClassType.Uninstantiated.mk hisGeneric hmetadata nofun nofun
  | structType d =>
    cases hn
    rw [ofGeneric] at h
    rcases hinfo : TypeInfo.ofGeneric s w d.toNominalDescriptor with e | info <;> rw [hinfo] at h
    · cases h
    · cases h
      exact ValueType.Uninstantiated.mk (TypeInfo.of_ofGeneric hinfo).2 rfl
  | enumType d =>
    cases hn
    rw [ofGeneric] at h
    rcases hinfo : TypeInfo.ofGeneric s w d.toNominalDescriptor with e | info <;> rw [hinfo] at h
    · cases h
    rcases hentries : EnumType.listedEntries s d w with e | es <;> rw [hentries] at h
    · cases h
    · cases h
      exact EnumType.Uninstantiated.mk ⟨(TypeInfo.of_ofGeneric hinfo).2, rfl⟩
        (EnumType.state_of_listedEntries hentries)
  | moduleContext d | protocolType d | other c => cases hn

end Reading

end TypeMetadata
