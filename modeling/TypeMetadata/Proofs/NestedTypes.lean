import TypeMetadata.Native.StandIn
import TypeMetadata.Proofs.ClassRoundTrip
import TypeMetadata.Proofs.EnumCases
import TypeMetadata.Proofs.FieldRoundTrip
import TypeMetadata.Proofs.MetadataRoundTrip

/-!
# Nested types laid out and read back

`Emit.Nested` is a chain of contexts, each laid out inside the one before, that begins at a module.
A class, struct or enum that is laid out inside such a chain is read back as the type it was laid
out as, at the cost of one call, whatever contexts lie between it and the module
(`nested_type_read_back`). The proof goes through the reader's steps in their order: what each of
them reads was laid out by an emitter of its own, at a time of its own.
-/

namespace TypeMetadata

/-- A class, struct or enum that can be laid out. -/
inductive TypeSpec where
  | classType (spec : ClassSpec)
  | structType (spec : NominalSpec) (numFields fieldOffsetVectorOffset : UInt32)
  | enumType (spec : NominalSpec) (numPayloadCases numEmptyCases : UInt32)

/-- The kind of case that `field` is in an enum. -/
def FieldSpec.caseKind (field : FieldSpec) : CaseKind :=
  if field.mangledType.isSome then .payload else .empty

namespace TypeSpec

def nominal : TypeSpec → NominalSpec
  | classType spec => spec.toNominalSpec
  | structType spec .. => spec
  | enumType spec .. => spec

def kind : TypeSpec → ContextKind
  | classType _ => .classType
  | structType .. => .structType
  | enumType .. => .enumType

/-- What a type of this kind is called. -/
def kindName : TypeSpec → String
  | classType _ => "Class"
  | structType .. => "Struct"
  | enumType .. => "Enum"

def flags : TypeSpec → ContextFlags
  | classType spec => spec.flags
  | structType spec .. => .pack .structType spec.generic 0
  | enumType spec .. => .pack .enumType spec.generic 0

def emit : TypeSpec → Build Address
  | classType spec => Emit.classType spec
  | structType spec numFields vector => Emit.structType spec numFields vector
  | enumType spec payload empty => Emit.enumType spec payload empty

/-- The counts in the descriptor of an enum are those of `fields`, unless there are none. -/
def Declares (fields : List FieldSpec) : TypeSpec → Prop
  | classType _ | structType .. => True
  | enumType _ payload empty => fields = [] ∨ EnumDescriptor.Declares
      (fields.map FieldSpec.caseKind) (payload &&& EnumDescriptor.payloadCasesMask) empty

/-- At `metadata` lies what is read of the metadata of such a type: of a struct or an enum the
value witness table, of a class nothing. -/
def HasMetadata (j : Image) (metadata : Address) : TypeSpec → Prop
  | classType _ => True
  | structType .. | enumType .. => ∃ spec : ValueMetadataSpec,
      j.LaidOut (Emit.valueMetadata spec) metadata ∧ spec.kind.hasValueWitnesses = true ∧
        (spec.layout.flags.hasEnumWitnesses = true → spec.enumWitnesses.isSome = true)

/-- The counts in the descriptor of an enum stand where they are read. -/
def HoldsCounts (j : Image) (k : Nat) : TypeSpec → Prop
  | classType _ | structType .. => True
  | enumType _ payload empty =>
      j.Holds (k + 20) (bytesOf32 (payload &&& EnumDescriptor.payloadCasesMask)) ∧
        j.Holds (k + 24) (bytesOf32 empty)

theorem kind?_flags (spec : TypeSpec) : spec.flags.kind? = some spec.kind := by
  cases spec <;> exact ContextFlags.kind?_pack ..

theorem isGeneric_flags (spec : TypeSpec) : spec.flags.isGeneric = spec.nominal.generic := by
  cases spec <;> exact ContextFlags.isGeneric_pack ..

theorem kind_ne_moduleContext (spec : TypeSpec) : spec.kind ≠ .moduleContext := by
  cases spec <;> nofun

/-- What stands in the image once a class, struct or enum is laid out. -/
theorem emit_ok {spec : TypeSpec} {i j : Image} {a : Address} (h : spec.emit.run i = .ok (a, j))
    (hfits : j.Fits) :
    ∃ k, a = j.addressAt k ∧ i.bytes.size ≤ k ∧ Image.Grown i j ∧
      j.HoldsNominal k spec.flags spec.nominal ∧ spec.HoldsCounts j k := by
  cases spec with
  | classType spec =>
    obtain ⟨k, ha, hk, hgrown, hholds⟩ := Emit.classType_ok h hfits
    exact ⟨k, ha, hk, hgrown, hholds.toHoldsNominal, trivial⟩
  | structType spec numFields vector =>
    obtain ⟨k, ha, hk, hgrown, hholds, -⟩ := Emit.twoWords_ok h hfits
    exact ⟨k, ha, hk, hgrown, hholds, trivial⟩
  | enumType spec payload empty =>
    exact Emit.twoWords_ok h hfits

end TypeSpec

/-! ## Contexts inside contexts -/

/-- A context has been laid out at an address `n` parents inside the module of this name, after all
the contexts around it. Anything else may have been laid out in between. -/
inductive Emit.Nested (root : String) : Image → Nat → Address → Prop where
  | moduleContext {i j : Image} {a : Address} (emitted : (moduleContext root).run i = .ok (a, j)) :
    Nested root j 0 a
  | nominal {i j : Image} {n : Nat} {a : Address} (spec : TypeSpec)
    (outer : Nested root i n spec.nominal.parent) (emitted : spec.emit.run i = .ok (a, j)) :
    Nested root j (n + 1) a
  | protocolType {i j : Image} {n : Nat} {a parent : Address} {name : String}
    {numRequirements : UInt32} {classOnly : Bool} (outer : Nested root i n parent)
    (emitted : (protocolType name parent numRequirements classOnly).run i = .ok (a, j)) :
    Nested root j (n + 1) a
  | bareContext {i j : Image} {n : Nat} {a parent : Address} {kind : ContextKind}
    (outer : Nested root i n parent) (notModule : kind ≠ .moduleContext)
    (emitted : (bareContext kind (some parent)).run i = .ok (a, j)) : Nested root j (n + 1) a
  | later {i j : Image} {n : Nat} {a : Address} (earlier : Nested root i n a)
    (grown : Image.Grown i j) : Nested root j n a

section Chains

variable {m : Memory} {limits : Limits} {root : String} {i j : Image} {n k : Nat} {a p : Address}

/-- What stands at `a` is read as a context `n` parents inside the module of this name. -/
def Image.ShowsInside (i : Image) (m : Memory) (limits : Limits) (root : String) (n : Nat)
    (a : Address) : Prop :=
  ∃ k c, a = i.addressAt k ∧ k + 8 ≤ i.bytes.size ∧ (i.base.toNat + k) % 4 = 0 ∧
    Context.read a m = .ok c ∧ c.Inside m limits root n

/-- A context that is laid out behind the one that it refers to is read as inside that one. -/
theorem Context.inside_of_holds {flags : ContextFlags} {kind : ContextKind}
    (outer : i.ShowsInside m limits root n p) (hgrown : Image.Grown i j) (hfits : j.Fits)
    (hshows : m.Shows j) (hk : i.bytes.size ≤ k) (hroom : k + 8 ≤ j.bytes.size)
    (hholds : j.HoldsContext k flags (if some p = some (j.addressAt (k + 4)) then none else some p))
    (hkind : kind ≠ .moduleContext) :
    Inside m limits root (n + 1) ⟨j.addressAt k, flags, kind⟩ := by
  obtain ⟨l, c, rfl, hl, haligned, hread, hinside⟩ := outer
  rw [← hgrown.addressAt] at hholds hread
  rw [← hgrown.base] at haligned
  unfold Image.Fits at hfits
  rw [if_neg] at hholds
  · exact .inner hkind (Context.parent_of_holds hshows hholds haligned) hread hinside
  · intro heq
    have := Image.addressAt_inj (by omega) (by omega) (Option.some.inj heq)
    omega

/-- Every context of a chain is read as inside the module, each through the one around it. -/
theorem Emit.Nested.showsInside (h : Nested root j n a) (hfits : j.Fits) (hshows : m.Shows j)
    (hzero : 0 ∉ bytesOfText root) (hlimit : (bytesOfText root).length < limits.nameLength) :
    j.ShowsInside m limits root n a := by
  induction h with
  | moduleContext emitted =>
    obtain ⟨k, rfl, hroom, -, hholds, lo, hname⟩ := moduleContext_ok emitted hfits
    exact ⟨k, _, rfl, hroom, hholds.aligned,
      Context.read_of_holds hshows hholds (ContextFlags.kind?_pack ..),
      .root rfl (Context.name_of_names hshows hname hholds.aligned hzero hlimit)⟩
  | nominal spec outer emitted ih =>
    obtain ⟨k, rfl, hk, hgrown, hholds, -⟩ := TypeSpec.emit_ok emitted hfits
    have hroom := hholds.parent.room
    exact ⟨k, _, rfl, hroom, hholds.aligned,
      Context.read_of_holds hshows hholds.toHoldsContext spec.kind?_flags,
      Context.inside_of_holds (ih (hgrown.fits hfits) (hshows.of_grown hgrown)) hgrown hfits hshows
        hk hroom hholds.toHoldsContext spec.kind_ne_moduleContext⟩
  | protocolType outer emitted ih =>
    obtain ⟨k, rfl, hk, hroom, hgrown, hholds⟩ := protocolType_ok emitted hfits
    exact ⟨k, _, rfl, hroom, hholds.aligned,
      Context.read_of_holds hshows hholds (ContextFlags.kind?_pack ..),
      Context.inside_of_holds (ih (hgrown.fits hfits) (hshows.of_grown hgrown)) hgrown hfits hshows
        hk hroom hholds nofun⟩
  | bareContext outer notModule emitted ih =>
    obtain ⟨k, rfl, hk, -, hgrown, hholds⟩ := contextHeader_ok emitted hfits
    have hroom := hholds.parent.room
    exact ⟨k, _, rfl, hroom, hholds.aligned,
      Context.read_of_holds hshows hholds (ContextFlags.kind?_pack ..),
      Context.inside_of_holds (ih (hgrown.fits hfits) (hshows.of_grown hgrown)) hgrown hfits hshows
        hk hroom hholds notModule⟩
  | later earlier grown ih =>
    obtain ⟨k, c, rfl, hroom, haligned, hread, hinside⟩ :=
      ih (grown.fits hfits) (hshows.of_grown grown)
    rw [← grown.addressAt] at hread ⊢
    rw [← grown.base] at haligned
    exact ⟨k, c, rfl, Nat.le_trans hroom grown.size, haligned, hread, hinside⟩

end Chains

/-! ## What a type is made of -/

/-- The field descriptor at an address, if there is one, has been laid out for these fields, and can
be read within the limits. -/
inductive Image.Lists (i : Image) (limits : Limits) :
    Option Address → List FieldSpec → List (Option Address) → Prop where
  | nothing : i.Lists limits none [] []
  | fields {kind : FieldKind} {fields : List FieldSpec} {recordSize : UInt16} {e : EmittedFields}
    (laidOut : i.LaidOut (Emit.fieldDescriptor kind fields recordSize) e)
    (domain : fields = [] ∨ 12 ≤ recordSize ∧ (recordSize % 4 = 0 ∨ fields.length = 1))
    (noZero : ∀ field ∈ fields, 0 ∉ bytesOfText field.name)
    (nameLength : ∀ field ∈ fields, (bytesOfText field.name).length < limits.nameLength)
    (count : fields.length ≤ limits.fields.toNat) :
    i.Lists limits (some e.address) fields e.mangledNames

section Fields

variable {m : Memory} {limits : Limits} {i j : Image} {k : Nat} {fields : List FieldSpec}
  {mangled : List (Option Address)} {address : Option Address}

theorem FieldSpec.map_ofRecord (h : mangled.map Option.isSome = fields.map (·.mangledType.isSome)) :
    (fields.zipWith FieldSpec.record mangled).map CaseKind.ofRecord =
      fields.map FieldSpec.caseKind := by
  induction fields generalizing mangled with
  | nil => rfl
  | cons field fields ih =>
    obtain ⟨target, rest, rfl, htarget, hrest⟩ := List.map_eq_cons_iff.1 h
    rw [List.zipWith_cons_cons, List.map_cons, List.map_cons, ih hrest]
    have hrecord : (field.record target).mangledTypeName.isSome = field.mangledType.isSome :=
      htarget
    rw [CaseKind.ofRecord, caseKind, hrecord]

theorem Image.Lists.isSome_mangled (h : i.Lists limits address fields mangled) (hfits : i.Fits) :
    mangled.map Option.isSome = fields.map (·.mangledType.isSome) := by
  cases h with
  | nothing => rfl
  | fields laidOut =>
    obtain ⟨i₀, i₁, hrun, hgrown⟩ := laidOut
    obtain ⟨k, -, hk⟩ := Emit.fieldDescriptor_ok hrun (hgrown.fits hfits)
    exact hk.isSome_mangled

/-- Fields that are listed are read from within the image. -/
theorem Image.Lists.read (h : i.Lists limits address fields mangled) (hfits : i.Fits)
    (hshows : m.Shows i) :
    (address = none ∧ fields = []) ∨ ∃ l < i.bytes.size, address = some (i.addressAt l) ∧
      ∃ d, FieldDescriptor.read limits (i.addressAt l) m = .ok d ∧
        d.records = fields.zipWith FieldSpec.record mangled := by
  cases h with
  | nothing => exact .inl ⟨rfl, rfl⟩
  | fields laidOut domain noZero nameLength count =>
    obtain ⟨i₀, i₁, hrun, hgrown⟩ := laidOut
    obtain ⟨l, haddress, hl⟩ := Emit.fieldDescriptor_ok hrun (hgrown.fits hfits)
    have hmod : ∀ n : UInt16, n % 4 = 0 ↔ n.toNat % 4 = 0 := fun n => by
      rw [← UInt16.toNat_inj, UInt16.toNat_mod]
      rfl
    rw [hmod] at domain
    have hread := FieldDescriptor.read_records (hshows.of_grown hgrown) hl count domain noZero
      nameLength
    have hin := hl.count.lt_size (l := 0) (by rw [length_bytesOf32]; decide)
    have hsize := hgrown.size
    rw [← hgrown.addressAt] at haddress hread
    exact .inr ⟨l, by omega, congrArg some haddress, _, hread, rfl⟩

/-- The fields that the descriptor at `k` refers to are read through it. -/
theorem NominalDescriptor.fields_of_holds {flags : ContextFlags} {kind : ContextKind}
    {spec : NominalSpec} (listed : i.Lists limits spec.fields fields mangled)
    (hgrown : Image.Grown i j) (hfits : j.Fits) (hshows : m.Shows j) (hk : i.bytes.size ≤ k)
    (hholds : j.HoldsNominal k flags spec) :
    ∃ fields?, NominalDescriptor.fields limits ⟨⟨j.addressAt k, flags, kind⟩⟩ m = .ok fields? ∧
      fields?.elim [] FieldDescriptor.records = fields.zipWith FieldSpec.record mangled := by
  have haligned := hholds.aligned
  have hpoints := hholds.fields
  have haddress : ∀ target, j.Points (k + 16) target →
      fieldsAddress ⟨⟨j.addressAt k, flags, kind⟩⟩ m = .ok target := by
    intro target htarget
    unfold fieldsAddress
    rw [Image.addressAt_add j k (n := 16) rfl]
    exact RelativePointer.direct_of_points hshows htarget (by omega)
  unfold NominalDescriptor.fields
  rcases listed.read (hgrown.fits hfits) (hshows.of_grown hgrown) with
    ⟨hnone, rfl⟩ | ⟨l, hl, hsome, d, hd, hrecords⟩
  · rw [hnone, if_neg nofun] at hpoints
    rw [Decoder.bind_of_ok (haddress _ hpoints)]
    exact ⟨none, rfl, rfl⟩
  · rw [hsome, ← hgrown.addressAt, if_neg] at hpoints
    · rw [← hgrown.addressAt] at hd
      rw [Decoder.bind_of_ok (haddress _ hpoints)]
      exact ⟨some d, Decoder.bind_of_ok hd, hrecords⟩
    · -- the fields lie before the type
      intro heq
      have hroom := hholds.fields.room
      unfold Image.Fits at hfits
      have := Image.addressAt_inj (by omega) (by omega) (Option.some.inj heq)
      omega

end Fields

/-- What is read of `field`, whose type name stands at `mangled`. -/
def FieldSpec.field (s : Settings) (w : World) (field : FieldSpec) (mangled : Option Address) :
    Field :=
  ⟨field.name, mangled.bind (s.typeName w), field.isVar⟩

theorem FieldSpec.ofRecord_record (s : Settings) (w : World) (field : FieldSpec)
    (mangled : Option Address) :
    Field.ofRecord s w (field.record mangled) = field.field s w mangled := by
  have hvar : (field.record mangled).isVar = field.isVar := FieldFlags.isVar_ofVar _
  unfold Field.ofRecord FieldSpec.field
  rw [hvar]
  rfl

/-! ## How a type is read -/

section Steps

variable {s : Settings} {w w' : World}

namespace TypeInfo

variable {d : NominalDescriptor} {f md : Address}

/-- An access function that returns a constant is called once, that of a generic type not at all. -/
theorem run_requestMetadata {generic : Bool} (hgeneric : d.isGeneric = generic)
    (haccess : generic = false → w.decode d.accessFunction = .ok f ∧
      w.functions.lookup? f = some (StandIn.const md.val)) :
    (requestMetadata d).run w = (.ok (if generic then none else some md),
      if generic then w else { w with calls := { function := f } :: w.calls }) := by
  unfold requestMetadata
  rw [hgeneric]
  cases generic with
  | true => rfl
  | false =>
    obtain ⟨hf, hconst⟩ := haccess rfl
    have hinvoke : w.invoke { function := f } =
        (.ok md.val, { w with calls := { function := f } :: w.calls }) := by
      unfold World.invoke FunctionTable.invoke
      rw [hconst]
      rfl
    rw [if_neg nofun, Inspect.run_bind, Inspect.run_decode, hf]
    simp only
    rw [Inspect.run_bind, Inspect.run_call, hinvoke]
    rfl

theorem run_read {name moduleName : String} {metadata : Option Address}
    {fields? : Option FieldDescriptor} (hname : w.decode (d.name s.limits) = .ok name)
    (hmodule : w.decode (d.moduleName s.limits) = .ok moduleName)
    (hmetadata : (requestMetadata d).run w = (.ok metadata, w'))
    (hfields : w'.decode (d.fields s.limits) = .ok fields?) :
    (TypeInfo.read s d).run w =
      (.ok ⟨s, d, name, moduleName, metadata, listedFields s w' fields?⟩, w') := by
  unfold TypeInfo.read
  rw [Inspect.run_bind, Inspect.run_decode, hname]
  simp only
  rw [Inspect.run_bind, Inspect.run_decode, hmodule]
  simp only
  rw [Inspect.run_bind, hmetadata]
  simp only
  rw [Inspect.run_bind, Inspect.run_decode, hfields]
  rfl

theorem listedFields_of_records {fields : List FieldSpec} {mangled : List (Option Address)}
    {fields? : Option FieldDescriptor} (s : Settings) (w : World)
    (hmangled : mangled.map Option.isSome = fields.map (·.mangledType.isSome))
    (hrecords : fields?.elim [] FieldDescriptor.records = fields.zipWith FieldSpec.record mangled) :
    listedFields s w fields? =
      if fields = [] then none else some (fields.zipWith (FieldSpec.field s w) mangled) := by
  have hlisted : listedFields s w fields? =
      if fields?.elim [] FieldDescriptor.records = [] then none
      else some ((fields?.elim [] FieldDescriptor.records).map (Field.ofRecord s w)) := by
    cases fields? <;> rfl
  have hlength : mangled.length = fields.length := by
    simpa using congrArg List.length hmangled
  have hempty : fields.zipWith FieldSpec.record mangled = [] ↔ fields = [] := by
    rw [List.zipWith_eq_nil_iff, or_iff_left_of_imp]
    rintro rfl
    exact List.length_eq_zero_iff.1 hlength.symm
  rw [hlisted, hrecords, List.map_zipWith]
  simp only [hempty, FieldSpec.ofRecord_record]

end TypeInfo

/-- A value type is read with the witness table of its metadata, if it has any. -/
theorem ValueType.exists_read {d : NominalDescriptor} {info : TypeInfo}
    (hinfo : (TypeInfo.read s d).run w = (.ok info, w'))
    (hwitnesses : ∀ md, info.metadata = some md → ∃ metadata t,
      w'.decode (Metadata.read md) = .ok metadata ∧ w'.decode metadata.valueWitnesses = .ok t) :
    ∃ t : ValueType, (ValueType.read s d).run w = (.ok t, w') ∧ t.info = info := by
  unfold ValueType.read
  rw [Inspect.run_bind, hinfo]
  simp only
  rcases hmd : info.metadata with _ | md
  · exact ⟨⟨info, none⟩, rfl, rfl⟩
  · obtain ⟨metadata, t, hmetadata, ht⟩ := hwitnesses md hmd
    refine ⟨⟨info, some t⟩, ?_, rfl⟩
    simp only
    rw [Inspect.run_bind, Inspect.run_decode, hmetadata]
    simp only
    rw [Inspect.run_bind, Inspect.run_decode, ht]
    rfl

/-- What is left to be read of a type once it is known what kind it is and what it is made of. -/
theorem NominalType.exists_read {spec : TypeSpec} {a : Address} {info : TypeInfo}
    (hread : w.decode (Context.read a) = .ok ⟨a, spec.flags, spec.kind⟩)
    (hinfo : (TypeInfo.read s ⟨⟨a, spec.flags, spec.kind⟩⟩).run w = (.ok info, w'))
    (hwitnesses : spec.kind ≠ .classType → ∀ md, info.metadata = some md → ∃ metadata t,
      w'.decode (Metadata.read md) = .ok metadata ∧ w'.decode metadata.valueWitnesses = .ok t)
    (hcases : spec.kind = .enumType →
      ∃ es, EnumType.listedEntries s ⟨⟨⟨a, spec.flags, spec.kind⟩⟩⟩ w' = .ok es) :
    ∃ ty : NominalType, (NominalType.read s a).run w = (.ok ty, w') ∧
      ty.kindName = spec.kindName ∧ ty.info = info := by
  have hd := ContextDescriptor.decode_of_read hread
  cases spec with
  | classType spec =>
    refine ⟨⟨.classType { info }, []⟩, ?_, rfl, rfl⟩
    unfold NominalType.read ClassType.read
    rw [Inspect.run_bind, Inspect.run_decode, World.decode, hd]
    change ((do return ({ info := ← TypeInfo.read s _ } : ClassType)) >>= _).run w = _
    rw [Inspect.run_bind, Inspect.run_bind, hinfo]
    rfl
  | structType spec numFields vector =>
    obtain ⟨t, ht, rfl⟩ := ValueType.exists_read hinfo (hwitnesses (by rintro ⟨⟩))
    refine ⟨⟨.structType ⟨t⟩, []⟩, ?_, rfl, rfl⟩
    unfold NominalType.read StructType.read
    rw [Inspect.run_bind, Inspect.run_decode, World.decode, hd]
    change ((do return (⟨← ValueType.read s _⟩ : StructType)) >>= _).run w = _
    rw [Inspect.run_bind, Inspect.run_bind, ht]
    rfl
  | enumType spec payload empty =>
    obtain ⟨t, ht, rfl⟩ := ValueType.exists_read hinfo (hwitnesses (by rintro ⟨⟩))
    obtain ⟨es, hes⟩ := hcases rfl
    refine ⟨⟨.enumType ⟨t, es⟩, []⟩, ?_, rfl, rfl⟩
    rw [NominalType.run_read_enum hd, ht]
    simp only
    rw [hes]
    rfl

end Steps

/-! ## A type in its place -/

section Places

variable {m : Memory} {j : Image} {k : Nat}

theorem NominalDescriptor.accessFunction_of_holds {flags : ContextFlags} {kind : ContextKind}
    {spec : NominalSpec} {f : Address} (hshows : m.Shows j) (hholds : j.HoldsNominal k flags spec)
    (hf : spec.accessFunction = some f)
    (hown : f ≠ j.addressAt k + NominalDescriptor.accessFunctionOffset) :
    accessFunction ⟨⟨j.addressAt k, flags, kind⟩⟩ m = .ok f := by
  have haligned := hholds.aligned
  have hpoints := hholds.accessFunction
  rw [Image.addressAt_add j k (n := 12) rfl] at hown
  rw [hf, if_neg fun heq => hown (Option.some.inj heq)] at hpoints
  have hdirect := RelativePointer.direct_of_points hshows hpoints (by omega)
  unfold accessFunction RelativePointer.required
  rw [Image.addressAt_add j k (n := 12) rfl, Decoder.bind_of_ok hdirect]
  rfl

theorem TypeSpec.HasMetadata.read {spec : TypeSpec} {md : Address} (h : spec.HasMetadata j md)
    (hshows : m.Shows j) (hkind : spec.kind ≠ .classType) :
    ∃ metadata t, Metadata.read md m = .ok metadata ∧ metadata.valueWitnesses m = .ok t := by
  have key : ∀ value : ValueMetadataSpec, j.LaidOut (Emit.valueMetadata value) md →
      value.kind.hasValueWitnesses = true →
      (value.layout.flags.hasEnumWitnesses = true → value.enumWitnesses.isSome = true) →
      ∃ metadata t, Metadata.read md m = .ok metadata ∧ metadata.valueWitnesses m = .ok t := by
    rintro value ⟨i, i', hrun, hgrown⟩ hvalue hflags
    obtain ⟨l, rfl, hl⟩ := Emit.holds_valueMetadata hrun
    have hshows' := hshows.of_grown hgrown
    obtain ⟨-, ⟨t, ht, -⟩, -⟩ := Metadata.readsAs_of_holds hshows' hl hvalue hflags
    exact ⟨_, t, Metadata.read_of_holds hshows' hl, ht⟩
  cases spec with
  | classType spec => exact absurd rfl hkind
  | structType spec numFields vector =>
    obtain ⟨value, hrun, hvalue, hflags⟩ := h
    exact key value hrun hvalue hflags
  | enumType spec payload empty =>
    obtain ⟨value, hrun, hvalue, hflags⟩ := h
    exact key value hrun hvalue hflags

/-- The cases of an enum can be listed, verified or not. -/
theorem EnumType.listedEntries_of_holds {s : Settings} {w : World} {spec : TypeSpec}
    {fields : List FieldSpec} {mangled : List (Option Address)} {fields? : Option FieldDescriptor}
    (hkind : spec.kind = .enumType) (hshows : w.memory.Shows j)
    (haligned : (j.base.toNat + k) % 4 = 0) (hcounts : spec.HoldsCounts j k)
    (hmangled : mangled.map Option.isSome = fields.map (·.mangledType.isSome))
    (hdeclares : s.verifyEnumCases = true → spec.Declares fields)
    (hf : w.decode (NominalDescriptor.fields s.limits ⟨⟨j.addressAt k, spec.flags, spec.kind⟩⟩) =
      .ok fields?)
    (hrecords : fields?.elim [] FieldDescriptor.records = fields.zipWith FieldSpec.record mangled) :
    ∃ es, listedEntries s ⟨⟨⟨j.addressAt k, spec.flags, spec.kind⟩⟩⟩ w = .ok es := by
  cases spec with
  | classType spec => cases hkind
  | structType spec numFields vector => cases hkind
  | enumType spec payload empty =>
    obtain ⟨hpayload, hempty⟩ := hcounts
    refine exists_listedEntries hf fun hv d hd hr => ?_
    cases hd
    have hkinds : EnumDescriptor.kinds d = fields.map FieldSpec.caseKind := by
      rw [EnumDescriptor.kinds, ← FieldSpec.map_ofRecord hmangled, ← hrecords]
      rfl
    have hsome : fields ≠ [] := by
      rintro rfl
      exact hr hrecords
    refine ⟨payload &&& EnumDescriptor.payloadCasesMask, empty, ?_, ?_, ?_⟩
    · have hword := Decoder.u32_of_holds hshows hpayload (by omega)
      unfold World.decode EnumDescriptor.numPayloadCases EnumDescriptor.payloadWord
      rw [Image.addressAt_add j k (n := 20) rfl, Decoder.bind_of_ok hword]
      change Except.ok _ = _
      rw [UInt32.and_assoc, UInt32.and_self]
    · unfold World.decode EnumDescriptor.numEmptyCases
      rw [Image.addressAt_add j k (n := 24) rfl]
      exact Decoder.u32_of_holds hshows hempty (by omega)
    · rw [hkinds]
      exact (hdeclares hv).resolve_left hsome

end Places

section Reading

variable {s : Settings} {w : World} {root : String} {spec : TypeSpec} {fields : List FieldSpec}
  {mangled : List (Option Address)} {n k : Nat} {f md : Address} {i j : Image}

/-- What a type that stands at `k`, behind all that it refers to, is read to be made of. -/
theorem TypeInfo.run_read_of_holds
    (outer : i.ShowsInside w.memory s.limits root n spec.nominal.parent)
    (listed : i.Lists s.limits spec.nominal.fields fields mangled) (hgrown : Image.Grown i j)
    (hfits : j.Fits) (hshows : w.memory.Shows j) (hk : i.bytes.size ≤ k)
    (hholds : j.HoldsNominal k spec.flags spec.nominal) (depth : n < s.limits.contextDepth)
    (noZero : 0 ∉ bytesOfText spec.nominal.name)
    (nameLength : (bytesOfText spec.nominal.name).length < s.limits.nameLength)
    (access : spec.nominal.generic = false → spec.nominal.accessFunction = some f ∧
      f ≠ j.addressAt k + NominalDescriptor.accessFunctionOffset ∧
      w.functions.lookup? f = some (StandIn.const md.val)) :
    (TypeInfo.read s ⟨⟨j.addressAt k, spec.flags, spec.kind⟩⟩).run w =
      (.ok ⟨s, ⟨⟨j.addressAt k, spec.flags, spec.kind⟩⟩, spec.nominal.name, root,
          if spec.nominal.generic then none else some md,
          if fields = [] then none else some (fields.zipWith (FieldSpec.field s w) mangled)⟩,
        if spec.nominal.generic then w
          else { w with calls := { function := f } :: w.calls }) := by
  let c : Context := ⟨j.addressAt k, spec.flags, spec.kind⟩
  have hmodule : w.decode (c.moduleName s.limits) = .ok root :=
    Context.moduleName_of_inside (Context.inside_of_holds outer hgrown hfits hshows hk
      hholds.parent.room hholds.toHoldsContext spec.kind_ne_moduleContext) depth
  obtain ⟨lo, hnames⟩ := hholds.name
  have hname : w.decode (c.name s.limits) = .ok spec.nominal.name :=
    Context.name_of_names hshows hnames hholds.aligned noZero nameLength
  have hmetadata : (requestMetadata ⟨c⟩).run w = _ :=
    run_requestMetadata spec.isGeneric_flags (by
      intro hg
      obtain ⟨hf, hown, hconst⟩ := access hg
      exact ⟨NominalDescriptor.accessFunction_of_holds hshows hholds hf hown, hconst⟩)
  generalize hw' : (if spec.nominal.generic then w
    else { w with calls := { function := f } :: w.calls }) = w' at hmetadata ⊢
  -- a call is recorded, and leaves memory and names as they are
  obtain ⟨hmemory, hfield⟩ :
      w'.memory = w.memory ∧ FieldSpec.field s w' = FieldSpec.field s w := by
    subst hw'
    split <;> exact ⟨rfl, rfl⟩
  obtain ⟨fields?, hf, hrecords⟩ : ∃ fields?,
      w'.decode (NominalDescriptor.fields s.limits ⟨c⟩) = .ok fields? ∧
        fields?.elim [] FieldDescriptor.records = fields.zipWith FieldSpec.record mangled := by
    unfold World.decode
    rw [hmemory]
    exact NominalDescriptor.fields_of_holds listed hgrown hfits hshows hk hholds
  rw [run_read hname hmodule hmetadata hf,
    listedFields_of_records s w' (listed.isSome_mangled (hgrown.fits hfits)) hrecords, hfield]

end Reading

/-- A class, struct or enum that is laid out inside any chain of contexts which begins at a module,
as deep as the limits allow, is read back: with its own name and that module's, with the metadata
that its access function returns, and with the fields of its field descriptor in their order, each
with the name that is known for its type. A field descriptor without fields counts as none. The
access function is called once, and that is the only call; a generic type calls nothing and has no
metadata. -/
theorem nested_type_read_back (s : Settings) (m : Memory) (w : World) (root : String)
    (spec : TypeSpec) (fields : List FieldSpec) (mangled : List (Option Address)) (n : Nat)
    (a f md : Address) (i i' j l : Image) (outer : Emit.Nested root i n spec.nominal.parent)
    (listed : i.Lists s.limits spec.nominal.fields fields mangled)
    (emitted : spec.emit.run i = .ok (a, i')) (later : Image.Grown i' j) (fits : j.Fits)
    (loaded : Image.Grown j l) (clear : m.ClearFor l) (memory : w.memory = m.load l)
    (depth : n < s.limits.contextDepth)
    (noZero : ∀ name ∈ [root, spec.nominal.name], 0 ∉ bytesOfText name)
    (nameLength : ∀ name ∈ [root, spec.nominal.name],
      (bytesOfText name).length < s.limits.nameLength)
    (counts : s.verifyEnumCases = true → spec.Declares fields)
    (access : spec.nominal.generic = false → spec.nominal.accessFunction = some f ∧
      f ≠ a + NominalDescriptor.accessFunctionOffset ∧
      w.functions.lookup? f = some (StandIn.const md.val) ∧ spec.HasMetadata j md) :
    ∃ ty, (NominalType.read s a).run w =
        (.ok ty, if spec.nominal.generic then w
          else { w with calls := { function := f } :: w.calls }) ∧
      ty.kindName = spec.kindName ∧ ty.descriptorAddress = a ∧ ty.name = spec.nominal.name ∧
      ty.info.moduleName = root ∧ ty.qualifiedName = root ++ "." ++ spec.nominal.name ∧
      ty.info.metadata = (if spec.nominal.generic then none else some md) ∧
      ty.info.fields = if fields = [] then none
        else some (fields.zipWith (FieldSpec.field s w) mangled) := by
  have hshows : w.memory.Shows j := memory ▸ Memory.load_shows loaded fits clear
  have hshows' := hshows.of_grown later
  have hfits' := later.fits fits
  obtain ⟨k, rfl, hk, hgrown, hholds, hcounts⟩ := TypeSpec.emit_ok emitted hfits'
  have hfits := hgrown.fits hfits'
  have hread : w.decode (Context.read (i'.addressAt k)) =
      .ok ⟨i'.addressAt k, spec.flags, spec.kind⟩ :=
    Context.read_of_holds hshows' hholds.toHoldsContext spec.kind?_flags
  have houter := outer.showsInside hfits (hshows'.of_grown hgrown) (noZero root (by simp))
    (nameLength root (by simp))
  have hinfo := TypeInfo.run_read_of_holds houter listed hgrown hfits' hshows' hk hholds depth
    (noZero spec.nominal.name (by simp)) (nameLength spec.nominal.name (by simp)) (by
      intro hg
      obtain ⟨hf, hown, hconst, -⟩ := access hg
      exact ⟨hf, hown, hconst⟩)
  generalize hw' : (if spec.nominal.generic then w
    else { w with calls := { function := f } :: w.calls }) = w' at hinfo ⊢
  have hmemory : w'.memory = w.memory := by
    subst hw'
    split <;> rfl
  have hwitnesses : spec.kind ≠ .classType →
      ∀ x, (if spec.nominal.generic then none else some md) = some x → ∃ metadata t,
        w'.decode (Metadata.read x) = .ok metadata ∧ w'.decode metadata.valueWitnesses = .ok t := by
    intro hkind x hx
    unfold World.decode
    rw [hmemory]
    cases hg : spec.nominal.generic <;> rw [hg] at hx <;> cases hx
    obtain ⟨-, -, -, hstands⟩ := access hg
    exact hstands.read hshows hkind
  have hcases : spec.kind = .enumType →
      ∃ es, EnumType.listedEntries s ⟨⟨⟨i'.addressAt k, spec.flags, spec.kind⟩⟩⟩ w' = .ok es := by
    intro hkind
    obtain ⟨fields?, hf, hrecords⟩ :=
      NominalDescriptor.fields_of_holds listed hgrown hfits' hshows' hk hholds
    rw [← hmemory] at hshows' hf
    exact EnumType.listedEntries_of_holds hkind hshows' hholds.aligned hcounts
      (listed.isSome_mangled hfits) counts hf hrecords
  obtain ⟨ty, hty, hkind, hmade⟩ := NominalType.exists_read hread hinfo hwitnesses hcases
  exact ⟨ty, hty, hkind, congrArg (·.descriptor.address) hmade, congrArg TypeInfo.name hmade,
    congrArg TypeInfo.moduleName hmade, congrArg TypeInfo.qualifiedName hmade,
    congrArg TypeInfo.metadata hmade, congrArg TypeInfo.fields hmade⟩

/-- An enum with two cases, which are listed at `fields`. -/
def Emit.enumOfTwo (parent accessFunction fields : Address) : TypeSpec :=
  .enumType
    { name := "E", parent, accessFunction := some accessFunction, fields := some fields } 1 1

/-- The fields and metadata of an enum, and then the enum, in an extension of a struct; returned are
the enum and the metadata. -/
def Emit.enumInExtension (accessFunction : Address) : Build (Address × Address) := do
  let listed ← fieldDescriptor .enumType
    [{ name := "a", mangledType := some "Si" }, { name := "b" }]
  let metadata ← valueMetadata { kind := .enumType, layout := .plain 16 }
  let enclosing ← moduleContext "M"
  let outer ← (TypeSpec.structType { name := "S", parent := enclosing } 1 2).emit
  let parent ← bareContext .extensionContext (some outer)
  return (← (enumOfTwo parent accessFunction listed.address).emit, metadata)

/-- An enum three contexts inside its module. -/
theorem nested_type_read_back_in_extension :
    ∃ a md j ty, (Emit.enumInExtension ⟨0x100100000⟩).run ⟨⟨0x100000000⟩, #[]⟩ =
        .ok ((a, md), j) ∧
      let w : World := { memory := (Memory.empty .null).load j
                         functions := ⟨⟨0x100100000⟩, #[StandIn.const md.val]⟩ }
      (NominalType.read {} a).run w =
          (.ok ty, { w with calls := [{ function := ⟨0x100100000⟩ }] }) ∧
        ty.qualifiedName = "M.E" ∧ ty.info.metadata = some md ∧
        ty.info.fields.map (·.map Field.name) = some ["a", "b"] := by
  obtain ⟨⟨a, md⟩, j, hrun, hchecked⟩ := Build.exists_of_any (i := ⟨⟨0x100000000⟩, #[]⟩)
    (x := Emit.enumInExtension ⟨0x100100000⟩)
    (p := fun (r, j) => decide
      (j.Fits ∧ ⟨0x100100000⟩ ≠ r.1 + NominalDescriptor.accessFunctionOffset)) (by decide +kernel)
  obtain ⟨fits, hown⟩ : j.Fits ∧ ⟨0x100100000⟩ ≠ a + NominalDescriptor.accessFunctionOffset :=
    of_decide_eq_true hchecked
  let w : World := { memory := (Memory.empty .null).load j
                     functions := ⟨⟨0x100100000⟩, #[StandIn.const md.val]⟩ }
  have hstandIn : w.functions.lookup? ⟨0x100100000⟩ = some (StandIn.const md.val) :=
    FunctionTable.lookup?_addressOf w.functions (i := 0) (by decide)
  obtain ⟨listed, i₁, hfields, h⟩ := Build.run_bind_ok hrun
  obtain ⟨_, i₂, hmetadata, h⟩ := Build.run_bind_ok h
  obtain ⟨enclosing, i₃, hmodule, h⟩ := Build.run_bind_ok h
  obtain ⟨outer, i₄, hstruct, h⟩ := Build.run_bind_ok h
  obtain ⟨parent, i₅, hextension, h⟩ := Build.run_bind_ok h
  obtain ⟨_, i₆, henum, h⟩ := Build.run_bind_ok h
  cases h
  obtain ⟨-, -, -, hgrown₆, -, -⟩ := TypeSpec.emit_ok henum fits
  have fits₅ := hgrown₆.fits fits
  obtain ⟨-, -, -, -, hgrown₅, -⟩ := Emit.contextHeader_ok hextension fits₅
  have fits₄ := hgrown₅.fits fits₅
  obtain ⟨-, -, -, hgrown₄, -, -⟩ := TypeSpec.emit_ok hstruct fits₄
  obtain ⟨-, -, -, hgrown₃, -⟩ := Emit.moduleContext_ok hmodule (hgrown₄.fits fits₄)
  have hgrown := (hgrown₃.trans hgrown₄).trans hgrown₅
  have hnested : Emit.Nested "M" i₅ 2 parent :=
    .bareContext (.nominal _ (.moduleContext hmodule) hstruct) (by decide) hextension
  have hlisted : i₅.Lists {} (some listed.address)
      [{ name := "a", mangledType := some "Si" }, { name := "b" }] listed.mangledNames :=
    .fields ⟨_, i₁, hfields, (Emit.grown_valueMetadata hmetadata).trans hgrown⟩
      (.inr (by decide)) (by decide +kernel) (by decide +kernel) (by decide)
  have hstands : (Emit.enumOfTwo parent ⟨0x100100000⟩ listed.address).HasMetadata j md :=
    ⟨_, ⟨i₁, i₂, hmetadata, hgrown.trans hgrown₆⟩, rfl, by decide +kernel⟩
  have hzero : ∀ name ∈ ["M", "E"], 0 ∉ bytesOfText name := by decide +kernel
  have hlength : ∀ name ∈ ["M", "E"], (bytesOfText name).length < 4096 := by decide +kernel
  obtain ⟨ty, hread, -, -, -, -, hname, hmd, hlist⟩ :=
    nested_type_read_back {} (.empty .null) w "M"
      (Emit.enumOfTwo parent ⟨0x100100000⟩ listed.address) _ _ 2 a ⟨0x100100000⟩ md i₅ j j j
      hnested hlisted henum (Image.Frame.refl j 0 0) fits (Image.Frame.refl j 0 0) nofun rfl
      (by decide) hzero hlength (fun _ => .inr (by decide))
      (fun _ => ⟨rfl, hown, hstandIn, hstands⟩)
  obtain ⟨first, rest, hmangled, -, hrest⟩ :=
    List.map_eq_cons_iff.1 (hlisted.isSome_mangled fits₅)
  obtain ⟨second, rest, rfl, -, hrest⟩ := List.map_eq_cons_iff.1 hrest
  refine ⟨a, md, j, ty, hrun, hread, hname, hmd, ?_⟩
  rw [hlist, hmangled]
  rfl

/-- Behind the end of the address space a type is laid out at an address before the image, where
nothing is read. -/
theorem not_nested_type_read_back_of_wrap :
    ¬∀ (w : World) (root : String) (spec : NominalSpec) (a : Address) (i j : Image),
      Emit.Nested root i 0 spec.parent → (Emit.structType spec 0 0).run i = .ok (a, j) →
      spec.generic = true → spec.fields = none →
      (∀ name ∈ [root, spec.name], 0 ∉ bytesOfText name ∧ (bytesOfText name).length < 4096) →
      w.memory = (Memory.empty .null).load j →
      ∃ ty, (NominalType.read {} a).run w = (.ok ty, w) ∧
        ty.qualifiedName = root ++ "." ++ spec.name := by
  intro h
  let x : Build Address := do
    let parent ← Emit.moduleContext "M"
    Emit.structType { name := "S", parent, generic := true } 0 0
  let loading (j : Image) : World :=
    { memory := (Memory.empty .null).load j, functions := ⟨.null, #[]⟩ }
  obtain ⟨a, j, hrun, hread⟩ := Build.exists_of_any (i := ⟨⟨0xfffffffffffffff0⟩, #[]⟩) (x := x)
    (p := fun (a, j) => ((NominalType.read {} a).run (loading j)).1.toOption.isNone)
    (by decide +kernel)
  obtain ⟨parent, i, hmodule, hstruct⟩ := Build.run_bind_ok hrun
  have hnames : ∀ name ∈ ["M", "S"], 0 ∉ bytesOfText name ∧ (bytesOfText name).length < 4096 := by
    decide +kernel
  obtain ⟨ty, hty, -⟩ := h (loading j) "M" { name := "S", parent, generic := true } a i j
    (.moduleContext hmodule) hstruct rfl rfl hnames rfl
  simp only [hty] at hread
  cases hread

end TypeMetadata
