import TypeMetadata.Emit.Field
import TypeMetadata.Emit.Nominal
import TypeMetadata.Proofs.LoadedImage
import TypeMetadata.Proofs.RegistryIndex

/-!
# Enum cases and the counts in the descriptor

An enum's descriptor declares how many of its cases carry a payload and how many do not. Where any
case is listed, an enum that is read with verification has just the declared numbers of them, and
other numbers make the read fail. Where none is listed the enum has no cases, whatever is declared.
`NominalType.enum_counts_of_read` states the three together.
-/

namespace TypeMetadata

/-- A field descriptor counts its records in 32 bits. -/
theorem FieldDescriptor.length_of_read {limits : Limits} {a : Address} {m : Memory}
    {d : FieldDescriptor} (h : FieldDescriptor.read limits a m = .ok d) :
    d.records.length < 0x100000000 := by
  obtain ⟨rawKind, -, h⟩ := Decoder.of_bind_ok h
  obtain ⟨kind, -, h⟩ := Decoder.of_bind_ok h
  obtain ⟨recordSize, -, h⟩ := Decoder.of_bind_ok h
  obtain ⟨count, -, h⟩ := Decoder.of_bind_ok h
  dsimp only at h
  split at h
  · obtain ⟨_, h, -⟩ := Decoder.of_bind_ok h
    cases h
  split at h
  · obtain ⟨_, h, -⟩ := Decoder.of_bind_ok h
    cases h
  obtain ⟨records, hrecords, h⟩ := Decoder.of_bind_ok h
  obtain ⟨mangledTypeName, -, h⟩ := Decoder.of_bind_ok h
  obtain ⟨superclass, -, h⟩ := Decoder.of_bind_ok h
  cases h
  rw [Decoder.length_of_series hrecords]
  exact count.toNat_lt

theorem NominalDescriptor.length_of_fields {limits : Limits} {d : NominalDescriptor} {m : Memory}
    {fields : FieldDescriptor} (h : d.fields limits m = .ok (some fields)) :
    fields.records.length < 0x100000000 := by
  obtain ⟨a?, -, h⟩ := Decoder.of_bind_ok h
  cases a? with
  | none => cases h
  | some a =>
    obtain ⟨fields', hread, h⟩ := Decoder.of_bind_ok h
    cases h
    exact FieldDescriptor.length_of_read hread

namespace CaseKind

/-- A case is of one kind or the other. -/
theorem count_add_count (kinds : List CaseKind) :
    kinds.count payload + kinds.count empty = kinds.length := by
  induction kinds with
  | nil => rfl
  | cons k kinds ih => cases k <;> simp <;> omega

end CaseKind

namespace EnumDescriptor

variable {d : EnumDescriptor} {fields : FieldDescriptor} {m : Memory} {payload empty : UInt32}

/-- The kinds of the cases that a field descriptor lists. -/
def kinds (fields : FieldDescriptor) : List CaseKind := fields.records.map CaseKind.ofRecord

/-- The counts in the descriptor are those of the cases that are listed. -/
def Declares (kinds : List CaseKind) (payload empty : UInt32) : Prop :=
  kinds.count .payload = payload.toNat ∧ kinds.count .empty = empty.toNat
deriving Decidable

theorem declares_iff (h : fields.records.length < 0x100000000) :
    Declares (kinds fields) payload empty ↔
      UInt32.ofNat ((kinds fields).count .payload) = payload ∧
        UInt32.ofNat ((kinds fields).count .empty) = empty := by
  -- Both counts are below 2 ^ 32, so as words they do not wrap.
  have hlength : (kinds fields).length < 0x100000000 := by rwa [kinds, List.length_map]
  have hsum := CaseKind.count_add_count (kinds fields)
  have hofNat : ∀ (n : Nat) (u : UInt32), n < 0x100000000 → (n = u.toNat ↔ UInt32.ofNat n = u) := by
    intro n u hn
    rw [← UInt32.toNat_inj, UInt32.toNat_ofNat', Nat.mod_eq_of_lt hn]
  unfold Declares
  rw [hofNat _ _ (by omega), hofNat _ _ (by omega)]

theorem classifyCases_verified (h : fields.records.length < 0x100000000)
    (hp : d.numPayloadCases m = .ok payload) (he : d.numEmptyCases m = .ok empty) :
    d.classifyCases fields true m =
      if Declares (kinds fields) payload empty then .ok (kinds fields)
      else .error (.decode (.enumCaseMismatch d.address (.ofNat ((kinds fields).count .payload))
        (.ofNat ((kinds fields).count .empty)) payload empty)) := by
  have hcounts : Declares (kinds fields) payload empty ↔ _ := declares_iff h
  unfold classifyCases
  simp only [if_true]
  rw [Decoder.bind_of_ok hp, Decoder.bind_of_ok he, ← kinds]
  by_cases hd : Declares (kinds fields) payload empty
  · rw [if_pos hd, if_neg (by simp [hcounts.1 hd])]
    rfl
  · rw [if_neg hd, if_pos (Classical.not_and_iff_not_or_not.1 (mt hcounts.2 hd))]
    rfl

/-- Verified cases are as many as the descriptor declares, which it then can be asked for. -/
theorem of_classifyCases_verified {ks : List CaseKind} (h : fields.records.length < 0x100000000)
    (hk : d.classifyCases fields true m = .ok ks) :
    ks = kinds fields ∧ ∃ payload empty, d.numPayloadCases m = .ok payload ∧
      d.numEmptyCases m = .ok empty ∧ Declares (kinds fields) payload empty := by
  have hcounts := hk
  obtain ⟨payload, hp, hcounts⟩ := Decoder.of_bind_ok hcounts
  obtain ⟨empty, he, -⟩ := Decoder.of_bind_ok hcounts
  rw [classifyCases_verified h hp he] at hk
  split at hk
  · rename_i hd
    cases hk
    exact ⟨rfl, payload, empty, hp, he, hd⟩
  · cases hk

theorem numCases_of_declares (h : fields.records.length < 0x100000000)
    (hp : d.numPayloadCases m = .ok payload) (he : d.numEmptyCases m = .ok empty)
    (hd : Declares (kinds fields) payload empty) :
    d.numCases m = .ok (.ofNat fields.records.length) := by
  obtain ⟨hpayload, hempty⟩ := hd
  have hsum := CaseKind.count_add_count (kinds fields)
  rw [hpayload, hempty, kinds, List.length_map] at hsum
  unfold numCases
  rw [Decoder.bind_of_ok hp, Decoder.bind_of_ok he]
  rw [if_neg (by omega), ← hsum, UInt32.ofNat_add, UInt32.ofNat_toNat, UInt32.ofNat_toNat]
  rfl

theorem exists_fields_of_any (d : EnumDescriptor) {limits : Limits} {w : World}
    {p : FieldDescriptor → Bool}
    (h : (w.decode (d.fields limits)).toOption.any (fun fields? => fields?.any p) = true) :
    ∃ fields, w.decode (d.fields limits) = .ok (some fields) ∧ p fields = true := by
  rcases hf : w.decode (d.fields limits) with e | _ | fields <;> rw [hf] at h
  · cases h
  · cases h
  · exact ⟨fields, rfl, h⟩

end EnumDescriptor

namespace EnumType

theorem kinds_entriesFrom (s : Settings) (w : World) :
    ∀ (records : List FieldRecord) (ks : List CaseKind) (index : Nat), records.length = ks.length →
      (entriesFrom s w index records ks).map (·.case.kind) = ks
  | [], [], _, _ => rfl
  | _ :: records, k :: ks, index, h => by
    rw [entriesFrom, List.map_cons,
      kinds_entriesFrom s w records ks (index + 1) (by simpa using h)]
    rfl

/-- The entries for the cases that are listed in the memory of `w`. -/
def listedEntries (s : Settings) (d : EnumDescriptor) (w : World) :
    Except Error (List CaseEntry) :=
  match w.decode (d.fields s.limits) with
  | .error e => .error e
  | .ok none => .ok []
  | .ok (some fields) =>
    if fields.records = [] then .ok []
    else (w.decode (d.classifyCases fields s.verifyEnumCases)).map
      (entriesFrom s w 0 fields.records)

/-- To list the cases takes no call, and leaves the process as it is. -/
theorem run_readEntries (s : Settings) (d : EnumDescriptor) (w : World) :
    (readEntries s d).run w = (listedEntries s d w, w) := by
  unfold readEntries listedEntries
  rw [Inspect.run_bind, Inspect.run_decode]
  rcases w.decode (d.fields s.limits) with e | _ | fields
  · rfl
  · rfl
  · by_cases hr : fields.records = []
    · simp only [if_pos hr]
      rfl
    · simp only [if_neg hr]
      rw [Inspect.run_bind, Inspect.run_decode]
      rcases w.decode (d.classifyCases fields s.verifyEnumCases) with e | ks <;> rfl

theorem listedEntries_of_records {s : Settings} {d : EnumDescriptor} {w : World}
    {fields : FieldDescriptor} (hf : w.decode (d.fields s.limits) = .ok (some fields))
    (hr : fields.records ≠ []) :
    listedEntries s d w = (w.decode (d.classifyCases fields s.verifyEnumCases)).map
      (entriesFrom s w 0 fields.records) := by
  unfold listedEntries
  rw [hf]
  exact if_neg hr

theorem listedEntries_of_no_records {s : Settings} {d : EnumDescriptor} {w : World}
    {fields? : Option FieldDescriptor} (hf : w.decode (d.fields s.limits) = .ok fields?)
    (hr : ∀ fields ∈ fields?, fields.records = []) : listedEntries s d w = .ok [] := by
  unfold listedEntries
  rw [hf]
  cases fields? with
  | none => rfl
  | some fields => exact if_pos (hr fields rfl)

/-- The cases can be listed unless they are verified and others are declared. -/
theorem exists_listedEntries {s : Settings} {d : EnumDescriptor} {w : World}
    {fields? : Option FieldDescriptor} (hf : w.decode (d.fields s.limits) = .ok fields?)
    (hcounts : s.verifyEnumCases = true → ∀ fields ∈ fields?, fields.records ≠ [] →
      ∃ payload empty, w.decode d.numPayloadCases = .ok payload ∧
        w.decode d.numEmptyCases = .ok empty ∧
        EnumDescriptor.Declares (EnumDescriptor.kinds fields) payload empty) :
    ∃ es, listedEntries s d w = .ok es := by
  rcases fields? with _ | fields
  · exact ⟨_, listedEntries_of_no_records hf nofun⟩
  by_cases hr : fields.records = []
  · exact ⟨_, listedEntries_of_no_records hf (by rintro _ ⟨rfl⟩; exact hr)⟩
  rw [listedEntries_of_records hf hr]
  rcases hv : s.verifyEnumCases with _ | _
  · exact ⟨_, rfl⟩
  · obtain ⟨payload, empty, hp, he, hdeclares⟩ := hcounts hv fields rfl hr
    rw [World.decode, EnumDescriptor.classifyCases_verified
      (NominalDescriptor.length_of_fields hf) hp he, if_pos hdeclares]
    exact ⟨_, rfl⟩

/-- Verified entries are one for each case that is listed, and as many as are declared. -/
theorem of_listedEntries {s : Settings} (verify : s.verifyEnumCases = true) {d : EnumDescriptor}
    {w : World} {fields : FieldDescriptor} {es : List CaseEntry}
    (hf : w.decode (d.fields s.limits) = .ok (some fields)) (hr : fields.records ≠ [])
    (hes : listedEntries s d w = .ok es) :
    es.map (·.case.kind) = EnumDescriptor.kinds fields ∧ ∃ payload empty,
      w.decode d.numPayloadCases = .ok payload ∧ w.decode d.numEmptyCases = .ok empty ∧
      EnumDescriptor.Declares (EnumDescriptor.kinds fields) payload empty := by
  rw [listedEntries_of_records hf hr, verify] at hes
  rcases hk : w.decode (d.classifyCases fields true) with e | ks <;> rw [hk] at hes
  · cases hes
  · cases hes
    obtain ⟨rfl, hdeclares⟩ :=
      EnumDescriptor.of_classifyCases_verified (NominalDescriptor.length_of_fields hf) hk
    exact ⟨kinds_entriesFrom s w fields.records _ 0 (by simp [EnumDescriptor.kinds]), hdeclares⟩

end EnumType

namespace NominalType

variable {s : Settings} {a : Address} {w w' : World} {d : EnumDescriptor} {core : ValueType}

/-- An enum is read as a value type first, and its cases after that. -/
theorem run_read_enum (hd : w.decode (ContextDescriptor.decode a) = .ok (.enumType d)) :
    (NominalType.read s a).run w =
      match (ValueType.read s d.toNominalDescriptor).run w with
      | (.ok core, w') =>
        ((EnumType.listedEntries s d w').map fun es => ⟨.enumType ⟨core, es⟩, []⟩, w')
      | (.error e, w') => (.error e, w') := by
  unfold NominalType.read EnumType.read
  rw [Inspect.run_bind, Inspect.run_decode, hd]
  simp only
  rw [Inspect.run_bind, Inspect.run_bind]
  rcases (ValueType.read s d.toNominalDescriptor).run w with ⟨e | core, w'⟩
  · rfl
  · simp only
    rw [Inspect.run_bind, EnumType.run_readEntries]
    rcases EnumType.listedEntries s d w' with e | es <;> rfl

/-- An enum of which no case is listed has none, whatever its descriptor declares. -/
theorem run_read_of_no_records {core : ValueType} {fields? : Option FieldDescriptor}
    (hd : w.decode (ContextDescriptor.decode a) = .ok (.enumType d))
    (hcore : (ValueType.read s d.toNominalDescriptor).run w = (.ok core, w'))
    (hf : w'.decode (d.fields s.limits) = .ok fields?)
    (hr : ∀ fields ∈ fields?, fields.records = []) :
    (NominalType.read s a).run w = (.ok ⟨.enumType ⟨core, []⟩, []⟩, w') := by
  rw [run_read_enum hd, hcore]
  simp only
  rw [EnumType.listedEntries_of_no_records hf hr]
  rfl

/-- With verification, an enum of which any case is listed has as many cases of each kind as its
descriptor declares, and the total that can be asked of the descriptor is theirs. If other counts
are declared the read fails with a mismatch. An enum of which no case is listed is read without
looking at the counts, and has no cases. -/
theorem enum_counts_of_read (s : Settings) (verify : s.verifyEnumCases = true) (a : Address)
    (w : World) (d : EnumDescriptor)
    (hd : w.decode (ContextDescriptor.decode a) = .ok (.enumType d)) :
    (∀ t w' fields, (NominalType.read s a).run w = (.ok t, w') →
      w'.decode (d.fields s.limits) = .ok (some fields) → fields.records ≠ [] →
      ∃ e payload empty total, t.enumType? = some e ∧ e.descriptor = d ∧
        w'.decode d.numPayloadCases = .ok payload ∧ w'.decode d.numEmptyCases = .ok empty ∧
        EnumDescriptor.Declares (e.cases.map EnumCase.kind) payload empty ∧
        w'.decode d.numCases = .ok total ∧ total.toNat = e.cases.length) ∧
    (∀ core w' fields payload empty,
      (ValueType.read s d.toNominalDescriptor).run w = (.ok core, w') →
      w'.decode (d.fields s.limits) = .ok (some fields) → fields.records ≠ [] →
      w'.decode d.numPayloadCases = .ok payload → w'.decode d.numEmptyCases = .ok empty →
      ¬EnumDescriptor.Declares (EnumDescriptor.kinds fields) payload empty →
      (NominalType.read s a).run w =
        (.error (.decode (.enumCaseMismatch d.address
          (.ofNat ((EnumDescriptor.kinds fields).count .payload))
          (.ofNat ((EnumDescriptor.kinds fields).count .empty)) payload empty)), w')) ∧
    (∀ core w' fields?,
      (ValueType.read s d.toNominalDescriptor).run w = (.ok core, w') →
      w'.decode (d.fields s.limits) = .ok fields? → (∀ fields ∈ fields?, fields.records = []) →
      (NominalType.read s a).run w = (.ok ⟨.enumType ⟨core, []⟩, []⟩, w')) := by
  refine ⟨fun t w' fields h hf hr => ?_,
    fun core w' fields payload empty hcore hf hr hp he hne => ?_,
    fun core w' fields? hcore hf hr => run_read_of_no_records hd hcore hf hr⟩
  · rw [run_read_enum hd] at h
    rcases hcore : (ValueType.read s d.toNominalDescriptor).run w with ⟨e | core, w₁⟩ <;>
      rw [hcore] at h
    · cases h
    obtain ⟨ht, rfl⟩ := Prod.mk.inj h
    rcases hes : EnumType.listedEntries s d w₁ with e | es <;> rw [hes] at ht <;> cases ht
    obtain ⟨hkinds, payload, empty, hp, he, hdeclares⟩ :=
      EnumType.of_listedEntries verify hf hr hes
    have hlength := NominalDescriptor.length_of_fields hf
    have hcases : (EnumType.cases ⟨core, es⟩).map EnumCase.kind = EnumDescriptor.kinds fields := by
      rw [EnumType.cases, List.map_map]
      exact hkinds
    refine ⟨_, payload, empty, _, rfl, ?_, hp, he, hcases ▸ hdeclares,
      EnumDescriptor.numCases_of_declares hlength hp he hdeclares, ?_⟩
    · rw [EnumType.descriptor, ValueType.descriptor_of_read hcore]
    · rw [UInt32.toNat_ofNat', Nat.mod_eq_of_lt hlength, ← List.length_map EnumCase.kind, hcases,
        EnumDescriptor.kinds, List.length_map]
  · rw [run_read_enum hd, hcore]
    simp only
    rw [EnumType.listedEntries_of_records hf hr, verify, World.decode,
      EnumDescriptor.classifyCases_verified (NominalDescriptor.length_of_fields hf) hp he,
      if_neg hne]
    rfl

end NominalType

/-- A generic enum with these cases and, in its descriptor, these counts. -/
def Emit.genericEnum (cases : List FieldSpec) (numPayloadCases numEmptyCases : UInt32) :
    Build Address := do
  let parent ← moduleContext "m"
  let listed ← fieldDescriptor .enumType cases
  enumType { name := "E", parent, fields := some listed.address, generic := true }
    numPayloadCases numEmptyCases

namespace NominalType

/-- Two cases, once with their true counts and once with others. -/
theorem enum_counts_of_read_two :
    let cases : List FieldSpec := [{ name := "a", mangledType := some "Si" }, { name := "b" }]
    let d : EnumDescriptor := ⟨⟨⟨⟨0x1040⟩, ⟨0xD2⟩, .enumType⟩⟩⟩
    (∃ t e w', (NominalType.read {} ⟨0x1040⟩).run (.showing (Emit.genericEnum cases 1 1)) =
        (.ok t, w') ∧ t.enumType? = some e ∧
      ∃ payload empty, w'.decode d.numPayloadCases = .ok payload ∧
        w'.decode d.numEmptyCases = .ok empty ∧
        EnumDescriptor.Declares (e.cases.map EnumCase.kind) payload empty) ∧
    (∃ payload empty w', (NominalType.read {} ⟨0x1040⟩).run
        (.showing (Emit.genericEnum cases 0 2)) =
      (.error (.decode (.enumCaseMismatch d.address payload empty 0 2)), w')) := by
  intro cases d
  constructor
  · obtain ⟨t, w', hread, hw⟩ := Inspect.exists_of_any (x := NominalType.read {} ⟨0x1040⟩)
      (w := .showing (Emit.genericEnum cases 1 1)) (p := fun (_, w') =>
        (w'.decode (d.fields {})).toOption.any fun fields? => fields?.any (·.records ≠ []))
      (by decide +kernel)
    obtain ⟨fields, hf, hr⟩ := d.exists_fields_of_any hw
    obtain ⟨e, payload, empty, total, he, -, hp, hn, hdeclares, -⟩ :=
      (enum_counts_of_read {} rfl ⟨0x1040⟩ _ d (by decide +kernel)).1 t w' fields hread hf
        (of_decide_eq_true hr)
    exact ⟨t, e, w', hread, he, payload, empty, hp, hn, hdeclares⟩
  · obtain ⟨core, w', hcore, hw⟩ := Inspect.exists_of_any
      (x := ValueType.read {} d.toNominalDescriptor)
      (w := .showing (Emit.genericEnum cases 0 2)) (p := fun (_, w') =>
        decide (w'.decode d.numPayloadCases = .ok 0 ∧ w'.decode d.numEmptyCases = .ok 2) &&
          (w'.decode (d.fields {})).toOption.any fun fields? => fields?.any fun fields =>
            fields.records ≠ [] ∧ ¬EnumDescriptor.Declares (EnumDescriptor.kinds fields) 0 2)
      (by decide +kernel)
    obtain ⟨hcounts, hf⟩ := Bool.and_eq_true_iff.1 hw
    obtain ⟨hp, hn⟩ := of_decide_eq_true hcounts
    obtain ⟨fields, hf, hr⟩ := d.exists_fields_of_any hf
    obtain ⟨hr, hne⟩ := of_decide_eq_true hr
    exact ⟨_, _, w', (enum_counts_of_read {} rfl ⟨0x1040⟩ _ d (by decide +kernel)).2.1 core w'
      fields 0 2 hcore hf hr hp hn hne⟩

/-- Of a field descriptor without records the descriptor's counts are not looked at, although the
enum can be reflected on. -/
theorem not_enum_counts_of_reflectable :
    ¬∀ (s : Settings) (a : Address) (w w' : World) (t : NominalType) (e : EnumType),
      s.verifyEnumCases = true → (NominalType.read s a).run w = (.ok t, w') →
      t.enumType? = some e → w'.decode e.descriptor.isReflectable = .ok true →
      ∃ payload empty, w'.decode e.descriptor.numPayloadCases = .ok payload ∧
        w'.decode e.descriptor.numEmptyCases = .ok empty ∧
        EnumDescriptor.Declares (e.cases.map EnumCase.kind) payload empty := by
  intro h
  obtain ⟨t, w', hread, ht⟩ := Inspect.exists_of_any (x := NominalType.read {} ⟨0x1020⟩)
    (w := .showing (Emit.genericEnum [] 1 2)) (p := fun (t, w') => t.enumType?.any fun e =>
      w'.decode e.descriptor.isReflectable = .ok true ∧
        w'.decode e.descriptor.numPayloadCases = .ok 1 ∧ e.cases = []) (by decide +kernel)
  obtain ⟨e, he, hfacts⟩ := (Option.any_eq_true _ _).1 ht
  obtain ⟨hreflectable, hpayload, hcases⟩ := of_decide_eq_true hfacts
  obtain ⟨payload, empty, hp, -, hcount, -⟩ := h {} _ _ w' t e rfl hread he hreflectable
  rw [hpayload] at hp
  cases hp
  rw [hcases] at hcount
  cases hcount

end NominalType

end TypeMetadata
