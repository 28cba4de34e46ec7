import TypeMetadata.Proofs.EnumCases
import TypeMetadata.Proofs.HeapLedger

/-!
# The table of an enum's cases

The field records of an enum are gone through three times: for its fields, for its cases, and anew
whenever the descriptor is asked whether a case carries a payload. Each time an enum without a field
descriptor is treated like one whose field descriptor lists nothing. `EnumType.listed_of_read`
traces the fields and the cases back to one list of records. `EnumType.table_of_read` says that the
three agree place by place, and that a request by name means the first case of that name, also after
inspections of the values of cases.
-/

namespace TypeMetadata

/-! ## The records behind the views -/

/-- The records that a field descriptor lists; where there is none, nothing is listed. -/
def FieldDescriptor.listed (fields? : Option FieldDescriptor) : List FieldRecord :=
  fields?.elim [] (·.records)

theorem TypeInfo.getD_listedFields (s : Settings) (w : World) (fields? : Option FieldDescriptor) :
    (listedFields s w fields?).getD [] =
      (FieldDescriptor.listed fields?).map (Field.ofRecord s w) := by
  rcases fields? with _ | fields
  · rfl
  · unfold listedFields
    simp only
    split
    · next h => simp [FieldDescriptor.listed, h]
    · rfl

theorem TypeInfo.fields_of_read {s : Settings} {d : NominalDescriptor} {w w' : World} {i : TypeInfo}
    (h : (TypeInfo.read s d).run w = (.ok i, w')) :
    ∃ fields?, w'.decode (d.fields s.limits) = .ok fields? ∧
      i.fields = listedFields s w' fields? := by
  obtain ⟨name, w₁, -, h⟩ := Inspect.run_bind_ok h
  obtain ⟨moduleName, w₂, -, h⟩ := Inspect.run_bind_ok h
  obtain ⟨metadata, w₃, -, h⟩ := Inspect.run_bind_ok h
  obtain ⟨fields?, w₄, hdecode, h⟩ := Inspect.run_bind_ok h
  rw [Inspect.run_decode] at hdecode
  obtain ⟨hfields, rfl⟩ := Prod.mk.inj hdecode
  -- What is left reads the world and does not change it.
  rw [Inspect.run_bind, Inspect.run_get] at h
  cases h
  exact ⟨fields?, hfields, rfl⟩

/-- A witness table is read after the fields, and memory is then as it was for them. -/
theorem ValueType.fields_of_read {s : Settings} {d : NominalDescriptor} {w w' : World}
    {t : ValueType} (h : (ValueType.read s d).run w = (.ok t, w')) :
    ∃ fields?, w'.decode (d.fields s.limits) = .ok fields? ∧
      t.info.fields = TypeInfo.listedFields s w' fields? := by
  obtain ⟨info, w₁, hinfo, h⟩ := Inspect.run_bind_ok h
  have hfields := TypeInfo.fields_of_read hinfo
  split at h
  · cases h
    exact hfields
  · obtain ⟨metadata, w₂, hmetadata, h⟩ := Inspect.run_bind_ok h
    obtain ⟨witnesses, w₃, hwitnesses, h⟩ := Inspect.run_bind_ok h
    rw [Inspect.run_decode] at hmetadata hwitnesses
    obtain ⟨-, rfl⟩ := Prod.mk.inj hmetadata
    obtain ⟨-, rfl⟩ := Prod.mk.inj hwitnesses
    cases h
    exact hfields

theorem CaseKind.ofRecord_eq_payload (r : FieldRecord) :
    decide (CaseKind.ofRecord r = .payload) = r.mangledTypeName.isSome := by
  unfold CaseKind.ofRecord
  cases r.mangledTypeName.isSome <;> rfl

namespace EnumDescriptor

variable {d : EnumDescriptor} {fields : FieldDescriptor} {m : Memory}

/-- Verification refuses cases, it does not change them. -/
theorem kinds_of_classifyCases {verify : Bool} {ks : List CaseKind}
    (h : d.classifyCases fields verify m = .ok ks) : ks = kinds fields := by
  unfold classifyCases at h
  simp only at h
  split at h
  · obtain ⟨payload, -, h⟩ := Decoder.of_bind_ok h
    obtain ⟨empty, -, h⟩ := Decoder.of_bind_ok h
    split at h
    · obtain ⟨_, h, -⟩ := Decoder.of_bind_ok h
      cases h
    · cases h
      rfl
  · cases h
    rfl

theorem isPayloadCase_of_fields {limits : Limits} {fields? : Option FieldDescriptor}
    (h : d.fields limits m = .ok fields?) (index : Nat) :
    d.isPayloadCase limits index m =
      .ok ((FieldDescriptor.listed fields?)[index]?.map (·.mangledTypeName.isSome)) := by
  unfold isPayloadCase
  rw [Decoder.bind_of_ok h]
  rcases fields? with _ | fields
  · rfl
  · change Except.ok (((fields.records.map CaseKind.ofRecord)[index]?).map _) = _
    rw [List.getElem?_map, Option.map_map]
    simp only [Function.comp_def, CaseKind.ofRecord_eq_payload]
    rfl

end EnumDescriptor

namespace EnumType

/-- The case for the record at `index`. -/
def caseOfRecord (s : Settings) (w : World) (index : Nat) (r : FieldRecord) : EnumCase :=
  (entryOf s w index r (.ofRecord r)).case

theorem cases_entriesFrom (s : Settings) (w : World) (records : List FieldRecord) (index : Nat) :
    (entriesFrom s w index records (records.map .ofRecord)).map CaseEntry.case =
      records.mapIdx fun i r => caseOfRecord s w (index + i) r := by
  induction records generalizing index with
  | nil => rfl
  | cons r records ih =>
    rw [List.map_cons, entriesFrom, List.map_cons, ih, List.mapIdx_cons]
    simp only [Nat.add_zero, Nat.add_right_comm, Nat.add_assoc]
    rfl

theorem cases_of_listedEntries {s : Settings} {d : EnumDescriptor} {w : World}
    {fields? : Option FieldDescriptor} {entries : List CaseEntry}
    (hf : w.decode (d.fields s.limits) = .ok fields?) (h : listedEntries s d w = .ok entries) :
    entries.map CaseEntry.case =
      (FieldDescriptor.listed fields?).mapIdx (caseOfRecord s w) := by
  rcases fields? with _ | fields
  · rw [listedEntries_of_no_records hf nofun] at h
    cases h
    rfl
  · by_cases hr : fields.records = []
    · rw [listedEntries_of_no_records hf (by rintro _ ⟨rfl⟩; exact hr)] at h
      cases h
      simp [FieldDescriptor.listed, hr]
    · rw [listedEntries_of_records hf hr] at h
      rcases hk : w.decode (d.classifyCases fields s.verifyEnumCases) with e | ks <;> rw [hk] at h
      · cases h
      · cases h
        rw [EnumDescriptor.kinds_of_classifyCases hk, EnumDescriptor.kinds, cases_entriesFrom]
        simp only [Nat.zero_add]
        rfl

/-- The fields and the cases of an enum come from the same records, which stand in memory when the
enum has been read. -/
theorem listed_of_read {s : Settings} {d : EnumDescriptor} {w w' : World} {t : EnumType}
    (h : (EnumType.read s d).run w = (.ok t, w')) :
    ∃ fields?, w'.decode (d.fields s.limits) = .ok fields? ∧ t.descriptor = d ∧
      t.core.info.fields.getD [] = (FieldDescriptor.listed fields?).map (Field.ofRecord s w') ∧
      t.cases = (FieldDescriptor.listed fields?).mapIdx (caseOfRecord s w') := by
  obtain ⟨core, w₁, hcore, h⟩ := Inspect.run_bind_ok h
  obtain ⟨entries, w₂, hlist, h⟩ := Inspect.run_bind_ok h
  rw [run_readEntries] at hlist
  obtain ⟨hentries, rfl⟩ := Prod.mk.inj hlist
  cases h
  obtain ⟨fields?, hf, hfields⟩ := ValueType.fields_of_read hcore
  refine ⟨fields?, hf, ?_, ?_, cases_of_listedEntries hf hentries⟩
  · rw [descriptor, ValueType.descriptor_of_read hcore]
  · rw [hfields, TypeInfo.getD_listedFields]

theorem length_listed_of_fields {limits : Limits} {d : NominalDescriptor} {m : Memory}
    {fields? : Option FieldDescriptor} (h : d.fields limits m = .ok fields?) :
    (FieldDescriptor.listed fields?).length < 0x100000000 := by
  rcases fields? with _ | fields
  · decide
  · exact NominalDescriptor.length_of_fields h

/-! ## The table -/

/-- The case at `index` belongs to the field at this place. Asked with these limits whether it
carries a payload, the enum and its descriptor give one answer, the latter from what is in `m`. -/
structure InStep (t : EnumType) (limits : Limits) (m : Memory) (index : Nat) (c : EnumCase)
    (f : Field) : Prop where
  tag : c.tag.toNat = index
  name : c.name = f.name
  payloadTypeName : c.payloadTypeName = f.typeName
  ofEnum : t.isPayloadCase index = .ok c.hasPayload
  ofDescriptor : t.descriptor.isPayloadCase limits index m = .ok (some c.hasPayload)

/-- The cases of `t` are in step with the fields that it lists, none for one that lists no fields,
and with the records in `m`. -/
structure Table (t : EnumType) (limits : Limits) (m : Memory) : Prop where
  length : t.cases.length = (t.core.info.fields.getD []).length
  inStep : ∀ (index : Nat) (c : EnumCase), t.cases[index]? = some c →
    ∃ f, (t.core.info.fields.getD [])[index]? = some f ∧ t.InStep limits m index c f
  beyond : ∀ index, t.cases.length ≤ index →
    t.descriptor.isPayloadCase limits index m = .ok none ∧
      t.isPayloadCase index = .error (.precondition (.caseIndexOutOfRange index t.cases.length))

theorem isPayloadCase_of_getElem? {t : EnumType} {index : Nat} {c : EnumCase}
    (h : t.cases[index]? = some c) : t.isPayloadCase index = .ok c.hasPayload := by
  unfold isPayloadCase caseAt
  rw [h]
  rfl

theorem isPayloadCase_of_length_le {t : EnumType} {index : Nat} (h : t.cases.length ≤ index) :
    t.isPayloadCase index =
      .error (.precondition (.caseIndexOutOfRange index t.cases.length)) := by
  unfold isPayloadCase caseAt
  rw [List.getElem?_eq_none h]
  rfl

theorem hasPayload_caseOfRecord (s : Settings) (w : World) (index : Nat) (r : FieldRecord) :
    (caseOfRecord s w index r).hasPayload = r.mangledTypeName.isSome := by
  rw [← CaseKind.ofRecord_eq_payload]
  rfl

theorem Table.of_read {s : Settings} {d : EnumDescriptor} {w w' : World} {t : EnumType}
    (h : (EnumType.read s d).run w = (.ok t, w')) : t.Table s.limits w'.memory := by
  obtain ⟨fields?, hf, rfl, hfields, hcases⟩ := listed_of_read h
  have hlength := length_listed_of_fields hf
  have hpayload := EnumDescriptor.isPayloadCase_of_fields hf
  have hcount : t.cases.length = (FieldDescriptor.listed fields?).length := by
    rw [hcases, List.length_mapIdx]
  refine ⟨?_, fun index c hc => ?_, fun index hi => ⟨?_, isPayloadCase_of_length_le hi⟩⟩
  · rw [hcount, hfields, List.length_map]
  · have hanswer := isPayloadCase_of_getElem? hc
    rw [hcases, List.getElem?_mapIdx, Option.map_eq_some_iff] at hc
    obtain ⟨r, hr, rfl⟩ := hc
    have hindex : index < 0x100000000 := Nat.lt_trans (List.getElem?_eq_some_iff.1 hr).1 hlength
    refine ⟨.ofRecord s w' r, ?_, ?_, rfl, rfl, hanswer, ?_⟩
    · rw [hfields, List.getElem?_map, hr]
      rfl
    · exact (UInt32.toNat_ofNat').trans (Nat.mod_eq_of_lt hindex)
    · rw [hpayload, hr, hasPayload_caseOfRecord]
      rfl
  · rw [hpayload, List.getElem?_eq_none (hcount ▸ hi)]
    rfl

/-! ## Requests by name -/

/-- What `t` may have become: the values of its cases were inspected, one after another, whatever
was asked of them and in whatever world. -/
inductive Inspected (t : EnumType) : EnumType → Prop
  | start : Inspected t t
  | caseValue {u : EnumType} {α : Type} (h : Inspected t u) (name : String)
    (x : InspectOn Value α) (w : World) : Inspected t ((onCaseValue name x).runOn u w).1.2

theorem keep_fixes {t : EnumType} {name : String} {entry : CaseEntry}
    (h : t.entry? name = some entry) (v : Value) :
    (t.keep entry v).core = t.core ∧ (t.keep entry v).cases = t.cases := by
  have hname := name_of_found h
  subst hname
  cases v with
  | enum type state payload => exact ⟨rfl, Keyed.map_put_of_find? _ h rfl⟩
  | struct _ _ | object _ => exact ⟨rfl, rfl⟩

theorem onCaseValue_fixes {α : Type} (t : EnumType) (name : String) (x : InspectOn Value α)
    (w : World) : ((onCaseValue name x).runOn t w).1.2.core = t.core ∧
      ((onCaseValue name x).runOn t w).1.2.cases = t.cases := by
  rcases hr : t.requireEmptyCase name with e | entry
  · rw [runOn_onCaseValue_of_error hr]
    exact ⟨rfl, rfl⟩
  · rw [runOn_onCaseValue_of_ok hr]
    exact keep_fixes (entry?_of_requireEmptyCase hr) _

/-- Inspections of its values change neither an enum's type nor its cases. -/
theorem Inspected.fixes {t u : EnumType} (h : Inspected t u) :
    u.core = t.core ∧ u.cases = t.cases := by
  induction h with
  | start => exact ⟨rfl, rfl⟩
  | @caseValue u _ _ name x w ih =>
    obtain ⟨hcore, hcases⟩ := onCaseValue_fixes u name x w
    exact ⟨hcore.trans ih.1, hcases.trans ih.2⟩

theorem Table.of_eq {t u : EnumType} {limits : Limits} {m : Memory} (h : t.Table limits m)
    (hcore : u.core = t.core) (hcases : u.cases = t.cases) : u.Table limits m := by
  have hdescriptor : u.descriptor = t.descriptor := by rw [descriptor, descriptor, hcore]
  have hpayload (index : Nat) : u.isPayloadCase index = t.isPayloadCase index := by
    unfold isPayloadCase caseAt
    rw [hcases]
  refine ⟨?_, fun index c hc => ?_, fun index hi => ?_⟩
  · rw [hcases, hcore, h.length]
  · rw [hcases] at hc
    obtain ⟨f, hf, hstep⟩ := h.inStep index c hc
    rw [hcore]
    refine ⟨f, hf, { hstep with ofEnum := ?_, ofDescriptor := ?_ }⟩
    · rw [hpayload, hstep.ofEnum]
    · rw [hdescriptor, hstep.ofDescriptor]
  · rw [hcases] at hi ⊢
    rw [hdescriptor, hpayload]
    exact h.beyond index hi

/-- Requests by `name` mean the case of `entry`, which is the first with this name, and the entry
stands at the place that the tag gives. -/
structure MeansFirst (t : EnumType) (name : String) (entry : CaseEntry) : Prop where
  named : entry.case.name = name
  slot : t.entries[entry.case.tag.toNat]? = some entry
  first : ∀ (j : Nat) (c : EnumCase), j < entry.case.tag.toNat → t.cases[j]? = some c →
    c.name ≠ name
  case : t.case? name = some entry.case
  value : t.caseValue name =
    if entry.case.hasPayload then .error (.precondition (.payloadRequired name))
    else .ok (.enum t.core entry.state none)
  made : ∀ (payload : Option Value) (w : World), ((t.makeCase name payload).run w).1 =
    if payload.isSome = entry.case.hasPayload then .ok (.ofCase t.core entry.case.tag payload)
    else if entry.case.hasPayload then .error (.precondition (.payloadRequired name))
    else .error (.precondition (.unexpectedPayload name))

/-- No case has this name, and every request by it is refused. -/
structure MeansNone (t : EnumType) (name : String) : Prop where
  unnamed : ∀ c ∈ t.cases, c.name ≠ name
  case : t.case? name = none
  value : t.caseValue name = .error (.precondition (.unknownCase t.core.qualifiedName name))
  made : ∀ (payload : Option Value) (w : World), ((t.makeCase name payload).run w).1 =
    .error (.precondition (.unknownCase t.core.qualifiedName name))

theorem run_makeCase (t : EnumType) (name : String) (payload : Option Value) (w : World) :
    ((t.makeCase name payload).run w).1 = t.caseOf name payload := by
  unfold makeCase
  rcases t.caseOf name payload with e | v <;> rfl

theorem meansNone {t : EnumType} {name : String} (h : t.entry? name = none) :
    t.MeansNone name := by
  have hentry : t.requireEntry name =
      .error (.precondition (.unknownCase t.core.qualifiedName name)) := by
    rw [requireEntry, h]
    rfl
  refine ⟨fun c hc => ?_, ?_, ?_, fun payload w => ?_⟩
  · obtain ⟨e, he, rfl⟩ := List.mem_map.1 hc
    simpa using List.find?_eq_none.1 h e he
  · rw [case?, h]
    rfl
  · rw [caseValue, requireEmptyCase, hentry]
    rfl
  · rw [run_makeCase, caseOf, hentry]
    rfl

theorem Table.meansFirst {t : EnumType} {limits : Limits} {m : Memory} (ht : t.Table limits m)
    {name : String} {entry : CaseEntry} (h : t.entry? name = some entry) :
    t.MeansFirst name entry := by
  have hentry : t.requireEntry name = .ok entry := by
    rw [requireEntry, h]
    rfl
  obtain ⟨hnamed, i, hi, hslot, hfirst⟩ := List.find?_eq_some_iff_getElem.1 h
  have hname : entry.case.name = name := of_decide_eq_true hnamed
  have hplace : t.entries[i]? = some entry := List.getElem?_eq_some_iff.2 ⟨hi, hslot⟩
  -- The tag of a case is its place, which is therefore the one that the search has found.
  obtain ⟨f, -, hstep⟩ := ht.inStep i entry.case (by rw [cases, List.getElem?_map, hplace]; rfl)
  refine ⟨hname, hstep.tag ▸ hplace, fun j c hj hc => ?_, ?_, ?_, fun payload w => ?_⟩
  · rw [cases, List.getElem?_map, Option.map_eq_some_iff] at hc
    obtain ⟨e, he, rfl⟩ := hc
    obtain ⟨hlt, rfl⟩ := List.getElem?_eq_some_iff.1 he
    simpa using hfirst j (hstep.tag ▸ hj)
  · rw [case?, h]
    rfl
  · rw [caseValue, requireEmptyCase, hentry, ← hname]
    rcases hpayload : entry.case.hasPayload with _ | _ <;>
      simp only [bind, Except.bind, hpayload] <;> rfl
  · rw [run_makeCase, caseOf, hentry, EnumCase.hasPayload, ← hname]
    simp only [bind, Except.bind]
    rcases entry.case.kind with _ | _ <;> rcases payload with _ | _ <;> rfl

/-- When an enum has been read, its cases are as many as the fields that it lists, and the case at
each place has this place for its tag, the field's name and the field's type name. The enum and its
descriptor agree on which cases carry a payload, as long as memory is as it was then; beyond the
last case the descriptor has no answer and the enum refuses to give one. However the values of its
cases are inspected afterwards, none of that changes, and a name means the first case with it in
every request by name, for which an entry stands at the place of the case's tag. -/
theorem table_of_read {s : Settings} {d : EnumDescriptor} {w w' : World} {t : EnumType}
    (h : (EnumType.read s d).run w = (.ok t, w')) :
    t.descriptor = d ∧ ∀ u, t.Inspected u → u.descriptor = d ∧ u.core = t.core ∧
      u.Table s.limits w'.memory ∧
      ∀ name, u.MeansNone name ∨ ∃ entry, u.MeansFirst name entry := by
  obtain ⟨fields?, -, hd, -⟩ := listed_of_read h
  have ht := Table.of_read h
  refine ⟨hd, fun u hu => ?_⟩
  obtain ⟨hcore, hcases⟩ := hu.fixes
  have htable := ht.of_eq hcore hcases
  refine ⟨by rw [← hd, descriptor, descriptor, hcore], hcore, htable, fun name => ?_⟩
  rcases hentry : u.entry? name with _ | entry
  · exact .inl (meansNone hentry)
  · exact .inr ⟨entry, htable.meansFirst hentry⟩

/-- Of two cases with one name the first takes a payload. The value of the second cannot be had by
name, then. -/
theorem table_of_read_twins :
    let cases : List FieldSpec := [{ name := "a", mangledType := some "Si" }, { name := "a" }]
    let d : EnumDescriptor := ⟨⟨⟨⟨0x1040⟩, ⟨0xD2⟩, .enumType⟩⟩⟩
    ∃ t w', (EnumType.read {} d).run (.showing (Emit.genericEnum cases 1 1)) = (.ok t, w') ∧
      t.cases.map EnumCase.hasPayload = [true, false] ∧ t.Table {} w'.memory ∧
      t.caseValue "a" = .error (.precondition (.payloadRequired "a")) := by
  intro cases d
  obtain ⟨t, w', hread, ht⟩ := Inspect.exists_of_any (x := EnumType.read {} d)
    (w := .showing (Emit.genericEnum cases 1 1)) (p := fun (t, _) =>
      decide (t.cases.map EnumCase.hasPayload = [true, false]) &&
        (t.entry? "a").any fun entry => entry.case.hasPayload) (by decide +kernel)
  obtain ⟨hcases, hentry⟩ := Bool.and_eq_true_iff.1 ht
  obtain ⟨entry, hfind, hpayload⟩ := (Option.any_eq_true _ _).1 hentry
  obtain ⟨-, -, htable, -⟩ := (table_of_read hread).2 t .start
  have hvalue := (htable.meansFirst hfind).value
  rw [if_pos hpayload] at hvalue
  exact ⟨t, w', hread, of_decide_eq_true hcases, htable, hvalue⟩

end EnumType

end TypeMetadata
