import TypeMetadata.Emit.Field
import TypeMetadata.Proofs.LoadedImage

/-!
# Field descriptors laid out and read back

The layout makes two passes: over the records, which then lie a stride apart, and over the names,
which go behind all records and are patched into them. `names_ok` is the second pass: it works on
the records that are left, and `Image.Frame` keeps those that are done. The reader goes by the
record size that the descriptor declares, which is the stride unless it is too small, so
`field_round_trip` has an exact domain, and says how each descriptor outside it is refused.
-/

namespace TypeMetadata

/-- Bytes from one record to the next. -/
def recordStride (recordSize : UInt16) : Nat := 12 + (recordSize.toNat - 12)

theorem recordStride_eq {recordSize : UInt16} (h : 12 ≤ recordSize) :
    recordStride recordSize = recordSize.toNat := by
  have : 12 ≤ recordSize.toNat := UInt16.le_iff_toNat_le.1 h
  unfold recordStride
  omega

namespace Image

/-- A record for `field` stands at `k`, still without its names. -/
structure HoldsBlank (i : Image) (k : Nat) (field : FieldSpec) : Prop where
  flags : i.Holds k (bytesOf32 (FieldFlags.ofVar field.isVar).bits)
  mangledTypeName : i.Points (k + 4) none

/-- At `mangled` stands the type name of `field`, at `lo` or behind; without one it is `none`. -/
def SpellsType (j : Image) (lo : Nat) (field : FieldSpec) : Option Address → Prop
  | none => field.mangledType = none
  | some a => ∃ text, field.mangledType = some text ∧ j.Spells lo a text

/-- A record for `field` stands at `k`, with its names at `lo` or behind. -/
structure HoldsField (j : Image) (k lo : Nat) (field : FieldSpec) (mangled : Option Address) :
    Prop where
  flags : j.Holds k (bytesOf32 (FieldFlags.ofVar field.isVar).bits)
  mangledTypeName : j.Points (k + 4) mangled
  typeText : j.SpellsType lo field mangled
  name : j.Names (k + 8) lo field.name

/-- A field descriptor for `fields` stands at `k`, with their type names at `mangled`. -/
structure HoldsFields (j : Image) (k : Nat) (kind : FieldKind) (fields : List FieldSpec)
    (recordSize : UInt16) (mangled : List (Option Address)) : Prop where
  aligned : (j.base.toNat + k) % 4 = 0
  mangledTypeName : j.Points k none
  superclass : j.Points (k + 4) none
  kind : j.Holds (k + 8) (bytesOf16 (UInt16.ofNat kind.raw))
  declaredSize : j.Holds (k + 10) (bytesOf16 recordSize)
  count : j.Holds (k + 12) (bytesOf32 (UInt32.ofNat fields.length))
  length : mangled.length = fields.length
  records : ∀ n field, fields[n]? = some field → ∃ target lo, mangled[n]? = some target ∧
    j.HoldsField (k + 16 + recordStride recordSize * n) lo field target

variable {i j : Image} {k lo hi low : Nat} {field : FieldSpec} {mangled : Option Address}

theorem Frame.holdsBlank (h : Frame i j lo hi) (hk : i.HoldsBlank k field) (hout : hi ≤ k) :
    j.HoldsBlank k field :=
  ⟨h.holds hk.flags (.inr hout), h.points hk.mangledTypeName (.inr (by omega))⟩

theorem Frame.spellsType (h : Frame i j lo hi) (hk : i.SpellsType low field mangled)
    (hout : hi ≤ low) : j.SpellsType low field mangled := by
  cases mangled with
  | none => exact hk
  | some a =>
    obtain ⟨text, ht, hspells⟩ := hk
    exact ⟨text, ht, h.spells hspells hout⟩

theorem Frame.holdsField (h : Frame i j lo hi) (hk : i.HoldsField k low field mangled)
    (hbefore : k + 12 ≤ lo) (hbehind : hi ≤ low) : j.HoldsField k low field mangled := by
  exact ⟨h.holds32 hk.flags (.inl (by omega)), h.points hk.mangledTypeName (.inl (by omega)),
    h.spellsType hk.typeText hbehind, h.names hk.name (.inl (by omega)) hbehind⟩

theorem HoldsFields.isSome_mangled {kind : FieldKind} {fields : List FieldSpec}
    {recordSize : UInt16} {mangled : List (Option Address)}
    (h : i.HoldsFields k kind fields recordSize mangled) :
    mangled.map Option.isSome = fields.map (·.mangledType.isSome) := by
  apply List.ext_getElem?
  intro n
  rw [List.getElem?_map, List.getElem?_map]
  rcases hn : fields[n]? with _ | field
  · rw [List.getElem?_eq_none (h.length ▸ List.getElem?_eq_none_iff.1 hn)]
    rfl
  · obtain ⟨target, lo, ht, hholds⟩ := h.records n field hn
    have htype := hholds.typeText
    rw [ht]
    cases target with
    | none =>
      rw [SpellsType] at htype
      simp [htype]
    | some a =>
      obtain ⟨text, htext, -⟩ := htype
      simp [htext]

end Image

namespace Emit

variable {i j : Image} {k lo : Nat}

/-! ## The records -/

theorem fieldRecord_ok {recordSize : UInt16} {field : FieldSpec} {a : Address}
    (h : (fieldRecord recordSize field).run i = .ok (a, j)) :
    a = i.addressAt i.bytes.size ∧ Image.Grown i j ∧
      j.bytes.size = i.bytes.size + recordStride recordSize ∧
      j.HoldsBlank i.bytes.size field := by
  obtain ⟨start, i₁, h₁, h⟩ := Build.run_bind_ok h
  obtain ⟨_, i₂, h₂, h⟩ := Build.run_bind_ok h
  obtain ⟨_, i₃, h₃, h⟩ := Build.run_bind_ok h
  obtain ⟨_, i₄, h₄, h⟩ := Build.run_bind_ok h
  cases h
  obtain ⟨ha, hgrown₁, hsize₁, hflags⟩ := Build.pushU32_ok h₁
  obtain ⟨-, hgrown₂, hsize₂, hzero⟩ := Build.pushU32_ok h₂
  obtain ⟨-, hgrown₃, hsize₃, -⟩ := Build.pushU32_ok h₃
  obtain ⟨hgrown₄, hsize₄⟩ := Build.reserve_ok h₄
  have hgrown := hgrown₃.trans hgrown₄
  rw [show FieldRecord.minimumSize.toNat = 12 from rfl] at hsize₄
  refine ⟨ha, (hgrown₁.trans hgrown₂).trans hgrown, ?_, ?_⟩
  · unfold recordStride
    omega
  · refine ⟨(hgrown₂.trans hgrown).holds hflags, 0, ?_, rfl⟩
    rw [← hsize₁]
    exact hgrown.holds hzero

theorem records_ok {recordSize : UInt16} {fields : List FieldSpec} {records : List Address}
    (h : (fields.mapM (fieldRecord recordSize)).run i = .ok (records, j)) :
    records = (List.range' i.bytes.size fields.length (recordStride recordSize)).map i.addressAt ∧
      Image.Grown i j ∧
      j.bytes.size = i.bytes.size + recordStride recordSize * fields.length ∧
      ∀ n field, fields[n]? = some field →
        j.HoldsBlank (i.bytes.size + recordStride recordSize * n) field := by
  induction fields generalizing i records with
  | nil =>
    cases h
    exact ⟨rfl, Image.Frame.refl _ 0 0, rfl, nofun⟩
  | cons field fields ih =>
    rw [List.mapM_cons] at h
    obtain ⟨a, i₁, hfirst, h⟩ := Build.run_bind_ok h
    obtain ⟨rest, i₂, hrest, h⟩ := Build.run_bind_ok h
    cases h
    obtain ⟨ha, hgrown₁, hsize₁, hblank⟩ := fieldRecord_ok hfirst
    obtain ⟨hrecords, hgrown, hsize, hblanks⟩ := ih hrest
    refine ⟨?_, hgrown₁.trans hgrown, ?_, fun n f hn => ?_⟩
    · rw [List.length_cons, List.range'_succ, List.map_cons, ha, hrecords, hsize₁]
      congr 1
      rw [hgrown₁.addressAt_eq]
    · rw [hsize, hsize₁, List.length_cons, Nat.mul_add]
      omega
    · cases n with
      | zero =>
        cases hn
        exact hgrown.holdsBlank hblank (Nat.zero_le _)
      | succ n =>
        have := hblanks n f (by simpa using hn)
        rwa [hsize₁, Nat.add_assoc, Nat.add_comm (recordStride _), ← Nat.mul_succ] at this

/-! ## The names -/

theorem fits_of_fieldNames {field : FieldSpec} {a : Address} {mangled : Option Address}
    (h : (fieldNames field a).run i = .ok (mangled, j)) (hfits : j.Fits) : i.Fits := by
  obtain ⟨target, i₁, htype, h⟩ := Build.run_bind_ok h
  obtain ⟨_, i₂, hname, h⟩ := Build.run_bind_ok h
  cases h
  have hfits₁ := fits_of_nameAt hname hfits
  rcases ht : field.mangledType with _ | text <;> rw [ht] at htype
  · cases htype
    exact hfits₁
  · obtain ⟨t, htext, -⟩ := Build.run_map_ok htype
    exact fits_of_textAt htext hfits₁

theorem typeName_ok {field : FieldSpec} {a : Address} {mangled : Option Address}
    (h : (field.mangledType.mapM (textAt a)).run i = .ok (mangled, j)) (ha : a = i.addressAt k)
    (hfits : j.Fits) (hnull : i.Points k none) (hk : k + 4 ≤ i.bytes.size)
    (hlo : lo ≤ i.bytes.size) :
    Image.Frame i j k (k + 4) ∧ j.Points k mangled ∧ j.SpellsType lo field mangled := by
  rcases ht : field.mangledType with _ | text <;> rw [ht] at h
  · cases h
    exact ⟨Image.Frame.refl _ _ _, hnull, ht⟩
  · obtain ⟨t, htext, rfl⟩ := Build.run_map_ok h
    obtain ⟨hframe, -, hpoints, hspells⟩ := textAt_ok htext ha hfits hk hlo
    exact ⟨hframe, hpoints, text, ht, hspells⟩

theorem fieldNames_ok {field : FieldSpec} {a : Address} {mangled : Option Address}
    (h : (fieldNames field a).run i = .ok (mangled, j)) (ha : a = i.addressAt k) (hfits : j.Fits)
    (hblank : i.HoldsBlank k field) (hk : k + 12 ≤ lo) (hlo : lo ≤ i.bytes.size) :
    Image.Frame i j (k + 4) (k + 12) ∧ j.HoldsField k lo field mangled := by
  obtain ⟨target, i₁, htype, h⟩ := Build.run_bind_ok h
  obtain ⟨_, i₂, hname, h⟩ := Build.run_bind_ok h
  cases h
  obtain ⟨hframe₁, hpoints, hspells⟩ := typeName_ok htype
    (by rw [ha]; exact Image.addressAt_add i k rfl) (fits_of_nameAt hname hfits)
    hblank.mangledTypeName (by omega) hlo
  have hsize₁ := hframe₁.size
  have ha₁ : a + FieldRecord.nameOffset = i₁.addressAt (k + 8) := by
    rw [ha]
    exact hframe₁.offset rfl
  obtain ⟨hframe₂, -, hnames⟩ := nameAt_ok hname ha₁ hfits (by omega) (Nat.le_trans hlo hsize₁)
  have hframe : Image.Frame i j (k + 4) (k + 12) :=
    hframe₁.trans hframe₂ fun _ _ hout => by omega
  exact ⟨hframe, hframe.holds32 hblank.flags (.inl (by omega)),
    hframe₂.points hpoints (.inl (by omega)), hframe₂.spellsType hspells (by omega), hnames⟩

theorem names_ok {fields : List FieldSpec} {mangled : List (Option Address)} {stride hi : Nat}
    (h : ((fields.zip ((List.range' k fields.length stride).map i.addressAt)).mapM
      fun (field, a) => fieldNames field a).run i = .ok (mangled, j)) (hfits : j.Fits)
    (hblank : ∀ n field, fields[n]? = some field → i.HoldsBlank (k + stride * n) field)
    (hstride : 12 ≤ stride) (hhi : k + stride * fields.length = hi) (hsize : hi ≤ i.bytes.size) :
    Image.Frame i j k hi ∧ mangled.length = fields.length ∧
      ∀ n field, fields[n]? = some field →
        ∃ target, mangled[n]? = some target ∧ j.HoldsField (k + stride * n) hi field target := by
  induction fields generalizing i k mangled with
  | nil =>
    cases h
    exact ⟨Image.Frame.refl _ _ _, rfl, nofun⟩
  | cons field fields ih =>
    rw [List.length_cons, List.range'_succ, List.map_cons, List.zip_cons_cons, List.mapM_cons] at h
    obtain ⟨target, i₁, hfirst, h⟩ := Build.run_bind_ok h
    obtain ⟨rest, i₂, hrest, h⟩ := Build.run_bind_ok h
    cases h
    rw [List.length_cons, Nat.mul_add, Nat.mul_one] at hhi
    have hfits₁ := Build.fits_of_mapM hrest hfits fun _ _ _ _ => fits_of_fieldNames
    obtain ⟨hframe₁, hfield⟩ :=
      fieldNames_ok hfirst rfl hfits₁ (hblank 0 field rfl) (by omega) hsize
    have hsize₁ := hframe₁.size
    have hlater : ∀ n f, fields[n]? = some f → i₁.HoldsBlank (k + stride + stride * n) f := by
      intro n f hn
      have := hblank (n + 1) f (by simpa using hn)
      rw [Nat.mul_add, Nat.mul_one, Nat.add_comm (stride * n), ← Nat.add_assoc] at this
      exact hframe₁.holdsBlank this (by omega)
    rw [← hframe₁.addressAt_eq] at hrest
    obtain ⟨hframe, hlength, hfields⟩ := ih hrest hlater (by omega) (by omega)
    refine ⟨?_, by rw [List.length_cons, List.length_cons, hlength], fun n f hn => ?_⟩
    · exact hframe₁.trans hframe fun _ _ hout => by omega
    · cases n with
      | zero =>
        cases hn
        exact ⟨target, rfl, hframe.holdsField hfield (by omega) (Nat.le_refl _)⟩
      | succ n =>
        obtain ⟨t, ht, hholds⟩ := hfields n f (by simpa using hn)
        refine ⟨t, by simpa using ht, ?_⟩
        rwa [Nat.add_assoc, Nat.add_comm stride, ← Nat.mul_succ] at hholds

/-- What stands in the image once a field descriptor is laid out. -/
theorem fieldDescriptor_ok {kind : FieldKind} {fields : List FieldSpec} {recordSize : UInt16}
    {e : EmittedFields} (h : (fieldDescriptor kind fields recordSize).run i = .ok (e, j))
    (hfits : j.Fits) :
    ∃ k, e.address = j.addressAt k ∧
      j.HoldsFields k kind fields recordSize e.mangledNames := by
  obtain ⟨_, i₁, halign, h⟩ := Build.run_bind_ok h
  obtain ⟨start, i₂, h₂, h⟩ := Build.run_bind_ok h
  obtain ⟨_, i₃, h₃, h⟩ := Build.run_bind_ok h
  obtain ⟨_, i₄, h₄, h⟩ := Build.run_bind_ok h
  obtain ⟨_, i₅, h₅, h⟩ := Build.run_bind_ok h
  obtain ⟨_, i₆, h₆, h⟩ := Build.run_bind_ok h
  obtain ⟨records, i₇, hrecords, h⟩ := Build.run_bind_ok h
  obtain ⟨mangled, i₈, hnames, h⟩ := Build.run_bind_ok h
  cases h
  have hmod := Build.align_ok halign
  obtain ⟨rfl, hgrown₂, hsize₂, hmangled⟩ := Build.pushU32_ok h₂
  obtain ⟨-, hgrown₃, hsize₃, hsuper⟩ := Build.pushU32_ok h₃
  obtain ⟨-, hgrown₄, hsize₄, hkind⟩ := Build.pushU16_ok h₄
  obtain ⟨-, hgrown₅, hsize₅, hrecordSize⟩ := Build.pushU16_ok h₅
  obtain ⟨-, hgrown₆, hsize₆, hcount⟩ := Build.pushU32_ok h₆
  obtain ⟨rfl, hgrown₇, hsize₇, hblank⟩ := records_ok hrecords
  rw [← hgrown₇.addressAt_eq] at hnames
  have hstride : 12 ≤ recordStride recordSize := Nat.le_add_right _ _
  obtain ⟨hframe, hlength, hfields⟩ := names_ok hnames hfits hblank hstride hsize₇.symm
    (Nat.le_refl _)
  have hrest₅ := hgrown₆.trans hgrown₇
  have hrest₄ := hgrown₅.trans hrest₅
  have hrest₃ := hgrown₄.trans hrest₄
  have hrest₂ := hgrown₃.trans hrest₃
  have hall : ∀ l, j.addressAt l = i₁.addressAt l := fun l => by
    rw [hframe.addressAt, hrest₂.addressAt, hgrown₂.addressAt]
  have hbase : j.base = i₁.base := by rw [hframe.base, hrest₂.base, hgrown₂.base]
  refine ⟨i₁.bytes.size, (hall _).symm, ⟨by rw [hbase, hmod], ?_, ?_, ?_, ?_, ?_, hlength, ?_⟩⟩
  · exact hframe.points ⟨0, hrest₂.holds hmangled, rfl⟩ (.inl (by omega))
  · rw [← hsize₂]
    exact hframe.points ⟨0, hrest₃.holds hsuper, rfl⟩ (.inl (by omega))
  · rw [show i₁.bytes.size + 8 = i₃.bytes.size by omega]
    exact hframe.holds16 (hrest₄.holds hkind) (.inl (by omega))
  · rw [show i₁.bytes.size + 10 = i₄.bytes.size by omega]
    exact hframe.holds16 (hrest₅.holds hrecordSize) (.inl (by omega))
  · rw [show i₁.bytes.size + 12 = i₅.bytes.size by omega]
    exact hframe.holds32 (hgrown₇.holds hcount) (.inl (by omega))
  · intro n field hn
    obtain ⟨target, ht, hholds⟩ := hfields n field hn
    refine ⟨target, i₇.bytes.size, ht, ?_⟩
    rw [show i₁.bytes.size + 16 = i₆.bytes.size by omega]
    exact hholds

end Emit

/-! ## What is read back -/

section Readers

variable {m : Memory} {j : Image} {k lo : Nat} {limits : Limits}

/-- What a record says of `field`, whose type name stands at `mangled`. -/
def FieldSpec.record (field : FieldSpec) (mangled : Option Address) : FieldRecord :=
  ⟨.ofVar field.isVar, mangled, field.name⟩

theorem FieldRecord.read_of_holds (h : m.Shows j) {field : FieldSpec} {mangled : Option Address}
    (hk : j.HoldsField k lo field mangled) (ha : (j.base.toNat + k) % 4 = 0)
    (hzero : 0 ∉ bytesOfText field.name)
    (hlimit : (bytesOfText field.name).length < limits.nameLength) :
    FieldRecord.read limits (j.addressAt k) m = .ok (field.record mangled) := by
  obtain ⟨a, hpoints, l, -, rfl, htext⟩ := hk.name
  unfold FieldRecord.read
  rw [Decoder.bind_of_ok (Decoder.u32_of_holds h hk.flags ha),
    Image.addressAt_add j k (n := 4) rfl,
    Decoder.bind_of_ok (RelativePointer.direct_of_points h hk.mangledTypeName (by omega)),
    Image.addressAt_add j k (n := 8) rfl,
    Decoder.bind_of_ok (RelativePointer.direct_of_points h hpoints (by omega))]
  simp only
  rw [Decoder.bind_of_ok (Name.read_of_holds h htext hzero hlimit)]
  rfl

variable {kind : FieldKind} {fields : List FieldSpec} {recordSize : UInt16}
  {mangled : List (Option Address)}

theorem FieldDescriptor.read_of_holds (h : m.Shows j)
    (hk : j.HoldsFields k kind fields recordSize mangled)
    (hlimit : fields.length ≤ limits.fields.toNat) :
    FieldDescriptor.read limits (j.addressAt k) m =
      if 0 < fields.length ∧ recordSize < FieldRecord.minimumSize then
        .error (.decode (.fieldRecordSize (j.addressAt k) recordSize FieldRecord.minimumSize))
      else
        (Decoder.series (FieldRecord.read limits) recordSize.toUInt64 fields.length
          (j.addressAt (k + 16)) m).map fun records =>
            ⟨j.addressAt k, kind, none, none, records⟩ := by
  have haligned := hk.aligned
  have hcount := toNat_ofNat_of_le hlimit
  have hsmall := not_lt_ofNat_of_le hlimit
  have hpositive : 0 < UInt32.ofNat fields.length ↔ 0 < fields.length := by
    rw [UInt32.lt_iff_toNat_lt, hcount]
    rfl
  have hraw : (UInt16.ofNat kind.raw).toNat = kind.raw := by
    cases kind <;> rfl
  have hkind : Decoder.require (FieldKind.ofRaw? (UInt16.ofNat kind.raw).toNat)
      (.unknownFieldKind (j.addressAt k) (.ofNat kind.raw)) m = .ok kind := by
    rw [hraw, FieldKind.ofRaw?_raw]
    rfl
  unfold FieldDescriptor.read
  rw [Image.addressAt_add j k (n := 8) rfl,
    Decoder.bind_of_ok (Decoder.u16_of_holds h hk.kind (by omega)),
    Decoder.bind_of_ok (a := kind) hkind, Image.addressAt_add j k (n := 10) rfl,
    Decoder.bind_of_ok (Decoder.u16_of_holds h hk.declaredSize (by omega)),
    Image.addressAt_add j k (n := 12) rfl,
    Decoder.bind_of_ok (Decoder.u32_of_holds h hk.count (by omega))]
  simp only [hsmall, if_false, hcount, hpositive]
  by_cases hshort : 0 < fields.length ∧ recordSize < FieldRecord.minimumSize
  · rw [if_pos hshort, if_pos hshort]
    rfl
  · rw [if_neg hshort, if_neg hshort, Image.addressAt_add j k (n := 16) rfl]
    rcases hseries : Decoder.series (FieldRecord.read limits) recordSize.toUInt64 fields.length
      (j.addressAt (k + 16)) m with e | records
    · rw [Decoder.bind_of_error hseries]
      rfl
    · rw [Decoder.bind_of_ok hseries,
        Decoder.bind_of_ok (RelativePointer.direct_of_points h hk.mangledTypeName haligned),
        Image.addressAt_add j k (n := 4) rfl,
        Decoder.bind_of_ok (RelativePointer.direct_of_points h hk.superclass (by omega))]
      rfl

/-- Records that all stand on words are read in their order. -/
theorem FieldRecord.series_of_holds (h : m.Shows j)
    (hk : j.HoldsFields k kind fields recordSize mangled)
    (hdomain : fields = [] ∨ 12 ≤ recordSize ∧ (recordSize.toNat % 4 = 0 ∨ fields.length = 1))
    (hzero : ∀ field ∈ fields, 0 ∉ bytesOfText field.name)
    (hlimit : ∀ field ∈ fields, (bytesOfText field.name).length < limits.nameLength) :
    Decoder.series (FieldRecord.read limits) recordSize.toUInt64 fields.length
      (j.addressAt (k + 16)) m = .ok (fields.zipWith FieldSpec.record mangled) := by
  have hlength : (fields.zipWith FieldSpec.record mangled).length = fields.length := by
    rw [List.length_zipWith, hk.length, Nat.min_self]
  rw [← hlength]
  apply Decoder.series_ok
  intro n r hr
  obtain ⟨field, target, hn, htarget, rfl⟩ := List.getElem?_zipWith_eq_some.1 hr
  obtain ⟨_, lo, htarget', hholds⟩ := hk.records n field hn
  rw [htarget] at htarget'
  cases htarget'
  have hmem := List.mem_of_getElem? hn
  obtain ⟨henough, hstep⟩ := hdomain.resolve_left (List.ne_nil_of_mem hmem)
  have hat : (j.base.toNat + (k + 16 + recordSize.toNat * n)) % 4 = 0 := by
    have haligned := hk.aligned
    have hlt := (List.getElem?_eq_some_iff.1 hn).1
    rcases hstep with hstep | hone
    · have : recordSize.toNat * n % 4 = 0 := by rw [Nat.mul_mod, hstep, Nat.zero_mul]
      omega
    · obtain rfl : n = 0 := by omega
      omega
  rw [recordStride_eq henough] at hholds
  rw [show recordSize.toUInt64.toNat = recordSize.toNat from rfl]
  exact read_of_holds h hholds hat (hzero field hmem) (hlimit field hmem)

/-- A descriptor whose records all stand on words is read as it was laid out. -/
theorem FieldDescriptor.read_records (h : m.Shows j)
    (hk : j.HoldsFields k kind fields recordSize mangled)
    (hlimit : fields.length ≤ limits.fields.toNat)
    (hdomain : fields = [] ∨ 12 ≤ recordSize ∧ (recordSize.toNat % 4 = 0 ∨ fields.length = 1))
    (hzero : ∀ field ∈ fields, 0 ∉ bytesOfText field.name)
    (hlength : ∀ field ∈ fields, (bytesOfText field.name).length < limits.nameLength) :
    FieldDescriptor.read limits (j.addressAt k) m =
      .ok ⟨j.addressAt k, kind, none, none, fields.zipWith FieldSpec.record mangled⟩ := by
  rw [read_of_holds h hk hlimit, if_neg, FieldRecord.series_of_holds h hk hdomain hzero hlength]
  · rfl
  · rintro ⟨hsome, hshort⟩
    obtain ⟨henough, -⟩ := hdomain.resolve_left (List.length_pos_iff.1 hsome)
    exact UInt16.not_le.2 hshort henough

/-- The second record is not read when the first one ends off a word. -/
theorem FieldRecord.series_misaligned (h : m.Shows j)
    (hk : j.HoldsFields k kind fields recordSize mangled) (htwo : 2 ≤ fields.length)
    (hodd : recordSize.toNat % 4 ≠ 0)
    (hzero : ∀ field ∈ fields, 0 ∉ bytesOfText field.name)
    (hlimit : ∀ field ∈ fields, (bytesOfText field.name).length < limits.nameLength) :
    Decoder.series (FieldRecord.read limits) recordSize.toUInt64 fields.length
      (j.addressAt (k + 16)) m =
        .error (.memory (.misaligned (j.addressAt (k + 16 + recordSize.toNat)) 4)) := by
  have haligned := hk.aligned
  obtain ⟨first, second, rest, rfl⟩ : ∃ first second rest, fields = first :: second :: rest := by
    match fields, htwo with
    | first :: second :: rest, _ => exact ⟨first, second, rest, rfl⟩
  obtain ⟨target, lo, -, hholds⟩ := hk.records 0 first rfl
  rw [Nat.mul_zero, Nat.add_zero] at hholds
  have hfirst := read_of_holds h hholds (by omega) (hzero first List.mem_cons_self)
    (hlimit first List.mem_cons_self)
  have hsecond : FieldRecord.read limits (j.addressAt (k + 16 + recordSize.toNat)) m =
      .error (.memory (.misaligned (j.addressAt (k + 16 + recordSize.toNat)) 4)) :=
    Decoder.bind_of_error (Decoder.u32_misaligned (by omega))
  rw [List.length_cons, List.length_cons, Decoder.series, Decoder.bind_of_ok hfirst,
    Image.addressAt_add j _ (n := recordSize.toNat) rfl]
  exact Decoder.bind_of_error (Decoder.bind_of_error hsecond)

end Readers

/-- What is read of `field`, whose type name was laid out at `mangled`. -/
structure FieldRecord.Describes (r : FieldRecord) (m : Memory) (field : FieldSpec)
    (mangled : Option Address) : Prop where
  name : r.name = field.name
  isVar : r.isVar = field.isVar
  isIndirectCase : r.isIndirectCase = false
  mangledTypeName : r.mangledTypeName = mangled
  typed : mangled = none ↔ field.mangledType = none
  typeText : ∀ a text, mangled = some a → field.mangledType = some text →
    m.read a ((bytesOfText text).length + 1) = .ok (bytesOfText text ++ [0])

theorem FieldSpec.describes_record {m : Memory} {j : Image} {k lo : Nat} (h : m.Shows j)
    {field : FieldSpec} {mangled : Option Address} (hk : j.HoldsField k lo field mangled) :
    (field.record mangled).Describes m field mangled := by
  have htype := hk.typeText
  refine ⟨rfl, FieldFlags.isVar_ofVar _, FieldFlags.isIndirectCase_ofVar _, rfl, ?_, ?_⟩
  · cases mangled with
    | none => exact iff_of_true rfl htype
    | some a =>
      obtain ⟨text, ht, -⟩ := htype
      rw [ht]
      exact iff_of_false nofun nofun
  · rintro a text rfl ht
    obtain ⟨text', ht', l, -, rfl, hholds⟩ := htype
    rw [ht'] at ht
    cases ht
    have hread := h l _ (by simp) hholds
    rwa [List.length_append, List.length_singleton] at hread

/-- A field descriptor that is laid out, whatever was laid out before or is appended after it, is
read back from where it is loaded when its records end on words, or there is no second one. Records
that are declared too short are refused, and others fail at the second. -/
theorem field_round_trip (limits : Limits) (m : Memory) (kind : FieldKind)
    (fields : List FieldSpec) (recordSize : UInt16) (i j : Image) (e : EmittedFields)
    (more : List UInt8)
    (emitted : (Emit.fieldDescriptor kind fields recordSize).run i = .ok (e, j)) (fits : j.Fits)
    (clear : m.ClearFor (j.append more)) (noZero : ∀ field ∈ fields, 0 ∉ bytesOfText field.name)
    (nameLength : ∀ field ∈ fields, (bytesOfText field.name).length < limits.nameLength)
    (count : fields.length ≤ limits.fields.toNat) :
    (fields = [] ∨ 12 ≤ recordSize ∧ (recordSize % 4 = 0 ∨ fields.length = 1) →
      ∃ records, FieldDescriptor.read limits e.address (m.load (j.append more)) =
          .ok ⟨e.address, kind, none, none, records⟩ ∧
        records.length = fields.length ∧ e.mangledNames.length = fields.length ∧
        ∀ (n : Nat) field, fields[n]? = some field → ∃ r mangled, records[n]? = some r ∧
          e.mangledNames[n]? = some mangled ∧ r.Describes (m.load (j.append more)) field mangled) ∧
    (fields ≠ [] → recordSize < 12 →
      FieldDescriptor.read limits e.address (m.load (j.append more)) =
        .error (.decode (.fieldRecordSize e.address recordSize 12))) ∧
    (12 ≤ recordSize → recordSize % 4 ≠ 0 → 2 ≤ fields.length →
      FieldDescriptor.read limits e.address (m.load (j.append more)) =
        .error (.memory (.misaligned (e.address + (16 : UInt64) + recordSize.toUInt64) 4))) := by
  obtain ⟨k, haddress, hk⟩ := Emit.fieldDescriptor_ok emitted fits
  have hshows := Memory.load_shows (Image.frame_append j more 0 0) fits clear
  have hread := FieldDescriptor.read_of_holds hshows hk count
  have hpositive : 0 < fields.length ↔ fields ≠ [] := List.length_pos_iff
  have hmod : recordSize % 4 = 0 ↔ recordSize.toNat % 4 = 0 := by
    rw [← UInt16.toNat_inj, UInt16.toNat_mod]
    rfl
  rw [haddress]
  refine ⟨fun hdomain => ?_, fun hsome hshort => ?_, fun henough hodd htwo => ?_⟩
  · rw [hmod] at hdomain
    rw [if_neg, FieldRecord.series_of_holds hshows hk hdomain noZero nameLength] at hread
    · refine ⟨_, hread, by rw [List.length_zipWith, hk.length, Nat.min_self], hk.length, ?_⟩
      intro n field hn
      obtain ⟨mangled, lo, hmangled, hholds⟩ := hk.records n field hn
      refine ⟨field.record mangled, mangled, ?_, hmangled, field.describes_record hshows hholds⟩
      exact List.getElem?_zipWith_eq_some.2 ⟨field, mangled, hn, hmangled, rfl⟩
    · rintro ⟨hsome, hshort⟩
      obtain ⟨henough, -⟩ := hdomain.resolve_left (hpositive.1 hsome)
      exact UInt16.not_le.2 hshort henough
  · rwa [if_pos ⟨hpositive.2 hsome, hshort⟩] at hread
  · have hodd' : recordSize.toNat % 4 ≠ 0 := fun h => hodd (hmod.2 h)
    rw [if_neg fun h => UInt16.not_le.2 h.2 henough,
      FieldRecord.series_misaligned hshows hk htwo hodd' noZero nameLength] at hread
    rw [hread, Image.addressAt_add j k (c := 16) rfl,
      Image.addressAt_add j _ (n := recordSize.toNat) rfl]
    rfl

/-- A case with a payload and one without, in records that are longer than they have to be. -/
theorem field_round_trip_cases :
    let fields : List FieldSpec := [{ name := "a", mangledType := some "Si" }, { name := "b" }]
    ∃ e j, (Emit.fieldDescriptor .enumType fields 16).run ⟨⟨0x1000⟩, #[]⟩ = .ok (e, j) ∧
      ∃ records, FieldDescriptor.read {} e.address ((Memory.empty .null).load (j.append [1])) =
          .ok ⟨e.address, .enumType, none, none, records⟩ ∧
        records.map FieldRecord.name = ["a", "b"] := by
  intro fields
  obtain ⟨e, j, hrun, hfits⟩ := Build.exists_of_any (i := ⟨⟨0x1000⟩, #[]⟩)
    (x := Emit.fieldDescriptor .enumType fields 16) (p := fun (_, j) => decide j.Fits)
    (by decide +kernel)
  have fits : j.Fits := of_decide_eq_true hfits
  obtain ⟨hread, -, -⟩ := field_round_trip {} (.empty .null) .enumType fields 16 ⟨⟨0x1000⟩, #[]⟩ j e
    [1] hrun fits nofun (by decide +kernel) (by decide +kernel) (by decide)
  obtain ⟨records, hrecords, hlength, -, hdescribes⟩ := hread (.inr (by decide))
  refine ⟨e, j, hrun, records, hrecords, ?_⟩
  obtain ⟨first, _, hfirst, -, ha⟩ := hdescribes 0 _ rfl
  obtain ⟨second, _, hsecond, -, hb⟩ := hdescribes 1 _ rfl
  match records, hlength with
  | [r, r'], _ =>
    cases hfirst
    cases hsecond
    rw [List.map_cons, List.map_singleton, ha.name, hb.name]

end TypeMetadata
