import TypeMetadata.Proofs.ContextRoundTrip
import TypeMetadata.Proofs.VtableWalk

/-!
# Classes laid out and read back

`classType_ok` says what stands in the image once a class is laid out, `Image.HoldsClass`, and the
lemmas after it follow the decoder over such an image. Both find the vtable on their own: the layout
by what it has appended so far, the decoder by the flags. `class_round_trip` puts the two together.
-/

namespace TypeMetadata

/-- Bytes of the optional parts that come before the vtable of a class. -/
def ClassSpec.partsSize (spec : ClassSpec) : Nat :=
  (if spec.resilientSuperclass then 4 else 0) +
    match spec.initialization with
    | .none => 0
    | .foreign => 4
    | .singleton => 12

/-- What is read of the slot for `method` at `a`. -/
def MethodSpec.slot? (method : MethodSpec) (a : Address) : Option MethodSlot :=
  method.implementation.map fun f => ⟨a, .pack method.kind method.isInstance, f⟩

/-- The flags of a class descriptor for `spec`. -/
def ClassSpec.flags (spec : ClassSpec) : ContextFlags :=
  .pack .classType spec.generic
    (NominalFlags.packClass spec.initialization spec.resilientSuperclass spec.methods.isSome).bits

namespace Image

/-- A vtable slot for `method` stands at `k`. -/
structure HoldsMethod (j : Image) (k : Nat) (method : MethodSpec) : Prop where
  flags : j.Holds k (bytesOf32 (MethodFlags.pack method.kind method.isInstance).bits)
  implementation : j.Points (k + 4)
    (if method.implementation = some (j.addressAt (k + 4)) then none else method.implementation)

/-- A vtable header stands at `k`, with a slot for each of `methods` behind it. -/
structure HoldsVtable (j : Image) (k : Nat) (methods : List MethodSpec) : Prop where
  offset : j.Holds k (bytesOf32 Emit.classVtableOffset)
  size : j.Holds (k + 4) (bytesOf32 (UInt32.ofNat methods.length))
  slots : ∀ n method, methods[n]? = some method → j.HoldsMethod (k + 8 + 8 * n) method

/-- A class descriptor for `spec` stands at `k`, with more behind its vtable. -/
structure HoldsClass (j : Image) (k : Nat) (spec : ClassSpec) : Prop
    extends j.HoldsNominal k spec.flags spec.toNominalSpec where
  numFields : j.Holds (k + 36) (bytesOf32 spec.numFields)
  fieldOffsetVectorOffset : j.Holds (k + 40) (bytesOf32 spec.fieldOffsetVectorOffset)
  vtable : ∀ methods, spec.methods = some methods → j.HoldsVtable (k + 44 + spec.partsSize) methods
  room : ∀ methods, spec.methods = some methods →
    k + 44 + spec.partsSize + 8 + 8 * methods.length < j.bytes.size

variable {i j : Image} {k lo hi : Nat}

theorem Frame.holdsMethod (h : Frame i j lo hi) {method : MethodSpec} (hk : i.HoldsMethod k method)
    (hout : hi ≤ k) : j.HoldsMethod k method := by
  refine ⟨h.holds hk.flags (.inr hout), ?_⟩
  rw [h.addressAt]
  exact h.points hk.implementation (.inr (by omega))

theorem Frame.holdsVtable (h : Frame i j lo hi) {methods : List MethodSpec}
    (hk : i.HoldsVtable k methods) (hout : hi ≤ k) : j.HoldsVtable k methods :=
  ⟨h.holds hk.offset (.inr hout), h.holds hk.size (.inr (by omega)),
    fun n method hn => h.holdsMethod (hk.slots n method hn) (by omega)⟩

end Image

namespace Emit

variable {i j : Image} {k : Nat}

/-! ## What is laid out -/

theorem methodSlot_ok {method : MethodSpec} {u : Unit}
    (h : (methodSlot method).run i = .ok (u, j)) (hfits : j.Fits) :
    Image.Grown i j ∧ j.bytes.size = i.bytes.size + 8 ∧ j.HoldsMethod i.bytes.size method := by
  obtain ⟨start, i₁, h₁, h⟩ := Build.run_bind_ok h
  obtain ⟨_, i₂, h₂, hpatch⟩ := Build.run_bind_ok h
  obtain ⟨rfl, hgrown₁, hsize₁, hflags⟩ := Build.pushU32_ok h₁
  obtain ⟨-, hgrown₂, hsize₂, -⟩ := Build.pushU32_ok h₂
  have hgrown := hgrown₁.trans hgrown₂
  have ha := hgrown.offset (k := i.bytes.size) (c := MethodSlot.implementationOffset) (n := 4) rfl
  obtain ⟨hframe, hsize, hpoints⟩ := Build.patchRelative_ok hpatch ha hfits (by omega)
  refine ⟨hgrown.patch hframe (by omega), by omega, ?_, ?_⟩
  · exact hframe.holds32 (hgrown₂.holds hflags) (.inl (Nat.le_refl _))
  · rwa [hframe.addressAt, ← ha]

theorem methodSlots_ok {methods : List MethodSpec} {u : Unit}
    (h : (methods.forM methodSlot).run i = .ok (u, j)) (hfits : j.Fits) :
    Image.Grown i j ∧ j.bytes.size = i.bytes.size + 8 * methods.length ∧
      ∀ n method, methods[n]? = some method → j.HoldsMethod (i.bytes.size + 8 * n) method := by
  induction methods generalizing i with
  | nil =>
    cases h
    exact ⟨Image.Frame.refl _ 0 0, rfl, nofun⟩
  | cons method methods ih =>
    obtain ⟨_, i₁, hslot, h⟩ := Build.run_bind_ok h
    obtain ⟨hgrown, hsize, hslots⟩ := ih h
    obtain ⟨hgrown₁, hsize₁, hfirst⟩ := methodSlot_ok hslot (hgrown.fits hfits)
    refine ⟨hgrown₁.trans hgrown, by rw [List.length_cons]; omega, fun n m hn => ?_⟩
    cases n with
    | zero =>
      cases hn
      exact hgrown.holdsMethod hfirst (Nat.zero_le _)
    | succ n =>
      have := hslots n m (by simpa using hn)
      rwa [hsize₁, show i.bytes.size + 8 + 8 * n = i.bytes.size + 8 * (n + 1) by omega] at this

theorem vtable_ok {methods : List MethodSpec} {u : Unit}
    (h : (vtable methods).run i = .ok (u, j)) (hfits : j.Fits) :
    Image.Grown i j ∧ j.bytes.size = i.bytes.size + 8 + 8 * methods.length ∧
      j.HoldsVtable i.bytes.size methods := by
  obtain ⟨_, i₁, h₁, h⟩ := Build.run_bind_ok h
  obtain ⟨_, i₂, h₂, h⟩ := Build.run_bind_ok h
  obtain ⟨-, hgrown₁, hsize₁, hoffset⟩ := Build.pushU32_ok h₁
  obtain ⟨-, hgrown₂, hsize₂, hcount⟩ := Build.pushU32_ok h₂
  obtain ⟨hgrown, hsize, hslots⟩ := methodSlots_ok h hfits
  refine ⟨(hgrown₁.trans hgrown₂).trans hgrown, by omega, (hgrown₂.trans hgrown).holds hoffset,
    ?_, fun n method hn => ?_⟩
  · rw [← hsize₁]
    exact hgrown.holds hcount
  · rw [show i.bytes.size + 8 = i₂.bytes.size by omega]
    exact hslots n method hn

theorem classWords_ok {spec : ClassSpec} {u : Unit} (h : (classWords spec).run i = .ok (u, j)) :
    Image.Grown i j ∧ j.bytes.size = i.bytes.size + 24 ∧
      j.Holds (i.bytes.size + 16) (bytesOf32 spec.numFields) ∧
      j.Holds (i.bytes.size + 20) (bytesOf32 spec.fieldOffsetVectorOffset) := by
  obtain ⟨_, i₁, h₁, h⟩ := Build.run_bind_ok h
  obtain ⟨_, i₂, h₂, h⟩ := Build.run_bind_ok h
  obtain ⟨_, i₃, h₃, h⟩ := Build.run_bind_ok h
  obtain ⟨_, i₄, h₄, h⟩ := Build.run_bind_ok h
  obtain ⟨_, i₅, h₅, h⟩ := Build.run_bind_ok h
  obtain ⟨_, i₆, h₆, h⟩ := Build.run_bind_ok h
  cases h
  obtain ⟨-, hgrown₁, hsize₁, -⟩ := Build.pushU32_ok h₁
  obtain ⟨-, hgrown₂, hsize₂, -⟩ := Build.pushU32_ok h₂
  obtain ⟨-, hgrown₃, hsize₃, -⟩ := Build.pushU32_ok h₃
  obtain ⟨-, hgrown₄, hsize₄, -⟩ := Build.pushU32_ok h₄
  obtain ⟨-, hgrown₅, hsize₅, hfields⟩ := Build.pushU32_ok h₅
  obtain ⟨-, hgrown₆, hsize₆, hvector⟩ := Build.pushU32_ok h₆
  refine ⟨((((hgrown₁.trans hgrown₂).trans hgrown₃).trans hgrown₄).trans hgrown₅).trans hgrown₆,
    by omega, ?_, ?_⟩
  · rw [show i.bytes.size + 16 = i₄.bytes.size by omega]
    exact hgrown₆.holds hfields
  · rw [show i.bytes.size + 20 = i₅.bytes.size by omega]
    exact hvector

theorem classParts_ok {spec : ClassSpec} {u : Unit} (h : (classParts spec).run i = .ok (u, j)) :
    Image.Grown i j ∧ j.bytes.size = i.bytes.size + spec.partsSize := by
  have hsize : (ClassDescriptor.initializationSize (some spec.initialization)).toNat =
      match spec.initialization with
      | .none => 0
      | .foreign => 4
      | .singleton => 12 := by
    cases spec.initialization <;> rfl
  unfold classParts at h
  unfold ClassSpec.partsSize
  rw [← hsize]
  split at h
  · rename_i hsuper
    obtain ⟨_, i₁, h₁, h⟩ := Build.run_bind_ok h
    obtain ⟨_, i₂, h₂, h⟩ := Build.run_bind_ok h
    cases h
    obtain ⟨hgrown₁, hsize₁⟩ := Build.reserve_ok h₁
    obtain ⟨hgrown₂, hsize₂⟩ := Build.reserve_ok h₂
    refine ⟨hgrown₁.trans hgrown₂, ?_⟩
    rw [hsize₂, hsize₁, if_pos hsuper, Nat.add_assoc]
    rfl
  · rename_i hsuper
    obtain ⟨_, i₁, h₁, h⟩ := Build.run_bind_ok h
    cases h
    obtain ⟨hgrown₁, hsize₁⟩ := Build.reserve_ok h₁
    refine ⟨hgrown₁, ?_⟩
    rw [hsize₁, if_neg hsuper, Nat.zero_add]

theorem optionalVtable_ok {methods? : Option (List MethodSpec)} {u : Unit}
    (h : (methods?.forM vtable).run i = .ok (u, j)) (hfits : j.Fits) :
    Image.Grown i j ∧ ∀ methods, methods? = some methods →
      j.HoldsVtable i.bytes.size methods ∧
        j.bytes.size = i.bytes.size + 8 + 8 * methods.length := by
  cases methods? with
  | none =>
    cases h
    exact ⟨Image.Frame.refl _ 0 0, nofun⟩
  | some methods =>
    obtain ⟨hgrown, hsize, hvtable⟩ := vtable_ok h hfits
    refine ⟨hgrown, fun _ hm => ?_⟩
    cases hm
    exact ⟨hvtable, hsize⟩

/-- What stands in the image once a class is laid out. -/
theorem classType_ok {spec : ClassSpec} {a : Address} (h : (classType spec).run i = .ok (a, j))
    (hfits : j.Fits) :
    ∃ k, a = j.addressAt k ∧ i.bytes.size ≤ k ∧ Image.Grown i j ∧ j.HoldsClass k spec := by
  obtain ⟨start, i₁, hheader, h⟩ := Build.run_bind_ok h
  obtain ⟨_, i₂, hwords, h⟩ := Build.run_bind_ok h
  obtain ⟨_, i₃, hparts, h⟩ := Build.run_bind_ok h
  obtain ⟨_, i₄, hvtable, h⟩ := Build.run_bind_ok h
  obtain ⟨_, i₅, hname, h⟩ := Build.run_bind_ok h
  cases h
  obtain ⟨hgrown₂, hsize₂, hfields, hvector⟩ := classWords_ok hwords
  obtain ⟨hgrown₃, hsize₃⟩ := classParts_ok hparts
  obtain ⟨hgrown₄, hvtable⟩ := optionalVtable_ok hvtable (fits_of_nameAt hname hfits)
  have hgrown := (hgrown₂.trans hgrown₃).trans hgrown₄
  obtain ⟨k, rfl, hk, hsize₁, hall, hframe, hbehind, hnominal⟩ :=
    nominal_ok hheader hgrown hname hfits
  refine ⟨k, rfl, hk, hall, hnominal, ?_, ?_, fun methods hm => ?_, fun methods hm => ?_⟩
  · rw [show k + 36 = i₁.bytes.size + 16 by omega]
    exact hframe.holds ((hgrown₃.trans hgrown₄).holds hfields) (.inr (by omega))
  · rw [show k + 40 = i₁.bytes.size + 20 by omega]
    exact hframe.holds ((hgrown₃.trans hgrown₄).holds hvector) (.inr (by omega))
  · rw [show k + 44 + spec.partsSize = i₃.bytes.size by omega]
    exact hframe.holdsVtable (hvtable methods hm).1 (by omega)
  · have := (hvtable methods hm).2
    omega

end Emit

/-! ## What is read back -/

section Readers

variable {m : Memory} {j : Image} {k : Nat}

theorem MethodSlot.kind_pack (kind : MethodKind) (isInstance : Bool) (a f : Address) :
    MethodSlot.kind ⟨a, .pack kind isInstance, f⟩ = .ok kind := by
  unfold MethodSlot.kind
  rw [MethodFlags.kind?_pack]

theorem MethodSlot.read_of_holds (h : m.Shows j) {method : MethodSpec} (hk : j.HoldsMethod k method)
    (ha : (j.base.toNat + k) % 4 = 0) (hown : method.implementation ≠ some (j.addressAt (k + 4))) :
    MethodSlot.read (j.addressAt k) m = .ok (method.slot? (j.addressAt k)) := by
  have hpoints := hk.implementation
  rw [if_neg hown] at hpoints
  have hwords : Says m (j.addressAt k) (.pack method.kind method.isInstance)
      method.implementation := by
    refine ⟨Memory.readU32_of_holds h hk.flags ha, ?_⟩
    rw [Image.addressAt_add j k (n := 4) rfl]
    exact RelativePointer.direct_of_points h hpoints (by omega)
  refine hwords.read_eq fun _ => ?_
  rw [MethodFlags.kind?_pack]
  rfl

theorem VtableHeader.methods_of_holds (h : m.Shows j) (hfits : j.Fits) {limits : Limits}
    {methods : List MethodSpec} (hk : j.HoldsVtable k methods) (ha : (j.base.toNat + k) % 4 = 0)
    (hroom : k + 8 + 8 * methods.length < j.bytes.size)
    (hlimit : methods.length ≤ limits.vtableSize.toNat)
    (hown : ∀ n method, methods[n]? = some method →
      method.implementation ≠ some (j.addressAt (k + 8 + 8 * n + 4))) :
    VtableHeader.methods limits ⟨j.addressAt k, Emit.classVtableOffset, .ofNat methods.length⟩ m =
      .ok (methods.zipIdx.filterMap fun (method, n) =>
        method.slot? (j.addressAt (k + 8 + 8 * n))) := by
  have hcount := toNat_ofNat_of_le hlimit
  have hsmall := not_lt_ofNat_of_le hlimit
  have hstart : VtableHeader.methodsStart
      ⟨j.addressAt k, Emit.classVtableOffset, .ofNat methods.length⟩ = j.addressAt (k + 8) :=
    Image.addressAt_add j k rfl
  have hend : VtableHeader.Fits
      ⟨j.addressAt k, Emit.classVtableOffset, .ofNat methods.length⟩ := by
    unfold Image.Fits at hfits
    unfold VtableHeader.Fits
    rw [hstart, Image.toNat_addressAt (by omega), hcount]
    omega
  let slots := methods.zipIdx.map fun (method, n) => method.slot? (j.addressAt (k + 8 + 8 * n))
  have hlength : slots.length = methods.length := by
    rw [List.length_map, List.length_zipIdx]
  have hslots : Decoder.series MethodSlot.read MethodSlot.size slots.length
      (j.addressAt (k + 8)) m = .ok slots := by
    apply Decoder.series_ok
    intro n x hx
    obtain ⟨method, hn, rfl⟩ : ∃ method, methods[n]? = some method ∧
        method.slot? (j.addressAt (k + 8 + 8 * n)) = x := by
      simpa [slots, List.getElem?_map, List.getElem?_zipIdx] using hx
    have := MethodSlot.read_of_holds h (hk.slots n method hn) (by omega) (hown n method hn)
    exact this
  rw [hlength] at hslots
  rw [VtableHeader.methods_of_fits hsmall hend, hstart, hcount, hslots]
  change Except.ok (slots.filterMap id) = _
  rw [List.filterMap_map]
  rfl

theorem ClassDescriptor.decode_of_holds (h : m.Shows j) {spec : ClassSpec}
    (hk : j.HoldsClass k spec) :
    ContextDescriptor.decode (j.addressAt k) m =
      .ok (.classType ⟨⟨⟨j.addressAt k, spec.flags, .classType⟩⟩⟩) :=
  ContextDescriptor.decode_of_read
    (Context.read_of_holds h hk.toHoldsContext (ContextFlags.kind?_pack ..))

theorem ClassSpec.nominalFlags (spec : ClassSpec) :
    (⟨spec.flags.kindSpecific⟩ : NominalFlags) =
      .packClass spec.initialization spec.resilientSuperclass spec.methods.isSome := by
  unfold ClassSpec.flags
  rw [ContextFlags.kindSpecific_pack]

/-- The flags say how far the optional parts reach. -/
theorem ClassDescriptor.vtableHeaderAddress_eq (j : Image) (k : Nat) (spec : ClassSpec) :
    ClassDescriptor.vtableHeaderAddress ⟨⟨⟨j.addressAt k, spec.flags, .classType⟩⟩⟩ =
      j.addressAt (k + 44 + spec.partsSize) := by
  unfold ClassDescriptor.vtableHeaderAddress NominalDescriptor.nominalFlags
  simp only
  rw [spec.nominalFlags, NominalFlags.hasResilientSuperclass_packClass,
    NominalFlags.metadataInitialization?_packClass, Nat.add_assoc]
  apply Image.addressAt_add
  unfold ClassSpec.partsSize
  cases spec.resilientSuperclass <;> cases spec.initialization <;> rfl

theorem ClassDescriptor.methods_of_holds (h : m.Shows j) (hfits : j.Fits) {limits : Limits}
    {spec : ClassSpec} (hk : j.HoldsClass k spec) (hgeneric : spec.generic = false)
    (hlimit : (spec.methods.getD []).length ≤ limits.vtableSize.toNat)
    (hown : ∀ n method, (spec.methods.getD [])[n]? = some method →
      method.implementation ≠ some (j.addressAt (k + 44 + spec.partsSize + 8 + 8 * n + 4))) :
    ClassDescriptor.methods limits ⟨⟨⟨j.addressAt k, spec.flags, .classType⟩⟩⟩ m =
      .ok ((spec.methods.getD []).zipIdx.filterMap fun (method, n) =>
        method.slot? (j.addressAt (k + 44 + spec.partsSize + 8 + 8 * n))) := by
  let d : ClassDescriptor := ⟨⟨⟨j.addressAt k, spec.flags, .classType⟩⟩⟩
  have hvtable : d.hasVtable = spec.methods.isSome := by
    unfold ClassDescriptor.hasVtable NominalDescriptor.nominalFlags
    rw [spec.nominalFlags, NominalFlags.hasVtable_packClass]
  have hplain : d.isGeneric = false := by
    rw [← hgeneric]
    exact ContextFlags.isGeneric_pack ..
  change d.methods limits m = _
  unfold ClassDescriptor.methods ClassDescriptor.vtableHeader
  rw [hvtable, hplain]
  cases hm : spec.methods with
  | none => rfl
  | some methods =>
    have haligned := hk.aligned
    have hparts : spec.partsSize % 4 = 0 := by
      unfold ClassSpec.partsSize
      cases spec.resilientSuperclass <;> cases spec.initialization <;> rfl
    have hv := hk.vtable methods hm
    have hheader : VtableHeader.read (j.addressAt (k + 44 + spec.partsSize)) m =
        .ok ⟨j.addressAt (k + 44 + spec.partsSize), Emit.classVtableOffset,
          .ofNat methods.length⟩ := by
      unfold VtableHeader.read
      rw [Decoder.bind_of_ok (Decoder.u32_of_holds h hv.offset (by omega)),
        Image.addressAt_add j _ (n := 4) rfl,
        Decoder.bind_of_ok (Decoder.u32_of_holds h hv.size (by omega))]
      rfl
    rw [hm] at hlimit hown
    have hmethods := VtableHeader.methods_of_holds h hfits hv (by omega)
      (hk.room methods hm) hlimit hown
    have haddress : d.vtableHeaderAddress = j.addressAt (k + 44 + spec.partsSize) :=
      ClassDescriptor.vtableHeaderAddress_eq j k spec
    rw [haddress]
    simp only [Option.isSome_some, Bool.not_true, Bool.or_self, Bool.false_eq_true, if_false]
    rw [Decoder.bind_of_ok (Decoder.bind_of_ok hheader)]
    exact hmethods

end Readers

/-- A class that is laid out, whatever was laid out before or is appended after it, is read back
from where it is loaded: its name, its field counts, and of its vtable the slots that have an
implementation, in their order. -/
theorem class_round_trip (limits : Limits) (m : Memory) (spec : ClassSpec) (i j : Image)
    (start : Address) (more : List UInt8) (emitted : (Emit.classType spec).run i = .ok (start, j))
    (fits : j.Fits) (clear : m.ClearFor (j.append more)) (noZero : 0 ∉ bytesOfText spec.name)
    (nameLength : (bytesOfText spec.name).length < limits.nameLength)
    (vtableSize : (spec.methods.getD []).length ≤ limits.vtableSize.toNat)
    (notOwn : ∀ n method, (spec.methods.getD [])[n]? = some method →
      method.implementation ≠
        some (start + UInt64.ofNat (0x2C + spec.partsSize + 8 + 8 * n + 4))) :
    ∃ d : ClassDescriptor, d.address = start ∧
      ContextDescriptor.decode start (m.load (j.append more)) = .ok (.classType d) ∧
      d.name limits (m.load (j.append more)) = .ok spec.name ∧
      d.numFields (m.load (j.append more)) = .ok spec.numFields ∧
      d.fieldOffsetVectorOffset (m.load (j.append more)) = .ok spec.fieldOffsetVectorOffset ∧
      d.hasVtable = spec.methods.isSome ∧ d.isGeneric = spec.generic ∧
      (spec.generic = false → ∃ slots, d.methods limits (m.load (j.append more)) = .ok slots ∧
        slots.map (fun s => (s.address, s.kind, s.flags.isInstance, s.implementation)) =
          (spec.methods.getD []).zipIdx.filterMap fun (method, n) =>
            method.implementation.map fun f =>
              (start + UInt64.ofNat (0x2C + spec.partsSize + 8 + 8 * n), .ok method.kind,
                method.isInstance, f)) := by
  obtain ⟨k, rfl, -, -, hk⟩ := Emit.classType_ok emitted fits
  have hshows := Memory.load_shows (Image.frame_append j more 0 0) fits clear
  have haligned := hk.aligned
  refine ⟨⟨⟨⟨j.addressAt k, spec.flags, .classType⟩⟩⟩, rfl,
    ClassDescriptor.decode_of_holds hshows hk, ?_, ?_, ?_, ?_, ContextFlags.isGeneric_pack .., ?_⟩
  · change Name.readRelative limits (j.addressAt k + Context.nameOffset) _ = _
    rw [Image.addressAt_add j k (n := 8) rfl]
    obtain ⟨lo, hname⟩ := hk.name
    exact Name.readRelative_of_names hshows hname (by omega) noZero nameLength
  · change Decoder.u32 (j.addressAt k + ClassDescriptor.fieldCountOffset) _ = _
    rw [Image.addressAt_add j k (n := 36) rfl]
    exact Decoder.u32_of_holds hshows hk.numFields (by omega)
  · change Decoder.u32 (j.addressAt k + ClassDescriptor.fieldVectorOffset) _ = _
    rw [Image.addressAt_add j k (n := 40) rfl]
    exact Decoder.u32_of_holds hshows hk.fieldOffsetVectorOffset (by omega)
  · unfold ClassDescriptor.hasVtable NominalDescriptor.nominalFlags
    rw [spec.nominalFlags, NominalFlags.hasVtable_packClass]
  · intro hgeneric
    have hindex : ∀ n, k + (0x2C + spec.partsSize + 8 + 8 * n) =
        k + 44 + spec.partsSize + 8 + 8 * n := by omega
    have hmethods := ClassDescriptor.methods_of_holds hshows fits hk hgeneric vtableSize
      fun n method hn => by
        have := notOwn n method hn
        rwa [Image.addressAt_add_ofNat, ← Nat.add_assoc, hindex] at this
    refine ⟨_, hmethods, ?_⟩
    rw [List.map_filterMap]
    congr 1
    funext ⟨method, n⟩
    simp only
    rw [Image.addressAt_add_ofNat, hindex]
    unfold MethodSpec.slot?
    cases method.implementation with
    | none => rfl
    | some f =>
      simp only [Option.map_some]
      rw [MethodSlot.kind_pack, MethodFlags.isInstance_pack]

/-- A class with both optional parts, whose second slot is empty. -/
theorem class_round_trip_resilient :
    let spec : ClassSpec :=
      { name := "A", parent := ⟨0x1000⟩, numFields := 2, resilientSuperclass := true,
        initialization := .singleton,
        methods := some [{ implementation := some ⟨0x2000⟩ }, { kind := .getter }] }
    ∃ start j, (Emit.classType spec).run ⟨⟨0x1000⟩, #[]⟩ = .ok (start, j) ∧
      ∃ d : ClassDescriptor, d.address = start ∧
        d.name {} ((Memory.empty .null).load (j.append [1])) = .ok "A" ∧
        d.numFields ((Memory.empty .null).load (j.append [1])) = .ok 2 ∧
        ∃ slots, d.methods {} ((Memory.empty .null).load (j.append [1])) = .ok slots ∧
          slots.map MethodSlot.implementation = [⟨0x2000⟩] := by
  intro spec
  obtain ⟨start, j, hrun, hchecked⟩ := Build.exists_of_any (i := ⟨⟨0x1000⟩, #[]⟩)
    (x := Emit.classType spec) (p := fun (start, j) => decide (start = ⟨0x1000⟩ ∧ j.Fits))
    (by decide +kernel)
  obtain ⟨rfl, fits⟩ : start = ⟨0x1000⟩ ∧ j.Fits := of_decide_eq_true hchecked
  obtain ⟨d, haddress, -, hname, hfields, -, -, -, hmethods⟩ :=
    class_round_trip {} (.empty .null) spec ⟨⟨0x1000⟩, #[]⟩ j ⟨0x1000⟩ [1] hrun fits nofun
      (by decide +kernel) (by decide +kernel) (by decide) (by
        intro n method hn
        match n with
        | 0 => cases hn; decide
        | 1 => cases hn; decide
        | n + 2 => cases hn)
  obtain ⟨slots, hslots, hmap⟩ := hmethods rfl
  refine ⟨_, _, hrun, d, haddress, hname, hfields, slots, hslots, ?_⟩
  have := congrArg (List.map fun (_, _, _, f) => f) hmap
  rw [List.map_map] at this
  exact this

end TypeMetadata
