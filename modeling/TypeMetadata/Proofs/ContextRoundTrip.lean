import TypeMetadata.Emit.Nominal
import TypeMetadata.Proofs.NearestModule
import TypeMetadata.Proofs.RelativePatches

/-!
# Contexts laid out and read back

Every context starts with the same header, in which a relative pointer refers to the context around
it. `contextHeader_ok` says what stands there once it is laid out, and `nominal_ok` what stands of a
class, struct or enum, whatever its own words are. `Context.Inside` is the chain of contexts that
is read from them, up to a module, and `Context.moduleName_of_inside` says that the reader finds
its way to that module if it is not too far.
-/

namespace TypeMetadata

namespace Image

/-- A context's header stands at `k`, and refers to `parent`. -/
structure HoldsContext (i : Image) (k : Nat) (flags : ContextFlags) (parent : Option Address) :
    Prop where
  aligned : (i.base.toNat + k) % 4 = 0
  flags : i.Holds k (bytesOf32 flags.bits)
  parent : i.Points (k + 4) parent

/-- The part of a descriptor for `spec` that classes, structs and enums share stands at `k`. A
pointer that should refer to itself refers to nothing. -/
structure HoldsNominal (i : Image) (k : Nat) (flags : ContextFlags) (spec : NominalSpec) : Prop
    extends i.HoldsContext k flags
      (if some spec.parent = some (i.addressAt (k + 4)) then none else some spec.parent) where
  name : ∃ lo, i.Names (k + 8) lo spec.name
  accessFunction : i.Points (k + 12)
    (if spec.accessFunction = some (i.addressAt (k + 12)) then none else spec.accessFunction)
  fields : i.Points (k + 16)
    (if spec.fields = some (i.addressAt (k + 16)) then none else spec.fields)

variable {i j : Image} {k lo hi : Nat} {flags : ContextFlags} {parent : Option Address}

theorem Frame.holdsContext (h : Frame i j lo hi) (hk : i.HoldsContext k flags parent)
    (hout : k + 8 ≤ lo ∨ hi ≤ k) : j.HoldsContext k flags parent :=
  ⟨by rw [h.base, hk.aligned], h.holds32 hk.flags (by omega), h.points hk.parent (by omega)⟩

end Image

namespace Emit

variable {i i₁ i₂ j : Image} {k : Nat}

/-! ## What is laid out -/

theorem contextHeader_ok {flags : ContextFlags} {parent : Option Address} {a : Address}
    (h : (contextHeader flags parent).run i = .ok (a, j)) (hfits : j.Fits) :
    ∃ k, a = j.addressAt k ∧ i.bytes.size ≤ k ∧ j.bytes.size = k + 8 ∧ Image.Grown i j ∧
      j.HoldsContext k flags (if parent = some (j.addressAt (k + 4)) then none else parent) := by
  obtain ⟨_, i₁, halign, h⟩ := Build.run_bind_ok h
  have hmod := Build.align_ok halign
  obtain ⟨start, i₂, hflags, h⟩ := Build.run_bind_ok h
  obtain ⟨rfl, hgrown₂, hsize₂, hholds⟩ := Build.pushU32_ok hflags
  obtain ⟨_, i₃, hzero, h⟩ := Build.run_bind_ok h
  obtain ⟨-, hgrown₃, hsize₃, -⟩ := Build.pushU32_ok hzero
  obtain ⟨_, i₄, hpatch, h⟩ := Build.run_bind_ok h
  cases h
  have hgrown₁ : Image.Grown i i₁ := by
    cases halign
    exact Image.frame_align i 4 0 0
  have hgrown := hgrown₂.trans hgrown₃
  have hslot := hgrown.offset (k := i₁.bytes.size) (c := Context.parentOffset) (n := 4) rfl
  obtain ⟨hframe, hsize₄, hpoints⟩ := Build.patchRelative_ok hpatch hslot hfits (by omega)
  have hall := hgrown.patch hframe (by omega)
  refine ⟨i₁.bytes.size, (hall.addressAt _).symm, hgrown₁.size, by omega, hgrown₁.trans hall,
    by rw [hall.base, hmod], hframe.holds32 (hgrown₃.holds hholds) (.inl (Nat.le_refl _)), ?_⟩
  rwa [hslot, ← hframe.addressAt] at hpoints

/-- A header, whatever follows it and then its name. -/
theorem namedContext_ok {flags : ContextFlags} {parent : Option Address} {name : String}
    {a : Address} {u : Unit} (hheader : (contextHeader flags parent).run i = .ok (a, i₁))
    (hgrown : Image.Grown i₁ i₂) (hroom : i₁.bytes.size + 4 ≤ i₂.bytes.size)
    (hname : (nameAt (a + Context.nameOffset) name).run i₂ = .ok (u, j)) (hfits : j.Fits) :
    ∃ k, a = j.addressAt k ∧ i.bytes.size ≤ k ∧ k + 8 ≤ j.bytes.size ∧ Image.Grown i j ∧
      j.HoldsContext k flags (if parent = some (j.addressAt (k + 4)) then none else parent) ∧
      ∃ lo, j.Names (k + 8) lo name := by
  have hfits₂ := fits_of_nameAt hname hfits
  obtain ⟨k, rfl, hk, hsize, hgrown₁, hholds⟩ := contextHeader_ok hheader (hgrown.fits hfits₂)
  obtain ⟨hframe, -, hnames⟩ :=
    nameAt_ok hname (hgrown.offset (n := 8) rfl) hfits (by omega) (Nat.le_refl _)
  have hsize₂ := hgrown.size
  have hsize₃ := hframe.size
  refine ⟨k, by rw [hframe.addressAt, hgrown.addressAt], hk, by omega,
    (hgrown₁.trans hgrown).patch hframe (by omega), ?_, _, hnames⟩
  rw [hframe.addressAt, hgrown.addressAt]
  exact hframe.holdsContext (hgrown.holdsContext hholds (.inr (Nat.zero_le _))) (.inl (by omega))

theorem moduleContext_ok {name : String} {a : Address}
    (h : (moduleContext name).run i = .ok (a, j)) (hfits : j.Fits) :
    ∃ k, a = j.addressAt k ∧ k + 8 ≤ j.bytes.size ∧ Image.Grown i j ∧
      j.HoldsContext k (.pack .moduleContext false 0) none ∧ ∃ lo, j.Names (k + 8) lo name := by
  obtain ⟨start, i₁, hheader, h⟩ := Build.run_bind_ok h
  obtain ⟨_, i₂, h₂, h⟩ := Build.run_bind_ok h
  obtain ⟨_, i₃, hname, h⟩ := Build.run_bind_ok h
  cases h
  obtain ⟨-, hgrown, hsize, -⟩ := Build.pushU32_ok h₂
  obtain ⟨k, ha, -, hroom, hall, hholds, hnames⟩ :=
    namedContext_ok hheader hgrown (by omega) hname hfits
  exact ⟨k, ha, hroom, hall, hholds, hnames⟩

theorem protocolType_ok {name : String} {parent : Address} {numRequirements : UInt32}
    {classOnly : Bool} {a : Address}
    (h : (protocolType name parent numRequirements classOnly).run i = .ok (a, j))
    (hfits : j.Fits) :
    ∃ k, a = j.addressAt k ∧ i.bytes.size ≤ k ∧ k + 8 ≤ j.bytes.size ∧ Image.Grown i j ∧
      j.HoldsContext k (.pack .protocolType false (if classOnly then 0 else 1))
        (if some parent = some (j.addressAt (k + 4)) then none else some parent) := by
  obtain ⟨start, i₁, hheader, h⟩ := Build.run_bind_ok h
  obtain ⟨_, i₂, h₂, h⟩ := Build.run_bind_ok h
  obtain ⟨_, i₃, h₃, h⟩ := Build.run_bind_ok h
  obtain ⟨_, i₄, h₄, h⟩ := Build.run_bind_ok h
  obtain ⟨_, i₅, h₅, h⟩ := Build.run_bind_ok h
  obtain ⟨_, i₆, h₆, h⟩ := Build.run_bind_ok h
  obtain ⟨_, i₇, h₇, h⟩ := Build.run_bind_ok h
  obtain ⟨_, i₈, hname, h⟩ := Build.run_bind_ok h
  cases h
  obtain ⟨-, hgrown₂, hsize₂, -⟩ := Build.pushU32_ok h₂
  obtain ⟨-, hgrown₃, hsize₃, -⟩ := Build.pushU32_ok h₃
  obtain ⟨-, hgrown₄, hsize₄, -⟩ := Build.pushU32_ok h₄
  obtain ⟨-, hgrown₅, hsize₅, -⟩ := Build.pushU32_ok h₅
  obtain ⟨-, hgrown₆, hsize₆, -⟩ := Build.pushU32_ok h₆
  obtain ⟨-, hgrown₇, hsize₇, -⟩ := Build.pushU32_ok h₇
  have hgrown :=
    ((((hgrown₂.trans hgrown₃).trans hgrown₄).trans hgrown₅).trans hgrown₆).trans hgrown₇
  obtain ⟨k, ha, hk, hroom, hgrown, hholds, -⟩ :=
    namedContext_ok hheader hgrown (by omega) hname hfits
  exact ⟨k, ha, hk, hroom, hgrown, hholds⟩

theorem nominalHeader_ok {kind : ContextKind} {spec : NominalSpec} {kindSpecific : UInt16}
    {a : Address} (h : (nominalHeader kind spec kindSpecific).run i = .ok (a, j))
    (hfits : j.Fits) :
    ∃ k, a = j.addressAt k ∧ i.bytes.size ≤ k ∧ j.bytes.size = k + 20 ∧ Image.Grown i j ∧
      j.HoldsContext k (.pack kind spec.generic kindSpecific)
        (if some spec.parent = some (j.addressAt (k + 4)) then none else some spec.parent) ∧
      j.Points (k + 12) (if spec.accessFunction = some (j.addressAt (k + 12)) then none
        else spec.accessFunction) ∧
      j.Points (k + 16) (if spec.fields = some (j.addressAt (k + 16)) then none
        else spec.fields) := by
  obtain ⟨start, i₁, hheader, h⟩ := Build.run_bind_ok h
  obtain ⟨_, i₂, h₂, h⟩ := Build.run_bind_ok h
  obtain ⟨_, i₃, h₃, h⟩ := Build.run_bind_ok h
  obtain ⟨_, i₄, h₄, h⟩ := Build.run_bind_ok h
  obtain ⟨_, i₅, h₅, h⟩ := Build.run_bind_ok h
  obtain ⟨_, i₆, h₆, h⟩ := Build.run_bind_ok h
  cases h
  obtain ⟨-, hgrown₂, hsize₂, -⟩ := Build.pushU32_ok h₂
  obtain ⟨-, hgrown₃, hsize₃, -⟩ := Build.pushU32_ok h₃
  obtain ⟨-, hgrown₄, hsize₄, -⟩ := Build.pushU32_ok h₄
  have hgrown := (hgrown₂.trans hgrown₃).trans hgrown₄
  have hfits₅ := Build.fits_of_patchRelative h₆ hfits
  have hfits₄ := Build.fits_of_patchRelative h₅ hfits₅
  obtain ⟨k, rfl, hk, hsize, hgrown₁, hcontext⟩ :=
    contextHeader_ok hheader (hgrown.fits hfits₄)
  have haccess := hgrown.offset (k := k) (c := NominalDescriptor.accessFunctionOffset) (n := 12) rfl
  obtain ⟨hframe₅, hsize₅, hpoints₅⟩ := Build.patchRelative_ok h₅ haccess hfits₅ (by omega)
  have hgrown₅ := hgrown.patch hframe₅ (by omega)
  have hfields := hgrown₅.offset (k := k) (c := NominalDescriptor.fieldsOffset) (n := 16) rfl
  obtain ⟨hframe₆, hsize₆, hpoints₆⟩ := Build.patchRelative_ok h₆ hfields hfits (by omega)
  have hall := hgrown₅.patch hframe₆ (by omega)
  refine ⟨k, (hall.addressAt k).symm, hk, by omega, hgrown₁.trans hall, ?_, ?_, ?_⟩
  · rw [hall.addressAt]
    exact hall.holdsContext hcontext (.inr (Nat.zero_le _))
  · rw [haccess, ← hframe₅.addressAt] at hpoints₅
    rw [hframe₆.addressAt]
    exact hframe₆.points hpoints₅ (.inl (Nat.le_refl _))
  · rwa [hfields, ← hframe₆.addressAt] at hpoints₆

/-- A class, struct or enum, whatever words of its own it has between the shared part and its
name. -/
theorem nominal_ok {kind : ContextKind} {spec : NominalSpec} {kindSpecific : UInt16} {a : Address}
    {u : Unit} (hheader : (nominalHeader kind spec kindSpecific).run i = .ok (a, i₁))
    (hgrown : Image.Grown i₁ i₂)
    (hname : (nameAt (a + Context.nameOffset) spec.name).run i₂ = .ok (u, j)) (hfits : j.Fits) :
    ∃ k, a = j.addressAt k ∧ i.bytes.size ≤ k ∧ i₁.bytes.size = k + 20 ∧ Image.Grown i j ∧
      Image.Frame i₂ j (k + 8) (k + 12) ∧ i₂.bytes.size < j.bytes.size ∧
      j.HoldsNominal k (.pack kind spec.generic kindSpecific) spec := by
  have hfits₂ := fits_of_nameAt hname hfits
  obtain ⟨k, rfl, hk, hsize, hgrown₁, hcontext, haccess, hfields⟩ :=
    nominalHeader_ok hheader (hgrown.fits hfits₂)
  have hsize₂ := hgrown.size
  obtain ⟨hframe, hbehind, hnames⟩ :=
    nameAt_ok hname (hgrown.offset (n := 8) rfl) hfits (by omega) (Nat.le_refl _)
  have haddress : j.addressAt = i₁.addressAt := by rw [hframe.addressAt_eq, hgrown.addressAt_eq]
  refine ⟨k, by rw [haddress], hk, hsize, (hgrown₁.trans hgrown).patch hframe (by omega), hframe,
    hbehind, ?_, ⟨_, hnames⟩, ?_, ?_⟩
  · rw [haddress]
    exact hframe.holdsContext (hgrown.holdsContext hcontext (.inr (Nat.zero_le _)))
      (.inl (Nat.le_refl _))
  · rw [haddress]
    exact hframe.points (hgrown.points haccess (.inr (Nat.zero_le _))) (.inr (Nat.le_refl _))
  · rw [haddress]
    exact hframe.points (hgrown.points hfields (.inr (Nat.zero_le _))) (.inr (by omega))

/-- A struct or an enum: its own words are two, whatever they count. -/
theorem twoWords_ok {kind : ContextKind} {spec : NominalSpec} {first second : UInt32} {a : Address}
    (h : (do
      let start ← nominalHeader kind spec 0
      let _ ← Build.pushU32 first
      let _ ← Build.pushU32 second
      nameAt (start + Context.nameOffset) spec.name
      return start : Build Address).run i = .ok (a, j)) (hfits : j.Fits) :
    ∃ k, a = j.addressAt k ∧ i.bytes.size ≤ k ∧ Image.Grown i j ∧
      j.HoldsNominal k (.pack kind spec.generic 0) spec ∧
      j.Holds (k + 20) (bytesOf32 first) ∧ j.Holds (k + 24) (bytesOf32 second) := by
  obtain ⟨start, i₁, hheader, h⟩ := Build.run_bind_ok h
  obtain ⟨_, i₂, h₂, h⟩ := Build.run_bind_ok h
  obtain ⟨_, i₃, h₃, h⟩ := Build.run_bind_ok h
  obtain ⟨_, i₄, hname, h⟩ := Build.run_bind_ok h
  cases h
  obtain ⟨-, hgrown₂, hsize₂, hfirst⟩ := Build.pushU32_ok h₂
  obtain ⟨-, hgrown₃, hsize₃, hsecond⟩ := Build.pushU32_ok h₃
  obtain ⟨k, ha, hk, hsize, hgrown, hframe, -, hholds⟩ :=
    nominal_ok hheader (hgrown₂.trans hgrown₃) hname hfits
  refine ⟨k, ha, hk, hgrown, hholds, ?_, ?_⟩
  · rw [← hsize]
    exact hframe.holds (hgrown₃.holds hfirst) (.inr (by omega))
  · rw [show k + 24 = i₂.bytes.size by omega]
    exact hframe.holds hsecond (.inr (by omega))

end Emit

/-! ## What is read back -/

section Readers

variable {m : Memory} {j : Image} {k l : Nat} {flags : ContextFlags} {kind : ContextKind}

namespace Context

theorem read_of_holds (h : m.Shows j) {parent : Option Address} (hk : j.HoldsContext k flags parent)
    (hkind : flags.kind? = some kind) :
    read (j.addressAt k) m = .ok ⟨j.addressAt k, flags, kind⟩ := by
  unfold read
  rw [Decoder.bind_of_ok (Decoder.u32_of_holds h hk.flags hk.aligned),
    Decoder.bind_of_ok (a := kind)]
  · rfl
  · rw [show (⟨flags.bits⟩ : ContextFlags) = flags from rfl, hkind]
    rfl

theorem parent_of_holds (h : m.Shows j) (hk : j.HoldsContext k flags (some (j.addressAt l)))
    (hl : (j.base.toNat + l) % 4 = 0) :
    parent ⟨j.addressAt k, flags, kind⟩ m = .ok (some (j.addressAt l)) := by
  have haligned := hk.aligned
  unfold parent
  rw [Image.addressAt_add j k (n := 4) rfl]
  refine RelativePointer.indirectable_of_points h hk.parent (by omega) ?_
  rintro t ⟨rfl⟩
  rw [Image.isAligned_addressAt (by decide)]
  exact decide_eq_true (show (j.base.toNat + l) % 2 = 0 by omega)

theorem name_of_names (h : m.Shows j) {limits : Limits} {lo : Nat} {s : String}
    (hk : j.Names (k + 8) lo s) (ha : (j.base.toNat + k) % 4 = 0) (hzero : 0 ∉ bytesOfText s)
    (hlimit : (bytesOfText s).length < limits.nameLength) :
    name limits ⟨j.addressAt k, flags, kind⟩ m = .ok s := by
  unfold name
  rw [Image.addressAt_add j k (n := 8) rfl]
  exact Name.readRelative_of_names h hk (by omega) hzero hlimit

end Context

/-! ## The way to the module -/

namespace Context

variable {limits : Limits} {root : String} {n : Nat} {c : Context}

/-- `c` is read as a context that is `n` parents inside the module of this name. -/
inductive Inside (m : Memory) (limits : Limits) (root : String) : Nat → Context → Prop where
  | root {c : Context} (isModule : c.kind = .moduleContext) (name : c.name limits m = .ok root) :
    Inside m limits root 0 c
  | inner {n : Nat} {c outer : Context} {a : Address} (notModule : c.kind ≠ .moduleContext)
    (parent : c.parent m = .ok (some a)) (read : Context.read a m = .ok outer)
    (inside : Inside m limits root n outer) : Inside m limits root (n + 1) c

theorem enclosingModule?_of_parent {a : Address} {outer : Context} (depth : Nat)
    (hparent : c.parent m = .ok (some a)) (hread : read a m = .ok outer) :
    c.enclosingModule? (depth + 1) m =
      if outer.kind = .moduleContext then .ok (some outer) else outer.enclosingModule? depth m := by
  refine enclosingModule?_of_some ?_
  rw [around?_of_some hparent, hread]
  rfl

/-- It takes one step more than there are contexts in between. -/
theorem enclosingModule?_of_inside {depth : Nat} (h : Inside m limits root (n + 1) c)
    (hdepth : n < depth) :
    ∃ found, c.enclosingModule? depth m = .ok (some found) ∧ found.name limits m = .ok root := by
  induction n generalizing c depth with
  | zero =>
    obtain ⟨depth, rfl⟩ := Nat.exists_eq_add_one.2 hdepth
    obtain _ | ⟨-, hparent, hread, hinside⟩ := h
    obtain ⟨hmodule, hname⟩ := hinside
    exact ⟨_, by rw [enclosingModule?_of_parent depth hparent hread, if_pos hmodule], hname⟩
  | succ n ih =>
    obtain ⟨depth, rfl⟩ := Nat.exists_eq_add_one.2 (Nat.zero_lt_of_lt hdepth)
    have hrest : n < depth := Nat.lt_of_succ_lt_succ hdepth
    obtain _ | ⟨-, hparent, hread, hinside⟩ := h
    obtain ⟨found, hfound, hname⟩ := ih hinside hrest
    obtain _ | ⟨hne, -⟩ := hinside
    exact ⟨found, by rw [enclosingModule?_of_parent depth hparent hread, if_neg hne, hfound], hname⟩

theorem moduleName_of_inside (h : Inside m limits root (n + 1) c)
    (hdepth : n < limits.contextDepth) : c.moduleName limits m = .ok root := by
  obtain ⟨found, hfound, hname⟩ := enclosingModule?_of_inside h hdepth
  exact (moduleName_of_some hfound).trans hname

end Context

theorem ContextDescriptor.decode_of_read {a : Address} {c : Context}
    (h : Context.read a m = .ok c) : decode a m = .ok (ofContext c) :=
  Decoder.bind_of_ok h

end Readers

end TypeMetadata
