import TypeMetadata.Emit.Section
import TypeMetadata.Proofs.RelativePatches

/-!
# Sections read back

Both sections are runs of relative pointers, so one lemma lays both out: entry after entry, each
appended and then patched. A section of types takes the low bits of its entries for a kind, which is
why what it refers to must lie at multiples of four; a section of conformances skips the entries
that refer to nothing, and so the other ones stay as they are.
-/

namespace TypeMetadata

open RelativePointer (Reaches)

/-- A conformance to be laid out. -/
structure ConformanceSpec where
  protocol : Address
  type : Address
  witnessTable : Option Address := none

namespace ConformanceSpec

def emit (spec : ConformanceSpec) : Build Address :=
  Emit.conformance spec.protocol spec.type spec.witnessTable

/-- None of its pointers at `a` would point to itself. -/
structure Apart (spec : ConformanceSpec) (a : Address) : Prop where
  protocol : spec.protocol ≠ a
  type : spec.type ≠ a + ConformanceRecord.typeOffset
  witnessTable : spec.witnessTable ≠ some (a + ConformanceRecord.witnessTableOffset)

/-- What it reads as at `a`. -/
def record (spec : ConformanceSpec) (a : Address) : ConformanceRecord :=
  ⟨a, some spec.protocol, some (.descriptor spec.type), spec.witnessTable, ⟨0⟩⟩

end ConformanceSpec

/-- The low bits of an entry that refers in this way. -/
def TypeReferenceKind.mark (kind : TypeReferenceKind) : UInt32 := UInt32.ofNat kind.raw

/-- What direct references to `targets` read as from `start` on. -/
def TypeRecord.directTo (start : Address) (targets : List Address) : List TypeRecord :=
  targets.mapIdx fun n target => ⟨start + UInt64.ofNat (4 * n), some (.descriptor target)⟩

namespace Emit

/-- An entry of a section. -/
def entry (target : Option Address) : Build Unit := do
  let a ← Build.pushU32 0
  Build.patchRelative a target

/-- A section of direct references, some of which are null. -/
def sparseRecords (targets : List (Option Address)) : Build Address := do
  let start ← Build.align 4
  targets.forM entry
  return start

/-- A section of references to `targets`, laid out next, stays within the address space, and each of
its entries reaches its target. -/
structure InReach (i : Image) (targets : List (Option Address)) : Prop where
  room : (i.align 4).bytes.size + 4 * targets.length < 0x8000000000000000
  fits : i.base.toNat + (i.align 4).bytes.size + 4 * targets.length ≤ 0x10000000000000000
  reach : ∀ n t, targets[n]? = some (some t) →
    Reaches ((i.align 4).cursor + UInt64.ofNat (4 * n)) t

theorem sparseRecords_map_some (targets : List Address) :
    sparseRecords (targets.map some) = typeRecords targets := by
  have hentries : (targets.map some).forM entry =
      targets.forM fun target => entry (some target) := by
    induction targets with
    | nil => rfl
    | cons target targets ih => exact congrArg (fun x => entry (some target) >>= fun _ => x) ih
  unfold sparseRecords
  rw [hentries]
  rfl

end Emit

namespace Image

/-- The entries at `k` refer to `targets`. -/
structure HoldsSection (i : Image) (k : Nat) (targets : List (Option Address)) : Prop where
  aligned : (i.base.toNat + k) % 4 = 0
  entries : ∀ n target, targets[n]? = some target → i.Points (k + 4 * n) target

structure HoldsConformance (i : Image) (k : Nat) (spec : ConformanceSpec) : Prop where
  aligned : (i.base.toNat + k) % 4 = 0
  protocol : i.Points k (some spec.protocol)
  type : i.Points (k + 4) (some spec.type)
  witnessTable : i.Points (k + 8) spec.witnessTable
  flags : i.Holds (k + 12) (bytesOf32 0)

end Image

/-! ## Laying out -/

theorem Image.Grown.holdsConformance {i j : Image} {k : Nat} {spec : ConformanceSpec}
    (h : Image.Grown i j) (hk : i.HoldsConformance k spec) : j.HoldsConformance k spec where
  aligned := by
    rw [h.base]
    exact hk.aligned
  protocol := h.points hk.protocol (.inr (Nat.zero_le _))
  type := h.points hk.type (.inr (Nat.zero_le _))
  witnessTable := h.points hk.witnessTable (.inr (Nat.zero_le _))
  flags := h.holds hk.flags

namespace Emit

variable {i j : Image}

theorem entry_ok {target : Option Address} {u : Unit} (h : (entry target).run i = .ok (u, j))
    (hfits : j.Fits) :
    Image.Grown i j ∧ j.bytes.size = i.bytes.size + 4 ∧
      (target ≠ some (i.addressAt i.bytes.size) → j.Points i.bytes.size target) := by
  obtain ⟨a, i₁, hpush, h⟩ := Build.run_bind_ok h
  obtain ⟨rfl, hgrown, hsize, -⟩ := Build.pushU32_ok hpush
  obtain ⟨hframe, hsize', hpoints⟩ :=
    Build.patchRelative_ok h (hgrown.addressAt _).symm hfits (by omega)
  refine ⟨hgrown.patch hframe (Nat.le_refl _), by omega, fun hne => ?_⟩
  rwa [if_neg hne] at hpoints

theorem entries_ok {targets : List (Option Address)} {u : Unit}
    (h : (targets.forM entry).run i = .ok (u, j)) (hfits : j.Fits) :
    Image.Grown i j ∧ j.bytes.size = i.bytes.size + 4 * targets.length ∧
      ∀ n target, targets[n]? = some target → target ≠ some (i.addressAt (i.bytes.size + 4 * n)) →
        j.Points (i.bytes.size + 4 * n) target := by
  induction targets generalizing i with
  | nil =>
    cases h
    exact ⟨Image.Frame.refl _ 0 0, rfl, nofun⟩
  | cons target targets ih =>
    change (entry target >>= fun _ => targets.forM entry).run i = .ok (u, j) at h
    obtain ⟨_, i₁, hentry, h⟩ := Build.run_bind_ok h
    obtain ⟨hgrown, hsize, hrest⟩ := ih h
    obtain ⟨hgrown₁, hsize₁, hfirst⟩ := entry_ok hentry (hgrown.fits hfits)
    refine ⟨hgrown₁.trans hgrown, by rw [List.length_cons]; omega, fun n t hn hne => ?_⟩
    cases n with
    | zero =>
      obtain rfl : target = t := by simpa using hn
      exact hgrown.points (hfirst hne) (.inr (Nat.zero_le _))
    | succ n =>
      have hindex : i.bytes.size + 4 * (n + 1) = i₁.bytes.size + 4 * n := by omega
      rw [hindex] at hne ⊢
      exact hrest n t (by simpa using hn) (by rwa [hgrown₁.addressAt])

theorem exists_entry {target : Option Address} (hsize : i.bytes.size + 4 < 0x8000000000000000)
    (hreach : ∀ t, target = some t → Reaches (i.addressAt i.bytes.size) t) :
    ∃ j, (entry target).run i = .ok ((), j) ∧ j.base = i.base ∧
      j.bytes.size = i.bytes.size + 4 := by
  obtain ⟨j, hpatch⟩ : ∃ j, (i.append (bytesOf32 0)).patch (i.addressAt i.bytes.size)
      (bytesOf32 ((RelativePatch.direct target).bits (i.addressAt i.bytes.size))) = .ok j :=
    Image.exists_patch (i := i.append (bytesOf32 0)) (by simp) (by simpa using hsize)
  obtain ⟨hbase, hsize'⟩ := Image.grown_patch hpatch
  exact ⟨j, RelativePatch.make_ok (RelativePatch.fault?_direct_eq_none hreach) hpatch, hbase,
    by simpa using hsize'⟩

theorem exists_entries {targets : List (Option Address)}
    (hsize : i.bytes.size + 4 * targets.length < 0x8000000000000000)
    (hreach : ∀ n t, targets[n]? = some (some t) → Reaches (i.addressAt (i.bytes.size + 4 * n)) t) :
    ∃ j, (targets.forM entry).run i = .ok ((), j) ∧ j.base = i.base ∧
      j.bytes.size = i.bytes.size + 4 * targets.length := by
  induction targets generalizing i with
  | nil => exact ⟨i, rfl, rfl, rfl⟩
  | cons target targets ih =>
    rw [List.length_cons] at hsize
    obtain ⟨i₁, hentry, hbase₁, hsize₁⟩ : ∃ i₁, (entry target).run i = .ok ((), i₁) ∧
        i₁.base = i.base ∧ i₁.bytes.size = i.bytes.size + 4 :=
      exists_entry (by omega) fun t ht => hreach 0 t (by simp [ht])
    obtain ⟨j, hrest, hbase, hsize'⟩ := ih (i := i₁) (by omega) fun n t hn => by
      have := hreach (n + 1) t (by simpa using hn)
      unfold Image.addressAt at *
      rwa [hbase₁, hsize₁, Nat.add_assoc, Nat.add_comm 4, ← Nat.mul_succ]
    refine ⟨j, ?_, hbase.trans hbase₁, by rw [List.length_cons]; omega⟩
    change (entry target >>= fun _ => targets.forM entry).run i = .ok ((), j)
    rw [StateT.run_bind, hentry]
    exact hrest

theorem exists_sparseRecords {targets : List (Option Address)} (h : InReach i targets) :
    ∃ j, (sparseRecords targets).run i = .ok ((i.align 4).cursor, j) ∧ j.Fits := by
  obtain ⟨j, hentries, hbase, hsize⟩ := exists_entries (i := i.align 4) h.room fun n t hn => by
    rw [← Image.addressAt_add_ofNat]
    exact h.reach n t hn
  refine ⟨j, ?_, ?_⟩
  · change (targets.forM entry >>= fun _ => pure (i.align 4).cursor).run (i.align 4) = _
    rw [StateT.run_bind, hentries]
    rfl
  · have := h.fits
    unfold Image.Fits
    rw [hbase, hsize]
    change i.base.toNat + _ ≤ _
    omega

theorem sparseRecords_ok {targets : List (Option Address)} {start : Address}
    (h : (sparseRecords targets).run i = .ok (start, j)) (hfits : j.Fits) :
    ∃ k, start = j.addressAt k ∧ (j.base.toNat + k) % 4 = 0 ∧ i.bytes.size ≤ k ∧
      j.bytes.size = k + 4 * targets.length ∧ Image.Grown i j ∧
      ∀ n target, targets[n]? = some target → target ≠ some (j.addressAt (k + 4 * n)) →
        j.Points (k + 4 * n) target := by
  change (targets.forM entry >>= fun _ => pure (i.align 4).cursor).run (i.align 4) = _ at h
  obtain ⟨_, j', hentries, h⟩ := Build.run_bind_ok h
  cases h
  obtain ⟨hgrown, hsize, hpoints⟩ := entries_ok hentries hfits
  have hpadded := Image.frame_align i 4 0 0
  refine ⟨(i.align 4).bytes.size, (hgrown.addressAt _).symm, ?_, hpadded.size, hsize,
    hpadded.trans hgrown fun _ _ h => ⟨h, h⟩, fun n target hn hne => ?_⟩
  · rw [hgrown.base]
    exact Image.mod_align i (n := 4) (by decide)
  · exact hpoints n target hn (by rwa [hgrown.addressAt] at hne)

theorem conformance_ok {spec : ConformanceSpec} {a : Address}
    (h : spec.emit.run i = .ok (a, j)) (hfits : j.Fits) (hapart : spec.Apart a) :
    ∃ k, a = j.addressAt k ∧ j.HoldsConformance k spec := by
  obtain ⟨_, i₁, halign, h⟩ := Build.run_bind_ok h
  have hmod := Build.align_ok halign
  obtain ⟨_, i₂, h₂, h⟩ := Build.run_bind_ok h
  obtain ⟨rfl, hgrown₂, hsize₂, -⟩ := Build.pushU32_ok h₂
  obtain ⟨_, i₃, h₃, h⟩ := Build.run_bind_ok h
  obtain ⟨-, hgrown₃, hsize₃, -⟩ := Build.pushU32_ok h₃
  obtain ⟨_, i₄, h₄, h⟩ := Build.run_bind_ok h
  obtain ⟨-, hgrown₄, hsize₄, -⟩ := Build.pushU32_ok h₄
  obtain ⟨_, i₅, h₅, h⟩ := Build.run_bind_ok h
  obtain ⟨-, hgrown₅, hsize₅, hflags⟩ := Build.pushU32_ok h₅
  obtain ⟨_, i₆, hprotocol, h⟩ := Build.run_bind_ok h
  obtain ⟨_, i₇, htype, h⟩ := Build.run_bind_ok h
  obtain ⟨_, i₈, hwitness, h⟩ := Build.run_bind_ok h
  cases h
  have hgrown := hgrown₂.trans (hgrown₃.trans (hgrown₄.trans hgrown₅))
  have hfits₇ := Build.fits_of_patchRelative hwitness hfits
  have hfits₆ := Build.fits_of_patchRelative htype hfits₇
  generalize hk : i₁.bytes.size = k at *
  obtain ⟨hframe₆, hsize₆, hpoints₆⟩ :=
    Build.patchRelative_ok hprotocol (hgrown.addressAt k).symm hfits₆ (by omega)
  obtain ⟨hframe₇, hsize₇, hpoints₇⟩ := Build.patchRelative_ok htype
    ((hgrown.offset (n := 4) rfl).trans (hframe₆.addressAt _).symm) hfits₇ (by omega)
  have hframe₅₇ : Image.Frame i₅ i₇ k (k + 8) :=
    hframe₆.trans hframe₇ fun _ _ _ => ⟨by omega, by omega⟩
  obtain ⟨hframe₈, hsize₈, hpoints₈⟩ := Build.patchRelative_ok hwitness
    ((hgrown.offset (n := 8) rfl).trans (hframe₅₇.addressAt _).symm) hfits (by omega)
  have hall : Image.Grown i₁ j :=
    (hgrown.patch hframe₅₇ (by omega)).patch hframe₈ (by omega)
  rw [if_neg (by simpa using hapart.protocol)] at hpoints₆
  rw [if_neg (by simpa using hapart.type)] at hpoints₇
  rw [if_neg hapart.witnessTable] at hpoints₈
  refine ⟨k, (hall.addressAt k).symm, ?_, ?_, ?_, hpoints₈, ?_⟩
  · rw [hall.base]
    exact hk ▸ hmod
  · exact hframe₈.points (hframe₇.points hpoints₆ (by omega)) (by omega)
  · exact hframe₈.points hpoints₇ (by omega)
  · rw [show i₄.bytes.size = k + 12 by omega] at hflags
    exact hframe₈.holds32 (hframe₅₇.holds32 hflags (by omega)) (by omega)

end Emit

/-! ## Reading -/

section Readers

variable {m : Memory} {i : Image} {k : Nat}

theorem TypeReference.ofTarget?_direct (target : Option Address) :
    ofTarget? .directDescriptor target m = .ok (target.map .descriptor) := by
  cases target <;> rfl

/-- An entry refers to what its target stands for in the way of its mark. -/
theorem TypeRecord.read_of_marked {a : Address} {target : Option Address} {mark : UInt32}
    (kind : TypeReferenceKind) (hmark : mark.toNat = kind.raw)
    (h : RelativePointer.marked a kindMask m = .ok (target, mark)) :
    read a m = (TypeReference.ofTarget? kind target m).map fun reference => ⟨a, reference⟩ := by
  unfold read
  rw [Decoder.bind_of_ok h]
  simp only [hmark, TypeReferenceKind.ofRaw?_raw]
  rw [Decoder.bind_of_ok (a := kind) rfl]
  rcases hreference : TypeReference.ofTarget? kind target m with e | reference
  · exact Decoder.bind_of_error hreference
  · exact Decoder.bind_of_ok hreference

theorem TypeRecord.readSection_of_holds {targets : List Address} (h : m.Shows i)
    (hk : i.HoldsSection k (targets.map some))
    (haligned : ∀ d ∈ targets, d.isAligned 4 = true) :
    readSection (i.addressAt k) targets.length m = .ok (directTo (i.addressAt k) targets) := by
  have hlength : (directTo (i.addressAt k) targets).length = targets.length :=
    List.length_mapIdx
  rw [← hlength]
  apply Decoder.series_ok
  intro n x hn
  unfold directTo at hn
  rw [List.getElem?_mapIdx, Option.map_eq_some_iff] at hn
  obtain ⟨d, hd, rfl⟩ := hn
  have hword : (i.base.toNat + (k + 4 * n)) % 4 = 0 := by
    have := hk.aligned
    omega
  have hpoints := hk.entries n (some d) (by simp [hd])
  have hmarked := RelativePointer.marked_of_points h hpoints hword kindMask (by
    rintro t ⟨rfl⟩
    exact RelativePointer.low_bits_of_aligned_addressAt (n := 4)
      (fun x => Nat.and_two_pow_sub_one_eq_mod x 2) (by decide)
      (haligned d (List.mem_of_getElem? hd)) hword)
  rw [Image.addressAt_add_ofNat]
  exact read_of_marked .directDescriptor rfl hmarked

theorem ConformanceRecord.read_of_holds {spec : ConformanceSpec} (h : m.Shows i)
    (hk : i.HoldsConformance k spec) (heven : spec.protocol.isAligned 2 = true) :
    read (i.addressAt k) m = .ok (spec.record (i.addressAt k)) := by
  have ha := hk.aligned
  have hprotocol : RelativePointer.indirectable (i.addressAt k) m = .ok (some spec.protocol) := by
    refine RelativePointer.indirectable_of_points h hk.protocol ha ?_
    rintro t ⟨rfl⟩
    exact heven
  have htype := RelativePointer.direct_of_points h hk.type (by omega)
  have hwitness := RelativePointer.direct_of_points h hk.witnessTable (by omega)
  have hflags := Decoder.u32_of_holds h hk.flags (by omega)
  unfold read
  rw [Image.addressAt_add i k (c := flagsOffset) (n := 12) rfl,
    Image.addressAt_add i k (c := typeOffset) (n := 4) rfl,
    Image.addressAt_add i k (c := witnessTableOffset) (n := 8) rfl, Decoder.bind_of_ok hflags,
    Decoder.bind_of_ok (a := TypeReferenceKind.directDescriptor) rfl,
    Decoder.bind_of_ok hprotocol, Decoder.bind_of_ok htype,
    Decoder.bind_of_ok (TypeReference.ofTarget?_direct _), Decoder.bind_of_ok hwitness]
  rfl

/-- The null entries drop out, the others stay in order. -/
theorem ConformanceRecord.readSection_of_holds {entries : List (Option (Address × ConformanceSpec))}
    (h : m.Shows i) (hk : i.HoldsSection k (entries.map (·.map Prod.fst)))
    (hread : ∀ c spec, some (c, spec) ∈ entries → read c m = .ok (spec.record c)) :
    readSection (i.addressAt k) entries.length m =
      .ok (entries.filterMap fun e => e.map fun p => p.2.record p.1) := by
  have hseries : Decoder.series readEntry sectionEntrySize
      (entries.map fun e => e.map fun p => p.2.record p.1).length (i.addressAt k) m =
      .ok (entries.map fun e => e.map fun p => p.2.record p.1) := by
    apply Decoder.series_ok
    intro n x hn
    rw [List.getElem?_map, Option.map_eq_some_iff] at hn
    obtain ⟨e, he, rfl⟩ := hn
    have hpoints := hk.entries n (e.map Prod.fst) (by simp [he])
    have hdirect := RelativePointer.direct_of_points h hpoints (by
      have := hk.aligned
      omega)
    unfold readEntry
    refine (Decoder.bind_of_ok hdirect).trans ?_
    cases e with
    | none => rfl
    | some p => exact Decoder.bind_of_ok (hread p.1 p.2 (List.mem_of_getElem? he))
  rw [List.length_map] at hseries
  unfold readSection
  rw [Decoder.bind_of_ok hseries]
  exact congrArg Except.ok (by rw [List.filterMap_map]; rfl)

/-- An entry that is patched in with a mark refers to its target in the way of the mark. -/
theorem TypeRecord.read_of_patchRelativeMarked {j : Image} {a target : Address} {u : Unit}
    (kind : TypeReferenceKind) (hclear : m.ClearFor i) (hat : a.isAligned 4 = true)
    (hbase : i.base ≤ a) (hne : target ≠ a) (htarget : target.isAligned 4 = true)
    (h : (Build.patchRelativeMarked a target kind.mark).run i = .ok (u, j)) :
    read a (m.load j) =
      (TypeReference.ofTarget kind target (m.load j)).map fun reference => ⟨a, reference⟩ := by
  obtain ⟨r, hmarked, hiff⟩ :=
    RelativePatch.marked_of_patchRelativeMarked hclear hat hbase h kindMask
  have hlow := RelativePointer.low_bits_of_aligned (n := 4)
    (fun x => Nat.and_two_pow_sub_one_eq_mod x 2) (by decide) htarget hat
  obtain rfl := hiff.2 ⟨hlow, by cases kind <;> decide, hne⟩
  exact read_of_marked kind (by cases kind <;> rfl) hmarked

end Readers

/-! ## Sections -/

section Sections

variable {m : Memory} {i : Image}

theorem typeRecords_read_back {ds : List Address} (hreach : Emit.InReach i (ds.map some))
    (haligned : ∀ d ∈ ds, d.isAligned 4 = true)
    (hapart : ∀ n d, ds[n]? = some d → d ≠ (i.align 4).cursor + UInt64.ofNat (4 * n)) :
    ∃ j, (Emit.typeRecords ds).run i = .ok ((i.align 4).cursor, j) ∧
      ∀ more, m.ClearFor (j.append more) →
        TypeRecord.readSection (i.align 4).cursor ds.length (m.load (j.append more)) =
          .ok (TypeRecord.directTo (i.align 4).cursor ds) := by
  rw [← Emit.sparseRecords_map_some]
  obtain ⟨j, hrun, hfits⟩ := Emit.exists_sparseRecords hreach
  refine ⟨j, hrun, fun more hclear => ?_⟩
  obtain ⟨k, hstart, hmod, -, -, -, hpoints⟩ := Emit.sparseRecords_ok hrun hfits
  rw [hstart] at hapart ⊢
  refine TypeRecord.readSection_of_holds
    (Memory.load_shows (Image.frame_append j more 0 0) hfits hclear)
    ⟨hmod, fun n target hn => hpoints n target hn ?_⟩ haligned
  rw [List.getElem?_map, Option.map_eq_some_iff] at hn
  obtain ⟨d, hd, rfl⟩ := hn
  have := hapart n d hd
  rw [Image.addressAt_add_ofNat] at this
  simpa using this

theorem conformances_read_back {entries : List (Option (Address × ConformanceSpec))}
    (hreach : Emit.InReach i (entries.map (·.map Prod.fst)))
    (hlaid : ∀ c spec, some (c, spec) ∈ entries → i.LaidOut spec.emit c ∧ spec.Apart c ∧
      spec.protocol.isAligned 2 = true) :
    ∃ j, (Emit.sparseRecords (entries.map (·.map Prod.fst))).run i =
        .ok ((i.align 4).cursor, j) ∧
      ∀ more, m.ClearFor (j.append more) →
        ConformanceRecord.readSection (i.align 4).cursor entries.length (m.load (j.append more)) =
          .ok (entries.filterMap fun e => e.map fun p => p.2.record p.1) := by
  obtain ⟨j, hrun, hfits⟩ := Emit.exists_sparseRecords hreach
  refine ⟨j, hrun, fun more hclear => ?_⟩
  obtain ⟨k, hstart, hmod, hk, hsize, hgrown, hpoints⟩ := Emit.sparseRecords_ok hrun hfits
  have hshows := Memory.load_shows (Image.frame_append j more 0 0) hfits hclear
  rw [List.length_map] at hsize
  -- where a conformance stands, which is before the section
  have hstands : ∀ c spec, some (c, spec) ∈ entries → ∃ l, c = j.addressAt l ∧
      l + 12 < k ∧ j.HoldsConformance l spec := by
    intro c spec hmem
    obtain ⟨⟨i₀, i₁, hemit, hgrown₁⟩, hapart, -⟩ := hlaid c spec hmem
    have hgrown' := hgrown₁.trans hgrown
    obtain ⟨l, rfl, hholds⟩ := Emit.conformance_ok hemit (hgrown'.fits hfits) hapart
    have hlast := hholds.flags.lt_size (l := 0) (by simp)
    have hsize₁ := hgrown₁.size
    exact ⟨l, (hgrown'.addressAt l).symm, by omega, hgrown'.holdsConformance hholds⟩
  rw [hstart]
  refine ConformanceRecord.readSection_of_holds hshows
    ⟨hmod, fun n target hn => hpoints n target hn ?_⟩ fun c spec hmem => ?_
  · rw [List.getElem?_map, Option.map_eq_some_iff] at hn
    obtain ⟨e, he, rfl⟩ := hn
    intro hown
    obtain ⟨p, rfl, hp⟩ := Option.map_eq_some_iff.1 hown
    obtain ⟨l, hl, hlt, -⟩ := hstands p.1 p.2 (List.mem_of_getElem? he)
    have hn := (List.getElem?_eq_some_iff.1 he).1
    unfold Image.Fits at hfits
    have := Image.addressAt_inj (by omega) (by omega) (hl.symm.trans hp)
    omega
  · obtain ⟨l, rfl, -, hholds⟩ := hstands c spec hmem
    exact ConformanceRecord.read_of_holds hshows hholds (hlaid _ _ hmem).2.2

/-- Sections that are laid out, whatever was laid out before or is appended after them, are read
back from where they are loaded:

* a section of types gives a record for each address, in order, four bytes apart;
* an entry marked as indirect refers to what its slot points to, if that is not null, and one marked
  with a kind of Objective-C class to a class of that kind, which has no descriptor;
* a section of conformances gives those its entries refer to, in order, whatever null entries stand
  between them; without null entries it is the one that `Emit.conformanceRecords` lays out. -/
theorem sections_read_back (m : Memory) (i : Image) :
    (∀ ds : List Address, Emit.InReach i (ds.map some) →
      (∀ d ∈ ds, d.isAligned 4 = true) →
      (∀ n d, ds[n]? = some d → d ≠ (i.align 4).cursor + UInt64.ofNat (4 * n)) →
      ∃ j, (Emit.typeRecords ds).run i = .ok ((i.align 4).cursor, j) ∧
        ∀ more, m.ClearFor (j.append more) →
          TypeRecord.readSection (i.align 4).cursor ds.length (m.load (j.append more)) =
            .ok (TypeRecord.directTo (i.align 4).cursor ds)) ∧
    (∀ a target j, a.isAligned 4 = true → i.base ≤ a → m.ClearFor i → target ≠ a →
      target.isAligned 4 = true →
      ((Build.patchRelativeMarked a target TypeReferenceKind.indirectDescriptor.mark).run i =
          .ok ((), j) → ∀ p, Decoder.pointer target (m.load j) = .ok p →
        TypeRecord.read a (m.load j) = .ok ⟨a, p.nonNull?.map .descriptor⟩) ∧
      ((Build.patchRelativeMarked a target TypeReferenceKind.directObjcClassName.mark).run i =
          .ok ((), j) →
        TypeRecord.read a (m.load j) = .ok ⟨a, some (.objcClassName target)⟩) ∧
      ((Build.patchRelativeMarked a target TypeReferenceKind.indirectObjcClass.mark).run i =
          .ok ((), j) →
        TypeRecord.read a (m.load j) = .ok ⟨a, some (.indirectObjcClass target)⟩) ∧
      (TypeReference.objcClassName target).descriptor? = none ∧
      (TypeReference.indirectObjcClass target).descriptor? = none) ∧
    (∀ entries : List (Option (Address × ConformanceSpec)),
      Emit.InReach i (entries.map (·.map Prod.fst)) →
      (∀ c spec, some (c, spec) ∈ entries → i.LaidOut spec.emit c ∧ spec.Apart c ∧
        spec.protocol.isAligned 2 = true) →
      ∃ j, (Emit.sparseRecords (entries.map (·.map Prod.fst))).run i =
          .ok ((i.align 4).cursor, j) ∧
        ∀ more, m.ClearFor (j.append more) →
          ConformanceRecord.readSection (i.align 4).cursor entries.length
              (m.load (j.append more)) =
            .ok (entries.filterMap fun e => e.map fun p => p.2.record p.1)) ∧
    ∀ targets, Emit.sparseRecords (targets.map some) = Emit.conformanceRecords targets := by
  refine ⟨fun ds => typeRecords_read_back, fun a target j hat hbase hclear hne htarget =>
    ⟨fun h p hp => ?_, fun h => ?_, fun h => ?_, rfl, rfl⟩, fun entries => conformances_read_back,
    Emit.sparseRecords_map_some⟩
  · have hreference : TypeReference.ofTarget .indirectDescriptor target (m.load j) =
        .ok (p.nonNull?.map .descriptor) := Decoder.bind_of_ok hp
    rw [TypeRecord.read_of_patchRelativeMarked _ hclear hat hbase hne htarget h, hreference]
    rfl
  · exact TypeRecord.read_of_patchRelativeMarked _ hclear hat hbase hne htarget h
  · exact TypeRecord.read_of_patchRelativeMarked _ hclear hat hbase hne htarget h

/-- Two types, and a conformance between two null entries. -/
theorem sections_read_back_between :
    let spec : ConformanceSpec := { protocol := ⟨0x2002⟩, type := ⟨0x3001⟩ }
    ∃ i, spec.emit.run ⟨⟨0x1000⟩, #[]⟩ = .ok (⟨0x1000⟩, i) ∧
      (∃ j, (Emit.typeRecords [⟨0x2000⟩, ⟨0x1000⟩]).run i = .ok (⟨0x1010⟩, j) ∧
        TypeRecord.readSection ⟨0x1010⟩ 2 ((Memory.empty .null).load (j.append [1])) =
          .ok [⟨⟨0x1010⟩, some (.descriptor ⟨0x2000⟩)⟩, ⟨⟨0x1014⟩, some (.descriptor ⟨0x1000⟩)⟩]) ∧
      ∃ j, (Emit.sparseRecords [none, some ⟨0x1000⟩, none]).run i = .ok (⟨0x1010⟩, j) ∧
        ConformanceRecord.readSection ⟨0x1010⟩ 3 ((Memory.empty .null).load (j.append [1])) =
          .ok [⟨⟨0x1000⟩, some ⟨0x2002⟩, some (.descriptor ⟨0x3001⟩), none, ⟨0⟩⟩] := by
  intro spec
  obtain ⟨c, i, hemit, hchecked⟩ := Build.exists_of_any (i := ⟨⟨0x1000⟩, #[]⟩) (x := spec.emit)
    (p := fun (c, i) => decide (c = ⟨0x1000⟩ ∧ i.base = ⟨0x1000⟩ ∧
      (i.align 4).bytes.size = 16 ∧ (i.align 4).cursor = ⟨0x1010⟩)) (by decide +kernel)
  obtain ⟨rfl, hbase, hsize, hcursor⟩ : c = ⟨0x1000⟩ ∧ i.base = ⟨0x1000⟩ ∧
    (i.align 4).bytes.size = 16 ∧ (i.align 4).cursor = ⟨0x1010⟩ := of_decide_eq_true hchecked
  obtain ⟨htypes, -, hconformances, -⟩ := sections_read_back (.empty .null) i
  refine ⟨i, hemit, ?_, ?_⟩
  · have hreach : Emit.InReach i [some ⟨0x2000⟩, some ⟨0x1000⟩] := by
      refine ⟨by rw [hsize]; decide, by rw [hbase, hsize]; decide, fun n t hn => ?_⟩
      rw [hcursor]
      rcases n with _ | _ | n <;> simp at hn <;> subst hn <;> decide
    obtain ⟨j, hrun, hread⟩ := htypes [⟨0x2000⟩, ⟨0x1000⟩] hreach (by decide) fun n d hn => by
      rw [hcursor]
      rcases n with _ | _ | n <;> simp at hn <;> subst hn <;> decide
    rw [hcursor] at hrun hread
    exact ⟨j, hrun, hread [1] nofun⟩
  · have hreach : Emit.InReach i [none, some ⟨0x1000⟩, none] := by
      refine ⟨by rw [hsize]; decide, by rw [hbase, hsize]; decide, fun n t hn => ?_⟩
      rw [hcursor]
      rcases n with _ | _ | _ | n <;> simp at hn
      subst hn
      decide
    obtain ⟨j, hrun, hread⟩ := hconformances [none, some (⟨0x1000⟩, spec), none] hreach
      fun c spec' hmem => by
        obtain ⟨rfl, rfl⟩ : c = ⟨0x1000⟩ ∧ spec' = spec := by simpa using hmem
        exact ⟨⟨_, i, hemit, Image.Frame.refl i 0 0⟩, ⟨by decide, by decide, nofun⟩, by decide⟩
    rw [hcursor] at hrun hread
    exact ⟨j, hrun, hread [1] nofun⟩

/-- An entry that is its own slot holds the offset zero, which stands for no target, and so it
refers to nothing though the slot is not null; and the entries of a section that lie past the end of
the address space are not read. -/
theorem not_sections_read_back :
    (∃ j, (Build.patchRelativeMarked ⟨0x1000⟩ ⟨0x1000⟩ 1).run
        ⟨⟨0x1000⟩, Array.replicate 8 0⟩ = .ok ((), j) ∧
      Decoder.pointer ⟨0x1000⟩ ((Memory.empty .null).load j) = .ok ⟨1⟩ ∧
      TypeRecord.read ⟨0x1000⟩ ((Memory.empty .null).load j) = .ok ⟨⟨0x1000⟩, none⟩) ∧
    ∃ j, (Emit.typeRecords [⟨0xfffffffffffffff0⟩, ⟨0xfffffffffffffff0⟩]).run
        ⟨⟨0xfffffffffffffffc⟩, #[]⟩ = .ok (⟨0xfffffffffffffffc⟩, j) ∧
      TypeRecord.readSection ⟨0xfffffffffffffffc⟩ 2 ((Memory.empty .null).load j) =
        .error (.memory (.unmapped ⟨0⟩ 4)) :=
  ⟨⟨_, rfl, rfl, rfl⟩, _, rfl, rfl⟩

end Sections

end TypeMetadata
