import TypeMetadata.Proofs.LoadedImage
import TypeMetadata.Record.Pointer

/-!
# Relative pointers read back

`RelativePatch` is one of the three ways to patch a relative pointer in, and `word` the word each of
them leaves. From then on only that word counts: a target comes back from it unless the word that
stands for it is the zero that stands for none, or its low bits are taken for something else.
-/

namespace TypeMetadata

/-! ## Distances -/

namespace RelativePointer

/-- The distance to `target` fits in 32 bits. -/
def Reaches (a target : Address) : Prop :=
  -0x80000000 ≤ (target.distanceFrom a).toInt ∧ (target.distanceFrom a).toInt < 0x80000000

instance (a target : Address) : Decidable (Reaches a target) := instDecidableAnd

/-- The low half of the distance to `target`. -/
def offset (a target : Address) : UInt32 := (target.val - a.val).toUInt32

variable {a t : Address}

theorem toInt32_distanceFrom (a t : Address) :
    (t.distanceFrom a).toInt32 = (offset a t).toInt32 := by
  apply Int32.toBitVec.inj
  simp [Address.distanceFrom, offset, BitVec.signExtend_eq_setWidth_of_le]

theorem reaches_iff : (t.distanceFrom a).toInt32.toInt64 = t.distanceFrom a ↔ Reaches a t := by
  rw [← Int64.toInt_inj, Int32.toInt_toInt64, Int64.toInt_toInt32, Int.bmod_def, Reaches]
  split <;> omega

theorem displacement_eq (a t : Address) : displacement a t =
    if Reaches a t then .ok (offset a t).toInt32 else .error (.tooFar a t) := by
  unfold displacement
  simp only [reaches_iff]
  rw [toInt32_distanceFrom]

theorem displace_offset (h : Reaches a t) : a.displace (offset a t).toInt32.toInt64 = t := by
  rw [← toInt32_distanceFrom, reaches_iff.2 h, Address.add_distanceFrom]

theorem distanceFrom_of_apply {n : Int32} (h : apply a n = some t) :
    t.distanceFrom a = n.toInt64 := by
  have hn : n ≠ 0 := by
    intro h0
    simp [apply, h0] at h
  have hdisplace : a.displace n.toInt64 = t := by simpa [apply, hn] using h
  rw [← hdisplace, Address.displace, Address.distanceFrom, UInt64.add_comm, UInt64.add_sub_cancel]
  simp

theorem reaches_of_apply {n : Int32} (h : apply a n = some t) : Reaches a t := by
  rw [← reaches_iff, distanceFrom_of_apply h]
  simp

/-- The offset in reach leads to its target, and no other does. -/
theorem apply_eq_some_iff (h : Reaches a t) {n : UInt32} :
    apply a n.toInt32 = some t ↔ n = offset a t ∧ t ≠ a := by
  have hd : displacement a t = .ok (offset a t).toInt32 := by rw [displacement_eq, if_pos h]
  constructor
  · intro happly
    have hoffset : n = offset a t := by
      have := toInt32_distanceFrom a t
      rw [distanceFrom_of_apply happly, Int32.toInt32_toInt64] at this
      simpa using congrArg Int32.toUInt32 this
    refine ⟨hoffset, ?_⟩
    rintro rfl
    simp [apply, hoffset, offset] at happly
  · rintro ⟨rfl, hne⟩
    rw [Build.apply_displacement hd, if_neg hne]

theorem toUInt64_and_toUInt32 (d : UInt64) (mask : UInt32) :
    (d.toUInt32 &&& mask).toUInt64 = d &&& mask.toUInt64 := by
  apply UInt64.toNat_inj.1
  have hmask := mask.toNat_lt
  have hand := Nat.and_le_right (n := d.toNat) (m := mask.toNat)
  have hmod := Nat.and_mod_two_pow (a := d.toNat) (b := mask.toNat) (n := 32)
  simp only [UInt32.toNat_toUInt64, UInt32.toNat_and, UInt64.toNat_toUInt32, UInt64.toNat_and]
  rw [Nat.mod_eq_of_lt (a := mask.toNat) (by omega), Nat.mod_eq_of_lt (by omega)] at hmod
  exact hmod.symm

/-- The low bits of an offset are those of the distance. -/
theorem offset_and_eq_zero_iff (mask : UInt32) :
    offset a t &&& mask = 0 ↔ (t.val - a.val) &&& mask.toUInt64 = 0 := by
  rw [← toUInt64_and_toUInt32, ← UInt32.toUInt64_inj, offset]
  rfl

theorem offset_even_iff : offset a t &&& 1 = 0 ↔ (t.val - a.val) &&& 1 = 0 :=
  offset_and_eq_zero_iff 1

theorem eq_iff_bits {x y : UInt32} :
    x = y ↔ ∀ l < 32, x.toBitVec.getLsbD l = y.toBitVec.getLsbD l :=
  ⟨fun h _ _ => h ▸ rfl, fun h => UInt32.toBitVec_inj.1 (BitVec.eq_of_getLsbD_eq h)⟩

/-- A mask takes two words apart if one lies within it and the other without. -/
theorem and_or_eq_iff (n mark mask : UInt32) :
    ((n ||| mark) &&& ~~~mask = n ∧ (n ||| mark) &&& mask = mark) ↔
      n &&& mask = 0 ∧ mark &&& mask = mark := by
  simp only [eq_iff_bits, UInt32.toBitVec_and, UInt32.toBitVec_or, UInt32.toBitVec_not,
    BitVec.getLsbD_and, BitVec.getLsbD_or, BitVec.getLsbD_not, UInt32.toBitVec_zero,
    BitVec.getLsbD_zero]
  grind

/-- Addresses at multiples of a power of two are such a multiple apart. -/
theorem low_bits_of_aligned {n : UInt64} (hpow : ∀ x, x &&& (n.toNat - 1) = x % n.toNat)
    (hn : n.toNat ∣ 0x10000000000000000) (ht : t.isAligned n = true) (ha : a.isAligned n = true) :
    (t.val - a.val) &&& (n - 1) = 0 := by
  have hpos := Nat.pos_of_dvd_of_pos hn (by decide)
  have hzero : n ≠ 0 := by
    rintro rfl
    exact absurd hpos (by decide)
  have hdvd {b : Address} (hb : b.isAligned n = true) : n.toNat ∣ b.val.toNat := by
    have hmod : b.val % n = 0 := by simpa [Address.isAligned, hzero] using hb
    apply Nat.dvd_of_mod_eq_zero
    simpa using congrArg UInt64.toNat hmod
  apply UInt64.toNat_inj.1
  rw [UInt64.toNat_and, UInt64.toNat_sub_of_le n 1 (UInt64.le_iff_toNat_le.2 hpos)]
  change (t.val - a.val).toNat &&& (n.toNat - 1) = 0
  rw [hpow, UInt64.toNat_sub, Nat.mod_mod_of_dvd _ hn]
  exact Nat.mod_eq_zero_of_dvd (Nat.dvd_add (Nat.dvd_sub hn (hdvd ha)) (hdvd ht))

/-! ## Pointers that stand -/

section Stands

variable {m : Memory} {i : Image} {k : Nat} {target : Option Address}

/-- A word that leads to a target has as many low bits clear as the distance to it. -/
theorem and_eq_zero_of_apply {n : UInt32} (mask : UInt32) (h : apply a n.toInt32 = target)
    (hlow : ∀ t, target = some t → (t.val - a.val) &&& mask.toUInt64 = 0) : n &&& mask = 0 := by
  cases target with
  | none =>
    have hn : n.toInt32 = 0 := by
      by_cases hn : n.toInt32 = 0
      · exact hn
      · simp [apply, hn] at h
    have hzero : n = 0 := (UInt32.toUInt32_toInt32 n).symm.trans (congrArg Int32.toUInt32 hn)
    rw [hzero, UInt32.zero_and]
  | some t =>
    obtain ⟨rfl, -⟩ := (apply_eq_some_iff (reaches_of_apply h)).1 h
    exact (offset_and_eq_zero_iff mask).2 (hlow t rfl)

theorem low_bits_of_aligned_addressAt {n : UInt64}
    (hpow : ∀ x, x &&& (n.toNat - 1) = x % n.toNat) (hn : n.toNat ∣ 0x10000000000000000)
    (ht : t.isAligned n = true) (ha : (i.base.toNat + k) % n.toNat = 0) :
    (t.val - (i.addressAt k).val) &&& (n - 1) = 0 := by
  refine low_bits_of_aligned hpow hn ht ?_
  rw [Image.isAligned_addressAt hn]
  exact decide_eq_true ha

theorem indirectable_of_points (h : m.Shows i) (hk : i.Points k target)
    (ha : (i.base.toNat + k) % 4 = 0) (heven : ∀ t, target = some t → t.isAligned 2 = true) :
    indirectable (i.addressAt k) m = .ok target := by
  obtain ⟨n, hn, happly⟩ := hk
  have htwo : (i.base.toNat + k) % (2 : UInt64).toNat = 0 := by
    change _ % 2 = 0
    omega
  have hlow := and_eq_zero_of_apply 1 happly fun t ht =>
    low_bits_of_aligned_addressAt (n := 2) (fun x => Nat.and_two_pow_sub_one_eq_mod x 1)
      (by decide) (heven t ht) htwo
  rw [indirectable_of_readU32 (Memory.readU32_of_holds h hn ha), if_pos hlow, happly]

theorem marked_of_points (h : m.Shows i) (hk : i.Points k target)
    (ha : (i.base.toNat + k) % 4 = 0) (mask : UInt32)
    (hlow : ∀ t, target = some t → (t.val - (i.addressAt k).val) &&& mask.toUInt64 = 0) :
    marked (i.addressAt k) mask m = .ok (target, 0) := by
  obtain ⟨n, hn, happly⟩ := hk
  have hmask := and_eq_zero_of_apply mask happly hlow
  have hrest : n &&& ~~~mask = n := by
    simpa using ((and_or_eq_iff n 0 mask).2 ⟨hmask, UInt32.zero_and⟩).1
  rw [marked_of_readU32 (Memory.readU32_of_holds h hn ha), hmask, hrest, happly]

end Stands

end RelativePointer

/-! ## Patches -/

/-- A relative pointer to be patched in. -/
inductive RelativePatch where
  | direct (target : Option Address)
  | indirect (slot : Address)
  | marked (target : Address) (mark : UInt32)

/-- A layout that works on the image itself: what it has done by the time it fails stays done. -/
abbrev InPlace := ExceptT PatchError (StateM Image)

namespace InPlace

variable {α β : Type}

/-- What it makes of an image. -/
def runOn (x : InPlace α) (i : Image) : Except PatchError α × Image :=
  StateT.run x.run i

def update (f : Image → Except PatchError Image) : InPlace Unit := do
  set (← MonadExcept.ofExcept (f (← get)))

def patchU32 (a : Address) (n : UInt32) : InPlace Unit := update fun i => i.patch a (bytesOf32 n)

theorem runOn_update (f : Image → Except PatchError Image) (i : Image) :
    (update f).runOn i = ((f i).map fun _ => (), (f i).toOption.getD i) := by
  change (MonadExcept.ofExcept (f i) >>= fun j => (set j : InPlace Unit)).runOn i = _
  rcases f i with e | j <;> rfl

theorem runOn_ok_bind (x : α) (f : α → InPlace β) (i : Image) :
    (MonadExcept.ofExcept (.ok x) >>= f).runOn i = (f x).runOn i := rfl

theorem runOn_error_bind (e : PatchError) (f : α → InPlace β) (i : Image) :
    (MonadExcept.ofExcept (.error e) >>= f).runOn i = (.error e, i) := rfl

end InPlace

/-- What a layout makes of an image, which stays as it is when the layout cannot be made. -/
def Build.tryOn {α : Type} (x : Build α) (i : Image) : Except PatchError α × Image :=
  ((x.run i).map Prod.fst, (x.run i).toOption.elim i Prod.snd)

namespace RelativePatch

open RelativePointer (Reaches offset displacement_eq offset_even_iff)

def make (a : Address) : RelativePatch → Build Unit
  | direct target => Build.patchRelative a target
  | indirect slot => Build.patchRelativeIndirect a slot
  | marked target mark => Build.patchRelativeMarked a target mark

/-- The word it leaves at `a`, if there is one. -/
def word (a : Address) : RelativePatch → Except PatchError UInt32
  | direct none => return 0
  | direct (some target) => return (← displacement a target).toUInt32
  | indirect slot => do
    let raw ← displacement a slot
    if raw.toUInt32 &&& 1 ≠ 0 then throw (.oddSlot slot)
    return raw.toUInt32 ||| 1
  | marked target mark => return (← displacement a target).toUInt32 ||| mark

def makeInPlace (a : Address) (p : RelativePatch) : InPlace Unit := do
  InPlace.patchU32 a (← MonadExcept.ofExcept (p.word a))

/-- What is wrong with the pointer at `a` wherever the image lies. -/
def fault? (a : Address) : RelativePatch → Option PatchError
  | direct none => none
  | direct (some target) | marked target _ =>
    if Reaches a target then none else some (.tooFar a target)
  | indirect slot =>
    if Reaches a slot then
      if (slot.val - a.val) &&& 1 = 0 then none else some (.oddSlot slot)
    else some (.tooFar a slot)

/-- Why no word can be patched in at `a`. -/
def outside? (i : Image) (a : Address) : Option PatchError :=
  let start := a.distanceFrom i.base
  if 0 ≤ start ∧ start.toNatClampNeg + 4 ≤ i.bytes.size then none
  else some (.outside a i.bytes.size i.base)

/-- Why the pointer cannot be patched in at `a`. -/
def refusal? (i : Image) (a : Address) (p : RelativePatch) : Option PatchError :=
  (p.fault? a).or (outside? i a)

/-- The bits of the word it leaves at `a`. -/
def bits (a : Address) : RelativePatch → UInt32
  | direct none => 0
  | direct (some target) => offset a target
  | indirect slot => offset a slot ||| 1
  | marked target mark => offset a target ||| mark

variable {m : Memory} {i j : Image} {a : Address} {n : UInt32}

/-! ## Patching in -/

theorem word_eq (a : Address) (p : RelativePatch) :
    p.word a = (p.fault? a).elim (.ok (p.bits a)) .error := by
  cases p with
  | direct target =>
    cases target with
    | none => rfl
    | some t =>
      by_cases h : Reaches a t <;> simp only [word, fault?, bits, displacement_eq, h] <;> rfl
  | indirect slot =>
    by_cases h : Reaches a slot
    · simp only [word, fault?, bits, displacement_eq, h, if_true, ← offset_even_iff]
      change (if offset a slot &&& 1 ≠ 0 then _ else _) = _
      by_cases h1 : offset a slot &&& 1 = 0
      · rw [if_pos h1, if_neg (Decidable.not_not.2 h1)]
        rfl
      · rw [if_neg h1, if_pos h1]
        rfl
    · simp only [word, fault?, displacement_eq, h]
      rfl
  | marked t mark =>
    by_cases h : Reaches a t <;> simp only [word, fault?, bits, displacement_eq, h] <;> rfl

theorem run_make (p : RelativePatch) (a : Address) (i : Image) :
    (p.make a).run i = p.word a >>= fun n => (Build.patchU32 a n).run i := by
  cases p with
  | direct target =>
    cases target with
    | none => rfl
    | some t =>
      simp only [make, word, Build.patchRelative]
      rcases displacement a t <;> rfl
  | indirect slot =>
    simp only [make, word, Build.patchRelativeIndirect]
    rcases displacement a slot with e | raw
    · rfl
    · change StateT.run (if _ then _ else _) i = Except.bind (if _ then _ else _) _
      split <;> rfl
  | marked t mark =>
    simp only [make, word, Build.patchRelativeMarked]
    rcases displacement a t <;> rfl

theorem run_patchU32 (a : Address) (n : UInt32) (i : Image) :
    (Build.patchU32 a n).run i = (i.patch a (bytesOf32 n)).map fun j => ((), j) :=
  Build.run_patch a (bytesOf32 n) i

theorem tryOn_patchU32 (a : Address) (n : UInt32) (i : Image) :
    (Build.patchU32 a n).tryOn i =
      ((i.patch a (bytesOf32 n)).map fun _ => (), (i.patch a (bytesOf32 n)).toOption.getD i) := by
  unfold Build.tryOn
  rw [run_patchU32]
  rcases i.patch a (bytesOf32 n) with e | j <;> rfl

/-- Patching in place checks all there is to check before it writes. -/
theorem runOn_makeInPlace (p : RelativePatch) (a : Address) (i : Image) :
    (p.makeInPlace a).runOn i = (p.make a).tryOn i := by
  unfold makeInPlace
  rcases h : p.word a with e | n
  · rw [InPlace.runOn_error_bind, Build.tryOn, run_make, h]
    rfl
  · rw [InPlace.runOn_ok_bind, InPlace.patchU32, InPlace.runOn_update, ← tryOn_patchU32,
      Build.tryOn, Build.tryOn, run_make, h]
    rfl

theorem make_eq_error_iff (p : RelativePatch) (a : Address) (i : Image) (e : PatchError) :
    (p.make a).run i = .error e ↔ p.refusal? i a = some e := by
  rw [run_make, word_eq, refusal?]
  rcases p.fault? a with _ | fault
  · change (Build.patchU32 a (p.bits a)).run i = .error e ↔ outside? i a = some e
    rw [run_patchU32, outside?, Image.patch]
    simp only [length_bytesOf32]
    split <;> simp [Except.map]
  · change Except.error fault = .error e ↔ some fault = some e
    simp

theorem fault?_indirect_eq_none_iff {slot : Address} :
    fault? a (.indirect slot) = none ↔ Reaches a slot ∧ (slot.val - a.val) &&& 1 = 0 := by
  by_cases h : Reaches a slot <;> by_cases h1 : (slot.val - a.val) &&& 1 = 0 <;>
    simp [fault?, h, h1]

theorem fault?_marked_eq_none_iff {target : Address} {mark : UInt32} :
    fault? a (.marked target mark) = none ↔ Reaches a target := by
  by_cases h : Reaches a target <;> simp [fault?, h]

theorem fault?_direct_eq_none {target : Option Address}
    (h : ∀ t, target = some t → Reaches a t) : fault? a (.direct target) = none := by
  cases target with
  | none => rfl
  | some t => exact if_pos (h t rfl)

theorem make_ok {p : RelativePatch} (hfault : p.fault? a = none)
    (h : i.patch a (bytesOf32 (p.bits a)) = .ok j) : (p.make a).run i = .ok ((), j) := by
  rw [run_make, word_eq, hfault]
  change (Build.patchU32 a (p.bits a)).run i = .ok ((), j)
  rw [run_patchU32, h]
  rfl

theorem of_make_ok {p : RelativePatch} {u : Unit} (h : (p.make a).run i = .ok (u, j)) :
    p.fault? a = none ∧ i.patch a (bytesOf32 (p.bits a)) = .ok j := by
  rw [run_make, word_eq] at h
  rcases hfault : p.fault? a with _ | fault <;> rw [hfault] at h
  · refine ⟨rfl, ?_⟩
    change (Build.patchU32 a (p.bits a)).run i = .ok (u, j) at h
    exact Build.patch_ok h
  · cases h

/-! ## Reading back -/

theorem readU32_load (hclear : m.ClearFor i) (hat : a.isAligned 4 = true) (hbase : i.base ≤ a)
    (h : i.patch a (bytesOf32 n) = .ok j) : (m.load j).readU32 a = .ok n := by
  obtain ⟨k, rfl, hk, -, hframe, hsize, hholds⟩ := Image.patch_behind_base h hbase
  have hclear' : m.ClearFor j := by
    unfold Memory.ClearFor at *
    rwa [hframe.base, hsize]
  apply Memory.readU32_of_read
  · have hread := Memory.read_load hclear' (by rwa [hframe.base]) hholds
      (by simp [bytesOf32, Word.bytes])
    rwa [hframe.addressAt, length_bytesOf32] at hread
  · unfold Memory.checkAligned
    rw [hat]
    rfl

/-- A direct pointer leads to its target, and to none when that is the pointer itself; as one that
may be indirect it says the same unless its low bit is set. -/
theorem direct_of_patchRelative {target : Option Address} {u : Unit} (hclear : m.ClearFor i)
    (hat : a.isAligned 4 = true) (hbase : i.base ≤ a)
    (h : (Build.patchRelative a target).run i = .ok (u, j)) :
    RelativePointer.direct a (m.load j) = .ok (if target = some a then none else target) ∧
      ((∀ t, target = some t → (t.val - a.val) &&& 1 = 0) →
        RelativePointer.indirectable a (m.load j) = RelativePointer.direct a (m.load j)) := by
  obtain ⟨raw, hpatch, happly⟩ := Build.patch_of_patchRelative h
  obtain ⟨-, hbits⟩ := of_make_ok (p := .direct target) h
  have hread := readU32_load hclear hat hbase hpatch
  have hread' := readU32_load hclear hat hbase hbits
  have hdirect := RelativePointer.direct_of_readU32 hread
  simp only [Int32.toInt32_toUInt32, happly] at hdirect
  refine ⟨hdirect, fun heven => ?_⟩
  have hlow : bits a (.direct target) &&& 1 = 0 := by
    cases target with
    | none => exact UInt32.zero_and
    | some t => exact offset_even_iff.2 (heven t rfl)
  rw [RelativePointer.indirectable_of_readU32 hread', if_pos hlow,
    RelativePointer.direct_of_readU32 hread']

/-- An indirect pointer leads to what its slot points to. -/
theorem indirectable_of_patchRelativeIndirect {slot : Address} {u : Unit}
    (hclear : m.ClearFor i) (hat : a.isAligned 4 = true) (hbase : i.base ≤ a)
    (h : (Build.patchRelativeIndirect a slot).run i = .ok (u, j)) :
    RelativePointer.indirectable a (m.load j) =
      (Decoder.pointer slot (m.load j)).map Address.nonNull? := by
  obtain ⟨hfault, hbits⟩ := of_make_ok (p := .indirect slot) h
  have hread := readU32_load hclear hat hbase hbits
  obtain ⟨hreach, heven⟩ := fault?_indirect_eq_none_iff.1 hfault
  obtain ⟨hslot, hmark⟩ :=
    (RelativePointer.and_or_eq_iff (offset a slot) 1 1).2 ⟨offset_even_iff.2 heven, rfl⟩
  rw [RelativePointer.indirectable_of_readU32 hread, bits, hslot, hmark, if_neg (by decide),
    RelativePointer.displace_offset hreach]

/-- A marked pointer gives back its target and its mark exactly if a mask tells them apart and the
target is not the pointer itself. -/
theorem marked_of_patchRelativeMarked {target : Address} {mark : UInt32} {u : Unit}
    (hclear : m.ClearFor i) (hat : a.isAligned 4 = true) (hbase : i.base ≤ a)
    (h : (Build.patchRelativeMarked a target mark).run i = .ok (u, j)) (mask : UInt32) :
    ∃ r, RelativePointer.marked a mask (m.load j) = .ok r ∧
      (r = (some target, mark) ↔
        (target.val - a.val) &&& mask.toUInt64 = 0 ∧ mark &&& mask = mark ∧ target ≠ a) := by
  obtain ⟨hfault, hbits⟩ := of_make_ok (p := .marked target mark) h
  have hread := readU32_load hclear hat hbase hbits
  refine ⟨_, RelativePointer.marked_of_readU32 hread mask, ?_⟩
  rw [Prod.mk.injEq, RelativePointer.apply_eq_some_iff (fault?_marked_eq_none_iff.1 hfault),
    ← RelativePointer.offset_and_eq_zero_iff, ← and_assoc, ← RelativePointer.and_or_eq_iff, bits,
    and_right_comm]

/-- Each of the three ways to patch a relative pointer in at an aligned address that the image's
addresses reach without wrapping, once the image is loaded:

* a direct pointer leads to its target unless that is the pointer itself, and says the same as one
  that may be indirect if the distance is even;
* an indirect pointer leads to what its slot points to;
* a marked pointer gives back its target and its mark exactly if the distance has no bit under the
  mask, the mark has none outside it and the target is not the pointer itself;
* a pointer cannot be patched in exactly if its target is out of reach, its slot is at an odd
  distance or `a` is outside the image, and the image is then as it was. -/
theorem relative_patches_read_back (hclear : m.ClearFor i) (hat : a.isAligned 4 = true)
    (hbase : i.base ≤ a) :
    (∀ target j, (Build.patchRelative a target).run i = .ok ((), j) →
      RelativePointer.direct a (m.load j) = .ok (if target = some a then none else target) ∧
        ((∀ t, target = some t → (t.val - a.val) &&& 1 = 0) →
          RelativePointer.indirectable a (m.load j) = RelativePointer.direct a (m.load j))) ∧
    (∀ slot j, (Build.patchRelativeIndirect a slot).run i = .ok ((), j) →
      RelativePointer.indirectable a (m.load j) =
        (Decoder.pointer slot (m.load j)).map Address.nonNull?) ∧
    (∀ target mark mask j, (Build.patchRelativeMarked a target mark).run i = .ok ((), j) →
      ∃ r, RelativePointer.marked a mask (m.load j) = .ok r ∧
        (r = (some target, mark) ↔ (target.val - a.val) &&& mask.toUInt64 = 0 ∧
          mark &&& mask = mark ∧ target ≠ a)) ∧
    ∀ p : RelativePatch, (p.makeInPlace a).runOn i = (p.make a).tryOn i ∧
      ∀ e, (p.make a).run i = .error e ↔ p.refusal? i a = some e :=
  ⟨fun _ _ h => direct_of_patchRelative hclear hat hbase h,
    fun _ _ h => indirectable_of_patchRelativeIndirect hclear hat hbase h,
    fun _ _ mask _ h => marked_of_patchRelativeMarked hclear hat hbase h mask,
    fun p => ⟨runOn_makeInPlace p a i, make_eq_error_iff p a i⟩⟩

/-- A pointer that is not null, and a word behind it. -/
def slotAndWord : Image := ⟨⟨0x1000⟩, (bytesOf64 0x2000 ++ List.replicate 4 0).toArray⟩

/-- Pointers that this word cannot be, and why: a slot is at an odd distance, a target out of
reach. -/
def misfits : List (RelativePatch × PatchError) :=
  [(indirect ⟨0x1003⟩, .oddSlot ⟨0x1003⟩),
    (direct (some ⟨0x80001008⟩), .tooFar ⟨0x1008⟩ ⟨0x80001008⟩)]

/-- Memory with nothing but this image. -/
def showing (i : Image) : Memory := (Memory.empty Memory.defaultHeapBase).load i

/-- Pointers to what stands before them: a direct one, one through a pointer, and one with a mark,
which a smaller mask does not give back. One that the word cannot be leaves the image as it was. -/
theorem relative_patches_read_back_before :
    (∃ j, (Build.patchRelative ⟨0x1008⟩ (some ⟨0x1004⟩)).run slotAndWord = .ok ((), j) ∧
      RelativePointer.direct ⟨0x1008⟩ (showing j) = .ok (some ⟨0x1004⟩) ∧
      RelativePointer.indirectable ⟨0x1008⟩ (showing j) = .ok (some ⟨0x1004⟩)) ∧
    (∃ j, (Build.patchRelativeIndirect ⟨0x1008⟩ ⟨0x1000⟩).run slotAndWord = .ok ((), j) ∧
      RelativePointer.indirectable ⟨0x1008⟩ (showing j) = .ok (some ⟨0x2000⟩)) ∧
    (∃ j, (Build.patchRelativeMarked ⟨0x1008⟩ ⟨0x1004⟩ 2).run slotAndWord = .ok ((), j) ∧
      RelativePointer.marked ⟨0x1008⟩ 3 (showing j) = .ok (some ⟨0x1004⟩, 2) ∧
      RelativePointer.marked ⟨0x1008⟩ 1 (showing j) ≠ .ok (some ⟨0x1004⟩, 2)) ∧
    ∀ p ∈ misfits, (p.1.makeInPlace ⟨0x1008⟩).runOn slotAndWord = (.error p.2, slotAndWord) := by
  have hclear : (Memory.empty Memory.defaultHeapBase).ClearFor slotAndWord := nofun
  obtain ⟨hdirect, hindirect, hmarked, hrefused⟩ :=
    relative_patches_read_back (a := ⟨0x1008⟩) hclear (by decide) (by decide)
  refine ⟨?_, ?_, ?_, fun p hp => ?_⟩
  · have hrun : ((Build.patchRelative ⟨0x1008⟩ (some ⟨0x1004⟩)).run slotAndWord).toOption.any
        (fun _ => true) = true := by decide +kernel
    obtain ⟨_, j, hpatch, -⟩ := Build.exists_of_any hrun
    obtain ⟨hreads, hsame⟩ := hdirect (some ⟨0x1004⟩) j hpatch
    refine ⟨j, hpatch, hreads, (hsame ?_).trans hreads⟩
    rintro t ⟨⟩
    decide
  · have hrun : ((Build.patchRelativeIndirect ⟨0x1008⟩ ⟨0x1000⟩).run slotAndWord).toOption.any
        (fun r => decide (Decoder.pointer ⟨0x1000⟩ (showing r.2) = .ok ⟨0x2000⟩)) = true := by
      decide +kernel
    obtain ⟨_, j, hpatch, hslot⟩ := Build.exists_of_any hrun
    refine ⟨j, hpatch, (hindirect _ j hpatch).trans ?_⟩
    rw [← showing, of_decide_eq_true hslot]
    rfl
  · have hrun : ((Build.patchRelativeMarked ⟨0x1008⟩ ⟨0x1004⟩ 2).run slotAndWord).toOption.any
        (fun _ => true) = true := by decide +kernel
    obtain ⟨_, j, hpatch, -⟩ := Build.exists_of_any hrun
    obtain ⟨r, hr, hiff⟩ := hmarked _ _ 3 j hpatch
    obtain ⟨r', hr', hiff'⟩ := hmarked _ _ 1 j hpatch
    refine ⟨j, hpatch, hr.trans (congrArg Except.ok (hiff.2 (by decide))), fun hback => ?_⟩
    exact absurd (hiff'.1 (Except.ok.inj (hr'.symm.trans hback))) (by decide)
  · obtain ⟨hplace, herror⟩ := hrefused p.1
    have hrefusal : ∀ p ∈ misfits, p.1.refusal? slotAndWord ⟨0x1008⟩ = some p.2 := by
      simp only [misfits, List.forall_mem_cons]
      decide +kernel
    rw [hplace, Build.tryOn, (herror _).2 (hrefusal p hp)]
    rfl

/-- A pointer in that part of an image that lies past the end of the address space, from where it
goes on at zero, is not read back: no region holds it. -/
theorem not_relative_patches_read_back_of_wrap :
    ∃ j, (Build.patchRelative ⟨0⟩ none).run ⟨⟨0xfffffffffffffff8⟩, Array.replicate 16 0⟩ =
        .ok ((), j) ∧
      (⟨0⟩ : Address).isAligned 4 = true ∧
      RelativePointer.direct ⟨0⟩ ((Memory.empty Memory.defaultHeapBase).load j) =
        .error (.memory (.unmapped ⟨0⟩ 4)) :=
  ⟨_, rfl, by decide, rfl⟩

end RelativePatch

end TypeMetadata
