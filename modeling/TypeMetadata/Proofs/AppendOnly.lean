import TypeMetadata.Proofs.Additions
import TypeMetadata.Proofs.StableReadings

/-!
# Layouts only grow

An image is laid out by operations, of which some may fail. Whatever is not a patch only appends;
a patch changes its own range, which has been laid out already, and nothing else. So what is pushed
stands where it was pushed to the end, but for what is patched over it (`Image.Holds.after`), and
that is what is read once the image is loaded. Records that are emitted later change nothing of what
is read of those before (`Image.Operation.append_only`).
-/

namespace TypeMetadata

/-- An emitter, with what it is given. -/
inductive Emitter where
  | moduleContext (name : String)
  | bareContext (kind : ContextKind) (parent : Option Address)
  | rawContext (flags : ContextFlags)
  | protocolType (name : String) (parent : Address) (numRequirements : UInt32) (classOnly : Bool)
  | fieldDescriptor (kind : FieldKind) (fields : List FieldSpec) (recordSize : UInt16)
  | structType (spec : NominalSpec) (numFields fieldOffsetVectorOffset : UInt32)
  | enumType (spec : NominalSpec) (numPayloadCases numEmptyCases : UInt32)
  | classType (spec : ClassSpec)
  | valueMetadata (spec : ValueMetadataSpec)
  | classMetadata (description : Address)
  | typeRecords (targets : List Address)
  | conformance (protocol type : Address) (witnessTable : Option Address)
  | conformanceRecords (targets : List Address)

namespace Emitter

/-- What an emitter answers. -/
def Answer : Emitter → Type
  | fieldDescriptor .. => EmittedFields
  | _ => Address

def build : (e : Emitter) → Build e.Answer
  | moduleContext name => Emit.moduleContext name
  | bareContext kind parent => Emit.bareContext kind parent
  | rawContext flags => Emit.rawContext flags
  | protocolType name parent numRequirements classOnly =>
    Emit.protocolType name parent numRequirements classOnly
  | fieldDescriptor kind fields recordSize => Emit.fieldDescriptor kind fields recordSize
  | structType spec numFields fieldOffsetVectorOffset =>
    Emit.structType spec numFields fieldOffsetVectorOffset
  | enumType spec numPayloadCases numEmptyCases => Emit.enumType spec numPayloadCases numEmptyCases
  | classType spec => Emit.classType spec
  | valueMetadata spec => Emit.valueMetadata spec
  | classMetadata description => Emit.classMetadata description
  | typeRecords targets => Emit.typeRecords targets
  | conformance protocol type witnessTable => Emit.conformance protocol type witnessTable
  | conformanceRecords targets => Emit.conformanceRecords targets

def laying : (e : Emitter) → Laying e.build
  | moduleContext name => .moduleContext name
  | bareContext _ parent => .contextHeader _ parent
  | rawContext flags => .contextHeader flags none
  | protocolType name parent numRequirements classOnly =>
    .protocolType name parent numRequirements classOnly
  | fieldDescriptor kind fields recordSize => .fieldDescriptor kind fields recordSize
  | structType spec numFields fieldOffsetVectorOffset =>
    .structType spec numFields fieldOffsetVectorOffset
  | enumType spec numPayloadCases numEmptyCases => .enumType spec numPayloadCases numEmptyCases
  | classType spec => .classType spec
  | valueMetadata spec => .valueMetadata spec
  | classMetadata description => .classMetadata description
  | typeRecords targets => .typeRecords targets
  | conformance protocol type witnessTable => .conformance protocol type witnessTable
  | conformanceRecords targets => .typeRecords targets

open Laying

theorem adds (e : Emitter) {i : Image} {n : Nat} : e.laying.Adds i n fun _ _ => True := by
  cases e with
  | moduleContext name => exact adds_moduleContext name
  | bareContext kind parent =>
    exact (adds_contextHeader _ parent).mono fun _ _ _ _ => trivial
  | rawContext flags => exact (adds_contextHeader flags none).mono fun _ _ _ _ => trivial
  | protocolType name parent numRequirements classOnly =>
    exact adds_protocolType name parent numRequirements classOnly
  | fieldDescriptor kind fields recordSize => exact adds_fieldDescriptor kind fields recordSize
  | structType spec numFields fieldOffsetVectorOffset =>
    exact adds_structType spec numFields fieldOffsetVectorOffset
  | enumType spec numPayloadCases numEmptyCases =>
    exact adds_enumType spec numPayloadCases numEmptyCases
  | classType spec => exact adds_classType spec
  | valueMetadata spec => exact (quiet_valueMetadata spec).adds
  | classMetadata description => exact adds_classMetadata description
  | typeRecords targets => exact adds_typeRecords targets
  | conformance protocol type witnessTable => exact adds_conformance protocol type witnessTable
  | conformanceRecords targets => exact adds_typeRecords targets

end Emitter

namespace Image

/-- What can be asked of an image that is laid out. -/
inductive Operation where
  | push (bs : List UInt8)
  | reserve (n : Nat)
  | align (n : UInt64)
  | pointer (target : Address)
  | patch (a : Address) (bs : List UInt8)
  | relative (a : Address) (p : RelativePatch)
  | emit (e : Emitter)

namespace Operation

def Answer : Operation → Type
  | patch .. | relative .. => Unit
  | emit e => e.Answer
  | _ => Address

def build : (o : Operation) → Build o.Answer
  | push bs => Build.push bs
  | reserve n => Build.reserve n
  | align n => Build.align n
  | pointer target => Build.pushPointer target
  | patch a bs => Build.patch a bs
  | relative a p => p.make a
  | emit e => e.build

def laying : (o : Operation) → Laying o.build
  | push bs => .push bs
  | reserve n => .reserve n
  | align n => .align n
  | pointer target => .pointer target
  | patch a bs => .call (.patch a bs)
  | relative a p => .call (.relative a p)
  | emit e => e.laying

def outcome (o : Operation) (i : Image) : Except PatchError o.Answer :=
  (o.laying.inPlace.runOn i).1

/-- The image it leaves, whether or not it goes through. -/
def on (o : Operation) (i : Image) : Image := (o.laying.inPlace.runOn i).2

/-- The range a patch is to write over, and with what. -/
def patch? : Operation → Option (Address × List UInt8)
  | patch a bs => some (a, bs)
  | relative a p => some (a, bytesOf32 (p.bits a))
  | _ => none

/-- What is written over bytes that stand. -/
def writes (o : Operation) (i : Image) : List (Address × List UInt8) :=
  match o.outcome i with
  | .ok _ => o.patch?.toList
  | .error _ => []

end Operation

/-- The image after these operations, those that failed among them. -/
def after (i : Image) (os : List Operation) : Image := os.foldl (fun i o => o.on i) i

/-- What these operations write over bytes that stand, one after another. -/
def writes (i : Image) : List Operation → List (Address × List UInt8)
  | [] => []
  | o :: os => o.writes i ++ (o.on i).writes os

namespace Operation

variable {o : Operation} {os : List Operation} {i j : Image} {k : Nat} {a : Address}
  {bs : List UInt8}

/-! ## One operation -/

theorem grown_on (h : o.patch? = none) (hfits : (o.on i).Fits) : Grown i (o.on i) := by
  have hadds : o.laying.Adds i i.bytes.size fun _ _ => True := by
    cases o with
    | push bs => exact (Laying.quiet_push bs).adds
    | reserve n => exact (Laying.quiet_reserve n).adds
    | align n => exact (Laying.quiet_align n).adds
    | pointer target => exact (Laying.quiet_pointer target).adds
    | patch a bs => cases h
    | relative a p => cases h
    | emit e => exact e.adds
  exact (hadds (.refl i 0 0) (Nat.le_refl _) rfl hfits).1

theorem outcome_of_patch? (h : o.patch? = some (a, bs)) (i : Image) :
    (∃ x, o.outcome i = .ok x ∧ i.patch a bs = .ok (o.on i)) ∨
      ∃ e, o.outcome i = .error e ∧ o.on i = i := by
  have hcall (c : BuilderCall o.Answer) (hc : c.patch? = some (a, bs))
      (hrun : o.laying.inPlace.runOn i = c.inPlace.runOn i) :
      (∃ x, o.outcome i = .ok x ∧ i.patch a bs = .ok (o.on i)) ∨
        ∃ e, o.outcome i = .error e ∧ o.on i = i := by
    unfold outcome on
    rw [hrun]
    rcases BuilderCall.runOn_of_patch? hc i with ⟨x, j, hok, hpatch⟩ | ⟨e, herror⟩
    · rw [hok]
      exact .inl ⟨x, rfl, hpatch⟩
    · rw [herror]
      exact .inr ⟨e, rfl, rfl⟩
  cases o with
  | patch b cs => exact hcall (.patch b cs) h rfl
  | relative b p => exact hcall (.relative b p) h rfl
  | _ => cases h

theorem base_and_size (o : Operation) (i : Image) :
    (o.on i).base = i.base ∧ i.bytes.size ≤ (o.on i).bytes.size :=
  Laying.base_and_size (l := o.laying) (r := o.outcome i) rfl

theorem addressAt_on (o : Operation) (i : Image) (k : Nat) :
    (o.on i).addressAt k = i.addressAt k := by
  rw [addressAt, (o.base_and_size i).1, addressAt]

theorem fits_of_on (h : (o.on i).Fits) : i.Fits :=
  Laying.fits_of_run (l := o.laying) (r := o.outcome i) rfl h

end Operation

section After

variable {i j : Image} {os : List Operation} {k : Nat} {bs : List UInt8}

theorem after_append (i : Image) (os os' : List Operation) :
    i.after (os ++ os') = (i.after os).after os' := List.foldl_append

theorem base_and_size_after (i : Image) (os : List Operation) :
    (i.after os).base = i.base ∧ i.bytes.size ≤ (i.after os).bytes.size := by
  induction os generalizing i with
  | nil => exact ⟨rfl, Nat.le_refl _⟩
  | cons o os ih =>
    obtain ⟨hbase, hsize⟩ := o.base_and_size i
    obtain ⟨hbase', hsize'⟩ := ih (o.on i)
    exact ⟨hbase'.trans hbase, Nat.le_trans hsize hsize'⟩

theorem fits_of_after (h : (i.after os).Fits) : i.Fits :=
  h.of_le (base_and_size_after i os).1 (base_and_size_after i os).2

/-- An image that has grown is the old one with bytes behind it. -/
theorem Grown.exists_append (h : Grown i j) : ∃ bs, j = i.append bs := by
  have htake : j.bytes.toList.take i.bytes.size = i.bytes.toList := by
    apply List.ext_getElem?
    intro k
    rw [List.getElem?_take, Array.getElem?_toList, Array.getElem?_toList]
    split
    · exact h.same k ‹_› (.inr (Nat.zero_le k))
    · exact (Array.getElem?_eq_none (by omega)).symm
  have hbytes : j.bytes = (i.append (j.bytes.toList.drop i.bytes.size)).bytes := by
    apply Array.toList_inj.1
    rw [toList_append, ← htake, List.take_append_drop]
  cases j
  exact ⟨_, congr (congrArg Image.mk h.base) hbytes⟩

/-- What is not patched grows. -/
theorem grown_after (h : ∀ o ∈ os, o.patch? = none) (hfits : (i.after os).Fits) :
    Grown i (i.after os) := by
  induction os generalizing i with
  | nil => exact .refl i 0 0
  | cons o os ih =>
    have hrest := ih (fun o' ho => h o' (List.mem_cons_of_mem o ho)) hfits
    exact (Operation.grown_on (h o List.mem_cons_self) (fits_of_after hfits)).trans hrest

/-- `bs`, which stand at `b`, once all this has been written. -/
def overlaidAll (bs : List UInt8) (b : Address) (writes : List (Address × List UInt8)) :
    List UInt8 :=
  writes.foldl (fun bs w => overlaid bs b w.2 w.1) bs

theorem length_overlaidAll (bs : List UInt8) (b : Address)
    (writes : List (Address × List UInt8)) : (overlaidAll bs b writes).length = bs.length := by
  induction writes generalizing bs with
  | nil => rfl
  | cons w writes ih => exact (ih _).trans List.length_mapIdx

theorem Holds.of_patch {a : Address} {patch : List UInt8} (h : i.Holds k bs) (hfits : i.Fits)
    (hpatch : i.patch a patch = .ok j) : j.Holds k (overlaid bs (i.addressAt k) patch a) := by
  obtain ⟨l, rfl, -, hroom, hframe, -, hholds⟩ := of_patch_ok hpatch
  unfold Fits at hfits
  intro n hn
  rw [overlaid, List.length_mapIdx] at hn
  have hin := h.lt_size hn
  have hk := toNat_addressAt (i := i) (k := k) (by omega)
  rw [overlaid, List.getElem?_mapIdx, ← h n hn, Array.getElem?_eq_getElem hin, Option.map_some, hk,
    List.getD_eq_getElem?_getD]
  by_cases hpatched : l ≤ k + n ∧ k + n < l + patch.length
  · -- the byte lies under the patch
    have hbyte := hholds (k + n - l) (by omega)
    rw [Nat.add_sub_cancel' hpatched.1] at hbyte
    have hl := toNat_addressAt (i := i) (k := l) (by omega)
    rw [hbyte, hl, if_pos (by omega), show i.base.toNat + k + n - (i.base.toNat + l) = k + n - l by
      omega, List.getElem?_eq_getElem (by omega), Option.getD_some]
  · rw [hframe.same (k + n) hin (by omega), Array.getElem?_eq_getElem hin]
    split
    · -- it lies behind the patch, or the patch is empty and may stand past the last address
      rw [List.getElem?_eq_none, Option.getD_none]
      by_cases hempty : patch.length = 0
      · omega
      · have hl := toNat_addressAt (i := i) (k := l) (by omega)
        omega
    · rfl

/-- One operation writes what it says over bytes that stand. -/
theorem Holds.on {o : Operation} (h : i.Holds k bs) (hfits : (o.on i).Fits) :
    (o.on i).Holds k (overlaidAll bs (i.addressAt k) (o.writes i)) := by
  rcases hpatch : o.patch? with _ | ⟨a, patch⟩
  · have hwrites : o.writes i = [] := by
      unfold Operation.writes
      rw [hpatch]
      split <;> rfl
    rw [hwrites]
    exact (Operation.grown_on hpatch hfits).holds h
  · rcases Operation.outcome_of_patch? hpatch i with ⟨x, hok, hj⟩ | ⟨e, herror, hj⟩
    · rw [Operation.writes, hok, hpatch]
      exact h.of_patch (Operation.fits_of_on hfits) hj
    · rw [Operation.writes, herror, hj]
      exact h

theorem Holds.after (h : i.Holds k bs) (hfits : (i.after os).Fits) :
    (i.after os).Holds k (overlaidAll bs (i.addressAt k) (i.writes os)) := by
  induction os generalizing i bs with
  | nil => exact h
  | cons o os ih =>
    have hrest := ih (h.on (fits_of_after hfits)) hfits
    rw [o.addressAt_on] at hrest
    rwa [writes, overlaidAll, List.foldl_append]

/-- What is laid out before the end of the address space does not wrap. -/
theorem toNat_addressAt_of_fits (hfits : j.Fits) (hbase : j.base = i.base)
    (hk : k < j.bytes.size) : (i.addressAt k).toNat = i.base.toNat + k := by
  unfold Fits at hfits
  rw [hbase] at hfits
  exact toNat_addressAt (by omega)

end After

end Image

namespace Memory

/-- What is read in a loaded image is read when it has grown, too. -/
theorem within_load (m : Memory) {i j : Image} (h : Image.Grown i j) :
    (m.load i).Within (m.load j) := by
  have hbase := h.base
  intro a n bs hn hread
  obtain ⟨r, hr, hs, rfl⟩ := of_read_ok hread
  obtain ⟨hmem, hle, hmax⟩ := RegionMap.below?_eq_some_iff.1 hr
  -- the image is found where it was, and so is every other region
  have hmax' : ∀ s ∈ (m.load j).regions.entries, s.base ≤ a → s.base ≤ r.base := by
    intro s hsm hsa
    rcases RegionMap.mem_insert.1 hsm with rfl | ⟨hsm, hne⟩
    · exact hbase ▸ hmax ⟨i.base, i.bytes⟩ (RegionMap.mem_insert.2 (.inl rfl)) (hbase ▸ hsa)
    · exact hmax s (RegionMap.mem_insert.2 (.inr ⟨hsm, fun he => hne (he.trans hbase.symm)⟩)) hsa
  rcases RegionMap.mem_insert.1 hmem with rfl | ⟨hmem, hne⟩
  · have hspans : Region.Spans ⟨j.base, j.bytes⟩ a n := by
      have hsize := h.size
      unfold Region.Spans Region.finish at *
      simp only [hbase] at *
      omega
    rw [read_of_spans (RegionMap.below?_eq_some_iff.2
      ⟨RegionMap.mem_insert.2 (.inl rfl), hbase ▸ hle, hbase ▸ hmax'⟩) hspans]
    refine congrArg Except.ok (List.ext_getElem? fun k => ?_)
    rw [Region.getElem?_slice hspans, Region.getElem?_slice hs, hbase]
    split
    · have hlo : i.base.toNat ≤ a.toNat := hs.1
      have hroom : a.toNat + n ≤ i.base.toNat + i.bytes.size := hs.2
      have hin : a.toNat + k - i.base.toNat < i.bytes.size := by omega
      exact h.same _ hin (.inr (Nat.zero_le _))
    · rfl
  · exact read_of_spans (RegionMap.below?_eq_some_iff.2
      ⟨RegionMap.mem_insert.2 (.inr ⟨hmem, fun he => hne (he.trans hbase)⟩), hle, hmax'⟩) hs

end Memory

namespace Image

/-- What an operation makes of an image, and what becomes of that under the operations after it. -/
structure Operation.LaysOut (o : Operation) (i : Image) (later : List Operation) : Prop where
  /-- It comes to what the layout comes to, an answer and an image or a failure. -/
  builds : (∀ x j, o.build.run i = .ok (x, j) → o.outcome i = .ok x ∧ o.on i = j) ∧
    ∀ e, o.build.run i = .error e → o.outcome i = .error e
  /-- Unless it is a patch it appends, whether or not it goes through. -/
  appends : o.patch? = none → ∃ bs, o.on i = i.append bs ∧ (o.on i).Holds i.bytes.size bs
  /-- A patch that goes through changes a range that has been laid out, and nothing else. -/
  patches : ∀ a bs x, o.patch? = some (a, bs) → o.outcome i = .ok x →
    ∃ k, a = i.addressAt k ∧ k + bs.length ≤ i.bytes.size ∧
      Frame i (o.on i) k (k + bs.length) ∧ (o.on i).bytes.size = i.bytes.size ∧
      (o.on i).Holds k bs
  /-- A patch that does not go through changes nothing. -/
  refuses : ∀ w e, o.patch? = some w → o.outcome i = .error e → o.on i = i
  /-- What is appended later comes behind what is appended now. -/
  increases : ∀ between next rest j, later = between ++ next :: rest →
    j = (o.on i).after between → j.bytes.size < (next.on j).bytes.size →
      i.cursor.toNat + ((o.on i).bytes.size - i.bytes.size) ≤ j.cursor.toNat
  /-- What stands by now is read from the loaded image, with what is written over it later. -/
  reads : ∀ (m : Memory) k bs, m.ClearFor ((o.on i).after later) → bs ≠ [] →
    (o.on i).Holds k bs →
    (m.load ((o.on i).after later)).read (i.addressAt k) bs.length =
      .ok (overlaidAll bs (i.addressAt k) ((o.on i).writes later))
  /-- What is read of the records laid out by now stays as it is while nothing is patched, unless it
  fails for bytes that have not been laid out. -/
  decodes : (∀ o' ∈ later, o'.patch? = none) → ∀ (m : Memory) limits {α : Type} (q : Reading α),
    (∀ x, q.decode limits (m.load (o.on i)) = .ok x →
      q.decode limits (m.load ((o.on i).after later)) = .ok x) ∧
    ∀ e, q.decode limits (m.load (o.on i)) = .error e → ¬(m.load (o.on i)).Lacks e →
      q.decode limits (m.load ((o.on i).after later)) = .error e

theorem Operation.laysOut {o : Operation} {i : Image} {later : List Operation}
    (hfits : ((o.on i).after later).Fits) : o.LaysOut i later where
  builds := by
    obtain ⟨hok, herror⟩ := o.laying.runOn_inPlace i
    refine ⟨fun x j h => ?_, fun e h => ?_⟩
    · have hrun := hok x j h
      exact ⟨congrArg Prod.fst hrun, congrArg Prod.snd hrun⟩
    · obtain ⟨j, hrun⟩ := herror e h
      exact congrArg Prod.fst hrun
  appends h := by
    obtain ⟨bs, hbs⟩ := (grown_on h (fits_of_after hfits)).exists_append
    exact ⟨bs, hbs, hbs ▸ holds_append i bs⟩
  patches a bs x h hx := by
    rcases outcome_of_patch? h i with ⟨y, -, hpatch⟩ | ⟨e, he, -⟩
    · obtain ⟨k, ha, -, hin⟩ := of_patch_ok hpatch
      exact ⟨k, ha, hin⟩
    · cases hx.symm.trans he
  refuses w e h he := by
    rcases outcome_of_patch? h i with ⟨y, hy, -⟩ | ⟨e', -, hi⟩
    · cases he.symm.trans hy
    · exact hi
  increases := by
    rintro between next rest j rfl hj hnext
    rw [after_append, ← hj] at hfits
    have hfits' : (next.on j).Fits := fits_of_after hfits
    obtain ⟨hbase, hsize⟩ := o.base_and_size i
    obtain ⟨hbase', hsize'⟩ := base_and_size_after (o.on i) between
    rw [← hj] at hbase' hsize'
    have hnextBase := (next.base_and_size j).1
    have hi : i.cursor.toNat = i.base.toNat + i.bytes.size :=
      toNat_addressAt_of_fits hfits' (hnextBase.trans (hbase'.trans hbase)) (by omega)
    have hj' : j.cursor.toNat = j.base.toNat + j.bytes.size :=
      toNat_addressAt_of_fits hfits' hnextBase hnext
    rw [hi, hj', hbase', hbase]
    omega
  reads m k bs hclear hbs hholds := by
    have hbase := o.addressAt_on i k
    have hlast := hholds.after hfits
    have hlength := length_overlaidAll bs (i.addressAt k) ((o.on i).writes later)
    have hread := Memory.load_shows (.refl _ 0 0) hfits hclear k _
      (List.ne_nil_of_length_pos (hlength ▸ List.length_pos_iff.2 hbs)) (hbase ▸ hlast)
    rwa [hlength, addressAt, (base_and_size_after (o.on i) later).1, ← addressAt, hbase] at hread
  decodes h m limits α q :=
    (q.follows (.of_within (m.within_load (grown_after h hfits)) limits)).settled

theorem isAligned_cursor_align (i : Image) {n : UInt64} (hn : n.toNat ∣ 0x10000000000000000) :
    (i.align n).cursor.isAligned n = true :=
  (isAligned_addressAt (k := (i.align n).bytes.size) hn).trans (decide_eq_true (mod_align i hn))

/-- An operation on whatever has been laid out so far, `later` operations after it, each of which
may fail, and an image that ends within the address space even so: the operation does all that
`LaysOut` says. A push or a reserve answers where its bytes start, and so does a pointer, which
starts at a multiple of its size. -/
theorem Operation.append_only {o : Operation} {i : Image} {later : List Operation}
    (hfits : ((o.on i).after later).Fits) :
    o.LaysOut i later ∧
    (∀ bs, (push bs).outcome i = .ok i.cursor ∧ (push bs).on i = i.append bs) ∧
    (∀ n, (reserve n).outcome i = .ok i.cursor ∧
      (reserve n).on i = i.append (List.replicate n 0)) ∧
    ∀ target, (pointer target).outcome i = .ok (i.align pointerSize).cursor ∧
      (pointer target).on i = (i.align pointerSize).append (bytesOf64 target.val) ∧
      (i.align pointerSize).cursor.isAligned pointerSize = true :=
  ⟨laysOut hfits, fun _ => ⟨rfl, rfl⟩, fun _ => ⟨rfl, rfl⟩,
    fun _ => ⟨rfl, rfl, isAligned_cursor_align i (by decide)⟩⟩

/-- Eight bytes, of which a patch changes one and a relative pointer four. A patch outside the image
changes nothing, and of a context whose parent is out of reach there remain two words. -/
theorem Operation.append_only_overlaid :
    let far := emit (.bareContext .extensionContext (some ⟨0x900000000⟩))
    let later := [emit (.moduleContext "m"), patch ⟨0x1001⟩ [9], far, patch ⟨0x1800⟩ [9],
      relative ⟨0x1004⟩ (.direct (some ⟨0x1008⟩)), pointer ⟨0x1000⟩]
    let j := (push [1, 2, 3, 4, 5, 6, 7, 8]).on ⟨⟨0x1000⟩, #[]⟩
    ((far.outcome j).isOk = false ∧ (far.on j).bytes.size = 16) ∧
      (j.after later).Fits ∧
      ((Memory.empty Memory.defaultHeapBase).load (j.after later)).read ⟨0x1000⟩ 8 =
        .ok [1, 9, 3, 4, 4, 0, 0, 0] := by
  intro far later j
  have hfar : (far.outcome j).isOk = false ∧ (far.on j).bytes.size = 16 := by decide +kernel
  have hfits : (j.after later).Fits := by decide +kernel
  have hwrites : j.writes later = [(⟨0x1001⟩, [9]), (⟨0x1004⟩, [4, 0, 0, 0])] := by decide +kernel
  have hread := (append_only hfits).1.reads (Memory.empty Memory.defaultHeapBase) 0
    [1, 2, 3, 4, 5, 6, 7, 8] nofun (List.cons_ne_nil _ _) (holds_append _ _)
  rw [hwrites] at hread
  exact ⟨hfar, hfits, hread⟩

end Image

end TypeMetadata
