import TypeMetadata.Emit.Metadata
import TypeMetadata.Proofs.LoadedImage

/-!
# Value metadata survives being laid out and read

The layout of value metadata appends to the image and patches nothing, so the whole of it is one run
of bytes (`ValueMetadataSpec.bytes`), and `Emit.run_valueMetadata` says where they go. Its words are
then read back one by one. They are found from the metadata itself: the table by the pointer in
front of it, and the optional part of the table by a flag.
-/

namespace TypeMetadata

/-- The words `ws`, one after another. -/
def wordBytes (ws : List UInt64) : List UInt8 := ws.flatMap bytesOf64

@[simp] theorem length_wordBytes (ws : List UInt64) : (wordBytes ws).length = 8 * ws.length := by
  induction ws with
  | nil => rfl
  | cons w ws ih =>
    rw [wordBytes, List.flatMap_cons, List.length_append, ← wordBytes, ih, length_bytesOf64,
      List.length_cons]
    omega

namespace ValueMetadataSpec

variable (spec : ValueMetadataSpec)

/-- The flags of the table, whose mark of enum witnesses is there whenever they are. -/
def flags : WitnessFlags :=
  if spec.enumWitnesses.isSome then spec.layout.flags.withEnumWitnesses else spec.layout.flags

/-- The words of the table up to its flags. -/
def tableWords : List UInt64 :=
  [0, spec.destroy.val, spec.initializeWithCopy.val, 0, 0, 0, 0, 0, spec.layout.size,
    spec.layout.stride]

/-- The words of the enum part of the table. -/
def enumWords : List UInt64 :=
  match spec.enumWitnesses with
  | none => []
  | some w => [w.getTag.val, w.projectPayload.val, w.injectTag.val]

/-- What follows the table, which is at `table`, up to the field offsets. -/
def metadataWords (table : Address) : List UInt64 :=
  [table.val, UInt64.ofNat spec.kind.raw, spec.description.val]

@[simp] theorem length_tableWords : spec.tableWords.length = 10 := rfl

@[simp] theorem length_metadataWords (table : Address) : (spec.metadataWords table).length = 3 :=
  rfl

theorem hasEnumWitnesses_flags
    (h : spec.layout.flags.hasEnumWitnesses = true → spec.enumWitnesses.isSome = true) :
    spec.flags.hasEnumWitnesses = spec.enumWitnesses.isSome := by
  unfold flags
  split
  · rename_i hsome
    rw [WitnessFlags.hasEnumWitnesses_withEnumWitnesses, hsome]
  · rename_i hnone
    rw [Bool.eq_false_iff.2 hnone]
    exact Bool.eq_false_iff.2 fun hmark => hnone (h hmark)

/-- All that is laid out, if the table is at `table`. -/
def bytes (table : Address) : List UInt8 :=
  wordBytes spec.tableWords ++
    (bytesOf32 spec.flags.bits ++ bytesOf32 spec.layout.extraInhabitants) ++
    wordBytes (spec.enumWords ++ spec.metadataWords table) ++ spec.fieldOffsets.flatMap bytesOf32

/-- Bytes of the table. The pointer to it and then the metadata follow. -/
def tableSize : Nat := 88 + 8 * spec.enumWords.length

theorem mod_eight_tableSize : spec.tableSize % 8 = 0 := by
  unfold tableSize
  omega

end ValueMetadataSpec

/-! ## Laying out -/

namespace Build

variable {β : Type} {f : Address → Build β} {g : PUnit → Build β} {i : Image}

theorem run_pushU32_bind (n : UInt32) : (pushU32 n >>= f).run i =
    (f (i.addressAt i.bytes.size)).run (i.append (bytesOf32 n)) := by
  rw [StateT.run_bind]
  rfl

theorem run_pushU64_bind (n : UInt64) : (pushU64 n >>= f).run i =
    (f (i.addressAt i.bytes.size)).run (i.append (bytesOf64 n)) := by
  rw [StateT.run_bind]
  rfl

/-- A pointer where one may stand is pushed like any word. -/
theorem run_pushPointer (a : Address) (h : (i.base.toNat + i.bytes.size) % 8 = 0) :
    (pushPointer a).run i = .ok (i.addressAt i.bytes.size, i.append (bytesOf64 a.val)) := by
  change Except.ok ((i.align 8).addressAt (i.align 8).bytes.size, (i.align 8).append _) = _
  rw [Image.align_of_mod (by decide) h]

theorem run_pushPointer_bind (a : Address) (h : (i.base.toNat + i.bytes.size) % 8 = 0) :
    (pushPointer a >>= f).run i =
      (f (i.addressAt i.bytes.size)).run (i.append (bytesOf64 a.val)) := by
  rw [StateT.run_bind, run_pushPointer a h]
  rfl

theorem run_pushPointer_align (a : Address) (i : Image) :
    (pushPointer a >>= f).run i = (pushPointer a >>= f).run (i.align 8) :=
  (run_pushPointer_bind (i := i.align 8) a (Image.mod_align i (by decide))).symm

/-- Pushes in a row append one after another, where each of them may stand. -/
theorem run_forM_bind {α : Type} {x : α → Build Address} {bs : α → List UInt8} {p : Image → Prop}
    (hx : ∀ a i, p i → ∃ b, (x a).run i = .ok (b, i.append (bs a)) ∧ p (i.append (bs a)))
    (xs : List α) (hi : p i) :
    ((xs.forM fun a => discard (x a)) >>= g).run i = (g ()).run (i.append (xs.flatMap bs)) := by
  induction xs generalizing i with
  | nil =>
    rw [List.forM_eq_forM, List.forM_nil, pure_bind]
    exact congrArg (g ()).run (Image.append_nil i).symm
  | cons a xs ih =>
    obtain ⟨b, hrun, hnext⟩ := hx a i hi
    rw [List.forM_eq_forM, List.forM_cons, Functor.discard, LawfulFunctor.map_const,
      Function.comp_apply, map_eq_pure_bind, bind_assoc, bind_assoc, StateT.run_bind, hrun]
    exact (ih hnext).trans (by rw [Image.append_append, List.flatMap_cons])

end Build

theorem Emit.run_valueMetadata_of_mod (spec : ValueMetadataSpec) {i : Image}
    (h : (i.base.toNat + i.bytes.size) % 8 = 0) :
    (Emit.valueMetadata spec).run i =
      .ok (i.addressAt (i.bytes.size + spec.tableSize + 8),
        (i.append (spec.bytes (i.addressAt i.bytes.size))).align 8) := by
  have hnulls : ∀ (g : PUnit → Build Address) i, (i.base.toNat + i.bytes.size) % 8 = 0 →
      (((List.replicate 5 Address.null).forM fun a => discard (Build.pushPointer a)) >>= g).run i =
        (g ()).run
          (i.append ((List.replicate 5 Address.null).flatMap fun a => bytesOf64 a.val)) := by
    intro g i hi
    exact Build.run_forM_bind (p := fun i => (i.base.toNat + i.bytes.size) % 8 = 0)
      (fun a i hi => ⟨_, Build.run_pushPointer a hi, by simp; omega⟩) _ hi
  have hoffsets : ∀ (g : PUnit → Build Address) i,
      ((spec.fieldOffsets.forM fun n => discard (Build.pushU32 n)) >>= g).run i =
        (g ()).run (i.append (spec.fieldOffsets.flatMap bytesOf32)) := by
    intro g i
    exact Build.run_forM_bind (p := fun _ => True) (fun n i _ => ⟨_, rfl, trivial⟩) _ trivial
  unfold Emit.valueMetadata
  -- every word is pushed where it may stand, so nothing is aligned but the end
  rcases hs : spec.enumWitnesses with _ | w
  all_goals
    simp (disch := first | assumption | (simp; omega)) only [Build.run_pushPointer_bind,
      Build.run_pushU32_bind, Build.run_pushU64_bind, hnulls, hoffsets, Image.addressAt_append,
      Image.append_append, Image.size_append]
    change Except.ok (_, Image.align (i.append _) 8) = _
    simp [ValueMetadataSpec.bytes, ValueMetadataSpec.tableWords, ValueMetadataSpec.enumWords,
      ValueMetadataSpec.metadataWords, ValueMetadataSpec.flags, ValueMetadataSpec.tableSize,
      wordBytes, hs, Address.null, List.replicate]

/-- The metadata is laid out in one go, wherever the image ends. -/
theorem Emit.run_valueMetadata (spec : ValueMetadataSpec) (i : Image) :
    (Emit.valueMetadata spec).run i =
      .ok ((i.align 8).addressAt ((i.align 8).bytes.size + spec.tableSize + 8),
        ((i.align 8).append
          (spec.bytes ((i.align 8).addressAt (i.align 8).bytes.size))).align 8) := by
  have haligned := Emit.run_valueMetadata_of_mod spec (i := i.align 8)
    (Image.mod_align i (by decide))
  unfold Emit.valueMetadata at *
  rwa [Build.run_pushPointer_align]

theorem Emit.grown_valueMetadata {spec : ValueMetadataSpec} {i j : Image} {start : Address}
    (h : (Emit.valueMetadata spec).run i = .ok (start, j)) : Image.Grown i j := by
  rw [Emit.run_valueMetadata] at h
  cases h
  exact (Image.Grown.trans (Image.frame_align i 8 0 0) (Image.frame_append _ _ 0 0)).trans
    (Image.frame_align _ 8 0 0)

/-! ## Reading -/

/-- A table and metadata stand at `k`, 8-aligned, as the spec has them. -/
structure Image.HoldsMetadata (i : Image) (k : Nat) (spec : ValueMetadataSpec) : Prop where
  aligned : (i.base.toNat + k) % 8 = 0
  table : i.Holds k (wordBytes spec.tableWords)
  flags : i.Holds (k + 80) (bytesOf32 spec.flags.bits)
  extraInhabitants : i.Holds (k + 84) (bytesOf32 spec.layout.extraInhabitants)
  words : i.Holds (k + 88) (wordBytes (spec.enumWords ++ spec.metadataWords (i.addressAt k)))
  fieldOffsets : i.Holds (k + spec.tableSize + 24) (spec.fieldOffsets.flatMap bytesOf32)

variable {m : Memory} {i : Image} {k : Nat} {spec : ValueMetadataSpec}

theorem Image.holdsMetadata_of_bytes (ha : (i.base.toNat + k) % 8 = 0)
    (h : i.Holds k (spec.bytes (i.addressAt k))) : i.HoldsMetadata k spec := by
  have hflags := h.left.left.right
  have hwords := h.left.right
  have hoffsets := h.right
  simp only [List.length_append, length_wordBytes, length_bytesOf32,
    ValueMetadataSpec.length_tableWords, ValueMetadataSpec.length_metadataWords]
    at hflags hwords hoffsets
  have hextra := hflags.right
  rw [length_bytesOf32] at hextra
  refine ⟨ha, h.left.left.left, hflags.left, hextra, hwords, ?_⟩
  rwa [ValueMetadataSpec.tableSize, show k + (88 + 8 * spec.enumWords.length) + 24
    = k + (8 * 10 + (4 + 4) + 8 * (spec.enumWords.length + 3)) by omega]

namespace Decoder

/-- The words of a run of them are read one by one. -/
theorem pointer_of_words (hshows : m.Shows i) (ha : (i.base.toNat + k) % 8 = 0) {ws : List UInt64}
    (hk : i.Holds k (wordBytes ws)) {n : Nat} {w : UInt64} (hn : ws[n]? = some w) :
    Decoder.pointer (i.addressAt (k + 8 * n)) m = .ok ⟨w⟩ :=
  pointer_of_holds hshows (hk.part length_bytesOf64 hn) (by omega)

end Decoder

/-- The table at `a`. -/
def ValueMetadataSpec.witnessTable (spec : ValueMetadataSpec) (a : Address) : WitnessTable where
  address := a
  initializeBufferWithCopyOfBuffer := .null
  destroy := spec.destroy
  initializeWithCopy := spec.initializeWithCopy
  assignWithCopy := .null
  initializeWithTake := .null
  assignWithTake := .null
  getEnumTagSinglePayload := .null
  storeEnumTagSinglePayload := .null
  layout := { spec.layout with flags := spec.flags }
  enumWitnesses := spec.enumWitnesses

namespace WitnessTable

theorem readEnumWitnesses_of_holds (hshows : m.Shows i) (hk : i.HoldsMetadata k spec)
    {w : EnumWitnesses} (hw : spec.enumWitnesses = some w) :
    readEnumWitnesses (i.addressAt k) m = .ok w := by
  have hword : ∀ n x, [w.getTag.val, w.projectPayload.val, w.injectTag.val][n]? = some x →
      ∀ c : UInt64, c.toNat = 88 + 8 * n → Decoder.pointer (i.addressAt k + c) m = .ok ⟨x⟩ := by
    intro n x hn c hc
    rw [Image.addressAt_add i k hc, ← Nat.add_assoc]
    refine Decoder.pointer_of_words hshows (by have := hk.aligned; omega) hk.words ?_
    rw [ValueMetadataSpec.enumWords, hw]
    exact List.getElem?_append_left (List.getElem?_eq_some_iff.1 hn).1 ▸ hn
  unfold readEnumWitnesses
  rw [Decoder.bind_of_ok (hword 0 _ rfl _ rfl), Decoder.bind_of_ok (hword 1 _ rfl _ rfl),
    Decoder.bind_of_ok (hword 2 _ rfl _ rfl)]
  rfl

/-- The mark in the flags says whether there is an enum part to read. -/
theorem enumPart_of_holds {α : Type} (hshows : m.Shows i) (hk : i.HoldsMetadata k spec)
    (hflags : spec.layout.flags.hasEnumWitnesses = true → spec.enumWitnesses.isSome = true)
    (f : Option EnumWitnesses → Decoder α) :
    (if spec.flags.hasEnumWitnesses then some <$> readEnumWitnesses (i.addressAt k) >>= f
      else pure none >>= f) m = f spec.enumWitnesses m := by
  rw [spec.hasEnumWitnesses_flags hflags]
  rcases hw : spec.enumWitnesses with _ | w
  · rfl
  · have hpart : (some <$> readEnumWitnesses (i.addressAt k)) m = .ok (some w) := by
      change some <$> readEnumWitnesses (i.addressAt k) m = _
      rw [readEnumWitnesses_of_holds hshows hk hw]
      rfl
    rw [Option.isSome_some, if_pos rfl, Decoder.bind_of_ok hpart]

theorem read_of_holds (hshows : m.Shows i) (hk : i.HoldsMetadata k spec)
    (hflags : spec.layout.flags.hasEnumWitnesses = true → spec.enumWitnesses.isSome = true) :
    read (i.addressAt k) m = .ok (spec.witnessTable (i.addressAt k)) := by
  have haligned := hk.aligned
  have hpointer : ∀ n x, spec.tableWords[n]? = some x → ∀ c : UInt64, c.toNat = 8 * n →
      Decoder.pointer (i.addressAt k + c) m = .ok ⟨x⟩ := by
    intro n x hn c hc
    rw [Image.addressAt_add i k hc]
    exact Decoder.pointer_of_words hshows haligned hk.table hn
  have hword : ∀ n x, spec.tableWords[n]? = some x → ∀ c : UInt64, c.toNat = 8 * n →
      Decoder.u64 (i.addressAt k + c) m = .ok x := by
    intro n x hn c hc
    rw [Image.addressAt_add i k hc]
    exact Decoder.u64_of_holds hshows (hk.table.part length_bytesOf64 hn) (by omega)
  have hflagsWord : Decoder.u32 (i.addressAt k + flagsOffset) m = .ok spec.flags.bits := by
    rw [Image.addressAt_add i k (n := 80) rfl]
    exact Decoder.u32_of_holds hshows hk.flags (by omega)
  have hextra : Decoder.u32 (i.addressAt k + extraInhabitantsOffset) m =
      .ok spec.layout.extraInhabitants := by
    rw [Image.addressAt_add i k (n := 84) rfl]
    exact Decoder.u32_of_holds hshows hk.extraInhabitants (by omega)
  have hfirst : Decoder.pointer (i.addressAt k) m = .ok ⟨0⟩ :=
    Decoder.pointer_of_words hshows haligned hk.table (n := 0) rfl
  unfold read
  rw [Decoder.bind_of_ok hflagsWord]
  refine (enumPart_of_holds hshows hk hflags _).trans ?_
  dsimp only
  rw [Decoder.bind_of_ok hfirst, Decoder.bind_of_ok (hpointer 1 _ rfl _ rfl),
    Decoder.bind_of_ok (hpointer 2 _ rfl _ rfl), Decoder.bind_of_ok (hpointer 3 _ rfl _ rfl),
    Decoder.bind_of_ok (hpointer 4 _ rfl _ rfl), Decoder.bind_of_ok (hpointer 5 _ rfl _ rfl),
    Decoder.bind_of_ok (hpointer 6 _ rfl _ rfl), Decoder.bind_of_ok (hpointer 7 _ rfl _ rfl),
    Decoder.bind_of_ok (hword 8 _ rfl _ rfl), Decoder.bind_of_ok (hword 9 _ rfl _ rfl),
    Decoder.bind_of_ok hextra]
  rfl

end WitnessTable

namespace Metadata

/-- What the metadata of a value type reads as. -/
structure ReadsAs (d : Metadata) (spec : ValueMetadataSpec) (m : Memory) : Prop where
  description : d.description m =
    .ok (if spec.description = .null then none else some spec.description)
  valueWitnesses : ∃ t, d.valueWitnesses m = .ok t ∧
    t.slots = [.null, spec.destroy, spec.initializeWithCopy, .null, .null, .null, .null, .null] ∧
    t.layout = { spec.layout with flags := spec.flags } ∧
    t.layout.flags.hasEnumWitnesses = spec.enumWitnesses.isSome ∧
    t.enumWitnesses = spec.enumWitnesses
  typeLayout : d.typeLayout m = .ok { spec.layout with flags := spec.flags }
  fieldOffsets : ∀ n : UInt32, n.toNat = spec.fieldOffsets.length →
    d.fieldOffsets 2 n m = .ok spec.fieldOffsets

/-- What metadata without a value witness table is asked in vain. -/
structure RefusesValue (d : Metadata) (m : Memory) : Prop where
  description : d.description m = .error (.precondition (.noValueWitnesses d.kind))
  valueWitnesses : d.valueWitnesses m = .error (.precondition (.noValueWitnesses d.kind))
  typeLayout : d.typeLayout m = .error (.precondition (.noValueWitnesses d.kind))
  fieldOffsets : ∀ vectorOffset count, d.fieldOffsets vectorOffset count m =
    .error (.precondition (.noValueWitnesses d.kind))

theorem refusesValue {d : Metadata} (h : d.kind.hasValueWitnesses = false) (m : Memory) :
    d.RefusesValue m := by
  have hrefused : d.requireValue m = .error (.precondition (.noValueWitnesses d.kind)) := by
    unfold requireValue
    rw [h]
    rfl
  have htable : d.valueWitnesses m = .error (.precondition (.noValueWitnesses d.kind)) :=
    Decoder.bind_of_error hrefused
  exact ⟨Decoder.bind_of_error hrefused, htable, Decoder.bind_of_error htable,
    fun _ _ => Decoder.bind_of_error hrefused⟩

theorem word_of_holds (hk : i.HoldsMetadata k spec) {n : Nat} {w : UInt64}
    (hn : (spec.metadataWords (i.addressAt k))[n]? = some w) :
    i.Holds (k + spec.tableSize + 8 * n) (bytesOf64 w) := by
  have hword := hk.words.part length_bytesOf64 (n := spec.enumWords.length + n) (x := w)
    (by rwa [List.getElem?_append_right (by omega), Nat.add_sub_cancel_left])
  unfold ValueMetadataSpec.tableSize
  rwa [show k + (88 + 8 * spec.enumWords.length) + 8 * n
    = k + 88 + 8 * (spec.enumWords.length + n) by omega]

theorem read_of_holds (hshows : m.Shows i) (hk : i.HoldsMetadata k spec) :
    read (i.addressAt (k + spec.tableSize + 8)) m =
      .ok ⟨i.addressAt (k + spec.tableSize + 8), spec.kind⟩ := by
  have haligned := hk.aligned
  have htable := spec.mod_eight_tableSize
  have hkind : Decoder.u64 (i.addressAt (k + spec.tableSize + 8)) m =
      .ok (UInt64.ofNat spec.kind.raw) :=
    Decoder.u64_of_holds hshows (word_of_holds hk (n := 1) rfl) (by omega)
  have hraw : (UInt64.ofNat spec.kind.raw).toNat = spec.kind.raw := by
    cases spec.kind <;> rfl
  unfold read
  rw [Decoder.bind_of_ok hkind, hraw, MetadataKind.ofRaw?_raw]
  rfl

theorem readsAs_of_holds (hshows : m.Shows i) (hk : i.HoldsMetadata k spec)
    (hkind : spec.kind.hasValueWitnesses = true)
    (hflags : spec.layout.flags.hasEnumWitnesses = true → spec.enumWitnesses.isSome = true) :
    ReadsAs ⟨i.addressAt (k + spec.tableSize + 8), spec.kind⟩ spec m := by
  have haligned := hk.aligned
  have hsize := spec.mod_eight_tableSize
  have hvalue : requireValue ⟨i.addressAt (k + spec.tableSize + 8), spec.kind⟩ m = .ok () := by
    unfold requireValue
    rw [hkind]
    rfl
  have hdescription : Decoder.pointer
      (i.addressAt (k + spec.tableSize + 8) + descriptionOffset) m = .ok spec.description := by
    rw [Image.addressAt_add i _ (n := 8) rfl]
    exact Decoder.pointer_of_holds hshows (word_of_holds hk (n := 2) rfl) (by omega)
  have hpointer : Decoder.pointer (i.addressAt (k + spec.tableSize + 8) - pointerSize) m =
      .ok (i.addressAt k) := by
    rw [Image.addressAt_sub i _ (n := 8) rfl]
    exact Decoder.pointer_of_holds hshows (word_of_holds hk (n := 0) rfl) (by omega)
  have htable : valueWitnesses ⟨i.addressAt (k + spec.tableSize + 8), spec.kind⟩ m =
      .ok (spec.witnessTable (i.addressAt k)) := by
    unfold valueWitnesses
    rw [Decoder.bind_of_ok hvalue, Decoder.bind_of_ok hpointer]
    exact WitnessTable.read_of_holds hshows hk hflags
  refine ⟨?_, ⟨_, htable, rfl, rfl, spec.hasEnumWitnesses_flags hflags, rfl⟩, ?_, fun n hn => ?_⟩
  · unfold description
    rw [Decoder.bind_of_ok hvalue, Decoder.bind_of_ok hdescription]
    simp [Address.nonNull?, Address.isNull, pure, ReaderT.pure, Except.pure]
  · unfold typeLayout
    rw [Decoder.bind_of_ok htable]
    rfl
  · unfold fieldOffsets
    rw [Decoder.bind_of_ok hvalue, Image.addressAt_add i _ (n := 16) rfl, hn]
    refine Decoder.series_ok fun n x hx => ?_
    have hfour : (4 : UInt64).toNat = 4 := rfl
    have hoffset := hk.fieldOffsets.part length_bytesOf32 hx
    exact Decoder.u32_of_holds hshows hoffset (by rw [hfour]; omega)

end Metadata

theorem Emit.holds_valueMetadata {spec : ValueMetadataSpec} {i j : Image} {start : Address}
    (h : (Emit.valueMetadata spec).run i = .ok (start, j)) :
    ∃ k, start = j.addressAt (k + spec.tableSize + 8) ∧ j.HoldsMetadata k spec := by
  have haligned : ((i.align 8).base.toNat + (i.align 8).bytes.size) % 8 = 0 :=
    Image.mod_align i (by decide)
  rw [Emit.run_valueMetadata] at h
  generalize i.align 8 = i at *
  obtain ⟨rfl, hj⟩ := Prod.mk.inj (Except.ok.inj h)
  have hgrown : Image.Grown i j :=
    hj ▸ Image.Grown.trans (Image.frame_append i _ 0 0) (Image.frame_align _ 8 0 0)
  have hbytes : j.Holds i.bytes.size (spec.bytes (i.addressAt i.bytes.size)) :=
    hj ▸ Image.Grown.holds (Image.frame_align _ 8 0 0) (Image.holds_append i _)
  rw [← hgrown.addressAt] at hbytes
  refine ⟨i.bytes.size, (hgrown.addressAt _).symm, Image.holdsMetadata_of_bytes ?_ hbytes⟩
  rw [hgrown.base]
  exact haligned

/-- Whatever is laid out as value metadata is read back, and only kinds with a table have one. -/
theorem metadata_round_trip (m : Memory) (spec : ValueMetadataSpec) (i : Image) :
    ∃ start j, (Emit.valueMetadata spec).run i = .ok (start, j) ∧
      (j.Fits → ∀ more, m.ClearFor (j.append more) →
        ∃ d : Metadata, d.address = start ∧ d.kind = spec.kind ∧
          Metadata.read start (m.load (j.append more)) = .ok d ∧
          if spec.kind = .structType ∨ spec.kind = .enumType ∨ spec.kind = .optionalType then
            (spec.layout.flags.hasEnumWitnesses = true → spec.enumWitnesses.isSome = true) →
              d.ReadsAs spec (m.load (j.append more))
          else d.RefusesValue (m.load (j.append more))) := by
  obtain ⟨start, j, hrun⟩ : ∃ start j, (Emit.valueMetadata spec).run i = .ok (start, j) :=
    ⟨_, _, Emit.run_valueMetadata spec i⟩
  obtain ⟨k, hstart, hk⟩ := Emit.holds_valueMetadata hrun
  refine ⟨start, j, hrun, fun fits more clear => ?_⟩
  have hshows := Memory.load_shows (Image.frame_append j more 0 0) fits clear
  subst hstart
  refine ⟨_, rfl, rfl, Metadata.read_of_holds hshows hk, ?_⟩
  split
  · rename_i hkind
    refine fun hflags => Metadata.readsAs_of_holds hshows hk ?_ hflags
    rcases hkind with h | h | h <;> rw [h] <;> rfl
  · rename_i hkind
    refine Metadata.refusesValue ?_ _
    cases h : spec.kind <;> simp_all [MetadataKind.hasValueWitnesses]

/-- An enum with witnesses of its own and three offsets, behind an odd address. -/
theorem metadata_round_trip_enum :
    let spec : ValueMetadataSpec :=
      { kind := .enumType, description := ⟨0x500⟩, layout := .plain 16, destroy := ⟨0x600⟩,
        enumWitnesses := some ⟨⟨0x700⟩, ⟨0x710⟩, ⟨0x720⟩⟩, fieldOffsets := [0, 8, 12] }
    ∃ start j, (Emit.valueMetadata spec).run ⟨⟨0x1003⟩, #[]⟩ = .ok (start, j) ∧ j.Fits ∧
      ∃ d, Metadata.read start ((Memory.empty .null).load (j.append [1])) = .ok d ∧
        spec.layout.flags.hasEnumWitnesses = false ∧
        d.ReadsAs spec ((Memory.empty .null).load (j.append [1])) := by
  intro spec
  obtain ⟨start, j, hrun, hread⟩ := metadata_round_trip (.empty .null) spec ⟨⟨0x1003⟩, #[]⟩
  obtain ⟨_, _, hrun', hchecked⟩ := Build.exists_of_any (i := ⟨⟨0x1003⟩, #[]⟩)
    (x := Emit.valueMetadata spec) (p := fun (_, j) => decide j.Fits) (by decide +kernel)
  rw [hrun] at hrun'
  obtain ⟨rfl, rfl⟩ := Prod.mk.inj (Except.ok.inj hrun')
  have fits : j.Fits := of_decide_eq_true hchecked
  obtain ⟨d, -, -, hd, hvalue⟩ := hread fits [1] nofun
  rw [if_pos (by decide)] at hvalue
  exact ⟨start, j, hrun, fits, d, hd, by decide +kernel, hvalue (by decide +kernel)⟩

end TypeMetadata
