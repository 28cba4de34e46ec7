import TypeMetadata.Proofs.BuildingInPlace
import TypeMetadata.Reflection.Enum

/-!
# Copies of an enum value

An enum that keeps its tag in one byte and is copied byte by byte. A value that has been built is in
a block of its own with the tag in that byte (`ByteTagged.of_settle`), whatever the functions of its
payload have done to the block before. From then on it is only copied to new blocks, and a copy
changes no block that is there (`ByteTagged.run_copyOf`). So in a chain of copies all have the same
bytes, by an induction on its length (`EnumType.run_copyChain`), and with them the tag
(`EnumType.case_survives`). What else is in the block is up to the payload's functions: its bytes
followed by zeros if they build it in place, and not in general (`EnumType.not_case_survives`).
-/

namespace TypeMetadata

variable {w w' : World} {origin : UInt64}

/-! ## Payloads that are copied byte by byte -/

theorem ValueType.run_copy {t : ValueType} {table : WitnessTable} {metadata : Address} {n : Nat}
    (htable : t.witnesses = some table) (hmetadata : t.info.metadata = some metadata)
    (hf : w.functions.lookup? table.initializeWithCopy = some (StandIn.copyBytes n))
    (dest source : Address) :
    ∃ calls, (t.copy dest source).run w =
      match w.memory.read source n with
      | .error e => (.error (.call (.memory e)), { w with calls })
      | .ok bs =>
        match w.memory.write dest bs with
        | .error e => (.error (.call (.memory e)), { w with calls })
        | .ok memory => (.ok (), { w with memory, calls }) := by
  let c : Call := ⟨table.initializeWithCopy, [dest.val, source.val, metadata.val], none⟩
  have hcall : (BuildStep.copy t dest source).call? = some c :=
    BuildStep.call?_copy_eq_some_iff.2 ⟨table, metadata, htable, hmetadata, rfl⟩
  have hargs : c.args = [dest.val, source.val, metadata.val] := rfl
  have hrun := BuildStep.run_perform_of_call hcall w
  rw [BuildStep.perform, World.invoke_of_lookup (c := c) hf, StandIn.run_copyBytes hargs] at hrun
  refine ⟨c :: w.calls, ?_⟩
  rw [hrun]
  rcases w.memory.read source n with e | bs
  · rfl
  · simp only
    cases w.memory.write dest bs <;> rfl

theorem ValueType.of_copy {t : ValueType} {table : WitnessTable} {n : Nat} {dest source : Address}
    (htable : t.witnesses = some table)
    (hf : w.functions.lookup? table.initializeWithCopy = some (StandIn.copyBytes n))
    (h : (t.copy dest source).run w = (.ok (), w')) :
    ∃ bs, w.memory.read source n = .ok bs ∧ w.memory.write dest bs = .ok w'.memory := by
  obtain ⟨c, x, hc, -⟩ := BuildStep.of_perform_ok (s := .copy t dest source) h rfl
  obtain ⟨table', metadata, htable', hmetadata, -⟩ := BuildStep.call?_copy_eq_some_iff.1 hc
  obtain ⟨calls, hrun⟩ := ValueType.run_copy htable hmetadata hf dest source
  rw [h] at hrun
  rcases hread : w.memory.read source n with e | bs <;> rw [hread] at hrun
  · cases hrun
  · rcases hwrite : w.memory.write dest bs with e | m <;> simp only [hwrite] at hrun
    · cases hrun
    · cases hrun
      exact ⟨bs, rfl, hwrite⟩

namespace Value

/-- The value is copied by a function that copies `n` bytes, unless it is an object. -/
def CopiesBytes (functions : FunctionTable) (n : Nat) : Value → Prop
  | struct type _ | enum type _ _ => ∃ table, type.witnesses = some table ∧
    functions.lookup? table.initializeWithCopy = some (StandIn.copyBytes n)
  | object _ => True

/-- What is copied of such a value that is at `source`: its bytes, or a pointer to an object. -/
def copied (n : Nat) (m : Memory) (source : Address) : Value → Except MemoryError (List UInt8)
  | struct .. | enum .. => m.read source n
  | object _ => .ok (bytesOf64 source.val)

theorem of_perform_copyStep {p : Value} {n : Nat} {source dest : Address}
    (hp : p.CopiesBytes w.functions n)
    (h : (p.copyStep source dest).perform.run w = (.ok (), w')) :
    ∃ cs, p.copied n w.memory source = .ok cs ∧ w.memory.write dest cs = .ok w'.memory := by
  have key : ∀ type : ValueType, (∃ table, type.witnesses = some table ∧
      w.functions.lookup? table.initializeWithCopy = some (StandIn.copyBytes n)) →
      (type.copy dest source).run w = (.ok (), w') →
      ∃ cs, w.memory.read source n = .ok cs ∧ w.memory.write dest cs = .ok w'.memory := by
    rintro type ⟨table, htable, hf⟩ h
    exact ValueType.of_copy htable hf h
  cases p with
  | struct type b => exact key type hp h
  | enum type state payload => exact key type hp h
  | object reference =>
    rw [copyStep, BuildStep.perform, Inspect.run_update] at h
    rcases hm : w.memory.writePointer dest source with e | memory <;> rw [hm] at h
    · cases h
    · cases h
      exact ⟨_, rfl, Memory.of_writePointer hm⟩

/-- When a place is made in `w` for the value of a case, `cs` is what is copied of its payload. -/
def PayloadBytes (n : Nat) (cs : List UInt8) (w : World) : Option Value → Prop
  | none => cs = []
  | some p => ∃ source p' w', p.settle w = ((.ok source, p'), w') ∧
    p.copied n w'.memory source = .ok cs

/-- In a block there is the payload then, over what was in it before. -/
theorem PutAt.hasBlock {a : Address} {payload : Option Value} {n : Nat} {bytes : Array UInt8}
    (h : PutAt a payload w w') (hblock : w.memory.HasBlock a bytes)
    (hw : w.functions.UsesHeap origin) (hm : w.memory.HeapFrom origin)
    (ha : origin.toNat ≤ a.toNat)
    (hp : ∀ p ∈ payload, p.CopiesBytes w.functions n ∧ p.BuildsInPlace w.functions) :
    ∃ cs, PayloadBytes n cs w payload ∧ cs.length ≤ bytes.size ∧
      w'.memory.HasBlock a (overlay bytes 0 cs) := by
  cases h with
  | none => exact ⟨[], rfl, Nat.zero_le _, hblock⟩
  | @some p p' source _ w₁ _ settled copied =>
    obtain ⟨hcopies, hbuilds⟩ := hp p rfl
    obtain ⟨hreaches, hfunctions⟩ := reaches_settle hw settled
    have hpos := hblock.reserves.pos
    have hlt : a.toNat < w.memory.next.toNat := by
      have := hblock.reserves.le
      omega
    have hblock₁ : w₁.memory.HasBlock a bytes :=
      ⟨keeps_settle p hbuilds hw hm settled _ hblock.mem hlt, hblock.reserves.reaches hreaches ha⟩
    obtain ⟨cs, hcs, hwrite⟩ := of_perform_copyStep (hfunctions ▸ hcopies) copied
    obtain ⟨hle, hblock'⟩ := hblock₁.of_write (Nat.le_refl _) (by omega) hwrite
    rw [Nat.sub_self] at hblock'
    exact ⟨cs, ⟨source, p', w₁, settled, hcs⟩, by omega, hblock'⟩

end Value

/-! ## Enums with their tag in one byte -/

theorem toUInt32_toUInt8 {tag : UInt32} (h : tag.toNat < 256) : tag.toUInt8.toUInt32 = tag := by
  rw [← UInt32.toNat_inj]
  simp
  omega

/-- The functions for the type copy as many bytes as a value has and keep the tag in the byte at
`k`. -/
structure ValueType.ByteTagged (t : ValueType) (functions : FunctionTable) (table : WitnessTable)
    (e : EnumWitnesses) (k : UInt64) : Prop where
  witnesses : t.witnesses = some table
  enumWitnesses : table.enumWitnesses = some e
  inject : functions.lookup? e.injectTag = some (StandIn.setByteTag k)
  get : functions.lookup? e.getTag = some (StandIn.byteTag k)
  copy : functions.lookup? table.initializeWithCopy
    = some (StandIn.copyBytes table.layout.size.toNat)
  lt_size : k.toNat < table.layout.size.toNat
  size_le : table.layout.size.toNat ≤ table.layout.stride.toNat

namespace ValueType.ByteTagged

variable {t : ValueType} {functions : FunctionTable} {table : WitnessTable} {e : EnumWitnesses}
  {k : UInt64} {a : Address} {tag : UInt32}

theorem bufferSize (h : t.ByteTagged functions table e k) :
    t.bufferSize = table.layout.stride.toNat := by
  have hpos : 1 ≤ table.layout.stride.toNat := by
    have := h.lt_size
    have := h.size_le
    omega
  unfold ValueType.bufferSize ValueType.layout
  rw [h.witnesses]
  exact Nat.max_eq_left hpos

theorem of_injectTag (h : t.ByteTagged w.functions table e k)
    (hr : (t.injectTag a tag).run w = (.ok (), w')) :
    w.memory.write (a + k) [tag.toUInt8] = .ok w'.memory ∧ w'.functions = w.functions ∧
      ∃ metadata, t.info.metadata = some metadata := by
  obtain ⟨c, x, hc, hi⟩ := BuildStep.of_perform_ok (s := .inject t a tag) hr rfl
  obtain ⟨table', e', metadata, htable, he, hmetadata, rfl⟩ :=
    BuildStep.call?_inject_eq_some_iff.1 hc
  cases h.witnesses.symm.trans htable
  cases h.enumWitnesses.symm.trans he
  let c : Call := ⟨e.injectTag, [a.val, tag.toUInt64, metadata.val], none⟩
  have hargs : c.args = [a.val, tag.toUInt64, metadata.val] := rfl
  rw [World.invoke_of_lookup (c := c) h.inject, StandIn.run_setByteTag hargs] at hi
  rcases hwrite : w.memory.write (a + k) [tag.toUInt64.toUInt8] with e | m
  · rw [hwrite] at hi
    cases hi
  · rw [hwrite] at hi
    cases hi
    rw [UInt32.toUInt8_toUInt64] at hwrite
    exact ⟨hwrite, rfl, metadata, hmetadata⟩

/-- The tag of a value is what its byte says. -/
theorem run_readTag (h : t.ByteTagged w.functions table e k) {metadata : Address}
    (hmetadata : t.info.metadata = some metadata) {byte : UInt8}
    (hbyte : w.memory.readU8 (a + k) = .ok byte) :
    ∃ calls, (t.readTag a).run w = (.ok byte.toUInt32, { w with calls }) := by
  have hwitnesses : t.requireEnumWitnesses = .ok e := by
    unfold requireEnumWitnesses requireWitnesses
    rw [h.witnesses]
    simp [require, h.enumWitnesses, bind, Except.bind]
  have hm : t.requireMetadata = .ok metadata := by
    rw [requireMetadata, hmetadata, require]
  let c : Call := ⟨e.getTag, [a.val, metadata.val], none⟩
  have hargs : c.args = [a.val, metadata.val] := rfl
  have hcall := Inspect.run_call c w
  rw [World.invoke_of_lookup (c := c) h.get, StandIn.run_byteTag hargs] at hcall
  have hread : t.readTag a = (Inspect.call c >>= fun tag => pure tag.toUInt32) := by
    unfold readTag
    rw [hwitnesses, hm]
    rfl
  refine ⟨c :: w.calls, ?_⟩
  have ha : (⟨a.val⟩ : Address) = a := rfl
  rw [hread, Inspect.run_bind, hcall, ha, hbyte, ← UInt8.toUInt32_toUInt64]
  rfl

/-- In the end there is a block with the tag in its byte, where the payload has been put before. -/
theorem of_settle (h : t.ByteTagged w.functions table e k) (hw : w.functions.UsesHeap origin)
    (hm : w.memory.HeapFrom origin) {payload : Option Value} {v' : Value}
    (hs : (Value.ofCase t tag payload).settle w = ((.ok a, v'), w')) :
    ∃ b w₀ w₁ payload' bytes, t.allocateEnum.run w = (.ok b, w₀) ∧ b.address = a ∧
      Value.PutAt a payload w₀ w₁ ∧ v' = .enum t (.complete tag b) payload' ∧
      bytes.size = table.layout.stride.toNat ∧ w₁.memory.HasBlock a bytes ∧
      w'.memory.HasBlock a (overlay bytes k.toNat [tag.toUInt8]) ∧
      w'.memory.HeapFrom origin ∧ w'.functions = w.functions ∧
      ∃ metadata, t.info.metadata = some metadata := by
  obtain ⟨b, w₀, w₁, payload', hb, rfl, hput, ht, rfl⟩ := Value.of_settle_ofCase hs
  obtain ⟨hblock, haddress, -, hm₀, hfunctions⟩ := hasBlock_allocateEnum hb hm
  obtain ⟨hreaches, hfunctions₁⟩ := hput.reaches (hfunctions ▸ hw)
  rw [hfunctions] at hfunctions₁
  obtain ⟨hwrite, hfunctions', hmetadata⟩ := of_injectTag (hfunctions₁ ▸ h) ht
  have hreserves := hblock.reserves.reaches hreaches (haddress ▸ hm.le)
  rw [Array.size_replicate, h.bufferSize] at hreserves
  have hk := Nat.lt_of_lt_of_le h.lt_size h.size_le
  have hlt := hreserves.toNat_add hk
  obtain ⟨bytes, hsize, hbytes⟩ := hreserves.hasBlock (by omega) (by omega) (by simp) hwrite
  obtain ⟨-, hbytes'⟩ := hbytes.of_write (by omega) (by omega) hwrite
  rw [hlt, Nat.add_sub_cancel_left] at hbytes'
  have hreaches' : w₁.memory.Reaches origin w'.memory := .of_write hwrite
  exact ⟨b, w₀, w₁, payload', bytes, hb, rfl, hput, rfl, hsize, hbytes, hbytes',
    hreaches'.heapFrom (hreaches.heapFrom hm₀), hfunctions'.trans hfunctions₁, hmetadata⟩

end ValueType.ByteTagged

/-! ## Copies of copies -/

/-- A value with this layout is at `a`, in a block of its own, and `bs` are its bytes. -/
def Memory.HoldsValue (m : Memory) (layout : TypeLayout) (a : Address) (bs : List UInt8) : Prop :=
  ∃ bytes, m.HasBlock a bytes ∧ bytes.size = layout.stride.toNat ∧
    (bytes.extract 0 layout.size.toNat).toList = bs

namespace Memory.HoldsValue

variable {m m' : Memory} {layout : TypeLayout} {a b : Address} {bs : List UInt8}

theorem read (h : m.HoldsValue layout a bs) (hle : layout.size.toNat ≤ layout.stride.toNat) :
    m.read a layout.size.toNat = .ok bs := by
  obtain ⟨bytes, hblock, hsize, rfl⟩ := h
  exact hblock.read (hsize ▸ hle)

/-- A value is not in the way of blocks that come after it. -/
theorem keeps (h : m.HoldsValue layout a bs) (hb : m.next.toNat ≤ b.toNat)
    (hk : m.KeepsOthers b m') (hr : m.Reaches 0 m') : m'.HoldsValue layout a bs := by
  obtain ⟨bytes, hblock, hsize, rfl⟩ := h
  have hle := hblock.reserves.le
  have hpos := hblock.reserves.pos
  have hne : a ≠ b := by
    rintro rfl
    omega
  exact ⟨bytes, hblock.keeps hk hne (hblock.reserves.reaches hr (Nat.zero_le _)), hsize, rfl⟩

end Memory.HoldsValue

namespace ValueType.ByteTagged

variable {t : ValueType} {functions : FunctionTable} {table : WitnessTable} {e : EnumWitnesses}
  {k : UInt64} {a : Address} {tag : UInt32} {bs : List UInt8} {metadata : Address}

theorem tag_of_holds (h : t.ByteTagged w.functions table e k)
    (hmetadata : t.info.metadata = some metadata) {b : Buffer}
    (hold : w.memory.HoldsValue table.layout b.address bs)
    (hbs : bs[k.toNat]? = some tag.toUInt8) (small : tag.toNat < 256) :
    (Value.tag.runOn (.ofBuffer t b) w).1.1 = .ok (some tag) := by
  obtain ⟨bytes, hblock, hsize, rfl⟩ := hold
  have hbyte : bytes[k.toNat]? = some tag.toUInt8 := by
    rw [Array.getElem?_toList, Array.getElem?_extract, Nat.zero_add] at hbs
    split at hbs
    · exact hbs
    · cases hbs
  obtain ⟨calls, hrun⟩ := h.run_readTag hmetadata (hblock.readU8 hbyte)
  rw [Value.ofBuffer, Value.runOn_tag_stored, hrun, toUInt32_toUInt8 small]

theorem max_stride (h : t.ByteTagged functions table e k) :
    max table.layout.stride 1 = table.layout.stride := by
  have := h.lt_size
  have := h.size_le
  rw [← UInt64.toNat_inj, toNat_max_one]
  omega

theorem allocate_eq (h : t.ByteTagged functions table e k) :
    t.allocate = Buffer.allocate table.layout.stride := by
  unfold ValueType.allocate requireLayout requireWitnesses
  rw [h.witnesses]
  rfl

/-- A value that is copied to a new block is in both places. -/
theorem copy_to_new (h : t.ByteTagged w.functions table e k)
    (hmetadata : t.info.metadata = some metadata) (hm : w.memory.HeapFrom origin)
    (hold : w.memory.HoldsValue table.layout a bs) {b : Address} {m : Memory}
    (ha : w.memory.allocate table.layout.stride = .ok (b, m)) :
    ∃ m' calls, (t.copy b a).run { w with memory := m } = (.ok (), { w with memory := m', calls }) ∧
      m'.HeapFrom origin ∧ m'.HoldsValue table.layout b bs ∧
      ∀ x xs, w.memory.HoldsValue table.layout x xs → m'.HoldsValue table.layout x xs := by
  have hlt := h.lt_size
  have hle := h.size_le
  have haddress : w.memory.next.toNat = b.toNat :=
    (congrArg Address.toNat (Memory.allocate_next ha).1).symm
  have hblock := Memory.hasBlock_allocate hm.clear ha
  have hmax : max table.layout.stride.toNat 1 = table.layout.stride.toNat := by omega
  rw [hmax] at hblock
  have hallocated : w.memory.Reaches 0 m := .of_allocate ha
  have hkept := Memory.keepsOthers_allocate ha
  have hread := (hold.keeps (haddress ▸ Nat.le_refl _) hkept hallocated).read hle
  have hlength : bs.length = table.layout.size.toNat := by
    obtain ⟨bytes, -, hsize, rfl⟩ := hold
    rw [Array.length_toList, Array.size_extract]
    omega
  obtain ⟨m', hwrite, hblock'⟩ := hblock.write (x := b) bs (Nat.le_refl _)
    (by rw [Array.size_replicate]; omega) (by rw [Array.size_replicate]; omega)
  obtain ⟨calls, hrun⟩ := run_copy (w := { w with memory := m }) h.witnesses hmetadata h.copy b a
  simp only [hread, hwrite] at hrun
  have hreaches : w.memory.Reaches 0 m' := hallocated.trans (.of_write hwrite)
  have hkept' : w.memory.KeepsOthers b m' := fun r hr hne =>
    hblock.reserves.keepsOthers (Nat.le_refl _) (by rw [Array.size_replicate]; omega) hwrite r
      (hkept r hr hne) hne
  refine ⟨m', calls, hrun, ?_, ⟨_, hblock', by simp, ?_⟩,
    fun x xs hx => hx.keeps (haddress ▸ Nat.le_refl _) hkept' hreaches⟩
  · have hreaches : w.memory.Reaches origin m' :=
      (Memory.Reaches.of_allocate ha).trans (.of_write hwrite)
    exact hreaches.heapFrom hm
  · rw [Array.toList_extract, Nat.sub_self, toList_overlay_replicate (by omega)]
    simp [List.extract, ← hlength]

/-- There is no room for a copy, or it is a new block with the same bytes and all else is as it
was. -/
theorem run_copyOf {t : EnumType} (h : t.core.ByteTagged w.functions table e k)
    (hmetadata : t.core.info.metadata = some metadata) (hm : w.memory.HeapFrom origin)
    (hold : w.memory.HoldsValue table.layout a bs) :
    (t.copyOf a).run w = (.error (.memory (.outOfMemory table.layout.stride)), w) ∨
      ∃ b w', (t.copyOf a).run w = (.ok (.ofBuffer t.core b), w') ∧ w'.functions = w.functions ∧
        w'.memory.HeapFrom origin ∧ w'.memory.HoldsValue table.layout b.address bs ∧
        ∀ x xs, w.memory.HoldsValue table.layout x xs → w'.memory.HoldsValue table.layout x xs := by
  have hrun := Buffer.run_allocate table.layout.stride w
  rw [← h.allocate_eq, h.max_stride] at hrun
  unfold EnumType.copyOf ValueType.allocateCopy allocateFilled
  rw [Inspect.run_bind, Inspect.run_bind]
  rcases ha : w.memory.allocate table.layout.stride with e | ⟨b, m⟩ <;> rw [ha] at hrun <;>
    rw [hrun]
  · rw [Memory.allocate_eq_error ha]
    exact .inl rfl
  · obtain ⟨m', calls, hcopy, hm', hb, hkept⟩ := h.copy_to_new hmetadata hm hold ha
    simp only
    rw [Inspect.run_bind, Inspect.run_tryCatch, hcopy]
    exact .inr ⟨⟨b, table.layout.stride, true⟩, _, rfl, rfl, hm', hb, hkept⟩

end ValueType.ByteTagged

namespace EnumType

/-- Copy the value at `a`, then that copy, and so on: the copies one after another. -/
def copyChain (t : EnumType) : Nat → Address → Inspect (List Value)
  | 0, _ => return []
  | count + 1, a => do
    let u ← t.copyOf a
    let us ← t.copyChain count u.place
    return u :: us

variable {t : EnumType} {table : WitnessTable} {e : EnumWitnesses} {k : UInt64} {a : Address}
  {bs : List UInt8} {metadata : Address}

theorem run_copyChain (count : Nat) (h : t.core.ByteTagged w.functions table e k)
    (hmetadata : t.core.info.metadata = some metadata) (hm : w.memory.HeapFrom origin)
    (hold : w.memory.HoldsValue table.layout a bs) :
    (∃ w', (t.copyChain count a).run w
        = (.error (.memory (.outOfMemory table.layout.stride)), w')) ∨
      ∃ us w', (t.copyChain count a).run w = (.ok us, w') ∧ us.length = count ∧
        w'.functions = w.functions ∧
        (∀ u ∈ us, ∃ b, u = .ofBuffer t.core b ∧
          w'.memory.HoldsValue table.layout b.address bs) ∧
        ∀ x xs, w.memory.HoldsValue table.layout x xs → w'.memory.HoldsValue table.layout x xs := by
  induction count generalizing w a with
  | zero => exact .inr ⟨[], w, rfl, rfl, rfl, nofun, fun _ _ hx => hx⟩
  | succ count ih =>
    rw [copyChain, Inspect.run_bind]
    rcases h.run_copyOf hmetadata hm hold with hr | ⟨b, w₁, hr, hf, hm₁, hb, hkept⟩ <;> rw [hr]
    · exact .inl ⟨_, rfl⟩
    simp only
    have hplace : (Value.ofBuffer t.core b).place = b.address := rfl
    rw [Inspect.run_bind, hplace]
    -- the copy is where the rest of the chain starts
    rcases ih (hf ▸ h) hm₁ hb with ⟨w', hrs⟩ | ⟨us, w', hrs, hlength, hf', hus, hkept'⟩ <;> rw [hrs]
    · exact .inl ⟨_, rfl⟩
    · refine .inr ⟨_, _, rfl, congrArg Nat.succ hlength, hf'.trans hf, ?_,
        fun x xs hx => hkept' x xs (hkept x xs hx)⟩
      exact List.forall_mem_cons.2 ⟨⟨b, rfl, hkept' _ _ hb⟩, hus⟩

/-- In `w` the value `v` is at `a` with this tag, and all copies of it and of copies have it. -/
structure Survives (t : EnumType) (layout : TypeLayout) (tag : UInt32) (v : Value) (a : Address)
    (w : World) : Prop where
  tag_eq : (Value.tag.runOn v w).1.1 = .ok (some tag)
  seen : ∃ u, t.valueAt a = .ok u ∧ (Value.tag.runOn u w).1.1 = .ok (some tag)
  copies : ∃ bs, w.memory.read a layout.size.toNat = .ok bs ∧ ∀ count,
    match (t.copyChain count a).run w with
    | (.ok us, w') => us.length = count ∧ w'.memory.read a layout.size.toNat = .ok bs ∧
      ∀ u ∈ us, (Value.tag.runOn u w').1.1 = .ok (some tag) ∧
        w'.memory.read u.place layout.size.toNat = .ok bs
    | (.error e, _) => e = .memory (.outOfMemory layout.stride)

theorem survives_of_holds (h : t.core.ByteTagged w.functions table e k)
    (hmetadata : t.core.info.metadata = some metadata) (hm : w.memory.HeapFrom origin)
    (hold : w.memory.HoldsValue table.layout a bs) {tag : UInt32} {b : Buffer}
    {payload : Option Value} (hbs : bs[k.toNat]? = some tag.toUInt8) (small : tag.toNat < 256) :
    t.Survives table.layout tag (.enum t.core (.complete tag b) payload) a w where
  tag_eq := rfl
  seen := by
    have hview : t.valueAt a = .ok (.ofBuffer t.core (.view a table.layout.stride)) := by
      unfold EnumType.valueAt ValueType.view ValueType.requireLayout ValueType.requireWitnesses
      rw [h.witnesses]
      rfl
    exact ⟨_, hview, h.tag_of_holds hmetadata hold hbs small⟩
  copies := by
    refine ⟨bs, hold.read h.size_le, fun count => ?_⟩
    rcases run_copyChain count h hmetadata hm hold with
      ⟨w', hr⟩ | ⟨us, w', hr, hlength, hf, hus, hkept⟩ <;> rw [hr]
    refine ⟨hlength, (hkept a bs hold).read h.size_le, fun u hu => ?_⟩
    obtain ⟨b, rfl, hb⟩ := hus u hu
    exact ⟨(hf ▸ h).tag_of_holds hmetadata hb hbs small, hb.read h.size_le⟩

theorem of_makeCase {name : String} {c : EnumCase} {payload : Option Value} {v : Value}
    (hcase : t.case? name = some c) (h : (t.makeCase name payload).run w = (.ok v, w')) :
    w' = w ∧ v = .ofCase t.core c.tag payload := by
  obtain ⟨entry, hentry, rfl⟩ := Option.map_eq_some_iff.1 hcase
  unfold makeCase at h
  rcases hv : t.caseOf name payload with e | value <;> rw [hv] at h
  · cases h
  · cases h
    refine ⟨rfl, ?_⟩
    unfold caseOf requireEntry at hv
    rw [hentry] at hv
    simp only [ValueType.require, bind, Except.bind] at hv
    split at hv <;> cases hv
    rfl

/-- The value of a case, once it has got its place, keeps its tag: as it is, seen in memory, and in
copies of copies however many. If the functions that build the payload write only to the buffers
that they are called on, then its own buffer is made of what was copied of the payload, of zeros,
and of the tag in its byte. -/
theorem case_survives {name : String} {c : EnumCase} {payload : Option Value} {n : Nat}
    {v v' : Value} {w₀ : World} (clear : w.memory.HeapFrom origin)
    (uses : w.functions.UsesHeap origin) (tagged : t.core.ByteTagged w.functions table e k)
    (found : t.case? name = some c) (small : c.tag.toNat < 256)
    (copies : ∀ p ∈ payload, p.CopiesBytes w.functions n)
    (made : (t.makeCase name payload).run w = (.ok v, w₀))
    (placed : Value.address.runOn v w₀ = ((.ok a, v'), w')) :
    t.Survives table.layout c.tag v' a w' ∧
      ((∀ p ∈ payload, p.BuildsInPlace w.functions) →
        ∃ b w₁ cs, t.core.allocateEnum.run w = (.ok b, w₁) ∧
          Value.PayloadBytes n cs w₁ payload ∧ cs.length ≤ table.layout.stride.toNat ∧
          w'.memory.read a table.layout.stride.toNat =
            .ok ((cs ++ List.replicate (table.layout.stride.toNat - cs.length) 0).set k.toNat
              c.tag.toUInt8)) := by
  obtain ⟨rfl, rfl⟩ := of_makeCase found made
  obtain ⟨b, w₁, w₂, payload', bytes, hb, rfl, hput, rfl, hsize, hbytes, hbytes', hm', hf,
    metadata, hmetadata⟩ := tagged.of_settle uses clear placed
  have hall : (overlay bytes k.toNat [c.tag.toUInt8]).size = table.layout.stride.toNat := by
    rw [size_overlay, hsize]
  constructor
  · refine survives_of_holds (hf ▸ tagged) hmetadata hm' ⟨_, hbytes', hall, rfl⟩ ?_ small
    have hlt := tagged.lt_size
    have hbound : k.toNat < bytes.toList.length := by
      have := tagged.size_le
      rw [Array.length_toList]
      omega
    rw [Array.toList_extract, toList_overlay_singleton, List.extract, List.drop_zero, Nat.sub_zero,
      List.getElem?_take_of_lt hlt, List.getElem?_set_self hbound]
  · intro hbuilds
    obtain ⟨hblock, haddress, -, hm₁, hf₁⟩ := ValueType.hasBlock_allocateEnum hb clear
    rw [tagged.bufferSize] at hblock
    rw [← hf₁] at uses copies hbuilds
    obtain ⟨cs, hcs, hlength, hblock₂⟩ := hput.hasBlock hblock uses hm₁ (haddress ▸ clear.le)
      fun p hp => ⟨copies p hp, hbuilds p hp⟩
    rw [Array.size_replicate] at hlength
    -- the block that the tag was written to is the one with the payload in it
    have hsame : bytes = overlay (Array.replicate table.layout.stride.toNat 0) 0 cs :=
      congrArg Region.bytes (RegionMap.eq_of_base_eq hbytes.mem hblock₂.mem rfl)
    refine ⟨b, w₁, cs, hb, hcs, hlength, ?_⟩
    rw [hbytes'.read (Nat.le_of_eq hall.symm), ← hall, Array.extract_size, toList_overlay_singleton,
      hsame, toList_overlay_replicate hlength, size_overlay, size_overlay, Array.size_replicate]

/-! ### A payload that is itself an enum value without a place -/

/-- An enum with its functions at these addresses. -/
def taggedType (copy get inject : Address) (size : UInt64) : ValueType :=
  let type := Value.enumOf copy inject ⟨0x500⟩ size
  { type with
    witnesses := type.witnesses.map fun table =>
      { table with enumWitnesses := some ⟨get, .null, inject⟩ } }

/-- An enum of 16 bytes with the tag in the ninth. -/
def optional : EnumType where
  core := taggedType ⟨0x100⟩ ⟨0x120⟩ ⟨0x110⟩ 16
  entries := [⟨⟨"none", 0, .empty, none⟩, .tagged 0⟩, ⟨⟨"some", 1, .payload, none⟩, .tagged 1⟩]

/-- A case without a payload of an enum of one byte. -/
def small : Value := .ofCase (taggedType ⟨0x130⟩ .null ⟨0x140⟩ 1) 1 none

/-- A process with the functions for the two, of which the last writes the tag of the small one, at
`offset`. -/
def worldAt (offset : UInt64) : World where
  memory := .empty Memory.defaultHeapBase
  functions := ⟨⟨0x100⟩, #[StandIn.copyBytes 16, StandIn.setByteTag 8, StandIn.byteTag 8,
    StandIn.copyBytes 1, StandIn.setByteTag offset]⟩

theorem heapFrom_worldAt (offset : UInt64) :
    (worldAt offset).memory.HeapFrom Memory.defaultHeapBase.val :=
  ⟨Nat.le_refl _, nofun⟩

theorem usesHeap_worldAt (offset : UInt64) :
    (worldAt offset).functions.UsesHeap Memory.defaultHeapBase.val := by
  intro f hf c m
  simp only [worldAt, List.mem_toArray, List.mem_cons, List.not_mem_nil, or_false] at hf
  rcases hf with rfl | rfl | rfl | rfl | rfl
  · exact (StandIn.writesAt_copyBytes _).reaches c m
  · exact (StandIn.writesAt_setByteTag _).reaches c m
  · exact (StandIn.writesAt_byteTag _ 0).reaches c m
  · exact (StandIn.writesAt_copyBytes _).reaches c m
  · exact (StandIn.writesAt_setByteTag _).reaches c m

theorem copiesBytes_small (offset : UInt64) : small.CopiesBytes (worldAt offset).functions 1 :=
  ⟨_, rfl, (worldAt offset).functions.lookup?_addressOf (i := 3) (by decide)⟩

theorem byteTagged_optional (offset : UInt64) :
    ∃ table e, optional.core.ByteTagged (worldAt offset).functions table e 8 ∧
      table.layout = ⟨16, 16, ⟨0⟩, 0⟩ :=
  ⟨_, _, {
    witnesses := rfl
    enumWitnesses := rfl
    inject := (worldAt offset).functions.lookup?_addressOf (i := 1) (by decide)
    get := (worldAt offset).functions.lookup?_addressOf (i := 2) (by decide)
    copy := (worldAt offset).functions.lookup?_addressOf (i := 0) (by decide)
    lt_size := by decide
    size_le := by decide }, rfl⟩

theorem buildsInPlace_small : small.BuildsInPlace (worldAt 0).functions := by
  intro a c f hc hf
  obtain ⟨table, e, metadata, htable, he, -, rfl⟩ := BuildStep.call?_inject_eq_some_iff.1 hc
  cases htable
  cases he
  cases ((worldAt 0).functions.lookup?_addressOf (i := 4) (by decide)).symm.trans hf
  exact (StandIn.writesAt_setByteTag 0).writesWithin (by decide)

/-- Both get a place, the outer one first. -/
theorem runOn_address_worldAt (offset : UInt64) (bytes : List UInt8)
    (h : (match (Value.ofCase optional.core 1 (some small)).settle (worldAt offset) with
      | ((.ok a, _), w') => decide (a = ⟨0x60000000⟩ ∧ w'.memory.read a 16 = .ok bytes)
      | ((.error _, _), _) => false) = true) :
    ∃ v' w', Value.address.runOn (.ofCase optional.core 1 (some small)) (worldAt offset)
        = ((.ok ⟨0x60000000⟩, v'), w') ∧ w'.memory.read ⟨0x60000000⟩ 16 = .ok bytes := by
  rw [Value.runOn_address]
  rcases hs : (Value.ofCase optional.core 1 (some small)).settle (worldAt offset) with
    ⟨⟨e | a, v'⟩, w'⟩ <;> rw [hs] at h
  · cases h
  · obtain ⟨rfl, hread⟩ := of_decide_eq_true h
    exact ⟨v', w', rfl, hread⟩

/-- The value `some small`, with `small` built in place. -/
theorem case_survives_nested :
    ∃ v' w', (worldAt 0).memory.HeapFrom Memory.defaultHeapBase.val ∧
      (worldAt 0).functions.UsesHeap Memory.defaultHeapBase.val ∧
      small.CopiesBytes (worldAt 0).functions 1 ∧ small.BuildsInPlace (worldAt 0).functions ∧
      (optional.makeCase "some" (some small)).run (worldAt 0)
        = (.ok (.ofCase optional.core 1 (some small)), worldAt 0) ∧
      Value.address.runOn (.ofCase optional.core 1 (some small)) (worldAt 0)
        = ((.ok ⟨0x60000000⟩, v'), w') ∧
      optional.Survives ⟨16, 16, ⟨0⟩, 0⟩ 1 v' ⟨0x60000000⟩ w' ∧
      ∃ cs : List UInt8, cs.length ≤ 16 ∧ w'.memory.read ⟨0x60000000⟩ 16 =
        .ok ((cs ++ List.replicate (16 - cs.length) 0).set 8 1) := by
  obtain ⟨v', w', placed, -⟩ := runOn_address_worldAt 0
    [1, 0, 0, 0, 0, 0, 0, 0, 1, 0, 0, 0, 0, 0, 0, 0] (by decide +kernel)
  obtain ⟨table, e, tagged, hlayout⟩ := byteTagged_optional 0
  have found : optional.case? "some" = some ⟨"some", 1, .payload, none⟩ := rfl
  have made : (optional.makeCase "some" (some small)).run (worldAt 0)
      = (.ok (.ofCase optional.core 1 (some small)), worldAt 0) := rfl
  have copies : ∀ p ∈ some small, p.CopiesBytes (worldAt 0).functions 1 :=
    fun p hp => Option.some.inj hp ▸ copiesBytes_small 0
  have builds : ∀ p ∈ some small, p.BuildsInPlace (worldAt 0).functions :=
    fun p hp => Option.some.inj hp ▸ buildsInPlace_small
  obtain ⟨hsurvives, hbytes⟩ := case_survives (heapFrom_worldAt 0) (usesHeap_worldAt 0) tagged found
    (by decide) copies made placed
  obtain ⟨b, w₁, cs, -, -, hlength, hread⟩ := hbytes builds
  rw [hlayout] at hsurvives hlength hread
  exact ⟨v', w', heapFrom_worldAt 0, usesHeap_worldAt 0, copiesBytes_small 0, buildsInPlace_small,
    made, placed, hsurvives, cs, hlength, hread⟩

/-- If the tag of `small` is written one byte in front of its buffer, it ends up in the last byte of
the outer value, behind the tag. -/
theorem not_case_survives :
    ¬∀ (t : EnumType) (w w₀ w' : World) (origin : UInt64) (table : WitnessTable) (e : EnumWitnesses)
      (k : UInt64) (name : String) (c : EnumCase) (payload : Option Value) (n : Nat)
      (v v' : Value) (a : Address), w.memory.HeapFrom origin → w.functions.UsesHeap origin →
      t.core.ByteTagged w.functions table e k → t.case? name = some c → c.tag.toNat < 256 →
      (∀ p ∈ payload, p.CopiesBytes w.functions n) →
      (t.makeCase name payload).run w = (.ok v, w₀) →
      Value.address.runOn v w₀ = ((.ok a, v'), w') →
      t.Survives table.layout c.tag v' a w' ∧
        ∃ b w₁ cs, t.core.allocateEnum.run w = (.ok b, w₁) ∧
          Value.PayloadBytes n cs w₁ payload ∧
          w'.memory.read a table.layout.stride.toNat =
            .ok ((cs ++ List.replicate (table.layout.stride.toNat - cs.length) 0).set k.toNat
              c.tag.toUInt8) := by
  intro h
  obtain ⟨v', w', placed, hread⟩ := runOn_address_worldAt 0xffffffffffffffff
    [0, 0, 0, 0, 0, 0, 0, 0, 1, 0, 0, 0, 0, 0, 0, 1] (by decide +kernel)
  obtain ⟨table, e, tagged, hlayout⟩ := byteTagged_optional 0xffffffffffffffff
  obtain ⟨-, b, w₁, cs, -, ⟨source, p', w₂, -, hcopied⟩, hclaim⟩ := h optional _ _ w' _ table e 8
    "some" ⟨"some", 1, .payload, none⟩ (some small) 1 _ v' _ (heapFrom_worldAt _)
    (usesHeap_worldAt _) tagged rfl (by decide)
    (fun p hp => Option.some.inj hp ▸ copiesBytes_small _) rfl placed
  obtain ⟨x, rfl⟩ := List.length_eq_one_iff.1 (Memory.length_of_read hcopied)
  rw [hlayout] at hclaim
  have hsame := Except.ok.inj (hread.symm.trans hclaim)
  simp at hsame

end EnumType

end TypeMetadata
