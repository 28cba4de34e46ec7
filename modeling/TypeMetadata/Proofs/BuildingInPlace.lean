import TypeMetadata.Proofs.HeapBlocks
import TypeMetadata.Proofs.Materialization

/-!
# What building a value does to memory

The steps that give a value its place are calls, so memory is afterwards what functions of the
target can make of it (`Value.reaches_settle`). That is all if nothing is known of the functions. If
each writes only to the buffer of the level that it is called for (`Value.BuildsInPlace`), then all
that was mapped before is as it was (`Value.keeps_settle`), by an induction on the levels.
-/

namespace TypeMetadata

variable {w w' : World} {origin : UInt64}

theorem World.invoke_of_lookup {c : Call} {f : NativeFunction}
    (h : w.functions.lookup? c.function = some f) :
    w.invoke c =
      ((f c w.memory).1, { w with memory := (f c w.memory).2, calls := c :: w.calls }) := by
  unfold World.invoke FunctionTable.invoke
  rw [h]

theorem World.invoke_of_lookup_none {c : Call} (h : w.functions.lookup? c.function = none) :
    w.invoke c = (.error (.notCallable c.function), { w with calls := c :: w.calls }) := by
  unfold World.invoke FunctionTable.invoke
  rw [h]

theorem World.reaches_invoke (h : w.functions.UsesHeap origin) (c : Call) :
    w.memory.Reaches origin (w.invoke c).2.memory := by
  rcases hf : w.functions.lookup? c.function with _ | f
  · rw [World.invoke_of_lookup_none hf]
    exact .refl
  · rw [World.invoke_of_lookup hf]
    exact h f (FunctionTable.mem_of_lookup? hf) c w.memory

theorem Memory.of_writePointer {m m' : Memory} {a target : Address}
    (h : m.writePointer a target = .ok m') : m.write a (bytesOf64 target.val) = .ok m' := by
  unfold writePointer writeU64 at h
  rcases ha : checkAligned a 8 with e | u <;> rw [ha] at h
  · cases h
  · exact h

namespace BuildStep

/-- Where a step writes. -/
def dest : BuildStep → Address
  | copy _ dest _ | store dest _ | inject _ dest _ => dest

theorem call?_copy_eq_some_iff {type : ValueType} {dest source : Address} {c : Call} :
    (copy type dest source).call? = some c ↔ ∃ table metadata, type.witnesses = some table ∧
      type.info.metadata = some metadata ∧
      c = ⟨table.initializeWithCopy, [dest.val, source.val, metadata.val], none⟩ := by
  simp only [call?, Option.bind_eq_bind, Option.bind_eq_some_iff, Option.pure_def,
    Option.some.injEq]
  constructor
  · rintro ⟨table, htable, metadata, hmetadata, rfl⟩
    exact ⟨table, metadata, htable, hmetadata, rfl⟩
  · rintro ⟨table, metadata, htable, hmetadata, rfl⟩
    exact ⟨table, htable, metadata, hmetadata, rfl⟩

theorem call?_inject_eq_some_iff {type : ValueType} {dest : Address} {tag : UInt32} {c : Call} :
    (inject type dest tag).call? = some c ↔ ∃ table e metadata, type.witnesses = some table ∧
      table.enumWitnesses = some e ∧ type.info.metadata = some metadata ∧
      c = ⟨e.injectTag, [dest.val, tag.toUInt64, metadata.val], none⟩ := by
  simp only [call?, Option.bind_eq_bind, Option.bind_eq_some_iff, Option.pure_def,
    Option.some.injEq]
  constructor
  · rintro ⟨table, htable, e, he, metadata, hmetadata, rfl⟩
    exact ⟨table, e, metadata, htable, he, hmetadata, rfl⟩
  · rintro ⟨table, e, metadata, htable, he, hmetadata, rfl⟩
    exact ⟨table, htable, e, he, metadata, hmetadata, rfl⟩

theorem args_of_call? {s : BuildStep} {c : Call} (h : s.call? = some c) :
    ∃ rest, c.args = s.dest.val :: rest := by
  cases s with
  | store => cases h
  | copy type dest source =>
    obtain ⟨table, metadata, -, -, rfl⟩ := call?_copy_eq_some_iff.1 h
    exact ⟨_, rfl⟩
  | inject type dest tag =>
    obtain ⟨table, e, metadata, -, -, -, rfl⟩ := call?_inject_eq_some_iff.1 h
    exact ⟨_, rfl⟩

/-- A step that goes through and stores no pointer is a call that goes through. -/
theorem of_perform_ok {s : BuildStep} (h : s.perform.run w = (.ok (), w'))
    (hs : s.isStore = false) : ∃ c x, s.call? = some c ∧ w.invoke c = (.ok x, w') := by
  rcases hc : s.call? with _ | c
  · rcases run_perform_of_no_call hc w with ⟨dest, pointer, memory, rfl, -, -⟩ | ⟨e, hr⟩
    · cases hs
    · rw [hr] at h
      cases h
  · rw [run_perform_of_call hc] at h
    rcases hi : w.invoke c with ⟨e | x, w₁⟩ <;> rw [hi] at h
    · cases h
    · cases h
      exact ⟨c, x, rfl, hi⟩

theorem reaches_perform (s : BuildStep) (h : w.functions.UsesHeap origin) :
    w.memory.Reaches origin (s.perform.run w).2.memory := by
  rcases hc : s.call? with _ | c
  · rcases run_perform_of_no_call hc w with ⟨dest, pointer, memory, -, hm, hr⟩ | ⟨e, hr⟩ <;> rw [hr]
    · exact .of_write (Memory.of_writePointer hm)
    · exact .refl
  · rw [run_perform_of_call hc]
    exact World.reaches_invoke h c

theorem reaches_performAll {ss : List BuildStep} (h : w.functions.UsesHeap origin)
    (hr : (performAll ss).run w = (.ok (), w')) :
    w.memory.Reaches origin w'.memory ∧ w'.functions = w.functions := by
  induction ss generalizing w with
  | nil =>
    cases hr
    exact ⟨.refl, rfl⟩
  | cons s ss ih =>
    have hs := s.reaches_perform h
    have hf := s.functions_perform w
    rw [run_performAll_cons] at hr
    rcases hp : s.perform.run w with ⟨e | a, w₁⟩ <;> rw [hp] at hr hs hf
    · cases hr
    · obtain ⟨hreaches, hfunctions⟩ := ih (hf ▸ h) hr
      exact ⟨hs.trans hreaches, hfunctions.trans hf⟩

end BuildStep

theorem toNat_max_one (n : UInt64) : (max n 1).toNat = max n.toNat 1 := by
  have hmax : max n 1 = if n ≤ 1 then 1 else n := rfl
  have hone : (1 : UInt64).toNat = 1 := rfl
  rw [hmax]
  split <;> rw [UInt64.le_iff_toNat_le] at * <;> omega

namespace ValueType

/-- How many bytes a new buffer for a value has. -/
def bufferSize (t : ValueType) : Nat := max (t.layout.elim 0 fun l => l.stride.toNat) 1

/-- A buffer is a new block of the heap, and nothing else has changed. -/
theorem of_allocateEnum {t : ValueType} {b : Buffer} (h : t.allocateEnum.run w = (.ok b, w')) :
    ∃ size memory, max size.toNat 1 = t.bufferSize ∧
      w.memory.allocate size = .ok (b.address, memory) ∧ w' = { w with memory } := by
  obtain ⟨⟨_, _, _, _, metadata, _⟩, witnesses⟩ := t
  rcases witnesses with _ | ⟨_, _, _, _, _, _, _, _, _, layout, enumWitnesses⟩
  · cases h
  rcases enumWitnesses with _ | enumWitnesses
  · cases h
  rcases metadata with _ | metadata
  · cases h
  have hrun := Buffer.run_allocate layout.stride w
  rcases ha : w.memory.allocate (max layout.stride 1) with e | ⟨a, memory⟩ <;> rw [ha] at hrun
  · cases hrun.symm.trans h
  · cases hrun.symm.trans h
    refine ⟨_, memory, ?_, ha, rfl⟩
    change max (max layout.stride 1).toNat 1 = max layout.stride.toNat 1
    rw [toNat_max_one, Nat.max_assoc, Nat.max_self]

theorem hasBlock_allocateEnum {t : ValueType} {b : Buffer}
    (h : t.allocateEnum.run w = (.ok b, w')) (hm : w.memory.HeapFrom origin) :
    w'.memory.HasBlock b.address (Array.replicate t.bufferSize 0) ∧
      b.address.toNat = w.memory.next.toNat ∧ w.memory.KeepsOthers b.address w'.memory ∧
      w'.memory.HeapFrom origin ∧ w'.functions = w.functions := by
  obtain ⟨size, memory, hsize, ha, rfl⟩ := of_allocateEnum h
  have hreaches : w.memory.Reaches origin memory := .of_allocate ha
  refine ⟨hsize ▸ Memory.hasBlock_allocate hm.clear ha, ?_, Memory.keepsOthers_allocate ha,
    hreaches.heapFrom hm, rfl⟩
  exact congrArg Address.toNat (Memory.allocate_next ha).1

theorem reaches_allocateEnums {types : List ValueType} {bs : List Buffer}
    (h : (types.mapM allocateEnum).run w = (.ok bs, w')) :
    w.memory.Reaches origin w'.memory := by
  induction types generalizing bs w with
  | nil =>
    rw [List.mapM_nil] at h
    cases h
    exact .refl
  | cons t types ih =>
    rw [List.mapM_cons] at h
    obtain ⟨b, w₁, hb, h⟩ := Inspect.run_bind_ok h
    obtain ⟨bs, w₂, hbs, h⟩ := Inspect.run_bind_ok h
    cases h
    obtain ⟨size, memory, -, ha, rfl⟩ := of_allocateEnum hb
    exact (Memory.Reaches.of_allocate ha).trans (ih hbs)

end ValueType

namespace Value

theorem reaches_settle {v v' : Value} {a : Address} (hw : w.functions.UsesHeap origin)
    (h : v.settle w = ((.ok a, v'), w')) :
    w.memory.Reaches origin w'.memory ∧ w'.functions = w.functions := by
  have hattempt := settle_attempt v w
  rw [h] at hattempt
  cases hattempt with
  | built room performed =>
    have hroom : w.memory.Reaches origin _ := ValueType.reaches_allocateEnums room
    obtain ⟨⟨memory, rfl⟩, -⟩ := ValueType.of_mapM_allocateEnum room
    obtain ⟨hreaches, hfunctions⟩ :=
      BuildStep.reaches_performAll (w := { w with memory }) hw performed
    exact ⟨hroom.trans hreaches, hfunctions⟩

/-- Its witness copies it however it has got its place. -/
theorem copyStep_settle {v v' : Value} {a : Address} (h : v.settle w = ((.ok a, v'), w')) :
    v'.copyStep = v.copyStep := by
  have hattempt := settle_attempt v w
  rw [h] at hattempt
  cases hattempt with
  | built => exact copyStep_filled _ _

theorem dest_copyStep (v : Value) (source dest : Address) :
    (v.copyStep source dest).dest = dest := by
  cases v <;> rfl

/-- From `w` to `w'` the payload of a case, if it has one, has got its place and has been put at
`a`. -/
inductive PutAt (a : Address) : Option Value → World → World → Prop
  | none {w : World} : PutAt a none w w
  | some {p p' : Value} {source : Address} {w w₁ w' : World}
    (settled : p.settle w = ((.ok source, p'), w₁))
    (copied : (p.copyStep source a).perform.run w₁ = (.ok (), w')) : PutAt a (some p) w w'

/-- The value of a case gets its place in three parts: a buffer, the payload in it, and the tag. -/
theorem of_settle_ofCase {type : ValueType} {tag : UInt32} {payload : Option Value} {v' : Value}
    {a : Address} (h : (ofCase type tag payload).settle w = ((.ok a, v'), w')) :
    ∃ b w₀ w₁ payload', type.allocateEnum.run w = (.ok b, w₀) ∧ b.address = a ∧
      PutAt a payload w₀ w₁ ∧ (type.injectTag a tag).run w₁ = (.ok (), w') ∧
      v' = .enum type (.complete tag b) payload' := by
  unfold ofCase at h
  cases payload with
  | none =>
    rw [run_settle_none] at h
    rcases hb : type.allocateEnum.run w with ⟨e | b, w₀⟩ <;> rw [hb] at h
    · cases h
    · simp only at h
      rcases ht : (type.injectTag b.address tag).run w₀ with ⟨e | _, w₁⟩ <;> rw [ht] at h
      · cases h
      · cases h
        exact ⟨b, w₀, w₀, none, rfl, rfl, .none, ht, rfl⟩
  | some p =>
    rw [run_settle_some] at h
    rcases hb : type.allocateEnum.run w with ⟨e | b, w₀⟩ <;> rw [hb] at h
    · cases h
    · rcases hs : p.settle w₀ with ⟨⟨e | source, p'⟩, w₂⟩ <;> simp only [hs] at h
      · cases h
      · rw [run_placeIn_ok, copyStep_settle hs] at h
        rcases hc : (p.copyStep source b.address).perform.run w₂ with ⟨e | _, w₁⟩ <;>
          simp only [hc] at h
        · cases h
        · rcases ht : (type.injectTag b.address tag).run w₁ with ⟨e | _, w₃⟩ <;> rw [ht] at h
          · cases h
          · cases h
            exact ⟨b, w₀, w₁, some p', rfl, rfl, .some hs hc, ht, rfl⟩

theorem PutAt.reaches {a : Address} {payload : Option Value} (h : PutAt a payload w w')
    (hw : w.functions.UsesHeap origin) :
    w.memory.Reaches origin w'.memory ∧ w'.functions = w.functions := by
  cases h with
  | none => exact ⟨.refl, rfl⟩
  | @some p _ source _ w₁ _ settled copied =>
    obtain ⟨hreaches, hfunctions⟩ := reaches_settle hw settled
    have hcopied := (p.copyStep source a).reaches_perform (hfunctions ▸ hw)
    have hkept := (p.copyStep source a).functions_perform w₁
    rw [copied] at hcopied hkept
    exact ⟨hreaches.trans hcopied, hkept.trans hfunctions⟩

end Value

/-! ## Values that are built in place -/

/-- If the step makes a call, then of a function that leaves everything but a block of `size` bytes
alone. -/
def BuildStep.WritesWithin (s : BuildStep) (functions : FunctionTable) (size : Nat) : Prop :=
  ∀ c f, s.call? = some c → functions.lookup? c.function = some f → f.WritesWithin size

theorem BuildStep.keepsOthers_perform {s : BuildStep} {size : Nat} {a : Address}
    (hs : s.WritesWithin w.functions size) (hm : w.memory.Reserves a size) (ha : s.dest = a) :
    w.memory.KeepsOthers a (s.perform.run w).2.memory := by
  subst ha
  rcases hc : s.call? with _ | c
  · rcases run_perform_of_no_call hc w with ⟨dest, pointer, memory, rfl, hwrite, hr⟩ | ⟨e, hr⟩ <;>
      rw [hr]
    · have := hm.pos
      exact hm.keepsOthers (Nat.le_refl _) (by omega) (Memory.of_writePointer hwrite)
    · exact fun _ hr _ => hr
  · rw [run_perform_of_call hc]
    rcases hf : w.functions.lookup? c.function with _ | f
    · rw [World.invoke_of_lookup_none hf]
      exact fun _ hr _ => hr
    · rw [World.invoke_of_lookup hf]
      obtain ⟨rest, hargs⟩ := args_of_call? hc
      exact hs c f hc hf c w.memory s.dest.val rest hargs hm

namespace Value

/-- The functions that build the pending levels of a value write only to the buffer of the level. -/
def BuildsInPlace (functions : FunctionTable) : Value → Prop
  | enum type (.tagged tag) none =>
    ∀ a, (BuildStep.inject type a tag).WritesWithin functions type.bufferSize
  | enum type (.tagged tag) (some inner) =>
    inner.BuildsInPlace functions ∧
      (∀ source a, (inner.copyStep source a).WritesWithin functions type.bufferSize) ∧
      ∀ a, (BuildStep.inject type a tag).WritesWithin functions type.bufferSize
  | _ => True
termination_by structural v => v

/-- All that was there before a value of a case got its place is as it was, if the payload leaves it
so that is put in the buffer. -/
theorem keeps_settle_ofCase {type : ValueType} {tag : UInt32} {payload : Option Value} {v' : Value}
    {a : Address} (hw : w.functions.UsesHeap origin) (hm : w.memory.HeapFrom origin)
    (hinject : ∀ a, (BuildStep.inject type a tag).WritesWithin w.functions type.bufferSize)
    (hpayload : ∀ {w₀ w₁ : World}, w₀.functions = w.functions → w₀.memory.HeapFrom origin →
      w₀.memory.Reserves a type.bufferSize → origin.toNat ≤ a.toNat → PutAt a payload w₀ w₁ →
      ∀ r ∈ w₀.memory.regions.entries, r.base.toNat < w₀.memory.next.toNat → r.base ≠ a →
        r ∈ w₁.memory.regions.entries)
    (h : (ofCase type tag payload).settle w = ((.ok a, v'), w')) :
    ∀ r ∈ w.memory.regions.entries, r.base.toNat < w.memory.next.toNat →
      r ∈ w'.memory.regions.entries := by
  intro r hr hlt
  obtain ⟨b, w₀, w₁, -, hb, rfl, hput, ht, -⟩ := of_settle_ofCase h
  obtain ⟨hblock, haddress, hkept, hm₀, hfunctions⟩ := ValueType.hasBlock_allocateEnum hb hm
  have hne : r.base ≠ b.address := fun hbase => by rw [hbase] at hlt; omega
  have horigin : origin.toNat ≤ b.address.toNat := haddress ▸ hm.le
  have hreserves := hblock.reserves
  rw [Array.size_replicate] at hreserves
  have hlt₀ : r.base.toNat < w₀.memory.next.toNat := by
    have := hreserves.le
    omega
  obtain ⟨hreaches, hfunctions₁⟩ := hput.reaches (hfunctions ▸ hw)
  rw [← hfunctions, ← hfunctions₁] at hinject
  have hr₁ := hpayload hfunctions hm₀ hreserves horigin hput r (hkept r hr hne) hlt₀ hne
  have htag := BuildStep.keepsOthers_perform (hinject b.address)
    (hreserves.reaches hreaches horigin) rfl
  rw [BuildStep.perform, ht] at htag
  exact htag r hr₁ hne

/-- Then nothing that was there before is touched. -/
theorem keeps_settle : ∀ (v : Value) {w w' : World} {v' : Value} {a : Address},
    v.BuildsInPlace w.functions → w.functions.UsesHeap origin → w.memory.HeapFrom origin →
    v.settle w = ((.ok a, v'), w') → ∀ r ∈ w.memory.regions.entries,
      r.base.toNat < w.memory.next.toNat → r ∈ w'.memory.regions.entries
  | struct _ _, _, _, _, _, _, _, _, h, r, hr, _ => by
    cases h
    exact hr
  | object _, _, _, _, _, _, _, _, h, r, hr, _ => by
    cases h
    exact hr
  | enum _ (.stored _) _, _, _, _, _, _, _, _, h, r, hr, _ => by
    rw [settle_of_pending rfl] at h
    cases h
    exact hr
  | enum _ (.complete _ _) _, _, _, _, _, _, _, _, h, r, hr, _ => by
    rw [settle_of_pending rfl] at h
    cases h
    exact hr
  | enum _ (.tagged _) none, _, _, _, _, hv, hw, hm, h, r, hr, hlt => by
    refine keeps_settle_ofCase hw hm hv ?_ h r hr hlt
    intro w₀ w₁ _ _ _ _ hput r hr _ _
    cases hput
    exact hr
  | enum _ (.tagged _) (some inner), w, _, _, a, hv, hw, hm, h, r, hr, hlt => by
    obtain ⟨hinner, hcopy, hinject⟩ := hv
    refine keeps_settle_ofCase hw hm hinject ?_ h r hr hlt
    intro w₀ w₁ hfunctions hm₀ hreserves horigin hput r hr hlt hne
    rw [← hfunctions] at hw hinner hcopy
    cases hput with
    | @some _ _ source _ w₂ _ settled copied =>
      -- the blocks of the payload come after the buffer that it is copied to
      obtain ⟨hreaches, hfunctions₂⟩ := reaches_settle hw settled
      have hr₂ := keeps_settle inner hinner hw hm₀ settled r hr hlt
      have hcopied := BuildStep.keepsOthers_perform (hfunctions₂ ▸ hcopy source a)
        (hreserves.reaches hreaches horigin) (inner.dest_copyStep _ _)
      rw [copied] at hcopied
      exact hcopied r hr₂ hne

end Value

end TypeMetadata
