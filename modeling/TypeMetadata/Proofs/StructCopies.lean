import TypeMetadata.Emit.Metadata
import TypeMetadata.Emit.Nominal
import TypeMetadata.Proofs.EnumCopies
import TypeMetadata.Proofs.InitializerCalls
import TypeMetadata.Reflection.Struct

/-!
# Copies of struct values

A struct whose copy witness copies bytes. A copy goes to a new block of the heap, which is apart
from all that is mapped as long as the heap has not grown into a region, so nothing but the block
changes (`Memory.SameApartFrom`), neither when it is filled nor when it is given up. That a write to
one of two ranges leaves what is read in the other needs no such care: it is so in every memory
(`Memory.read_of_write_apart`). `StructType.run_copyOf` writes a request for a copy out, and
`StructType.copiesWell_of_read` is what comes of it and of copies of copies.
-/

namespace TypeMetadata

/-! ## What stays the same -/

namespace Memory

variable {m m' m'' : Memory} {a b : Address} {n k size limit : Nat} {bs : List UInt8}

/-- The first of the bytes that can be read can be read alone. -/
theorem read_take (hread : m.read a n = .ok bs) (hk : k ≤ n) : m.read a k = .ok (bs.take k) := by
  obtain ⟨r, hr, hs, rfl⟩ := of_read_ok hread
  have hs' : r.Spans a k := ⟨hs.1, Nat.le_trans (Nat.add_le_add_left hk _) hs.2⟩
  rw [read_of_spans hr hs']
  congr 1
  apply List.ext_getElem?
  intro i
  rw [List.getElem?_take, Region.getElem?_slice hs', Region.getElem?_slice hs]
  split
  · rw [if_pos (by omega)]
  · rfl

/-- None of the `n` bytes at `a` is one of the `k` bytes at `b`. -/
def Apart (a : Address) (n : Nat) (b : Address) (k : Nat) : Prop :=
  a.toNat + n ≤ b.toNat ∨ b.toNat + k ≤ a.toNat

theorem overlaid_of_apart {patch : List UInt8} (h : Apart b bs.length a patch.length) :
    overlaid bs b patch a = bs := by
  apply List.ext_getElem?
  intro k
  rw [overlaid, List.getElem?_mapIdx]
  rcases hk : bs[k]? with _ | x
  · rfl
  have hlt : k < bs.length := (List.getElem?_eq_some_iff.1 hk).1
  rw [Option.map_some]
  split
  · have hlength : patch.length ≤ b.toNat + k - a.toNat := by
      unfold Apart at h
      omega
    rw [List.getD_eq_getElem?_getD, List.getElem?_eq_none hlength, Option.getD_none]
  · rfl

/-- A write changes nothing apart from it, however the regions lie. -/
theorem read_of_write_apart (hwrite : m.write a bs = .ok m') (h : Apart b n a bs.length) :
    m'.read b n = m.read b n := by
  obtain ⟨r, hr, hs, rfl⟩ := of_write_ok hwrite
  have hmem := (RegionMap.below?_eq_some_iff.1 hr).1
  have hbelow := below?_map_of_mem (b := b) hmem (r.patched a bs).bytes
  rcases hb : m.regions.below? b with _ | s <;> rw [hb] at hbelow
  · rw [read_of_not_spans (by rw [hbelow]; nofun), read_of_not_spans (by rw [hb]; nofun)]
  · rw [Option.map_some] at hbelow
    split at hbelow
    · next hbase =>
      -- both are in one region, of which other bytes have changed
      have hsr : s = r :=
        RegionMap.eq_of_base_eq (RegionMap.below?_eq_some_iff.1 hb).1 hmem hbase
      subst hsr
      by_cases hspans : s.Spans b n
      · rw [read_of_spans hbelow (Region.spans_patched.2 hspans), read_of_spans hb hspans]
        change Except.ok ((s.patched a bs).slice b n) = _
        rw [Region.slice_patched hs hspans, overlaid_of_apart]
        rwa [Region.length_slice hspans]
      · rw [read_of_not_spans (m := m) fun t ht => ?_, read_of_not_spans fun t ht => ?_]
        · rw [hbelow] at ht
          cases ht
          exact mt Region.spans_patched.1 hspans
        · rw [hb] at ht
          cases ht
          exact hspans
    · exact read_congr fun t _ => by rw [hbelow, hb]

/-- The `n` bytes at `a` are among the `k` bytes at `b`. -/
def Among (a : Address) (n : Nat) (b : Address) (k : Nat) : Prop :=
  b.toNat ≤ a.toNat ∧ a.toNat + n ≤ b.toNat + k

/-- Whenever something is written among the `n` bytes at `a`, or among the `k` bytes at `b`, the
others are read as before. -/
def Independent (a : Address) (n : Nat) (b : Address) (k : Nat) : Prop :=
  ∀ (m m' : Memory) (x : Address) (xs : List UInt8), m.write x xs = .ok m' →
    (Among x xs.length a n → m'.read b k = m.read b k) ∧
      (Among x xs.length b k → m'.read a n = m.read a n)

theorem Apart.symm (h : Apart a n b k) : Apart b k a n := Or.symm h

theorem read_of_write_within {x : Address} (hwrite : m.write x bs = .ok m')
    (hx : Among x bs.length a n) (h : Apart a n b k) : m'.read b k = m.read b k := by
  refine read_of_write_apart hwrite ?_
  unfold Among at hx
  unfold Apart at *
  omega

theorem Apart.independent (h : Apart a n b k) : Independent a n b k :=
  fun _ _ _ _ hwrite =>
    ⟨fun hx => read_of_write_within hwrite hx h, fun hx => read_of_write_within hwrite hx h.symm⟩

/-- Apart from the `size` bytes at `a` the same can be read, and the same cannot. -/
def SameApartFrom (m : Memory) (a : Address) (size : Nat) (m' : Memory) : Prop :=
  ∀ b n, 0 < n → Apart b n a size → m'.read b n = m.read b n

theorem SameApartFrom.trans (h : m.SameApartFrom a size m') (h' : m'.SameApartFrom a size m'') :
    m.SameApartFrom a size m'' :=
  fun b n hn hb => (h' b n hn hb).trans (h b n hn hb)

theorem sameApartFrom_write (hwrite : m.write a bs = .ok m') (hle : bs.length ≤ size) :
    m.SameApartFrom a size m' := by
  intro b n _ hb
  refine read_of_write_apart hwrite ?_
  unfold Apart at *
  omega

namespace ClearUpTo

variable {blockSize : UInt64} {r : Region}

/-- No region has any of the bytes of the new block, of which there is one at least. -/
theorem finish_le_or (hm : m.ClearUpTo limit) (h : m.allocate blockSize = .ok (a, m'))
    (hlimit : m'.next.toNat ≤ limit) (hr : r ∈ m.regions.entries) :
    r.finish ≤ a.toNat ∨ a.toNat + max blockSize.toNat 1 ≤ r.base.toNat := by
  obtain ⟨rfl, hnext, -⟩ := allocate_next h
  have hclear := hm r hr
  have hlength := length_le_heapSpan blockSize
  have ha : (⟨m.next⟩ : Address).toNat = m.next.toNat := rfl
  omega

theorem apart_of_read (hm : m.ClearUpTo limit) (hread : m.read b n = .ok bs)
    (h : m.allocate blockSize = .ok (a, m')) (hlimit : m'.next.toNat ≤ limit) :
    Apart b n a blockSize.toNat := by
  obtain ⟨r, hr, hs, -⟩ := of_read_ok hread
  have hside := hm.finish_le_or h hlimit (RegionMap.below?_eq_some_iff.1 hr).1
  unfold Region.Spans at hs
  unfold Apart
  omega

theorem base_ne (hm : m.ClearUpTo limit) (h : m.allocate blockSize = .ok (a, m'))
    (hlimit : m'.next.toNat ≤ limit) (hr : r ∈ m.regions.entries) (hn : 0 < n)
    (hs : r.Spans b n) : r.base ≠ a := by
  rintro rfl
  have hside := hm.finish_le_or h hlimit hr
  unfold Region.Spans at hs
  omega

/-- Where the new block begins there is no nearer region than the one that has the bytes. -/
theorem le_base (hm : m.ClearUpTo limit) (h : m.allocate blockSize = .ok (a, m'))
    (hlimit : m'.next.toNat ≤ limit) (hr : r ∈ m.regions.entries) (hn : 0 < n)
    (hs : r.Spans b n) (hab : a ≤ b) : a ≤ r.base := by
  have hside := hm.finish_le_or h hlimit hr
  rw [Address.le_iff_toNat_le] at *
  unfold Region.Spans at hs
  omega

theorem sameApartFrom_allocate (hm : m.ClearUpTo limit)
    (h : m.allocate blockSize = .ok (a, m')) (hlimit : m'.next.toNat ≤ limit) :
    m.SameApartFrom a (max blockSize.toNat 1) m' := by
  intro b n hn hb
  have hmem : ∀ s, s ∈ m'.regions.entries ↔
      s = ⟨a, Array.replicate (max blockSize.toNat 1) 0⟩ ∨ s ∈ m.regions.entries ∧ s.base ≠ a := by
    intro s
    rw [allocate_regions h, RegionMap.mem_insert]
  refine read_congr fun r hs => ?_
  rw [RegionMap.below?_eq_some_iff, RegionMap.below?_eq_some_iff, hmem]
  constructor
  · rintro ⟨rfl | ⟨hr, -⟩, hle, hmax⟩
    · exfalso
      simp only [Region.Spans, Region.finish, Array.size_replicate] at hs
      unfold Apart at hb
      omega
    · refine ⟨hr, hle, fun s hs hsb => ?_⟩
      by_cases hsa : s.base = a
      · rw [hsa]
        exact hmax _ ((hmem _).2 (.inl rfl)) (hsa ▸ hsb)
      · exact hmax s ((hmem s).2 (.inr ⟨hs, hsa⟩)) hsb
  · rintro ⟨hr, hle, hmax⟩
    refine ⟨.inr ⟨hr, hm.base_ne h hlimit hr hn hs⟩, hle, fun s hs' hsb => ?_⟩
    rcases (hmem s).1 hs' with rfl | ⟨hs', -⟩
    · exact hm.le_base h hlimit hr hn hs hsb
    · exact hmax s hs' hsb

/-- A block that is given up leaves nothing behind. -/
theorem read_of_free (hm : m.ClearUpTo limit) (h : m.allocate blockSize = .ok (a, m'))
    (hlimit : m'.next.toNat ≤ limit) (hfree : m'.free a = .ok m'') (hn : 0 < n) :
    m''.read b n = m.read b n := by
  have hmem : ∀ s, s ∈ m''.regions.entries ↔ s ∈ m.regions.entries ∧ s.base ≠ a := by
    intro s
    rw [free_regions hfree, allocate_regions h, RegionMap.mem_erase, RegionMap.mem_insert]
    constructor
    · rintro ⟨rfl | hs, hne⟩
      · exact absurd rfl hne
      · exact hs
    · exact fun hs => ⟨.inr hs, hs.2⟩
  refine read_congr fun r hs => ?_
  rw [RegionMap.below?_eq_some_iff, RegionMap.below?_eq_some_iff, hmem]
  constructor
  · rintro ⟨⟨hr, -⟩, hle, hmax⟩
    refine ⟨hr, hle, fun s hs' hsb => ?_⟩
    by_cases hsa : s.base = a
    · rw [hsa] at hsb ⊢
      exact hm.le_base h hlimit hr hn hs hsb
    · exact hmax s ((hmem s).2 ⟨hs', hsa⟩) hsb
  · rintro ⟨hr, hle, hmax⟩
    exact ⟨⟨hr, hm.base_ne h hlimit hr hn hs⟩, hle, fun s hs' hsb => hmax s ((hmem s).1 hs').1 hsb⟩

/-- Where nothing is mapped in the way of a new block, bytes can be copied into it, with zeros
behind them, and nothing else changes. -/
theorem copy_to_new (hm : m.ClearUpTo limit) (hread : m.read b n = .ok bs)
    (h : m.allocate blockSize = .ok (a, m')) (hlimit : m'.next.toNat ≤ limit) (hn : 0 < n)
    (hle : n ≤ blockSize.toNat) :
    m'.read b n = .ok bs ∧ ∃ m'', m'.write a bs = .ok m'' ∧
      m''.read a blockSize.toNat = .ok (bs ++ List.replicate (blockSize.toNat - bs.length) 0) ∧
      m.SameApartFrom a blockSize.toNat m'' := by
  have hlength : bs.length = n := length_of_read hread
  have hmax : max blockSize.toNat 1 = blockSize.toNat := by omega
  have hblock := hm.hasBlock_allocate h hlimit
  have hsame := hm.sameApartFrom_allocate h hlimit
  rw [hmax] at hblock hsame
  have hsize : (Array.replicate blockSize.toNat (0 : UInt8)).size = blockSize.toNat :=
    Array.size_replicate
  refine ⟨(hsame b n hn (hm.apart_of_read hread h hlimit)).trans hread, ?_⟩
  obtain ⟨m'', hwrite, hblock''⟩ :=
    hblock.write (x := a) bs (Nat.le_refl _) (by omega) (by omega)
  refine ⟨m'', hwrite, ?_, hsame.trans (sameApartFrom_write hwrite (by omega))⟩
  have hall := hblock''.read (Nat.le_refl _)
  rwa [Array.extract_size, size_overlay, hsize, Nat.sub_self,
    toList_overlay_replicate (by omega)] at hall

theorem of_allocate (hm : m.ClearUpTo limit) (h : m.allocate blockSize = .ok (a, m')) :
    m'.ClearUpTo limit := by
  obtain ⟨rfl, hnext, -⟩ := allocate_next h
  have hlength := length_le_heapSpan blockSize
  intro r hr
  rw [allocate_regions h, RegionMap.mem_insert] at hr
  rcases hr with rfl | ⟨hr, -⟩
  · refine .inl ?_
    rw [Region.finish, Array.size_replicate, hnext]
    exact Nat.add_le_add_left hlength _
  · have hclear := hm r hr
    omega

theorem of_write (hm : m.ClearUpTo limit) (hwrite : m.write a bs = .ok m') :
    m'.ClearUpTo limit := by
  intro r hr
  obtain ⟨s, hs, hbase, hsize⟩ := of_mem_write hwrite hr
  rw [Region.finish, hbase, hsize, write_next hwrite]
  exact hm s hs

end ClearUpTo

end Memory

/-! ## One copy -/

/-- The type has this witness table, by which the first `n` bytes of its values are copied. -/
structure ValueType.CopiesFirst (t : ValueType) (functions : FunctionTable) (table : WitnessTable)
    (n : Nat) : Prop where
  witnesses : t.witnesses = some table
  metadata : t.info.metadata.isSome
  copy : functions.lookup? table.initializeWithCopy = some (StandIn.copyBytes n)
  pos : 0 < n
  le : n ≤ table.layout.stride.toNat

theorem ValueType.CopiesFirst.run_allocate {t : ValueType} {functions : FunctionTable}
    {table : WitnessTable} {n : Nat} (h : t.CopiesFirst functions table n) (w : World) :
    t.allocate.run w =
      match w.memory.allocate table.layout.stride with
      | .ok (a, memory) => (.ok ⟨a, table.layout.stride, true⟩, { w with memory })
      | .error e => (.error (.memory e), w) := by
  have hmax : max table.layout.stride 1 = table.layout.stride := by
    have := h.pos
    have := h.le
    rw [← UInt64.toNat_inj, toNat_max_one]
    omega
  have hlayout : t.requireLayout = .ok table.layout := by
    rw [requireLayout, requireWitnesses, h.witnesses]
    rfl
  have hrun := Buffer.run_allocate table.layout.stride w
  rw [hmax] at hrun
  rw [allocate, hlayout]
  exact hrun

theorem Buffer.next_release (b : Buffer) (w : World) :
    (b.release w).memory.next = w.memory.next ∧ (b.release w).functions = w.functions := by
  unfold release
  split
  · rcases hfree : w.memory.free b.address with e | m
    · exact ⟨rfl, rfl⟩
    · exact ⟨(Memory.free_live hfree).2.2, rfl⟩
  · exact ⟨rfl, rfl⟩

/-- A type that is not generic has metadata and a witness table once it has been read. -/
theorem ValueType.instantiated_of_read {s : Settings} {d : NominalDescriptor} {w w' : World}
    {t : ValueType} (h : (ValueType.read s d).run w = (.ok t, w'))
    (hgeneric : d.isGeneric = false) :
    ∃ table, t.witnesses = some table ∧ t.info.metadata.isSome := by
  obtain ⟨info, w₁, hi, h⟩ := Inspect.run_bind_ok h
  have hmetadata := TypeInfo.metadata_of_read hi
  rw [TypeInfo.isGeneric, TypeInfo.descriptor_of_read hi, hgeneric] at hmetadata
  split at h
  · next hnone => exact absurd (hmetadata.1 hnone) Bool.false_ne_true
  · next a hsome =>
    obtain ⟨metadata, w₂, -, h⟩ := Inspect.run_bind_ok h
    obtain ⟨witnesses, w₃, -, h⟩ := Inspect.run_bind_ok h
    cases h
    exact ⟨witnesses, rfl, hsome ▸ rfl⟩

namespace StructType

variable {t : StructType} {w w' w'' : World} {table : WitnessTable} {n limit : Nat} {src : Address}
  {bs : List UInt8}

/-- A copy is asked for: a block is taken, the bytes are read after that, and the block is given up
if they cannot be read or written. -/
theorem run_copyOf (h : t.core.CopiesFirst w.functions table n) (src : Address) :
    ∃ calls, (t.copyOf src).run w =
      match w.memory.allocate table.layout.stride with
      | .error e => (.error (.memory e), w)
      | .ok (a, m) =>
        match m.read src n with
        | .error e => (.error (.call (.memory e)),
          Buffer.release ⟨a, table.layout.stride, true⟩ { w with memory := m, calls })
        | .ok bs =>
          match m.write a bs with
          | .error e => (.error (.call (.memory e)),
            Buffer.release ⟨a, table.layout.stride, true⟩ { w with memory := m, calls })
          | .ok memory =>
            (.ok (.struct t.core ⟨a, table.layout.stride, true⟩), { w with memory, calls }) := by
  obtain ⟨metadata, hmetadata⟩ := Option.isSome_iff_exists.1 h.metadata
  have hallocate := h.run_allocate w
  unfold copyOf ValueType.allocateCopy ValueType.allocateFilled
  rw [Inspect.run_bind, Inspect.run_bind, hallocate]
  rcases w.memory.allocate table.layout.stride with e | ⟨a, m⟩
  · exact ⟨[], rfl⟩
  · obtain ⟨calls, hcopy⟩ := ValueType.run_copy (w := { w with memory := m }) h.witnesses hmetadata
      h.copy a src
    refine ⟨calls, ?_⟩
    simp only
    rw [Inspect.run_bind, Inspect.run_tryCatch, hcopy]
    simp only
    rcases m.read src n with e | bs
    · rfl
    · simp only
      rcases m.write a bs with e | memory <;> rfl

/-- The heap moves on by the block that was taken, whatever comes of the copy. -/
theorem next_copyOf (h : t.core.CopiesFirst w.functions table n) (src : Address) :
    ((t.copyOf src).run w).2.functions = w.functions ∧
      ((t.copyOf src).run w).2.memory.next =
        match w.memory.allocate table.layout.stride with
        | .ok (_, m) => m.next
        | .error _ => w.memory.next := by
  obtain ⟨calls, hrun⟩ := run_copyOf h src
  rw [hrun]
  rcases w.memory.allocate table.layout.stride with e | ⟨a, m⟩
  · exact ⟨rfl, rfl⟩
  obtain ⟨hnext, hfunctions⟩ :=
    Buffer.next_release ⟨a, table.layout.stride, true⟩ { w with memory := m, calls }
  simp only
  rcases m.read src n with e | bs
  · exact ⟨hfunctions, hnext⟩
  · simp only
    rcases hwrite : m.write a bs with e | m'
    · exact ⟨hfunctions, hnext⟩
    · exact ⟨rfl, Memory.write_next hwrite⟩

theorem next_le_copyOf (h : t.core.CopiesFirst w.functions table n) (src : Address) :
    w.memory.next.toNat ≤ ((t.copyOf src).run w).2.memory.next.toNat := by
  rw [(next_copyOf h src).2]
  rcases ha : w.memory.allocate table.layout.stride with e | ⟨a, m⟩
  · exact Nat.le_refl _
  · simp only
    rw [(Memory.allocate_next ha).2.1]
    exact Nat.le_add_right ..

/-- The value in `b` is new in `w'` and a copy of `bs`, which are at `src`. -/
structure FreshCopy (t : StructType) (w : World) (src : Address) (bs : List UInt8) (b : Buffer)
    (w' : World) : Prop where
  owned : b.owned = true
  live : w'.memory.live = b.address :: w.memory.live
  /-- No region had any of the bytes. -/
  unmapped : ∀ r ∈ w.memory.regions.entries,
    r.finish ≤ b.address.toNat ∨ b.address.toNat + b.size.toNat ≤ r.base.toNat
  /-- No block that the heap handed out before has any of the bytes. -/
  unused : ∀ (origin : UInt64) (m m' : Memory) (size : UInt64) (a : Address),
    m.allocate size = .ok (a, m') → m'.Reaches origin w.memory →
    a.toNat + max size.toNat 1 ≤ b.address.toNat
  bytes : Value.bytes.runOn (.struct t.core b) w' =
    ((.ok (some (bs ++ List.replicate (b.size.toNat - bs.length) 0)), .struct t.core b), w')
  same : w.memory.SameApartFrom b.address b.size.toNat w'.memory
  rest : ∃ memory calls, w' = { w with memory, calls }
  independent : Memory.Independent src bs.length b.address b.size.toNat

/-- Nothing has come of a copy: the blocks are those there were, and all that is read is the
same. -/
structure NothingDone (w w' : World) : Prop where
  live : w'.memory.live = w.memory.live
  same : ∀ (b : Address) (n : Nat), 0 < n → w'.memory.read b n = w.memory.read b n
  rest : ∃ memory calls, w' = { w with memory, calls }

theorem runOn_bytes_struct {type : ValueType} {b : Buffer} :
    Value.bytes.runOn (.struct type b) w = ((.ok (some bs), .struct type b), w) ↔
      w.memory.read b.address b.size.toNat = .ok bs := by
  have hrun : Value.bytes.runOn (.struct type b) w =
      (((w.decode b.bytes).map some, .struct type b), w) := by
    change (InspectOn.lift (Inspect.decode b.bytes) >>= fun bs => pure (some bs) :
      InspectOn Value (Option (List UInt8))).runOn _ w = _
    rw [InspectOn.runOn_decode_bind]
    rcases w.decode b.bytes with e | bs <;> rfl
  have hdecode : w.decode b.bytes = .ok bs ↔ w.memory.read b.address b.size.toNat = .ok bs := by
    change Decoder.access (fun m => m.read b.address b.size.toNat) w.memory = .ok bs ↔ _
    exact Decoder.access_eq_ok_iff
  rw [hrun, ← hdecode]
  constructor
  · intro h
    rcases hd : w.decode b.bytes with e | xs <;> rw [hd] at h <;> cases h
    rfl
  · intro h
    rw [h]
    rfl

section Copy

variable {a : Address} {m : Memory}

theorem freshCopy_of_read (h : t.core.CopiesFirst w.functions table n)
    (hm : w.memory.ClearUpTo limit) (hread : w.memory.read src n = .ok bs)
    (ha : w.memory.allocate table.layout.stride = .ok (a, m)) (hlimit : m.next.toNat ≤ limit) :
    ∃ w', (t.copyOf src).run w = (.ok (.struct t.core ⟨a, table.layout.stride, true⟩), w') ∧
      t.FreshCopy w src bs ⟨a, table.layout.stride, true⟩ w' ∧ w'.memory.ClearUpTo limit := by
  obtain ⟨haddress, -, hlive⟩ := Memory.allocate_next ha
  obtain ⟨hread', m', hwrite, hbytes, hsame⟩ := hm.copy_to_new hread ha hlimit h.pos h.le
  obtain ⟨calls, hrun⟩ := run_copyOf h src
  rw [ha] at hrun
  simp only [hread', hwrite] at hrun
  refine ⟨_, hrun, ?_, (hm.of_allocate ha).of_write hwrite⟩
  exact {
    owned := rfl
    live := (Memory.write_live hwrite).trans hlive
    unmapped := fun _ hr => (hm.finish_le_or ha hlimit hr).imp_right
      (Nat.le_trans (Nat.add_le_add_left (Nat.le_max_left ..) _))
    unused := by
      intro origin m₀ m₁ size x hx hreaches
      obtain ⟨rfl, hnext₁, -⟩ := Memory.allocate_next hx
      have hspan := Memory.length_le_heapSpan size
      have hle := hreaches.next_le
      rw [haddress]
      change m₀.next.toNat + max size.toNat 1 ≤ w.memory.next.toNat
      omega
    bytes := runOn_bytes_struct.2 hbytes
    same := hsame
    rest := ⟨_, _, rfl⟩
    independent := by
      rw [Memory.length_of_read hread]
      exact (hm.apart_of_read hread ha hlimit).independent }

theorem nothingDone_of_unreadable (h : t.core.CopiesFirst w.functions table n)
    (hm : w.memory.ClearUpTo limit) {e : MemoryError} (hread : m.read src n = .error e)
    (ha : w.memory.allocate table.layout.stride = .ok (a, m)) (hlimit : m.next.toNat ≤ limit) :
    ∃ w', (t.copyOf src).run w = (.error (.call (.memory e)), w') ∧ NothingDone w w' := by
  obtain ⟨calls, hrun⟩ := run_copyOf h src
  rw [ha] at hrun
  simp only [hread] at hrun
  refine ⟨_, hrun, ?_⟩
  obtain ⟨-, -, hlive⟩ := Memory.allocate_next ha
  obtain ⟨m', hfree⟩ : ∃ m', m.free a = .ok m' :=
    Memory.free_eq_ok_iff.2 (hlive ▸ List.mem_cons_self)
  have hrelease : Buffer.release ⟨a, table.layout.stride, true⟩ { w with memory := m, calls } =
      { w with memory := m', calls } := by
    unfold Buffer.release
    simp only [if_true, hfree]
  rw [hrelease]
  refine ⟨?_, fun b n hn => hm.read_of_free ha hlimit hfree hn, ⟨_, _, rfl⟩⟩
  rw [(Memory.free_live hfree).2.1, hlive, List.erase_cons_head]

end Copy

/-! ## Copies of copies -/

/-- Copy the value at `a`, then that copy, and so on: the copies one after another. -/
def copyChain (t : StructType) : Nat → Address → Inspect (List Value)
  | 0, _ => return []
  | count + 1, a => do
    let u ← t.copyOf a
    let us ← t.copyChain count u.place
    return u :: us

theorem next_copyOf_le_copyChain (count : Nat) (h : t.core.CopiesFirst w.functions table n)
    (src : Address) : ((t.copyOf src).run w).2.memory.next.toNat ≤
      ((t.copyChain (count + 1) src).run w).2.memory.next.toNat := by
  induction count generalizing w src with
  | zero =>
    rw [copyChain, Inspect.run_bind]
    rcases (t.copyOf src).run w with ⟨e | u, w₁⟩ <;> exact Nat.le_refl _
  | succ count ih =>
    have hfunctions := (next_copyOf h src).1
    rw [copyChain, Inspect.run_bind]
    rcases hu : (t.copyOf src).run w with ⟨e | u, w₁⟩
    · exact Nat.le_refl _
    · rw [hu] at hfunctions
      have hnext := Nat.le_trans (next_le_copyOf (hfunctions ▸ h) u.place)
        (ih (hfunctions ▸ h) u.place)
      simp only
      rw [Inspect.run_bind]
      rcases hus : (t.copyChain (count + 1) u.place).run w₁ with ⟨e | us, w₂⟩ <;>
        rw [hus] at hnext <;> exact hnext

/-- The value is a copy of `bs` in a live block of its own, and zeros follow. -/
def IsCopy (t : StructType) (stride : UInt64) (bs : List UInt8) (w : World) (u : Value) : Prop :=
  ∃ b, u = .struct t.core b ∧ b.owned = true ∧ b.size = stride ∧ b.address ∈ w.memory.live ∧
    Value.bytes.runOn u w =
      ((.ok (some (bs ++ List.replicate (stride.toNat - bs.length) 0)), u), w)

/-- Live blocks are live, and what can be read is read, in `w'` as in `w`. -/
structure Stays (w w' : World) : Prop where
  live : ∀ a ∈ w.memory.live, a ∈ w'.memory.live
  read : ∀ b k xs, 0 < k → w.memory.read b k = .ok xs → w'.memory.read b k = .ok xs

theorem Stays.trans (h : Stays w w') (h' : Stays w' w'') : Stays w w'' :=
  ⟨fun a ha => h'.live a (h.live a ha), fun b k xs hk hx => h'.read b k xs hk (h.read b k xs hk hx)⟩

theorem FreshCopy.stays {b : Buffer} (h : t.FreshCopy w src bs b w') : Stays w w' := by
  refine ⟨fun a ha => h.live ▸ List.mem_cons_of_mem _ ha, fun x k xs hk hread => ?_⟩
  obtain ⟨r, hr, hs, -⟩ := Memory.of_read_ok hread
  have hapart := h.unmapped r (RegionMap.below?_eq_some_iff.1 hr).1
  rw [h.same x k hk ?_, hread]
  unfold Region.Spans at hs
  unfold Memory.Apart
  omega

theorem FreshCopy.isCopy {b : Buffer} (h : t.FreshCopy w src bs b w') :
    t.IsCopy b.size bs w' (.struct t.core b) :=
  ⟨b, rfl, h.owned, rfl, h.live ▸ List.mem_cons_self, h.bytes⟩

theorem IsCopy.stays {stride : UInt64} {u : Value} (h : t.IsCopy stride bs w u)
    (hpos : 0 < stride.toNat) (hw : Stays w w') : t.IsCopy stride bs w' u := by
  obtain ⟨b, rfl, howned, rfl, hlive, hbytes⟩ := h
  refine ⟨b, rfl, howned, rfl, hw.live _ hlive, runOn_bytes_struct.2 ?_⟩
  exact hw.read _ _ _ hpos (runOn_bytes_struct.1 hbytes)

/-- A chain of copies stops only where there is no room for the next one. -/
theorem run_copyChain (count : Nat) (h : t.core.CopiesFirst w.functions table n)
    (hm : w.memory.ClearUpTo limit) (hread : w.memory.read src n = .ok bs)
    (hlimit : ((t.copyChain count src).run w).2.memory.next.toNat ≤ limit) :
    (∃ w', (t.copyChain count src).run w =
      (.error (.memory (.outOfMemory table.layout.stride)), w')) ∨
    ∃ us w', (t.copyChain count src).run w = (.ok us, w') ∧ us.length = count ∧
      (∀ u ∈ us, t.IsCopy table.layout.stride bs w' u) ∧ Stays w w' := by
  induction count generalizing w src with
  | zero => exact .inr ⟨[], w, rfl, rfl, nofun, fun _ ha => ha, fun _ _ _ _ hx => hx⟩
  | succ count ih =>
    have hpos : 0 < table.layout.stride.toNat := Nat.lt_of_lt_of_le h.pos h.le
    obtain ⟨hfunctions, hnext⟩ := next_copyOf h src
    have hroom := Nat.le_trans (next_copyOf_le_copyChain count h src) hlimit
    rw [hnext] at hroom
    rw [copyChain, Inspect.run_bind] at hlimit ⊢
    rcases ha : w.memory.allocate table.layout.stride with e | ⟨a, m⟩
    · obtain ⟨calls, hrun⟩ := run_copyOf h src
      rw [ha] at hrun
      rw [hrun, Memory.allocate_eq_error ha]
      exact .inl ⟨w, rfl⟩
    rw [ha] at hroom
    obtain ⟨w₁, hu, hfresh, hm₁⟩ := freshCopy_of_read h hm hread ha hroom
    have hread₁ : w₁.memory.read a n = .ok bs := by
      have hprefix := Memory.read_take (runOn_bytes_struct.1 hfresh.bytes) h.le
      rwa [List.take_left' (Memory.length_of_read hread)] at hprefix
    rw [hu] at hfunctions hlimit ⊢
    simp only [Inspect.run_bind] at hlimit ⊢
    have hplace : (Value.struct t.core ⟨a, table.layout.stride, true⟩).place = a := rfl
    rw [hplace] at hlimit ⊢
    have hrest : ((t.copyChain count a).run w₁).2.memory.next.toNat ≤ limit := by
      revert hlimit
      rcases (t.copyChain count a).run w₁ with ⟨e | us, w₂⟩ <;> exact id
    rcases ih (hfunctions ▸ h) hm₁ hread₁ hrest with
      ⟨w', hus⟩ | ⟨us, w', hus, hlength, hcopies, hstays⟩ <;> rw [hus]
    · exact .inl ⟨_, rfl⟩
    · refine .inr ⟨_, _, rfl, congrArg Nat.succ hlength, ?_, hfresh.stays.trans hstays⟩
      exact List.forall_mem_cons.2 ⟨hfresh.isCopy.stays hpos hstays, hcopies⟩

/-! ## What a copy comes to -/

/-- What comes of it when a copy of the value at `src` is asked for, of which `n` bytes are copied.
As far as `limit` the heap has its addresses to itself. -/
structure CopiesWell (t : StructType) (stride : UInt64) (n limit : Nat) (src : Address)
    (w : World) : Prop where
  refused : ∀ e, w.memory.allocate stride = .error e →
    (t.copyOf src).run w = (.error (.memory (.outOfMemory stride)), w)
  copied : ∀ a m bs, w.memory.allocate stride = .ok (a, m) → m.next.toNat ≤ limit →
    w.memory.read src n = .ok bs →
    ∃ w', (t.copyOf src).run w = (.ok (.struct t.core ⟨a, stride, true⟩), w') ∧
      t.FreshCopy w src bs ⟨a, stride, true⟩ w'
  unreadable : ∀ a m e, w.memory.allocate stride = .ok (a, m) → m.next.toNat ≤ limit →
    m.read src n = .error e →
    ∃ w', (t.copyOf src).run w = (.error (.call (.memory e)), w') ∧ NothingDone w w'
  chain : ∀ count bs, w.memory.read src n = .ok bs →
    ((t.copyChain count src).run w).2.memory.next.toNat ≤ limit →
    (∃ w', (t.copyChain count src).run w = (.error (.memory (.outOfMemory stride)), w')) ∨
    ∃ us w', (t.copyChain count src).run w = (.ok us, w') ∧ us.length = count ∧
      (∀ u ∈ us, t.IsCopy stride bs w' u) ∧ Stays w w'

theorem copiesWell (h : t.core.CopiesFirst w.functions table n) (hm : w.memory.ClearUpTo limit)
    (src : Address) : t.CopiesWell table.layout.stride n limit src w where
  refused := by
    intro e ha
    obtain ⟨calls, hrun⟩ := run_copyOf h src
    rw [hrun, ha, Memory.allocate_eq_error ha]
  copied := by
    intro a m bs ha hlimit hread
    obtain ⟨w', hrun, hfresh, -⟩ := freshCopy_of_read h hm hread ha hlimit
    exact ⟨w', hrun, hfresh⟩
  unreadable := fun _ _ _ ha hlimit hread => nothingDone_of_unreadable h hm hread ha hlimit
  chain := fun count _ hread hlimit => run_copyChain count h hm hread hlimit

/-- A struct that has been read, and is not generic, has a witness table, and wherever the copy
witness in it copies bytes, its values are copied well. The block for a copy is new, the bytes are
those of the source with zeros behind them, nothing else has changed, and a later write to one of
the two leaves the other alone; copies of copies, however many, have the same bytes. If the source
cannot be read once there is a block for the copy, then there is none any more, and memory is as it
was. -/
theorem copiesWell_of_read {s : Settings} {d : StructDescriptor} {w₀ w₁ : World} {t : StructType}
    (hread : (StructType.read s d).run w₀ = (.ok t, w₁)) (hgeneric : d.isGeneric = false) :
    ∃ table, t.core.witnesses = some table ∧ ∀ (w : World) (n limit : Nat) (src : Address),
      w.functions.lookup? table.initializeWithCopy = some (StandIn.copyBytes n) → 0 < n →
      n ≤ table.layout.stride.toNat → w.memory.ClearUpTo limit →
      t.CopiesWell table.layout.stride n limit src w := by
  obtain ⟨core, w₂, hcore, h⟩ := Inspect.run_bind_ok hread
  cases h
  obtain ⟨table, htable, hmetadata⟩ := ValueType.instantiated_of_read hcore hgeneric
  refine ⟨table, htable, fun w n limit src hcopy hpos hle hm => ?_⟩
  exact copiesWell ⟨htable, hmetadata, hcopy, hpos, hle⟩ hm src

end StructType

/-- A struct with this layout, whose values are copied by the function at `0x8000`. -/
def Emit.copiedStruct (layout : TypeLayout) : Build Address := do
  let parent ← moduleContext "m"
  let _ ← valueMetadata { kind := .structType, layout, initializeWithCopy := ⟨0x8000⟩ }
  structType { name := "S", parent, accessFunction := some ⟨0x8010⟩ } 0 0

namespace StructType

/-- A process with such a struct, of three bytes in four. -/
def showingCopied : World :=
  { World.showing (Emit.copiedStruct ⟨3, 4, ⟨0⟩, 0⟩) with
    functions := ⟨⟨0x8000⟩, #[StandIn.copyBytes 3, StandIn.const 0x1070]⟩ }

/-- The first three bytes of the struct's descriptor are copied, and the copy once more. -/
theorem copiesWell_of_read_twice :
    ∃ t w₁ us w', (StructType.read {} ⟨⟨⟨⟨0x1080⟩, ⟨0x51⟩, .structType⟩⟩⟩).run showingCopied =
        (.ok t, w₁) ∧
      (t.copyChain 2 ⟨0x1080⟩).run showingCopied = (.ok us, w') ∧ us.length = 2 ∧
      ∀ u ∈ us, t.IsCopy 4 [0x51, 0, 0] w' u := by
  obtain ⟨t, w₁, hread, ht⟩ := Inspect.exists_of_any
    (x := StructType.read {} ⟨⟨⟨⟨0x1080⟩, ⟨0x51⟩, .structType⟩⟩⟩) (w := showingCopied)
    (p := fun (t, _) =>
      (t.core.witnesses.any fun table =>
        decide (table.initializeWithCopy = ⟨0x8000⟩ ∧ table.layout.stride = 4)) &&
      decide (((t.copyChain 2 ⟨0x1080⟩).run showingCopied).2.memory.next.toNat ≤ 0x70000000 ∧
        ((t.copyChain 2 ⟨0x1080⟩).run showingCopied).1.toOption.isSome))
    (by decide +kernel)
  obtain ⟨hany, hrun⟩ := Bool.and_eq_true_iff.1 ht
  obtain ⟨table, htable, hfacts⟩ := (Option.any_eq_true _ _).1 hany
  obtain ⟨hcopy, hstride⟩ := of_decide_eq_true hfacts
  obtain ⟨hlimit, hsome⟩ := of_decide_eq_true hrun
  obtain ⟨table', htable', hcopies⟩ := copiesWell_of_read hread rfl
  cases htable.symm.trans htable'
  have hlookup : showingCopied.functions.lookup? table.initializeWithCopy =
      some (StandIn.copyBytes 3) := by
    rw [hcopy]
    exact showingCopied.functions.lookup?_addressOf (i := 0) (by decide)
  have hclear : showingCopied.memory.ClearUpTo 0x70000000 := by
    unfold Memory.ClearUpTo
    decide +kernel
  have hchain := (hcopies showingCopied 3 0x70000000 ⟨0x1080⟩ hlookup (by decide)
    (hstride ▸ by decide) hclear).chain 2 [0x51, 0, 0] (by decide +kernel) hlimit
  rw [hstride] at hchain
  rcases hchain with ⟨w', hfail⟩ | ⟨us, w', hok, hlength, hus, -⟩
  · rw [hfail] at hsome
    cases hsome
  · exact ⟨t, w₁, us, w', hread, hok, hlength, hus⟩

end StructType

end TypeMetadata
