import TypeMetadata.Native.StandIn
import TypeMetadata.Proofs.HeapSafety

/-!
# Blocks while functions of the target run

A function of the target can do to memory what requests to the heap do, and map regions below the
heap (`Memory.Reaches`). So a block stays where it is until it is freed, and its addresses are never
given to anything else (`Reserves.reaches`): what can be written to after any number of calls is
still that block. Which blocks a call writes to is left to the function. One that `WritesWithin` the
block it is called on leaves all other regions alone, such as one that writes once, in that block
(`WritesAt.writesWithin`).
-/

namespace TypeMetadata

namespace Memory

/-- The heap started at `origin`, and all that is mapped lies below the blocks to come. -/
structure HeapFrom (origin : UInt64) (m : Memory) : Prop where
  le : origin.toNat ≤ m.next.toNat
  clear : m.HeapClear

/-- What can become of memory by requests to its heap, which started at `origin`, and by mapping
regions below it. -/
inductive Reaches (origin : UInt64) (m : Memory) : Memory → Prop
  | refl : Reaches origin m m
  | request {m' : Memory} (h : Reaches origin m m') (q : HeapRequest) :
    Reaches origin m ((HeapRun.start m').next q).memory
  | map {m' : Memory} (h : Reaches origin m m') (base : Address) (bytes : Array UInt8)
    (below : base.toNat + bytes.size ≤ origin.toNat) : Reaches origin m (m'.map base bytes)

/-- If a region has any of the `size` bytes at `a`, it is one of just these bytes, and no block to
come has any. -/
structure Reserves (m : Memory) (a : Address) (size : Nat) : Prop where
  pos : 0 < size
  le : a.toNat + size ≤ m.next.toNat
  apart : ∀ r ∈ m.regions.entries,
    r.base = a ∧ r.bytes.size = size ∨ r.finish ≤ a.toNat ∨ a.toNat + size ≤ r.base.toNat

/-- Nothing is mapped from where the next block comes up to `limit`. -/
def ClearUpTo (m : Memory) (limit : Nat) : Prop :=
  ∀ r ∈ m.regions.entries, r.finish ≤ m.next.toNat ∨ limit ≤ r.base.toNat

/-- There is a block of these bytes at `a`. -/
structure HasBlock (m : Memory) (a : Address) (bytes : Array UInt8) : Prop where
  mem : ⟨a, bytes⟩ ∈ m.regions.entries
  reserves : m.Reserves a bytes.size

/-- All regions but the one at `a` are still what they were. -/
def KeepsOthers (m : Memory) (a : Address) (m' : Memory) : Prop :=
  ∀ r ∈ m.regions.entries, r.base ≠ a → r ∈ m'.regions.entries

variable {m m' m'' : Memory} {origin : UInt64} {a b x : Address} {bytes : Array UInt8}
  {bs : List UInt8} {size n : Nat}

/-! ## From one request to the next -/

theorem next_le_request (m : Memory) (q : HeapRequest) :
    m.next.toNat ≤ ((HeapRun.start m).next q).memory.next.toNat := by
  cases q with
  | allocate size =>
    rcases ha : m.allocate size with e | ⟨a, m'⟩ <;> simp only [HeapRun.start, HeapRun.next, ha]
    · exact Nat.le_refl _
    · have := (allocate_next ha).2.1
      omega
  | free a =>
    rcases ha : m.free a with e | m' <;> simp only [HeapRun.start, HeapRun.next, ha]
    · exact Nat.le_refl _
    · exact (free_live ha).2.2 ▸ Nat.le_refl _
  | read => exact Nat.le_refl _
  | write a bs =>
    rcases ha : m.write a bs with e | m' <;> simp only [HeapRun.start, HeapRun.next, ha]
    · exact Nat.le_refl _
    · exact write_next ha ▸ Nat.le_refl _

/-- A region is the new block, or has its place and size from before. -/
theorem of_mem_request (q : HeapRequest) {r : Region}
    (hr : r ∈ ((HeapRun.start m).next q).memory.regions.entries) :
    (∃ s ∈ m.regions.entries, r.base = s.base ∧ r.bytes.size = s.bytes.size) ∨
      m.next.toNat ≤ r.base.toNat ∧
        r.finish ≤ ((HeapRun.start m).next q).memory.next.toNat := by
  cases q with
  | allocate size =>
    rcases ha : m.allocate size with e | ⟨a, m'⟩ <;>
      simp only [HeapRun.start, HeapRun.next, ha] at hr ⊢
    · exact .inl ⟨r, hr, rfl, rfl⟩
    · obtain ⟨rfl, hnext, -⟩ := allocate_next ha
      have hlength := length_le_heapSpan size
      rw [allocate_regions ha, RegionMap.mem_insert] at hr
      rcases hr with rfl | ⟨hr, -⟩
      · refine .inr ⟨Nat.le_refl _, ?_⟩
        simp only [Region.finish, Address.toNat, Array.size_replicate]
        omega
      · exact .inl ⟨r, hr, rfl, rfl⟩
  | free a =>
    rcases ha : m.free a with e | m' <;> simp only [HeapRun.start, HeapRun.next, ha] at hr ⊢
    · exact .inl ⟨r, hr, rfl, rfl⟩
    · rw [free_regions ha, RegionMap.mem_erase] at hr
      exact .inl ⟨r, hr.1, rfl, rfl⟩
  | read => exact .inl ⟨r, hr, rfl, rfl⟩
  | write a bs =>
    rcases ha : m.write a bs with e | m' <;> simp only [HeapRun.start, HeapRun.next, ha] at hr ⊢
    · exact .inl ⟨r, hr, rfl, rfl⟩
    · exact .inl (of_mem_write ha hr)

namespace Reaches

theorem trans (h : m.Reaches origin m') (h' : m'.Reaches origin m'') : m.Reaches origin m'' := by
  induction h' with
  | refl => exact h
  | request _ q ih => exact ih.request q
  | map _ base bytes below ih => exact ih.map base bytes below

theorem of_allocate {size : UInt64} (h : m.allocate size = .ok (a, m')) : m.Reaches origin m' := by
  have hreaches := (@refl origin m).request (.allocate size)
  simpa only [HeapRun.start, HeapRun.next, h] using hreaches

theorem of_write (h : m.write a bs = .ok m') : m.Reaches origin m' := by
  have hreaches := (@refl origin m).request (.write a bs)
  simpa only [HeapRun.start, HeapRun.next, h] using hreaches

theorem next_le (h : m.Reaches origin m') : m.next.toNat ≤ m'.next.toNat := by
  induction h with
  | refl => exact Nat.le_refl _
  | request _ q ih => exact Nat.le_trans ih (next_le_request _ q)
  | map _ _ _ _ ih => exact ih

theorem heapFrom (h : m.Reaches origin m') (hm : m.HeapFrom origin) : m'.HeapFrom origin := by
  refine ⟨Nat.le_trans hm.le h.next_le, ?_⟩
  induction h with
  | refl => exact hm.clear
  | @request m' _ q ih =>
    intro r hr
    rcases of_mem_request q hr with ⟨s, hs, hbase, hsize⟩ | ⟨-, hfinish⟩
    · have := ih s hs
      have := next_le_request m' q
      simp only [Region.finish, hbase, hsize] at *
      omega
    · exact hfinish
  | @map m' h base bytes below ih =>
    intro r hr
    rcases RegionMap.mem_insert.1 hr with rfl | ⟨hr, -⟩
    · exact Nat.le_trans below (Nat.le_trans hm.le h.next_le)
    · exact ih r hr

end Reaches

/-- Nothing takes the place of a block, whatever becomes of it. -/
theorem Reserves.reaches (h : m.Reserves a size) (hr : m.Reaches origin m')
    (ha : origin.toNat ≤ a.toNat) : m'.Reserves a size := by
  refine ⟨h.pos, Nat.le_trans h.le hr.next_le, ?_⟩
  -- new blocks come behind it, and what is mapped ends before it
  induction hr with
  | refl => exact h.apart
  | @request m' hm' q ih =>
    intro r hr
    rcases of_mem_request q hr with ⟨s, hs, hbase, hsize⟩ | ⟨hbase, -⟩
    · have := ih s hs
      simp only [Region.finish, hbase, hsize] at *
      exact this
    · have := h.le
      have := hm'.next_le
      exact .inr (.inr (by omega))
  | map _ base bytes below ih =>
    intro r hr
    rcases RegionMap.mem_insert.1 hr with rfl | ⟨hr, -⟩
    · exact .inr (.inl (Nat.le_trans below ha))
    · exact ih r hr

/-! ## What is done to a block -/

/-- Of all that is mapped, an access at one of the addresses can only be to the block. -/
theorem Reserves.of_below? (h : m.Reserves a size) (hlt : x.toNat < a.toNat + size) {r : Region}
    (hr : m.regions.below? x = some r) :
    r.base = a ∧ r.bytes.size = size ∨ r.finish ≤ a.toNat := by
  obtain ⟨hr, hrx, -⟩ := RegionMap.below?_eq_some_iff.1 hr
  rw [Address.le_iff_toNat_le] at hrx
  rcases h.apart r hr with hblock | hfinish | hbase
  · exact .inl hblock
  · exact .inr hfinish
  · omega

/-- What can be written to is there. -/
theorem Reserves.hasBlock (h : m.Reserves a size) (hx : a.toNat ≤ x.toNat)
    (hlt : x.toNat < a.toNat + size) (hne : bs ≠ []) (hwrite : m.write x bs = .ok m') :
    ∃ bytes, bytes.size = size ∧ m.HasBlock a bytes := by
  obtain ⟨r, hr, hs, -⟩ := of_write_ok hwrite
  rcases h.of_below? hlt hr with ⟨rfl, rfl⟩ | hfinish
  · exact ⟨r.bytes, rfl, (RegionMap.below?_eq_some_iff.1 hr).1, h⟩
  · have := List.length_pos_iff.2 hne
    have := hs.2
    omega

theorem Reserves.keepsOthers (h : m.Reserves a size) (hx : a.toNat ≤ x.toNat)
    (hlt : x.toNat < a.toNat + size) (hwrite : m.write x bs = .ok m') : m.KeepsOthers a m' := by
  obtain ⟨r, hr, hs, rfl⟩ := of_write_ok hwrite
  have hmem := (RegionMap.below?_eq_some_iff.1 hr).1
  intro s hs' hne
  rw [mem_map_of_mem hmem]
  rcases h.of_below? hlt hr with ⟨rfl, -⟩ | hfinish
  · exact .inr ⟨hs', fun heq => hne (heq ▸ rfl)⟩
  · -- nothing is written where another region ends
    have hnil : bs = [] := List.eq_nil_iff_length_eq_zero.2 (by have := hs.2; omega)
    by_cases heq : s = r
    · exact .inl (by rw [heq, hnil]; rfl)
    · exact .inr ⟨hs', heq⟩

/-- A new block is alone where nothing is mapped. -/
theorem ClearUpTo.hasBlock_allocate {limit : Nat} (hm : m.ClearUpTo limit) {size : UInt64}
    (h : m.allocate size = .ok (a, m')) (hlimit : m'.next.toNat ≤ limit) :
    m'.HasBlock a (Array.replicate (max size.toNat 1) 0) := by
  obtain ⟨rfl, hnext, -⟩ := allocate_next h
  have hlength := length_le_heapSpan size
  have hfits : (⟨m.next⟩ : Address).toNat + max size.toNat 1 ≤ m'.next.toNat := by
    rw [hnext]
    exact Nat.add_le_add_left hlength _
  have hmem : ∀ r, r ∈ m'.regions.entries ↔
      r = ⟨⟨m.next⟩, Array.replicate (max size.toNat 1) 0⟩ ∨
        r ∈ m.regions.entries ∧ r.base ≠ ⟨m.next⟩ := by
    intro r
    rw [allocate_regions h, RegionMap.mem_insert]
  refine ⟨(hmem _).2 (.inl rfl), ⟨?_, ?_, fun r hr => ?_⟩⟩
  · rw [Array.size_replicate]
    omega
  · rw [Array.size_replicate]
    exact hfits
  · rw [Array.size_replicate]
    rcases (hmem r).1 hr with rfl | ⟨hr, -⟩
    · exact .inl ⟨rfl, Array.size_replicate⟩
    · rcases hm r hr with hfinish | hbase
      · exact .inr (.inl hfinish)
      · exact .inr (.inr (Nat.le_trans hfits (Nat.le_trans hlimit hbase)))

theorem hasBlock_allocate (hm : m.HeapClear) {size : UInt64}
    (h : m.allocate size = .ok (a, m')) :
    m'.HasBlock a (Array.replicate (max size.toNat 1) 0) :=
  have hclear : m.ClearUpTo m'.next.toNat := fun r hr => .inl (hm r hr)
  hclear.hasBlock_allocate h (Nat.le_refl _)

theorem keepsOthers_allocate {size : UInt64} (h : m.allocate size = .ok (a, m')) :
    m.KeepsOthers a m' := by
  intro r hr hne
  rw [allocate_regions h]
  exact RegionMap.mem_insert.2 (.inr ⟨hr, hne⟩)

namespace HasBlock

theorem below? (h : m.HasBlock a bytes) (hx : a.toNat ≤ x.toNat)
    (hlt : x.toNat < a.toNat + bytes.size) : m.regions.below? x = some ⟨a, bytes⟩ := by
  refine RegionMap.below?_eq_some_iff.2 ⟨h.mem, Address.le_iff_toNat_le.2 hx, fun r hr hle => ?_⟩
  rw [Address.le_iff_toNat_le] at *
  change r.base.toNat ≤ a.toNat
  rcases h.reserves.apart r hr with ⟨rfl, -⟩ | hfinish | hbase
  · exact Nat.le_refl _
  · unfold Region.finish at hfinish
    omega
  · omega

/-- The block is one of the other regions. -/
theorem keeps (h : m.HasBlock a bytes) (hk : m.KeepsOthers b m') (hne : a ≠ b)
    (hr : m'.Reserves a bytes.size) : m'.HasBlock a bytes :=
  ⟨hk _ h.mem hne, hr⟩

theorem write (h : m.HasBlock a bytes) (bs : List UInt8) (hx : a.toNat ≤ x.toNat)
    (hlt : x.toNat < a.toNat + bytes.size) (hfits : x.toNat + bs.length ≤ a.toNat + bytes.size) :
    ∃ m', m.write x bs = .ok m' ∧ m'.HasBlock a (overlay bytes (x.toNat - a.toNat) bs) := by
  have hwrite : m.write x bs = .ok _ := write_of_spans (h.below? hx hlt) ⟨hx, hfits⟩
  refine ⟨_, hwrite, (mem_map_of_mem h.mem _).2 (.inl rfl), ?_⟩
  have hreaches : m.Reaches 0 _ := .of_write hwrite
  rw [size_overlay]
  exact h.reserves.reaches hreaches (Nat.zero_le _)

/-- A write that begins in the block stays in it. -/
theorem of_write (h : m.HasBlock a bytes) (hx : a.toNat ≤ x.toNat)
    (hlt : x.toNat < a.toNat + bytes.size) (hwrite : m.write x bs = .ok m') :
    x.toNat + bs.length ≤ a.toNat + bytes.size ∧
      m'.HasBlock a (overlay bytes (x.toNat - a.toNat) bs) := by
  obtain ⟨r, hr, hs, -⟩ := of_write_ok hwrite
  rw [h.below? hx hlt] at hr
  cases hr
  obtain ⟨m₁, hwrite₁, hblock⟩ := h.write bs hx hlt hs.2
  rw [hwrite₁] at hwrite
  cases hwrite
  exact ⟨hs.2, hblock⟩

theorem read (h : m.HasBlock a bytes) (hn : n ≤ bytes.size) :
    m.read a n = .ok ((bytes.extract 0 n).toList) := by
  have hpos := h.reserves.pos
  have hspans : Region.Spans ⟨a, bytes⟩ a n := ⟨Nat.le_refl _, Nat.add_le_add_left hn _⟩
  rw [read_of_spans (h.below? (Nat.le_refl _) (by omega)) hspans, Region.slice, Nat.sub_self,
    Nat.zero_add]

end HasBlock

theorem Reserves.toNat_add (h : m.Reserves a size) {k : UInt64} (hk : k.toNat < size) :
    (a + k).toNat = a.toNat + k.toNat := by
  have := h.le
  have := m.next.toNat_lt
  unfold Address.toNat at *
  rw [Address.val_add, UInt64.toNat_add]
  omega

theorem HasBlock.readU8 (h : m.HasBlock a bytes) {k : UInt64} {byte : UInt8}
    (hk : bytes[k.toNat]? = some byte) : m.readU8 (a + k) = .ok byte := by
  have hlt : k.toNat < bytes.size := (Array.getElem?_eq_some_iff.1 hk).1
  have ha := h.reserves.toNat_add hlt
  have hspans : Region.Spans ⟨a, bytes⟩ (a + k) 1 := by
    unfold Region.Spans Region.finish
    simp only [ha]
    omega
  have hslice : Region.slice ⟨a, bytes⟩ (a + k) 1 = [byte] := by
    obtain ⟨b, hb⟩ := List.length_eq_one_iff.1 (Region.length_slice hspans)
    have hfirst := Region.getElem?_slice hspans 0
    rw [hb, if_pos Nat.one_pos, ha, Nat.add_zero, Nat.add_sub_cancel_left, hk] at hfirst
    rw [hb, Option.some.inj hfirst]
  have hread : m.read (a + k) 1 = .ok [byte] := by
    rw [read_of_spans (h.below? (by omega) (by omega)) hspans, hslice]
  simp [Memory.readU8, hread, Word.ofBytes, bind, Except.bind, pure, Except.pure]

end Memory

/-! ## What functions do to blocks -/

/-- Its functions act on memory by requests to the heap, which started at `origin`, and by mapping
regions below it. -/
def FunctionTable.UsesHeap (t : FunctionTable) (origin : UInt64) : Prop :=
  ∀ f ∈ t.functions, ∀ c (m : Memory), m.Reaches origin (f c m).2

/-- Called on a block of `size` bytes, the function leaves everything else alone. -/
def NativeFunction.WritesWithin (f : NativeFunction) (size : Nat) : Prop :=
  ∀ (c : Call) (m : Memory) (dest : UInt64) (rest : List UInt64),
    c.args = dest :: rest → m.Reserves ⟨dest⟩ size → m.KeepsOthers ⟨dest⟩ (f c m).2

/-- A call of the function writes once at most, `k` bytes behind its first argument. -/
def NativeFunction.WritesAt (f : NativeFunction) (k : UInt64) : Prop :=
  ∀ (c : Call) (m : Memory), (f c m).2 = m ∨
    ∃ dest rest bs, c.args = dest :: rest ∧ m.write ((⟨dest⟩ : Address) + k) bs = .ok (f c m).2

namespace NativeFunction.WritesAt

variable {f : NativeFunction} {k : UInt64}

theorem reaches {origin : UInt64} (h : f.WritesAt k) (c : Call) (m : Memory) :
    m.Reaches origin (f c m).2 := by
  rcases h c m with h | ⟨_, _, _, -, hwrite⟩
  · exact h.symm ▸ .refl
  · exact .of_write hwrite

theorem live_eq (h : f.WritesAt k) (c : Call) (m : Memory) : (f c m).2.live = m.live := by
  rcases h c m with h | ⟨_, _, _, -, hwrite⟩
  · rw [h]
  · exact Memory.write_live hwrite

theorem writesWithin {size : Nat} (h : f.WritesAt k) (hk : k.toNat < size) :
    f.WritesWithin size := by
  intro c m dest rest hargs hm
  rcases h c m with h | ⟨dest', rest', bs, hargs', hwrite⟩
  · exact h.symm ▸ fun _ hr _ => hr
  · rw [hargs] at hargs'
    cases hargs'
    have := hm.toNat_add hk
    exact hm.keepsOthers (by omega) (by omega) hwrite

end NativeFunction.WritesAt

namespace StandIn

theorem writesAt_copyBytes (n : Nat) : NativeFunction.WritesAt (copyBytes n) 0 := by
  intro c m
  match hargs : c.args with
  | [dest, src, md] =>
    have hdest : (⟨dest⟩ : Address) + (0 : UInt64) = ⟨dest⟩ := congrArg Address.mk (by simp)
    rw [run_copyBytes hargs]
    rcases m.read ⟨src⟩ n with e | bs
    · exact .inl rfl
    · rcases hwrite : m.write ⟨dest⟩ bs with e | m'
      · simp [hwrite]
      · simp only [hwrite]
        exact .inr ⟨dest, _, bs, rfl, hdest.symm ▸ hwrite⟩
  | [] | [_] | [_, _] | _ :: _ :: _ :: _ :: _ =>
    refine .inl ?_
    unfold copyBytes ofBody
    simp only [hargs]
    rfl

theorem writesAt_setByteTag (k : UInt64) : NativeFunction.WritesAt (setByteTag k) k := by
  intro c m
  match hargs : c.args with
  | [dest, tag, md] =>
    rw [run_setByteTag hargs]
    rcases hwrite : m.write ((⟨dest⟩ : Address) + k) [tag.toUInt8] with e | m'
    · exact .inl rfl
    · exact .inr ⟨dest, _, _, rfl, hwrite⟩
  | [] | [_] | [_, _] | _ :: _ :: _ :: _ :: _ =>
    refine .inl ?_
    unfold setByteTag ofBody
    simp only [hargs]
    rfl

/-- Whatever the function reads, it writes nothing. -/
theorem writesAt_byteTag (k l : UInt64) : NativeFunction.WritesAt (byteTag k) l := by
  intro c m
  refine .inl ?_
  match hargs : c.args with
  | [value, md] =>
    rw [run_byteTag hargs]
    cases m.readU8 ((⟨value⟩ : Address) + k) <;> rfl
  | [] | [_] | _ :: _ :: _ :: _ =>
    unfold byteTag ofBody
    simp only [hargs]
    rfl

end StandIn

end TypeMetadata
