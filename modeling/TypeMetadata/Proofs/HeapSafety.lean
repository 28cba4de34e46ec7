import Mathlib.Data.List.Perm.Basic
import TypeMetadata.Memory.Heap
import TypeMetadata.Proofs.ByteStore

/-!
# Safety of the heap

A run of requests to the heap, with what it returned and what it took back. `HeapRun.Invariant`
relates the three places where the heap keeps its state, the next address, the live blocks and the
mapped regions, to the blocks of the run: each request keeps it (`Invariant.next`), and so does a
run (`Invariant.after`). `HeapRun.safe_after` is what it amounts to. A block is never returned twice
and shares no byte with anything else that was ever mapped, and one that was freed is gone for good.
-/

namespace TypeMetadata

/-- A block that the heap has returned. One of no bytes takes up one. -/
structure HeapBlock where
  start : Address
  size : UInt64
deriving DecidableEq

namespace HeapBlock

def length (b : HeapBlock) : Nat := max b.size.toNat 1

def finish (b : HeapBlock) : Nat := b.start.toNat + b.length

/-- The address `x` belongs to the block. -/
def Has (b : HeapBlock) (x : Nat) : Prop := b.start.toNat ≤ x ∧ x < b.finish

theorem start_lt_finish (b : HeapBlock) : b.start.toNat < b.finish := by
  unfold finish length
  omega

end HeapBlock

/-- All that is mapped lies below the blocks to come. -/
def Memory.HeapClear (m : Memory) : Prop := ∀ r ∈ m.regions.entries, r.finish ≤ m.next.toNat

inductive HeapRequest where
  | allocate (size : UInt64)
  | free (a : Address)
  | read (a : Address) (n : Nat)
  | write (a : Address) (bs : List UInt8)

/-- A run of requests: the memory now, the blocks that were returned, and where those started that
have been freed. -/
structure HeapRun where
  memory : Memory
  returned : List HeapBlock := []
  released : List Address := []

namespace HeapRun

/-- The run with one more request, which changes nothing if it fails. -/
def next (s : HeapRun) : HeapRequest → HeapRun
  | .allocate size =>
    match s.memory.allocate size with
    | .ok (a, memory) => { s with memory, returned := ⟨a, size⟩ :: s.returned }
    | .error _ => s
  | .free a =>
    match s.memory.free a with
    | .ok memory => { s with memory, released := a :: s.released }
    | .error _ => s
  | .read _ _ => s
  | .write a bs =>
    match s.memory.write a bs with
    | .ok memory => { s with memory }
    | .error _ => s

def after (s : HeapRun) (requests : List HeapRequest) : HeapRun := requests.foldl next s

/-- The block was returned and has been freed. -/
def Freed (s : HeapRun) (b : HeapBlock) : Prop := b ∈ s.returned ∧ b.start ∈ s.released

/-- The block was returned and has not been freed. -/
def Live (s : HeapRun) (b : HeapBlock) : Prop := b ∈ s.returned ∧ b.start ∉ s.released

instance (s : HeapRun) (b : HeapBlock) : Decidable (s.Freed b) :=
  inferInstanceAs (Decidable (_ ∧ _))

instance (s : HeapRun) (b : HeapBlock) : Decidable (s.Live b) :=
  inferInstanceAs (Decidable (_ ∧ _))

/-- How the heap, which started at `origin`, and the regions stand to the blocks of the run. -/
structure Invariant (origin : UInt64) (s : HeapRun) : Prop where
  clear : s.memory.HeapClear
  bounded : ∀ b ∈ s.returned, b.finish ≤ s.memory.next.toNat
  balance : (s.returned.map HeapBlock.start).Perm (s.memory.live ++ s.released)
  nodup : (s.returned.map HeapBlock.start).Nodup
  /-- The region of a block goes with it, and no other region meets it. -/
  apart : ∀ b ∈ s.returned, ∀ r ∈ s.memory.regions.entries,
    r.base = b.start ∧ r.bytes.size = b.length ∧ b.start ∈ s.memory.live ∨
      ∀ x, b.Has x → ¬r.Has x
  granule : s.memory.next.toNat % Memory.heapGranule = origin.toNat % Memory.heapGranule

namespace Invariant

variable {origin : UInt64} {s : HeapRun} {m : Memory} {a : Address}

theorem allocate (h : s.Invariant origin) {size : UInt64}
    (ha : s.memory.allocate size = .ok (a, m)) :
    Invariant origin { s with memory := m, returned := ⟨a, size⟩ :: s.returned } := by
  obtain ⟨rfl, hnext, hlive⟩ := Memory.allocate_next ha
  have hlength := Memory.length_le_heapSpan size
  have hregions : ∀ r, r ∈ m.regions.entries →
      r = ⟨⟨s.memory.next⟩, Array.replicate (max size.toNat 1) 0⟩ ∨
        r ∈ s.memory.regions.entries := by
    intro r hr
    rw [Memory.allocate_regions ha, RegionMap.mem_insert] at hr
    exact hr.imp_right And.left
  refine ⟨fun r hr => ?_, fun b hb => ?_, ?_, ?_, fun b hb r hr => ?_, ?_⟩
  · rcases hregions r hr with rfl | hr
    · simp only [Region.finish, Address.toNat, Array.size_replicate]
      omega
    · have := h.clear r hr
      simp only
      omega
  · rcases List.mem_cons.1 hb with rfl | hb
    · simp only [HeapBlock.finish, HeapBlock.length, Address.toNat]
      omega
    · have := h.bounded b hb
      simp only
      omega
  · simp only [hlive, List.map_cons, List.cons_append]
    exact h.balance.cons _
  · simp only [List.map_cons, List.nodup_cons]
    refine ⟨fun hmem => ?_, h.nodup⟩
    -- every block so far ends at or below the new one
    obtain ⟨b, hb, hstart⟩ := List.mem_map.1 hmem
    have hbound := h.bounded b hb
    have hlt : s.memory.next.toNat < b.finish := by
      have hlt := b.start_lt_finish
      rwa [hstart] at hlt
    omega
  · simp only [hlive]
    rcases List.mem_cons.1 hb with rfl | hb <;> rcases hregions r hr with rfl | hr
    · exact .inl ⟨rfl, Array.size_replicate, List.mem_cons_self⟩
    · refine .inr fun x hx hrx => ?_
      have := h.clear r hr
      simp only [HeapBlock.Has, Region.Has, Address.toNat] at *
      omega
    · refine .inr fun x hx hrx => ?_
      have := h.bounded b hb
      simp only [HeapBlock.Has, Region.Has, Address.toNat] at *
      omega
    · refine (h.apart b hb r hr).imp_left ?_
      rintro ⟨hbase, hsize, hmem⟩
      exact ⟨hbase, hsize, List.mem_cons_of_mem _ hmem⟩
  · have hspan := Memory.heapSpan_mod size
    have := h.granule
    simp only [Memory.heapGranule] at *
    omega

theorem free (h : s.Invariant origin) (ha : s.memory.free a = .ok m) :
    Invariant origin { s with memory := m, released := a :: s.released } := by
  obtain ⟨hmem, hlive, hnext⟩ := Memory.free_live ha
  have hregions : ∀ r, r ∈ m.regions.entries → r ∈ s.memory.regions.entries ∧ r.base ≠ a := by
    intro r hr
    rwa [Memory.free_regions ha, RegionMap.mem_erase] at hr
  refine ⟨fun r hr => ?_, fun b hb => ?_, ?_, h.nodup, fun b hb r hr => ?_, ?_⟩
  · exact hnext ▸ h.clear r (hregions r hr).1
  · exact hnext ▸ h.bounded b hb
  · refine h.balance.trans ?_
    simp only [hlive]
    exact ((List.perm_cons_erase hmem).append_right _).trans List.perm_middle.symm
  · obtain ⟨hr, hne⟩ := hregions r hr
    refine (h.apart b hb r hr).imp_left ?_
    rintro ⟨hbase, hsize, hmem⟩
    refine ⟨hbase, hsize, ?_⟩
    simp only [hlive]
    exact (List.mem_erase_of_ne fun heq => hne (hbase.trans heq)).2 hmem
  · exact hnext ▸ h.granule

theorem write (h : s.Invariant origin) {bs : List UInt8} (ha : s.memory.write a bs = .ok m) :
    Invariant origin { s with memory := m } := by
  have hlive := Memory.write_live ha
  have hnext := Memory.write_next ha
  refine ⟨fun r hr => ?_, fun b hb => ?_, ?_, h.nodup, fun b hb r hr => ?_, ?_⟩
  · obtain ⟨t, ht, hbase, hsize⟩ := Memory.of_mem_write ha hr
    have := h.clear t ht
    simp only [Region.finish, hbase, hsize, hnext]
    exact this
  · exact hnext ▸ h.bounded b hb
  · exact hlive ▸ h.balance
  · obtain ⟨t, ht, hbase, hsize⟩ := Memory.of_mem_write ha hr
    have := h.apart b hb t ht
    simp only [Region.Has, Region.finish, hbase, hsize, hlive]
    exact this
  · exact hnext ▸ h.granule

theorem next (h : s.Invariant origin) (q : HeapRequest) : (s.next q).Invariant origin := by
  cases q with
  | allocate size =>
    rcases ha : s.memory.allocate size with e | ⟨a, m⟩ <;> simp only [HeapRun.next, ha]
    · exact h
    · exact h.allocate ha
  | free a =>
    rcases ha : s.memory.free a with e | m <;> simp only [HeapRun.next, ha]
    · exact h
    · exact h.free ha
  | read => exact h
  | write a bs =>
    rcases ha : s.memory.write a bs with e | m <;> simp only [HeapRun.next, ha]
    · exact h
    · exact h.write ha

theorem after (h : s.Invariant origin) (requests : List HeapRequest) :
    (s.after requests).Invariant origin := by
  induction requests generalizing s with
  | nil => exact h
  | cons q requests ih => exact ih (h.next q)

/-! ### What it amounts to -/

theorem live_iff (h : s.Invariant origin) : a ∈ s.memory.live ↔ ∃ b, s.Live b ∧ b.start = a := by
  have hnodup := List.nodup_append.1 (h.balance.nodup_iff.1 h.nodup)
  constructor
  · intro ha
    obtain ⟨b, hb, rfl⟩ := List.mem_map.1 (h.balance.mem_iff.2 (List.mem_append_left _ ha))
    exact ⟨b, ⟨hb, fun hr => hnodup.2.2 _ ha _ hr rfl⟩, rfl⟩
  · rintro ⟨b, ⟨hb, hr⟩, rfl⟩
    have hmem := h.balance.mem_iff.1 (List.mem_map_of_mem hb)
    exact (List.mem_append.1 hmem).resolve_right hr

theorem count (h : s.Invariant origin) :
    s.memory.liveCount + s.released.length = s.returned.length := by
  have hlength := h.balance.length_eq
  rw [List.length_map, List.length_append] at hlength
  exact hlength.symm

/-- No region is left where a block has been freed. -/
theorem not_spans_of_freed (h : s.Invariant origin) {b : HeapBlock} (hb : s.Freed b) {x : Address}
    {n k : Nat} (hk : k < n) (hx : b.Has (x.toNat + k)) (r : Region)
    (hr : s.memory.regions.below? x = some r) : ¬r.Spans x n := by
  intro hspans
  rcases h.apart b hb.1 r (RegionMap.below?_eq_some_iff.1 hr).1 with ⟨-, -, hlive⟩ | hapart
  · obtain ⟨c, hc, hstart⟩ := h.live_iff.1 hlive
    exact hc.2 (hstart ▸ hb.2)
  · refine hapart _ hx ?_
    unfold Region.Spans Region.Has at *
    omega

/-- Only what is read of the block itself is lost with it. -/
theorem read_of_free (h : s.Invariant origin) {b : HeapBlock} (hb : b ∈ s.returned)
    (ha : s.memory.free b.start = .ok m) {x : Address} {n : Nat} (hn : 0 < n)
    (hx : ∀ k < n, ¬b.Has (x.toNat + k)) : m.read x n = s.memory.read x n := by
  have hmem : ∀ r, r ∈ m.regions.entries ↔
      r ∈ s.memory.regions.entries ∧ r.base ≠ b.start := by
    intro r
    rw [Memory.free_regions ha, RegionMap.mem_erase]
  refine Memory.read_congr fun r hs => ?_
  rw [RegionMap.below?_eq_some_iff, RegionMap.below?_eq_some_iff]
  unfold Region.Spans at hs
  constructor
  · rintro ⟨hr, hrx, hmax⟩
    obtain ⟨hr, hne⟩ := (hmem r).1 hr
    refine ⟨hr, hrx, fun t ht htx => ?_⟩
    by_cases hstart : t.base = b.start
    · -- below the block, `r` would reach into it
      rcases h.apart b hb r hr with ⟨hbase, -, -⟩ | hapart
      · exact absurd hbase hne
      · have hb := hapart b.start.toNat ⟨Nat.le_refl _, b.start_lt_finish⟩
        have hbase := congrArg Address.toNat hstart
        rw [Address.le_iff_toNat_le] at *
        unfold Region.Has at hb
        omega
    · exact hmax t ((hmem t).2 ⟨ht, hstart⟩) htx
  · rintro ⟨hr, hrx, hmax⟩
    refine ⟨(hmem r).2 ⟨hr, fun hbase => ?_⟩, hrx, fun t ht => hmax t ((hmem t).1 ht).1⟩
    have hbase := congrArg Address.toNat hbase
    rcases h.apart b hb r hr with ⟨-, hsize, -⟩ | hapart
    · -- the region of the block is no larger than the block
      have hx := hx 0 hn
      unfold HeapBlock.Has HeapBlock.finish at hx
      unfold Region.finish at hs
      omega
    · refine hapart b.start.toNat ⟨Nat.le_refl _, b.start_lt_finish⟩ ?_
      unfold Region.Has
      omega

end Invariant

theorem Freed.next {s : HeapRun} {b : HeapBlock} (h : s.Freed b) (q : HeapRequest) :
    (s.next q).Freed b := by
  unfold HeapRun.next
  repeat' split
  all_goals exact ⟨by simp [h.1], by simp [h.2]⟩

theorem Freed.after {s : HeapRun} {b : HeapBlock} (h : s.Freed b) (requests : List HeapRequest) :
    (s.after requests).Freed b := by
  induction requests generalizing s with
  | nil => exact h
  | cons q requests ih => exact ih (h.next q)

/-- The block is new and holds zeros in `m`, the memory with it. -/
structure Fresh (s : HeapRun) (b : HeapBlock) (m : Memory) : Prop where
  fits : b.finish ≤ 0x10000000000000000
  unmapped : ∀ r ∈ s.memory.regions.entries, ∀ x, b.Has x → ¬r.Has x
  unused : ∀ c ∈ s.returned, ∀ x, b.Has x → ¬c.Has x
  zeros : m.read b.start b.length = .ok (List.replicate b.length 0)

/-- What a user of the heap, which started at `origin`, can rely on after a run. -/
structure Safe (origin : UInt64) (s : HeapRun) : Prop where
  allocate : ∀ size a m, s.memory.allocate size = .ok (a, m) →
    s.Fresh ⟨a, size⟩ m ∧ (origin.toNat % 16 = 0 → a.toNat % 16 = 0)
  allocate_error : ∀ size e, s.memory.allocate size = .error e →
    e = .outOfMemory size ∧ s.next (.allocate size) = s
  free_iff : ∀ a, (∃ m, s.memory.free a = .ok m) ↔ ∃ b, s.Live b ∧ b.start = a
  free_error : ∀ a e, s.memory.free a = .error e → e = .invalidFree a ∧ s.next (.free a) = s
  free_only : ∀ b, s.Live b → ∀ m, s.memory.free b.start = .ok m →
    m.live = s.memory.live.erase b.start ∧
      ∀ x n, 0 < n → (∀ k < n, ¬b.Has (x.toNat + k)) → m.read x n = s.memory.read x n
  count : s.memory.liveCount + s.released.length = s.returned.length
  freed : ∀ b, s.Freed b → ∀ requests,
    (s.after requests).memory.free b.start = .error (.invalidFree b.start) ∧
      ∀ x n, (∃ k < n, b.Has (x.toNat + k)) →
        (s.after requests).memory.read x n = .error (.unmapped x n) ∧
          ∀ bs, bs.length = n → (s.after requests).memory.write x bs = .error (.unmapped x n)

namespace Invariant

variable {origin : UInt64} {s : HeapRun}

theorem fresh (h : s.Invariant origin) {size : UInt64} {a : Address} {m : Memory}
    (ha : s.memory.allocate size = .ok (a, m)) : s.Fresh ⟨a, size⟩ m := by
  obtain ⟨rfl, hnext, -⟩ := Memory.allocate_next ha
  have hlength := Memory.length_le_heapSpan size
  have hlt := m.next.toNat_lt
  refine ⟨?_, fun r hr x hx hrx => ?_, fun c hc x hx hcx => ?_, ?_⟩
  · simp only [HeapBlock.finish, HeapBlock.length, Address.toNat]
    omega
  · have := h.clear r hr
    simp only [HeapBlock.Has, Region.Has, Address.toNat] at *
    omega
  · have := h.bounded c hc
    simp only [HeapBlock.Has, Address.toNat] at *
    omega
  · have hbelow : m.regions.below? ⟨s.memory.next⟩ =
        some ⟨⟨s.memory.next⟩, Array.replicate (max size.toNat 1) 0⟩ := by
      rw [Memory.allocate_regions ha]
      exact RegionMap.below?_eq_some_iff.2
        ⟨RegionMap.mem_insert.2 (.inl rfl), UInt64.le_refl _, fun _ _ hle => hle⟩
    rw [Memory.read_of_spans hbelow (by simp [Region.Spans, Region.finish, HeapBlock.length])]
    simp [Region.slice, HeapBlock.length]

theorem safe (h : s.Invariant origin) : s.Safe origin where
  allocate size a m ha := by
    refine ⟨h.fresh ha, fun horigin => ?_⟩
    obtain ⟨rfl, -, -⟩ := Memory.allocate_next ha
    exact h.granule.trans horigin
  allocate_error size e ha := ⟨Memory.allocate_eq_error ha, by simp only [HeapRun.next, ha]⟩
  free_iff a := Memory.free_eq_ok_iff.trans h.live_iff
  free_error a e ha := by
    refine ⟨?_, by simp only [HeapRun.next, ha]⟩
    have hlive : a ∉ s.memory.live := by
      rw [← Memory.free_eq_ok_iff, ha]
      exact nofun
    rw [Memory.free_eq_error hlive] at ha
    exact (Except.error.inj ha).symm
  free_only b hb m ha := ⟨(Memory.free_live ha).2.1, fun _ _ => h.read_of_free hb.1 ha⟩
  count := h.count
  freed b hb requests := by
    have h := h.after requests
    have hb := hb.after requests
    refine ⟨Memory.free_eq_error fun hlive => ?_, fun x n ⟨k, hk, hx⟩ => ?_⟩
    · obtain ⟨c, hc, hstart⟩ := h.live_iff.1 hlive
      exact hc.2 (hstart ▸ hb.2)
    · have hgone := h.not_spans_of_freed hb hk hx
      exact ⟨Memory.read_of_not_spans hgone,
        fun bs hbs => hbs ▸ Memory.write_of_not_spans (hbs ▸ hgone)⟩

end Invariant

/-- The run that starts with `m`. -/
def start (m : Memory) : HeapRun := { memory := m }

/-- Whatever is asked of a heap that starts behind all that is mapped, it stays safe. -/
theorem safe_after (m : Memory) (clear : m.HeapClear) (fresh : m.live = [])
    (requests : List HeapRequest) : ((start m).after requests).Safe m.next := by
  have hstart : (start m).Invariant m.next :=
    ⟨clear, nofun, by simp [start, fresh], .nil, nofun, rfl⟩
  exact (hstart.after requests).safe

/-- A block of no bytes, freed twice, and another one after it. -/
theorem safe_after_free_twice :
    let m := (Memory.empty Memory.defaultHeapBase).mapZero ⟨0x1000⟩ 8
    let s := (start m).after [.allocate 20, .allocate 0, .allocate 1, .write ⟨0x60000020⟩ [7],
      .free ⟨0x60000020⟩, .free ⟨0x60000020⟩, .allocate 0]
    m.HeapClear ∧ m.live = [] ∧ s.Safe 0x60000000 ∧
      s.Freed ⟨⟨0x60000020⟩, 0⟩ ∧ s.Live ⟨⟨0x60000040⟩, 0⟩ := by
  intro m s
  have clear : m.HeapClear := by
    unfold Memory.HeapClear
    decide
  exact ⟨clear, rfl, safe_after m clear rfl _, by decide +kernel, by decide +kernel⟩

end HeapRun

end TypeMetadata
