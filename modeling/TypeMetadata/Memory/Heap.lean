import TypeMetadata.Memory.Basic

/-!
# The heap

Blocks are handed out one after another and never again: each takes a whole number of granules from
`next` on, and freeing one unmaps it without giving its addresses back. `allocate_next` and
`free_live` say how the two operations move the heap's state.
-/

namespace TypeMetadata.Memory

/-- Blocks start this many bytes apart, or a multiple of it. -/
def heapGranule : Nat := 16

/-- How far the heap moves on for a block of `size` bytes. -/
def heapSpan (size : UInt64) : Nat :=
  (max size.toNat 1 + (heapGranule - 1)) / heapGranule * heapGranule

theorem length_le_heapSpan (size : UInt64) : max size.toNat 1 ≤ heapSpan size := by
  unfold heapSpan heapGranule
  omega

theorem heapSpan_mod (size : UInt64) : heapSpan size % heapGranule = 0 := Nat.mul_mod_left ..

theorem lt_add_heapSpan {next size : UInt64}
    (h : next.toNat + heapSpan size < 0x10000000000000000) :
    next < next + UInt64.ofNat (heapSpan size) := by
  have hspan : 0 < heapSpan size := by
    unfold heapSpan heapGranule
    omega
  rw [UInt64.lt_iff_toNat_lt, UInt64.toNat_add, UInt64.toNat_ofNat']
  omega

/-- A new block of `size` zeros, of one byte at least. Only the end of the address space bounds it:
a host that cannot hold more than `0x7fffffffffffffff` bytes in one piece, and so gives no answer to
a larger request, is not modelled. -/
def allocate (m : Memory) (size : UInt64) : Except MemoryError (Address × Memory) :=
  let base : Address := ⟨m.next⟩
  if h : m.next.toNat + heapSpan size < 0x10000000000000000 then
    .ok (base, {
      regions := m.regions.insert ⟨base, Array.replicate (max size.toNat 1) 0⟩
      next := m.next + UInt64.ofNat (heapSpan size)
      live := base :: m.live
      live_lt := List.forall_mem_cons.2
        ⟨lt_add_heapSpan h, fun a ha => UInt64.lt_trans (m.live_lt a ha) (lt_add_heapSpan h)⟩
      live_nodup := List.nodup_cons.2
        ⟨fun ha => UInt64.lt_irrefl _ (m.live_lt _ ha), m.live_nodup⟩ })
  else .error (.outOfMemory size)

/-- Release the live block that starts at `a`. -/
def free (m : Memory) (a : Address) : Except MemoryError Memory :=
  if a ∈ m.live then
    .ok { m with
      regions := m.regions.erase a
      live := m.live.erase a
      live_lt := fun b hb => m.live_lt b (List.mem_of_mem_erase hb)
      live_nodup := m.live_nodup.erase a }
  else .error (.invalidFree a)

/-- How many blocks are not yet freed. -/
def liveCount (m : Memory) : Nat := m.live.length

theorem allocate_next {m m' : Memory} {size : UInt64} {a : Address}
    (h : m.allocate size = .ok (a, m')) :
    a = ⟨m.next⟩ ∧ m'.next.toNat = m.next.toNat + heapSpan size ∧ m'.live = a :: m.live := by
  unfold allocate at h
  simp only at h
  split at h
  · next hlt =>
    obtain ⟨rfl, rfl⟩ := Prod.mk.inj (Except.ok.inj h)
    refine ⟨rfl, ?_, rfl⟩
    simp only [UInt64.toNat_add, UInt64.toNat_ofNat']
    omega
  · cases h

theorem allocate_regions {m m' : Memory} {size : UInt64} {a : Address}
    (h : m.allocate size = .ok (a, m')) :
    m'.regions = m.regions.insert ⟨a, Array.replicate (max size.toNat 1) 0⟩ := by
  unfold allocate at h
  simp only at h
  split at h
  · obtain ⟨rfl, rfl⟩ := Prod.mk.inj (Except.ok.inj h)
    rfl
  · cases h

theorem allocate_eq_error {m : Memory} {size : UInt64} {e : MemoryError}
    (h : m.allocate size = .error e) : e = .outOfMemory size := by
  unfold allocate at h
  simp only at h
  split at h
  · cases h
  · exact (Except.error.inj h).symm

theorem free_eq_ok_iff {m : Memory} {a : Address} : (∃ m', m.free a = .ok m') ↔ a ∈ m.live := by
  unfold free
  split <;> simp_all

theorem free_eq_error {m : Memory} {a : Address} (h : a ∉ m.live) :
    m.free a = .error (.invalidFree a) := if_neg h

theorem free_regions {m m' : Memory} {a : Address} (h : m.free a = .ok m') :
    m'.regions = m.regions.erase a := by
  unfold free at h
  split at h
  · cases Except.ok.inj h
    rfl
  · cases h

theorem free_live {m m' : Memory} {a : Address} (h : m.free a = .ok m') :
    a ∈ m.live ∧ m'.live = m.live.erase a ∧ m'.next = m.next := by
  unfold free at h
  split at h
  · next hmem => cases Except.ok.inj h; exact ⟨hmem, rfl, rfl⟩
  · cases h

end TypeMetadata.Memory
