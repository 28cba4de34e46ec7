import Mathlib.Tactic.ByContra
import TypeMetadata.Proofs.Inspection

/-!
# Memory as a store of bytes

An access goes to the nearest region at or below its address. If the regions are not empty, do not
wrap and share no address (`Memory.Separate`), then memory is one store of bytes: an access succeeds
exactly if one region has all the bytes, what is read is what the single bytes are, and a write
changes the bytes it was given and no others. Words are no more than their bytes, so whatever is
said of bytes holds of words, and words of different widths agree (`Memory.byte_store`).
-/

namespace TypeMetadata

namespace Region

/-- The address `x` belongs to the region. -/
def Has (r : Region) (x : Nat) : Prop := r.base.toNat ≤ x ∧ x < r.finish

/-- The `n` bytes at `a` lie inside the region. -/
def Spans (r : Region) (a : Address) (n : Nat) : Prop :=
  r.base.toNat ≤ a.toNat ∧ a.toNat + n ≤ r.finish

/-- The `n` bytes that the region has at `a`. -/
def slice (r : Region) (a : Address) (n : Nat) : List UInt8 :=
  (r.bytes.extract (a.toNat - r.base.toNat) (a.toNat - r.base.toNat + n)).toList

/-- The region with `bs` at `a`. -/
def patched (r : Region) (a : Address) (bs : List UInt8) : Region :=
  ⟨r.base, overlay r.bytes (a.toNat - r.base.toNat) bs⟩

variable {r : Region} {a b : Address} {n k : Nat} {bs : List UInt8}

theorem offset?_eq_some_iff :
    r.offset? a n = some k ↔ r.Spans a n ∧ k = a.toNat - r.base.toNat := by
  unfold offset? Spans finish
  simp only [Address.le_iff_toNat_le]
  constructor
  · intro h
    split at h
    · simp only [Option.some.injEq] at h
      omega
    · simp at h
  · rintro ⟨hs, rfl⟩
    rw [if_pos (by omega)]

theorem length_slice (h : r.Spans a n) : (r.slice a n).length = n := by
  unfold Spans finish at h
  simp only [slice, Array.length_toList, Array.size_extract]
  omega

theorem getElem?_slice (h : r.Spans a n) (k : Nat) :
    (r.slice a n)[k]? = if k < n then r.bytes[a.toNat + k - r.base.toNat]? else none := by
  unfold Spans finish at h
  simp only [slice, Array.getElem?_toList, Array.getElem?_extract]
  by_cases hk : k < n
  · rw [if_pos (by omega), if_pos hk]
    congr 1
    omega
  · rw [if_neg (by omega), if_neg hk]

@[simp] theorem finish_patched : (r.patched a bs).finish = r.finish := by
  simp [finish, patched]

theorem spans_patched : (r.patched a bs).Spans b n ↔ r.Spans b n := by
  simp [Spans, patched, finish]

end Region

/-- `bs`, which stand at `b`, once `patch` has been written at `a`. -/
def overlaid (bs : List UInt8) (b : Address) (patch : List UInt8) (a : Address) : List UInt8 :=
  bs.mapIdx fun k x =>
    if a.toNat ≤ b.toNat + k then patch.getD (b.toNat + k - a.toNat) x else x

theorem Region.slice_patched {r : Region} {a b : Address} {n : Nat} {patch : List UInt8}
    (ha : r.Spans a patch.length) (hb : r.Spans b n) :
    (r.patched a patch).slice b n = overlaid (r.slice b n) b patch a := by
  apply List.ext_getElem?
  intro k
  rw [getElem?_slice (spans_patched.2 hb), overlaid, List.getElem?_mapIdx, getElem?_slice hb]
  unfold Spans finish at ha hb
  by_cases hk : k < n
  · have hlt : b.toNat + k - r.base.toNat < r.bytes.size := by omega
    simp only [patched, if_pos hk, getElem?_overlay]
    rw [Array.getElem?_eq_getElem hlt, Option.map_some]
    split
    · rw [if_pos (by omega), show b.toNat + k - r.base.toNat - (a.toNat - r.base.toNat)
        = b.toNat + k - a.toNat by omega, List.getD_eq_getElem?_getD,
        List.getElem?_eq_getElem (by omega), Option.getD_some]
    · split
      · rw [List.getD_eq_getElem?_getD, List.getElem?_eq_none (by omega), Option.getD_none]
      · rfl
  · simp [if_neg hk]

namespace Memory

/-- One region has the `n` bytes at `a`. -/
def Maps (m : Memory) (a : Address) (n : Nat) : Prop := ∃ r ∈ m.regions.entries, r.Spans a n

/-- The regions are not empty, end within the address space and share no address. -/
structure Separate (m : Memory) : Prop where
  nonempty : ∀ r ∈ m.regions.entries, 0 < r.bytes.size
  fits : ∀ r ∈ m.regions.entries, r.finish ≤ 0x10000000000000000
  disjoint : ∀ r ∈ m.regions.entries, ∀ s ∈ m.regions.entries, ∀ x, r.Has x → s.Has x → r = s

variable {m m' : Memory} {a b : Address} {n k : Nat} {bs : List UInt8} {r : Region}

/-! ## The region of an access -/

theorem locate_eq_ok_iff : m.locate a n = .ok (r, k) ↔
    m.regions.below? a = some r ∧ r.Spans a n ∧ k = a.toNat - r.base.toNat := by
  rw [← Region.offset?_eq_some_iff]
  unfold locate
  rcases m.regions.below? a with _ | s
  · simp
  · simp only [Option.some.injEq]
    rcases hs : s.offset? a n with _ | l
    · simp only [reduceCtorEq, false_iff]
      rintro ⟨rfl, h⟩
      simp [hs] at h
    · simp only [Except.ok.injEq, Prod.mk.injEq]
      constructor
      · rintro ⟨rfl, rfl⟩
        exact ⟨rfl, hs⟩
      · rintro ⟨rfl, h⟩
        rw [hs] at h
        exact ⟨rfl, Option.some.inj h⟩

theorem locate_eq_error {e : MemoryError} (h : m.locate a n = .error e) : e = .unmapped a n := by
  unfold locate at h
  split at h
  · simpa using h.symm
  · split at h
    · simpa using h.symm
    · simp at h

theorem locate_of_spans (hr : m.regions.below? a = some r) (hs : r.Spans a n) :
    m.locate a n = .ok (r, a.toNat - r.base.toNat) :=
  locate_eq_ok_iff.2 ⟨hr, hs, rfl⟩

theorem locate_of_not_spans (h : ∀ r, m.regions.below? a = some r → ¬r.Spans a n) :
    m.locate a n = .error (.unmapped a n) := by
  rcases hl : m.locate a n with e | ⟨r, k⟩
  · rw [locate_eq_error hl]
  · obtain ⟨hr, hs, -⟩ := locate_eq_ok_iff.1 hl
    exact absurd hs (h r hr)

theorem read_of_spans (hr : m.regions.below? a = some r) (hs : r.Spans a n) :
    m.read a n = .ok (r.slice a n) := by
  unfold read
  rw [locate_of_spans hr hs]
  rfl

theorem read_of_not_spans (h : ∀ r, m.regions.below? a = some r → ¬r.Spans a n) :
    m.read a n = .error (.unmapped a n) := by
  unfold read
  rw [locate_of_not_spans h]
  rfl

theorem of_read_ok (h : m.read a n = .ok bs) :
    ∃ r, m.regions.below? a = some r ∧ r.Spans a n ∧ bs = r.slice a n := by
  unfold read at h
  rcases hl : m.locate a n with e | ⟨r, k⟩ <;> rw [hl] at h
  · cases h
  · cases h
    obtain ⟨hr, hs, rfl⟩ := locate_eq_ok_iff.1 hl
    exact ⟨r, hr, hs, rfl⟩

theorem length_of_read (h : m.read a n = .ok bs) : bs.length = n := by
  obtain ⟨r, -, hs, rfl⟩ := of_read_ok h
  exact Region.length_slice hs

/-- The region that has the bytes is all that a read depends on. -/
theorem read_congr (h : ∀ r, r.Spans a n →
      (m.regions.below? a = some r ↔ m'.regions.below? a = some r)) : m.read a n = m'.read a n := by
  by_cases hex : ∃ r, m.regions.below? a = some r ∧ r.Spans a n
  · obtain ⟨r, hr, hs⟩ := hex
    rw [read_of_spans hr hs, read_of_spans ((h r hs).1 hr) hs]
  · rw [read_of_not_spans fun r hr hs => hex ⟨r, hr, hs⟩,
      read_of_not_spans fun r hr hs => hex ⟨r, (h r hs).2 hr, hs⟩]

theorem write_of_spans (hr : m.regions.below? a = some r) (hs : r.Spans a bs.length) :
    m.write a bs = .ok (m.map r.base (r.patched a bs).bytes) := by
  unfold write
  rw [locate_of_spans hr hs]
  rfl

theorem write_of_not_spans (h : ∀ r, m.regions.below? a = some r → ¬r.Spans a bs.length) :
    m.write a bs = .error (.unmapped a bs.length) := by
  unfold write
  rw [locate_of_not_spans h]
  rfl

theorem of_write_ok (h : m.write a bs = .ok m') : ∃ r, m.regions.below? a = some r ∧
    r.Spans a bs.length ∧ m' = m.map r.base (r.patched a bs).bytes := by
  unfold write at h
  rcases hl : m.locate a bs.length with e | ⟨r, k⟩ <;> rw [hl] at h
  · cases h
  · cases h
    obtain ⟨hr, hs, rfl⟩ := locate_eq_ok_iff.1 hl
    exact ⟨r, hr, hs, rfl⟩

/-- Where no region has the bytes, there is nothing to read or to write. -/
theorem not_spans_of_not_maps (h : ¬m.Maps a n) (r : Region)
    (hr : m.regions.below? a = some r) : ¬r.Spans a n :=
  fun hs => h ⟨r, (RegionMap.below?_eq_some_iff.1 hr).1, hs⟩

/-! ## What a write does to the regions -/

/-- Other bytes in the place of a region's are found where those were. -/
theorem below?_map_of_mem (hr : r ∈ m.regions.entries) (bytes : Array UInt8) :
    (m.map r.base bytes).regions.below? b =
      (m.regions.below? b).map fun s => if s.base = r.base then ⟨r.base, bytes⟩ else s := by
  unfold map
  rcases hs : m.regions.below? b with _ | s
  · rw [RegionMap.below?_eq_none_iff] at hs
    rw [Option.map_none, RegionMap.below?_eq_none_iff]
    intro t ht
    rcases RegionMap.mem_insert.1 ht with rfl | ⟨ht, -⟩
    · exact hs r hr
    · exact hs t ht
  · obtain ⟨hs, hsb, hmax⟩ := RegionMap.below?_eq_some_iff.1 hs
    rw [Option.map_some, RegionMap.below?_eq_some_iff]
    have hmax' : ∀ t ∈ (m.regions.insert ⟨r.base, bytes⟩).entries, t.base ≤ b →
        t.base ≤ s.base := by
      intro t ht htb
      rcases RegionMap.mem_insert.1 ht with rfl | ⟨ht, -⟩
      · exact hmax r hr htb
      · exact hmax t ht htb
    split
    · rename_i hbase
      exact ⟨RegionMap.mem_insert.2 (.inl rfl), hbase ▸ hsb, hbase ▸ hmax'⟩
    · rename_i hbase
      exact ⟨RegionMap.mem_insert.2 (.inr ⟨hs, hbase⟩), hsb, hmax'⟩

theorem mem_map_of_mem (hr : r ∈ m.regions.entries) (bytes : Array UInt8) {s : Region} :
    s ∈ (m.map r.base bytes).regions.entries ↔
      s = ⟨r.base, bytes⟩ ∨ s ∈ m.regions.entries ∧ s ≠ r := by
  rw [show (m.map r.base bytes).regions = m.regions.insert ⟨r.base, bytes⟩ from rfl,
    RegionMap.mem_insert]
  refine or_congr_right (and_congr_right fun hs => not_congr ⟨fun hbase => ?_, fun h => by rw [h]⟩)
  exact RegionMap.eq_of_base_eq hs hr hbase

/-- After a write a region has other bytes at most. -/
theorem of_mem_write (h : m.write a bs = .ok m') {s : Region} (hs : s ∈ m'.regions.entries) :
    ∃ t ∈ m.regions.entries, s.base = t.base ∧ s.bytes.size = t.bytes.size := by
  obtain ⟨t, ht, -, rfl⟩ := of_write_ok h
  have htmem := (RegionMap.below?_eq_some_iff.1 ht).1
  rcases (mem_map_of_mem htmem _).1 hs with rfl | ⟨hs, -⟩
  · exact ⟨t, htmem, rfl, size_overlay ..⟩
  · exact ⟨s, hs, rfl, rfl⟩

namespace Separate

theorem below?_eq_some (h : m.Separate) (hr : r ∈ m.regions.entries) (hs : r.Spans a n)
    (hn : 0 < n) : m.regions.below? a = some r := by
  unfold Region.Spans at hs
  refine RegionMap.below?_eq_some_iff.2 ⟨hr, Address.le_iff_toNat_le.2 hs.1, fun s hmem hle => ?_⟩
  rw [Address.le_iff_toNat_le] at *
  by_contra hlt
  -- the base of a region between the two would belong to both
  have hbytes := h.nonempty s hmem
  have hboth := h.disjoint r hr s hmem s.base.toNat ⟨by omega, by omega⟩
    ⟨Nat.le_refl _, by unfold Region.finish; omega⟩
  rw [hboth] at hlt
  omega

theorem read_eq (h : m.Separate) (hr : r ∈ m.regions.entries) (hs : r.Spans a n) (hn : 0 < n) :
    m.read a n = .ok (r.slice a n) :=
  read_of_spans (h.below?_eq_some hr hs hn) hs

theorem read_iff (h : m.Separate) (hn : 0 < n) : (∃ bs, m.read a n = .ok bs) ↔ m.Maps a n := by
  constructor
  · rintro ⟨bs, hread⟩
    obtain ⟨r, hr, hs, -⟩ := of_read_ok hread
    exact ⟨r, (RegionMap.below?_eq_some_iff.1 hr).1, hs⟩
  · rintro ⟨r, hr, hs⟩
    exact ⟨_, h.read_eq hr hs hn⟩

theorem write_iff (h : m.Separate) (hbs : bs ≠ []) :
    (∃ m', m.write a bs = .ok m') ↔ m.Maps a bs.length := by
  constructor
  · rintro ⟨m', hwrite⟩
    obtain ⟨r, hr, hs, -⟩ := of_write_ok hwrite
    exact ⟨r, (RegionMap.below?_eq_some_iff.1 hr).1, hs⟩
  · rintro ⟨r, hr, hs⟩
    exact ⟨_, write_of_spans (h.below?_eq_some hr hs (List.length_pos_iff.2 hbs)) hs⟩

theorem toNat_add (h : m.Separate) (hr : r ∈ m.regions.entries) (hs : r.Spans a n) (hk : k < n) :
    (a + UInt64.ofNat k).toNat = a.toNat + k := by
  have hfits := h.fits r hr
  unfold Region.Spans at hs
  rw [Address.toNat_add_ofNat]
  exact Nat.mod_eq_of_lt (by omega)

/-- A part of what is read is read alone. -/
theorem read_part (h : m.Separate) {l : Nat} (hread : m.read a n = .ok bs) (hl : 0 < l)
    (hk : k + l ≤ n) : m.read (a + UInt64.ofNat k) l = .ok ((bs.drop k).take l) := by
  obtain ⟨r, hr, hs, rfl⟩ := of_read_ok hread
  have hr := (RegionMap.below?_eq_some_iff.1 hr).1
  have ha := h.toNat_add hr hs (show k < n by omega)
  have hs' : r.Spans (a + UInt64.ofNat k) l := by
    unfold Region.Spans at *
    omega
  rw [h.read_eq hr hs' hl]
  refine congrArg _ (List.ext_getElem? fun i => ?_)
  rw [Region.getElem?_slice hs', List.getElem?_take, ha]
  by_cases hi : i < l
  · rw [if_pos hi, if_pos hi, List.getElem?_drop, Region.getElem?_slice hs, if_pos (by omega),
      Nat.add_assoc]
  · rw [if_neg hi, if_neg hi]

theorem read_append (h : m.Separate) {cs : List UInt8} (hread : m.read a n = .ok (bs ++ cs))
    (hbs : 0 < bs.length) (hcs : 0 < cs.length) : m.read a bs.length = .ok bs ∧
      m.read (a + UInt64.ofNat bs.length) cs.length = .ok cs := by
  obtain ⟨r, -, hs, hslice⟩ := of_read_ok hread
  have hlength := congrArg List.length hslice
  rw [Region.length_slice hs, List.length_append] at hlength
  constructor
  · have hfirst := h.read_part hread (k := 0) hbs (by omega)
    have hzero : a + UInt64.ofNat 0 = a := Address.ext_val (UInt64.add_zero a.val)
    rwa [hzero, List.drop_zero, List.take_left] at hfirst
  · have hrest := h.read_part hread (k := bs.length) hcs (by omega)
    rwa [List.drop_left, List.take_length] at hrest

theorem readU8_of_read (h : m.Separate) (hread : m.read a n = .ok bs) {b : UInt8}
    (hk : bs[k]? = some b) : m.readU8 (a + UInt64.ofNat k) = .ok b := by
  obtain ⟨r, hr, hs, rfl⟩ := of_read_ok hread
  have hlt : k < n := by
    rw [← Region.length_slice hs]
    exact (List.getElem?_eq_some_iff.1 hk).1
  have hone := h.read_part hread (k := k) (l := 1) (by omega) (by omega)
  have hpart : ((r.slice a n).drop k).take 1 = [b] := by
    rw [List.take_one, List.head?_drop, hk]
    rfl
  rw [hpart] at hone
  simp [readU8, hone, Word.ofBytes, bind, Except.bind, pure, Except.pure]

/-- Every read sees what has been written, and behind and before that what was there. -/
theorem read_of_write (h : m.Separate) {patch : List UInt8} (hwrite : m.write a patch = .ok m')
    (b : Address) (n : Nat) :
    m'.read b n = (m.read b n).map fun bs => overlaid bs b patch a := by
  obtain ⟨r, hr, ha, rfl⟩ := of_write_ok hwrite
  have hmem := (RegionMap.below?_eq_some_iff.1 hr).1
  have hbelow := below?_map_of_mem (b := b) hmem (r.patched a patch).bytes
  rcases hs : m.regions.below? b with _ | s <;> rw [hs] at hbelow
  · have hold : m.read b n = .error (.unmapped b n) := read_of_not_spans (by simp [hs])
    rw [hold, read_of_not_spans (by simp [hbelow])]
    rfl
  obtain ⟨hsmem, -, -⟩ := RegionMap.below?_eq_some_iff.1 hs
  rw [Option.map_some] at hbelow
  by_cases hb : s.Spans b n
  · rw [read_of_spans hs hb]
    split at hbelow
    · rename_i hbase
      obtain rfl := RegionMap.eq_of_base_eq hsmem hmem hbase
      rw [read_of_spans hbelow (Region.spans_patched.2 hb)]
      exact congrArg _ (Region.slice_patched ha hb)
    · rename_i hbase
      rw [read_of_spans hbelow hb]
      -- what was written lies in another region
      refine congrArg Except.ok (List.ext_getElem? fun k => ?_)
      simp only [overlaid, List.getElem?_mapIdx]
      rcases hk : (s.slice b n)[k]? with _ | x
      · rfl
      · rw [Option.map_some]
        split
        · rename_i hle
          rw [List.getD_eq_getElem?_getD, List.getElem?_eq_none, Option.getD_none]
          by_contra hlt
          have hkn := (List.getElem?_eq_some_iff.1 hk).1
          rw [Region.length_slice hb] at hkn
          unfold Region.Spans at ha hb
          have hsame := h.disjoint s hsmem r hmem (b.toNat + k) ⟨by omega, by omega⟩
            ⟨by omega, by omega⟩
          exact hbase (by rw [hsame])
        · rfl
  · have hold : m.read b n = .error (.unmapped b n) := read_of_not_spans (by simpa [hs] using hb)
    rw [hold]
    refine read_of_not_spans fun t ht => ?_
    rw [hbelow, Option.some.injEq] at ht
    split at ht
    · rename_i hbase
      obtain rfl := RegionMap.eq_of_base_eq hsmem hmem hbase
      rw [← ht]
      exact fun hspans => hb (Region.spans_patched.1 hspans)
    · rwa [← ht]

theorem of_write (h : m.Separate) (hwrite : m.write a bs = .ok m') : m'.Separate := by
  obtain ⟨r, hr, ha, rfl⟩ := of_write_ok hwrite
  have hmem := (RegionMap.below?_eq_some_iff.1 hr).1
  have hentries := fun s => mem_map_of_mem hmem (r.patched a bs).bytes (s := s)
  have hsize : (r.patched a bs).bytes.size = r.bytes.size := size_overlay ..
  refine ⟨fun s hs => ?_, fun s hs => ?_, fun s hs t ht x hsx htx => ?_⟩
  · rcases (hentries s).1 hs with rfl | ⟨hs, -⟩
    · exact hsize ▸ h.nonempty r hmem
    · exact h.nonempty s hs
  · rcases (hentries s).1 hs with rfl | ⟨hs, -⟩
    · exact Nat.le_trans (Nat.le_of_eq Region.finish_patched) (h.fits r hmem)
    · exact h.fits s hs
  · have hold : ∀ s, s ∈ (m.map r.base (r.patched a bs).bytes).regions.entries → s.Has x →
        s = r.patched a bs ∧ r.Has x ∨ s ∈ m.regions.entries ∧ s ≠ r := by
      intro s hs hsx
      rcases (hentries s).1 hs with rfl | hs
      · exact .inl ⟨rfl, hsx.1, Nat.lt_of_lt_of_eq hsx.2 Region.finish_patched⟩
      · exact .inr hs
    rcases hold s hs hsx with ⟨rfl, hrx⟩ | ⟨hs, hsr⟩ <;>
      rcases hold t ht htx with ⟨rfl, hrx'⟩ | ⟨ht, htr⟩
    · rfl
    · exact absurd (h.disjoint t ht r hmem x htx hrx) htr
    · exact absurd (h.disjoint s hs r hmem x hsx hrx') hsr
    · exact h.disjoint s hs t ht x hsx htx

end Separate

/-! ## Words -/

theorem checkAligned_eq (a : Address) {align : UInt64} (halign : align ≠ 0) :
    checkAligned a align =
      if a.toNat % align.toNat = 0 then .ok () else .error (.misaligned a align) := by
  have hmod : a.val % align = 0 ↔ a.toNat % align.toNat = 0 := by
    rw [← UInt64.toNat_inj, UInt64.toNat_mod]
    rfl
  simp [checkAligned, Address.isAligned, halign, hmod]

/-- `read` reads words: bytes at a multiple of the width, which are those of the word. -/
structure ReadsWords {α : Type} (m : Memory) (width : Nat) (read : Address → Except MemoryError α)
    (bytes : α → List UInt8) : Prop where
  succeeds_iff : ∀ a, (∃ v, read a = .ok v) ↔ a.toNat % width = 0 ∧ m.Maps a width
  ok_iff : ∀ a v, read a = .ok v ↔ a.toNat % width = 0 ∧ m.read a width = .ok (bytes v)

/-- `write` writes words: the bytes of the word, at a multiple of the width. -/
structure WritesWords {α : Type} (m : Memory) (width : Nat)
    (write : Address → α → Except MemoryError Memory) (bytes : α → List UInt8) : Prop where
  succeeds_iff : ∀ a v, (∃ m', write a v = .ok m') ↔ a.toNat % width = 0 ∧ m.Maps a width
  ok_iff : ∀ a v m', write a v = .ok m' ↔ a.toNat % width = 0 ∧ m.write a (bytes v) = .ok m'

section Words

variable {α β : Type} {read : Address → Except MemoryError α} {bytes : α → List UInt8}

theorem Separate.readsWords (h : m.Separate) {ofBytes : List UInt8 → α} {k : UInt64}
    (hk : k ≠ 0)
    (hread : ∀ a, read a = do
      checkAligned a k
      let bs ← m.read a k.toNat
      return ofBytes bs)
    (hbytes : ∀ bs, bs.length = k.toNat → bytes (ofBytes bs) = bs)
    (hofBytes : ∀ v, ofBytes (bytes v) = v) : m.ReadsWords k.toNat read bytes := by
  have hpos : 0 < k.toNat := by
    rw [Nat.pos_iff_ne_zero]
    exact fun h0 => hk (UInt64.toNat_inj.1 h0)
  have hok : ∀ a v, read a = .ok v ↔
      a.toNat % k.toNat = 0 ∧ m.read a k.toNat = .ok (bytes v) := by
    intro a v
    rw [hread, checkAligned_eq a hk]
    by_cases ha : a.toNat % k.toNat = 0
    · rw [if_pos ha]
      rcases hr : m.read a k.toNat with e | bs
      · simp [bind, Except.bind]
      · obtain ⟨r, -, hs, rfl⟩ := of_read_ok hr
        have hback := hbytes _ (Region.length_slice hs)
        simp only [bind, Except.bind, pure, Except.pure, Except.ok.injEq, ha, true_and]
        constructor
        · rintro rfl
          exact hback.symm
        · intro heq
          rw [heq, hofBytes]
    · simp [ha, bind, Except.bind]
  refine ⟨fun a => ?_, hok⟩
  simp only [hok, ← h.read_iff hpos, exists_and_left]
  refine and_congr_right fun _ => ⟨fun ⟨v, hv⟩ => ⟨_, hv⟩, fun ⟨bs, hbs⟩ => ⟨ofBytes bs, ?_⟩⟩
  obtain ⟨r, -, hs, rfl⟩ := of_read_ok hbs
  rw [hbytes _ (Region.length_slice hs), hbs]

/-- Another view of the words that are read. -/
theorem ReadsWords.map {width : Nat} (h : m.ReadsWords width read bytes)
    {read' : Address → Except MemoryError β} {f : α → β} {g : β → α}
    (hread : ∀ a, read' a = do return f (← read a)) (hf : ∀ v, f (g v) = v)
    (hg : ∀ u, g (f u) = u) : m.ReadsWords width read' fun v => bytes (g v) := by
  have hok : ∀ a v, read' a = .ok v ↔ read a = .ok (g v) := by
    intro a v
    rw [hread]
    rcases read a with e | u
    · simp [bind, Except.bind]
    · simp only [bind, Except.bind, pure, Except.pure, Except.ok.injEq]
      exact ⟨fun hv => by rw [← hv, hg], fun hu => by rw [hu, hf]⟩
  refine ⟨fun a => ?_, fun a v => (hok a v).trans (h.ok_iff a (g v))⟩
  rw [← h.succeeds_iff a]
  constructor
  · rintro ⟨v, hv⟩
    exact ⟨g v, (hok a v).1 hv⟩
  · rintro ⟨u, hu⟩
    exact ⟨f u, (hok a (f u)).2 (by rw [hg, hu])⟩

theorem Separate.writesWords (h : m.Separate) {write : Address → α → Except MemoryError Memory}
    {k : UInt64} (hk : k ≠ 0)
    (hwrite : ∀ a v, write a v = do
      checkAligned a k
      m.write a (bytes v))
    (hlength : ∀ v, (bytes v).length = k.toNat) :
    m.WritesWords k.toNat write bytes := by
  have hok : ∀ a v m', write a v = .ok m' ↔
      a.toNat % k.toNat = 0 ∧ m.write a (bytes v) = .ok m' := by
    intro a v m'
    rw [hwrite, checkAligned_eq a hk]
    by_cases ha : a.toNat % k.toNat = 0 <;> simp [ha, bind, Except.bind]
  refine ⟨fun a v => ?_, hok⟩
  have hbytes : bytes v ≠ [] := by
    intro hnil
    have hzero := hlength v
    rw [hnil] at hzero
    exact hk (UInt64.toNat_inj.1 hzero.symm)
  simp only [hok, exists_and_left, h.write_iff hbytes, hlength]

/-- Words of half the width, `lo` and `hi` in this order, where they make up one of the width. -/
theorem Separate.read_halves (h : m.Separate) {k : UInt64} {read' : Address → Except MemoryError β}
    {bytes' : β → List UInt8} {lo hi : α → β}
    (hread : m.ReadsWords (k.toNat + k.toNat) read bytes)
    (hread' : m.ReadsWords k.toNat read' bytes') (hk : 0 < k.toNat)
    (hlength : ∀ v, (bytes' v).length = k.toNat)
    (hbytes : ∀ v, bytes v = bytes' (lo v) ++ bytes' (hi v)) {v : α} (hv : read a = .ok v) :
    read' a = .ok (lo v) ∧ read' (a + k) = .ok (hi v) := by
  obtain ⟨ha, hbs⟩ := (hread.ok_iff a v).1 hv
  obtain ⟨r, hr, hs, -⟩ := of_read_ok hbs
  have hnext := h.toNat_add (k := k.toNat) (RegionMap.below?_eq_some_iff.1 hr).1 hs (by omega)
  rw [hbytes] at hbs
  obtain ⟨hlo, hhi⟩ := h.read_append hbs (by rwa [hlength]) (by rwa [hlength])
  rw [hlength] at hlo
  rw [hlength, hlength, UInt64.ofNat_toNat] at hhi
  rw [UInt64.ofNat_toNat] at hnext
  have hdvd : a.toNat % k.toNat = 0 :=
    Nat.mod_eq_zero_of_dvd (Nat.dvd_trans ⟨2, by omega⟩ (Nat.dvd_of_mod_eq_zero ha))
  refine ⟨(hread'.ok_iff a _).2 ⟨hdvd, hlo⟩, (hread'.ok_iff _ _).2 ⟨?_, hhi⟩⟩
  rw [hnext, Nat.add_mod_right, hdvd]

end Words

namespace Separate

variable (h : m.Separate)
include h

theorem readsU8 : m.ReadsWords 1 m.readU8 fun b => [b] := by
  -- every address is a multiple of one
  have hread : ∀ a, m.readU8 a = do
      checkAligned a 1
      let bs ← m.read a 1
      return UInt8.ofNat (Word.ofBytes bs) := by
    intro a
    have ha : checkAligned a 1 = .ok () := by simp [checkAligned_eq, Nat.mod_one]
    rw [ha]
    rfl
  refine h.readsWords (k := 1) (by decide) hread (fun bs hbs => ?_) fun b => ?_
  · calc
      [UInt8.ofNat (Word.ofBytes bs)] = Word.bytes bs.length (Word.ofBytes bs) := by rw [hbs]; rfl
      _ = bs := Word.bytes_ofBytes bs
  · simp [Word.ofBytes]

theorem readsU16 : m.ReadsWords 2 m.readU16 bytesOf16 :=
  h.readsWords (k := 2) (by decide) (fun _ => rfl) (fun _ => bytesOf16_ofBytes)
    ofBytes_bytesOf16

theorem readsU32 : m.ReadsWords 4 m.readU32 bytesOf32 :=
  h.readsWords (k := 4) (by decide) (fun _ => rfl) (fun _ => bytesOf32_ofBytes)
    ofBytes_bytesOf32

theorem readsU64 : m.ReadsWords 8 m.readU64 bytesOf64 :=
  h.readsWords (k := 8) (by decide) (fun _ => rfl) (fun _ => bytesOf64_ofBytes)
    ofBytes_bytesOf64

theorem writesU32 : m.WritesWords 4 m.writeU32 bytesOf32 :=
  h.writesWords (k := 4) (by decide) (fun _ _ => rfl) length_bytesOf32

theorem writesU64 : m.WritesWords 8 m.writeU64 bytesOf64 :=
  h.writesWords (k := 8) (by decide) (fun _ _ => rfl) length_bytesOf64

theorem readsI32 : m.ReadsWords 4 m.readI32 fun n => bytesOf32 n.toUInt32 :=
  h.readsU32.map (fun _ => rfl) Int32.toInt32_toUInt32 UInt32.toUInt32_toInt32

theorem readsPointer : m.ReadsWords 8 m.readPointer fun a => bytesOf64 a.val :=
  h.readsU64.map (f := Address.mk) (fun _ => rfl) (fun _ => rfl) fun _ => rfl

theorem writesPointer : m.WritesWords 8 m.writePointer fun a => bytesOf64 a.val :=
  h.writesWords (k := 8) (by decide) (fun _ _ => rfl) fun a => length_bytesOf64 a.val

end Separate

/-! ## The store -/

/-- Memory behaves as one store of bytes. -/
structure ByteStore (m : Memory) : Prop where
  read_iff : ∀ a n, 0 < n → ((∃ bs, m.read a n = .ok bs) ↔ m.Maps a n)
  read_error : ∀ a n, 0 < n → ¬m.Maps a n → m.read a n = .error (.unmapped a n)
  read_single : ∀ a n bs, m.read a n = .ok bs →
    bs.length = n ∧ ∀ k b, bs[k]? = some b → m.readU8 (a + UInt64.ofNat k) = .ok b
  write_iff : ∀ a bs, bs ≠ [] → ((∃ m', m.write a bs = .ok m') ↔ m.Maps a bs.length)
  write_error : ∀ a bs, bs ≠ [] → ¬m.Maps a bs.length →
    m.write a bs = .error (.unmapped a bs.length) ∧
      ∀ w : World, w.memory = m → (Inspect.update fun m => m.write a bs).run w =
        (.error (.memory (.unmapped a bs.length)), w)
  read_of_write : ∀ a patch m', m.write a patch = .ok m' →
    ∀ b n, m'.read b n = (m.read b n).map fun bs => overlaid bs b patch a
  /-- So what a write leaves is such a store again. -/
  separate_of_write : ∀ a patch m', m.write a patch = .ok m' → m'.Separate
  readU16 : m.ReadsWords 2 m.readU16 bytesOf16
  readU32 : m.ReadsWords 4 m.readU32 bytesOf32
  readI32 : m.ReadsWords 4 m.readI32 fun n => bytesOf32 n.toUInt32
  readU64 : m.ReadsWords 8 m.readU64 bytesOf64
  readPointer : m.ReadsWords 8 m.readPointer fun a => bytesOf64 a.val
  writeU32 : m.WritesWords 4 m.writeU32 bytesOf32
  writeU64 : m.WritesWords 8 m.writeU64 bytesOf64
  writePointer : m.WritesWords 8 m.writePointer fun a => bytesOf64 a.val
  halvesU64 : ∀ a n, m.readU64 a = .ok n →
    m.readU32 a = .ok n.toUInt32 ∧ m.readU32 (a + (4 : UInt64)) = .ok (n >>> 32).toUInt32
  halvesU32 : ∀ a n, m.readU32 a = .ok n →
    m.readU16 a = .ok n.toUInt16 ∧ m.readU16 (a + (2 : UInt64)) = .ok (n >>> 16).toUInt16
  halvesU16 : ∀ a n, m.readU16 a = .ok n →
    m.readU8 a = .ok n.toUInt8 ∧ m.readU8 (a + (1 : UInt64)) = .ok (n >>> 8).toUInt8

theorem byte_store (h : m.Separate) : m.ByteStore where
  read_iff _ _ := h.read_iff
  read_error _ _ _ hmaps := read_of_not_spans (not_spans_of_not_maps hmaps)
  read_single a n bs hread := by
    obtain ⟨r, -, hs, rfl⟩ := of_read_ok hread
    exact ⟨Region.length_slice hs, fun _ _ => h.readU8_of_read hread⟩
  write_iff _ _ := h.write_iff
  write_error a bs _ hmaps := by
    have hwrite := write_of_not_spans (not_spans_of_not_maps hmaps)
    refine ⟨hwrite, fun w hw => ?_⟩
    rw [Inspect.run_update, hw]
    simp only [hwrite]
  read_of_write _ _ _ := h.read_of_write
  separate_of_write _ _ _ := h.of_write
  readU16 := h.readsU16
  readU32 := h.readsU32
  readI32 := h.readsI32
  readU64 := h.readsU64
  readPointer := h.readsPointer
  writeU32 := h.writesU32
  writeU64 := h.writesU64
  writePointer := h.writesPointer
  halvesU64 _ _ := h.read_halves (k := 4) h.readsU64 h.readsU32 (by decide) length_bytesOf32
    bytesOf64_eq_append
  halvesU32 _ _ := h.read_halves (k := 2) h.readsU32 h.readsU16 (by decide) length_bytesOf16
    bytesOf32_eq_append
  halvesU16 _ _ := h.read_halves (k := 1) h.readsU16 h.readsU8 (by decide) (fun _ => rfl)
    bytesOf16_eq_append

/-- Two regions that meet at `0x1008`. -/
theorem byte_store_of_adjacent :
    let m := ((Memory.empty defaultHeapBase).mapZero ⟨0x1000⟩ 8).map ⟨0x1008⟩ #[1, 2, 3, 4]
    m.Separate ∧ m.ByteStore := by
  intro m
  have hentries : m.regions.entries =
      [⟨⟨0x1008⟩, #[1, 2, 3, 4]⟩, ⟨⟨0x1000⟩, Array.replicate 8 0⟩] := rfl
  have separate : m.Separate := by
    refine ⟨?_, ?_, ?_⟩ <;> rw [hentries]
    · decide
    · decide
    · simp only [List.mem_cons, List.not_mem_nil, or_false, Region.Has]
      rintro r (rfl | rfl) s (rfl | rfl) x ⟨hr, hr'⟩ ⟨hs, hs'⟩
      · rfl
      · exact absurd (Nat.lt_of_le_of_lt hr hs') (by decide)
      · exact absurd (Nat.lt_of_le_of_lt hs hr') (by decide)
      · rfl
  exact ⟨separate, byte_store separate⟩

/-- No read crosses from one of them into the other. -/
example :
    let m := ((Memory.empty defaultHeapBase).mapZero ⟨0x1000⟩ 8).map ⟨0x1008⟩ #[1, 2, 3, 4]
    m.read ⟨0x1006⟩ 4 = .error (.unmapped ⟨0x1006⟩ 4) ∧ m.readU32 ⟨0x1008⟩ = .ok 0x04030201 := by
  decide

end Memory

end TypeMetadata
