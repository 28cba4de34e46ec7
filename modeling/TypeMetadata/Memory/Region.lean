import TypeMetadata.Address

/-!
# Mapped regions

A region is a run of bytes at a base address. A `RegionMap` holds at most one region per base, the
highest base first, so that the first region at or below an address is the nearest one
(`below?_eq_some_iff`). `mem_insert` and `mem_erase` say which regions an operation leaves.
-/

namespace TypeMetadata

/-- Bytes mapped at a base address. -/
structure Region where
  base : Address
  bytes : Array UInt8
deriving DecidableEq

/-- `bytes` with `patch` written over it from `start` on; what reaches past the end is dropped. -/
def overlay (bytes : Array UInt8) (start : Nat) : List UInt8 → Array UInt8
  | [] => bytes
  | b :: patch => overlay (bytes.setIfInBounds start b) (start + 1) patch

@[simp] theorem size_overlay (bytes : Array UInt8) (start : Nat) (patch : List UInt8) :
    (overlay bytes start patch).size = bytes.size := by
  induction patch generalizing bytes start with
  | nil => rfl
  | cons b patch ih => rw [overlay, ih, Array.size_setIfInBounds]

/-- Inside the patched range the patch is read, outside it the old bytes. -/
theorem getElem?_overlay (bytes : Array UInt8) (start : Nat) (patch : List UInt8) (i : Nat) :
    (overlay bytes start patch)[i]? =
      if start ≤ i ∧ i < start + patch.length ∧ i < bytes.size then patch[i - start]?
      else bytes[i]? := by
  induction patch generalizing bytes start with
  | nil => simp [overlay]; omega
  | cons b patch ih =>
    rw [overlay, ih, Array.size_setIfInBounds, Array.getElem?_setIfInBounds, List.length_cons]
    by_cases h : start = i
    · subst h
      rw [if_neg (by omega)]
      by_cases hb : start < bytes.size <;> simp [hb]
    · by_cases hi : start + 1 ≤ i ∧ i < start + 1 + patch.length ∧ i < bytes.size
      · rw [if_pos hi, if_pos (by omega), show i - start = i - (start + 1) + 1 by omega,
          List.getElem?_cons_succ]
      · rw [if_neg hi, if_neg h, if_neg (by omega)]

theorem toList_overlay_singleton (bytes : Array UInt8) (start : Nat) (b : UInt8) :
    (overlay bytes start [b]).toList = bytes.toList.set start b :=
  Array.toList_setIfInBounds

theorem toList_overlay_replicate {n : Nat} {patch : List UInt8} (h : patch.length ≤ n) (b : UInt8) :
    (overlay (Array.replicate n b) 0 patch).toList =
      patch ++ List.replicate (n - patch.length) b := by
  apply List.ext_getElem?
  intro i
  rw [Array.getElem?_toList, getElem?_overlay, List.getElem?_append, Array.getElem?_replicate,
    List.getElem?_replicate, Array.size_replicate]
  by_cases hi : i < patch.length
  · rw [if_pos (by omega), if_pos hi, Nat.sub_zero]
  · simp only [if_neg hi]
    rw [if_neg (by omega)]
    by_cases hn : i < n
    · rw [if_pos hn, if_pos (by omega)]
    · rw [if_neg hn, if_neg (by omega)]

namespace Region

/-- Offset of `a` in the region, when `n` bytes from there on lie inside it. -/
def offset? (r : Region) (a : Address) (n : Nat) : Option Nat :=
  let start := a.toNat - r.base.toNat
  if r.base ≤ a ∧ start + n ≤ r.bytes.size then some start else none

/-- Where the region ends, as a number: one that reaches the end of the address space ends at
`2 ^ 64`. -/
def finish (r : Region) : Nat := r.base.toNat + r.bytes.size

end Region

/-- Regions by base, the highest base first. -/
structure RegionMap where
  entries : List Region
  sorted : entries.Pairwise fun r s => s.base < r.base
deriving DecidableEq

namespace RegionMap

def empty : RegionMap := ⟨[], .nil⟩

instance : Inhabited RegionMap := ⟨empty⟩

/-- The entries with `r` at its place, instead of the region that had its base. -/
def insertEntry (r : Region) : List Region → List Region
  | [] => [r]
  | s :: rest =>
    if s.base < r.base then r :: s :: rest
    else if s.base = r.base then r :: rest
    else s :: insertEntry r rest

theorem mem_insertEntry_imp {r s : Region} {l : List Region} (h : s ∈ insertEntry r l) :
    s = r ∨ s ∈ l := by
  induction l with
  | nil => simpa [insertEntry] using h
  | cons t rest ih =>
    unfold insertEntry at h
    split at h
    · simpa using h
    · split at h
      · rcases List.mem_cons.1 h with h | h
        · exact .inl h
        · exact .inr (List.mem_cons_of_mem _ h)
      · rcases List.mem_cons.1 h with h | h
        · exact .inr (h ▸ List.mem_cons_self)
        · exact (ih h).imp id (List.mem_cons_of_mem _)

theorem sorted_insertEntry {r : Region} {l : List Region}
    (h : l.Pairwise fun r s => s.base < r.base) :
    (insertEntry r l).Pairwise fun r s => s.base < r.base := by
  induction l with
  | nil => simp [insertEntry]
  | cons t rest ih =>
    obtain ⟨ht, hrest⟩ := List.pairwise_cons.1 h
    unfold insertEntry
    split
    · next hlt =>
      refine List.pairwise_cons.2 ⟨fun s hs => ?_, h⟩
      rcases List.mem_cons.1 hs with rfl | hs
      · exact hlt
      · exact UInt64.lt_trans (ht s hs) hlt
    · next hnlt =>
      split
      · next heq => exact List.pairwise_cons.2 ⟨fun s hs => heq ▸ ht s hs, hrest⟩
      · next hne =>
        refine List.pairwise_cons.2 ⟨fun s hs => ?_, ih hrest⟩
        rcases mem_insertEntry_imp hs with rfl | hs
        · exact UInt64.lt_of_le_of_ne (UInt64.not_lt.1 hnlt)
            fun he => hne (Address.ext_val he.symm)
        · exact ht s hs

/-- Map `r`, instead of the region that had its base. -/
def insert (m : RegionMap) (r : Region) : RegionMap :=
  ⟨insertEntry r m.entries, sorted_insertEntry m.sorted⟩

/-- Unmap the region at `base`. -/
def erase (m : RegionMap) (base : Address) : RegionMap :=
  ⟨m.entries.filter fun r => r.base ≠ base, m.sorted.filter _⟩

/-- The region with the greatest base at or below `a`. -/
def below? (m : RegionMap) (a : Address) : Option Region := m.entries.find? fun r => r.base ≤ a

theorem mem_erase {m : RegionMap} {base : Address} {r : Region} :
    r ∈ (m.erase base).entries ↔ r ∈ m.entries ∧ r.base ≠ base := by
  simp [erase]

theorem mem_insert {m : RegionMap} {r s : Region} :
    s ∈ (m.insert r).entries ↔ s = r ∨ s ∈ m.entries ∧ s.base ≠ r.base := by
  have key : ∀ l : List Region, l.Pairwise (fun r s => s.base < r.base) →
      (s ∈ insertEntry r l ↔ s = r ∨ s ∈ l ∧ s.base ≠ r.base) := by
    intro l hl
    have irrefl : ∀ {x y : Address}, x < y → x ≠ y := fun h e => UInt64.lt_irrefl _ (e ▸ h)
    induction l with
    | nil => simp [insertEntry]
    | cons t rest ih =>
      obtain ⟨ht, hrest⟩ := List.pairwise_cons.1 hl
      unfold insertEntry
      split
      · next hlt =>
        simp only [List.mem_cons]
        constructor
        · rintro (h | rfl | h)
          · exact .inl h
          · exact .inr ⟨.inl rfl, irrefl hlt⟩
          · exact .inr ⟨.inr h, irrefl (UInt64.lt_trans (ht s h) hlt)⟩
        · rintro (h | ⟨h, -⟩)
          · exact .inl h
          · exact .inr h
      · split
        · next heq =>
          simp only [List.mem_cons]
          constructor
          · rintro (h | h)
            · exact .inl h
            · exact .inr ⟨.inr h, heq ▸ irrefl (ht s h)⟩
          · rintro (h | ⟨rfl | h, hne⟩)
            · exact .inl h
            · exact absurd heq hne
            · exact .inr h
        · next hne =>
          simp only [List.mem_cons, ih hrest]
          constructor
          · rintro (rfl | h | ⟨h, hs⟩)
            · exact .inr ⟨.inl rfl, hne⟩
            · exact .inl h
            · exact .inr ⟨.inr h, hs⟩
          · rintro (h | ⟨rfl | h, hs⟩)
            · exact .inr (.inl h)
            · exact .inl rfl
            · exact .inr (.inr ⟨h, hs⟩)
  exact key m.entries m.sorted

variable {m : RegionMap} {r s : Region} {a : Address}

/-- The region that is looked up is the one at or below the address that no other comes after. -/
theorem below?_eq_some_iff : m.below? a = some r ↔
    r ∈ m.entries ∧ r.base ≤ a ∧ ∀ s ∈ m.entries, s.base ≤ a → s.base ≤ r.base := by
  obtain ⟨entries, sorted⟩ := m
  unfold below?
  simp only
  induction entries with
  | nil => simp
  | cons t rest ih =>
    obtain ⟨ht, hrest⟩ := List.pairwise_cons.1 sorted
    by_cases hta : t.base ≤ a
    · rw [List.find?_cons_of_pos (by simpa using hta)]
      constructor
      · intro h
        cases h
        refine ⟨List.mem_cons_self, hta, fun s hs _ => ?_⟩
        rcases List.mem_cons.1 hs with rfl | hs
        · exact UInt64.le_refl _
        · exact UInt64.le_of_lt (ht s hs)
      · rintro ⟨hr, -, hmax⟩
        rcases List.mem_cons.1 hr with rfl | hr
        · rfl
        · exact absurd (hmax t List.mem_cons_self hta) (UInt64.not_le.2 (ht r hr))
    · rw [List.find?_cons_of_neg (by simpa using hta), ih hrest]
      constructor
      · rintro ⟨hr, hra, hmax⟩
        refine ⟨List.mem_cons_of_mem _ hr, hra, fun s hs hsa => ?_⟩
        rcases List.mem_cons.1 hs with rfl | hs
        · exact absurd hsa hta
        · exact hmax s hs hsa
      · rintro ⟨hr, hra, hmax⟩
        rcases List.mem_cons.1 hr with rfl | hr
        · exact absurd hra hta
        · exact ⟨hr, hra, fun s hs => hmax s (List.mem_cons_of_mem _ hs)⟩

theorem below?_eq_none_iff : m.below? a = none ↔ ∀ r ∈ m.entries, ¬r.base ≤ a := by
  simp [below?]

theorem eq_of_base_eq (hr : r ∈ m.entries) (hs : s ∈ m.entries) (h : r.base = s.base) : r = s := by
  have hfound : m.below? r.base = some r :=
    below?_eq_some_iff.2 ⟨hr, UInt64.le_refl _, fun _ _ hle => hle⟩
  have hfound' : m.below? r.base = some s :=
    below?_eq_some_iff.2 ⟨hs, h ▸ UInt64.le_refl _, fun _ _ hle => h ▸ hle⟩
  exact Option.some.inj (hfound.symm.trans hfound')

end RegionMap

end TypeMetadata
