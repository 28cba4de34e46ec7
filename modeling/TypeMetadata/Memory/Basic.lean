import TypeMetadata.Memory.Region
import TypeMetadata.Word

/-!
# The target's memory

`Memory` is a sparse little-endian address space: mapped regions, and the state of the heap that
hands out new ones. An access of `n` bytes at `a` looks at one region only, the nearest at or below
`a`, and all `n` bytes must lie inside it; a word is also refused at an address that is not a
multiple of its width, whether or not it is mapped.
-/

namespace TypeMetadata

/-- Why memory refused an operation. -/
inductive MemoryError where
  | unmapped (address : Address) (length : Nat)
  | misaligned (address : Address) (align : UInt64)
  | outOfMemory (size : UInt64)
  | invalidFree (address : Address)
deriving DecidableEq

namespace MemoryError

def label : MemoryError → String
  | unmapped .. => "Memory.Unmapped"
  | misaligned .. => "Memory.Misaligned"
  | outOfMemory .. => "Memory.OutOfMemory"
  | invalidFree .. => "Memory.InvalidFree"

def message : MemoryError → String
  | unmapped address length => s!"unmapped memory: {length} bytes at {address}"
  | misaligned address align => s!"misaligned access: {address} is not {align}-byte aligned"
  | outOfMemory size => s!"cannot allocate {size} bytes"
  | invalidFree address => s!"{address} was not allocated by this provider"

end MemoryError

/-- Mapped regions, where the heap hands out its next block, and the blocks not yet freed. -/
structure Memory where
  regions : RegionMap
  next : UInt64
  live : List Address
  live_lt : ∀ a ∈ live, a.val < next
  live_nodup : live.Nodup
deriving DecidableEq

namespace Memory

/-- Where the heap starts unless told otherwise, far from the usual images. -/
def defaultHeapBase : Address := ⟨0x60000000⟩

/-- Memory with nothing mapped and a heap from `heapBase` on. -/
def empty (heapBase : Address) : Memory where
  regions := .empty
  next := heapBase.val
  live := []
  live_lt := nofun
  live_nodup := .nil

/-- Map `bytes` at `base`, instead of the region that had this base. -/
def map (m : Memory) (base : Address) (bytes : Array UInt8) : Memory :=
  { m with regions := m.regions.insert ⟨base, bytes⟩ }

/-- Map `n` zeros at `base`. -/
def mapZero (m : Memory) (base : Address) (n : Nat) : Memory := m.map base (Array.replicate n 0)

/-- The region that holds `n` bytes at `a`, and the offset of `a` in it. -/
def locate (m : Memory) (a : Address) (n : Nat) : Except MemoryError (Region × Nat) :=
  match m.regions.below? a with
  | none => .error (.unmapped a n)
  | some r =>
    match r.offset? a n with
    | none => .error (.unmapped a n)
    | some start => .ok (r, start)

/-- The `n` bytes at `a`. -/
def read (m : Memory) (a : Address) (n : Nat) : Except MemoryError (List UInt8) := do
  let (r, start) ← m.locate a n
  return (r.bytes.extract start (start + n)).toList

/-- Memory with `bs` at `a`. -/
def write (m : Memory) (a : Address) (bs : List UInt8) : Except MemoryError Memory := do
  let (r, start) ← m.locate a bs.length
  return m.map r.base (overlay r.bytes start bs)

/-- Writing moves no block of the heap. -/
theorem write_live {m m' : Memory} {a : Address} {bs : List UInt8} (h : m.write a bs = .ok m') :
    m'.live = m.live := by
  unfold write at h
  rcases hl : m.locate a bs.length with e | ⟨r, start⟩ <;> rw [hl] at h
  · cases h
  · cases Except.ok.inj h
    rfl

theorem write_next {m m' : Memory} {a : Address} {bs : List UInt8} (h : m.write a bs = .ok m') :
    m'.next = m.next := by
  unfold write at h
  rcases hl : m.locate a bs.length with e | ⟨r, start⟩ <;> rw [hl] at h
  · cases h
  · cases Except.ok.inj h
    rfl

/-! ## Words -/

/-- Refuses an address that is not a multiple of `align`. -/
def checkAligned (a : Address) (align : UInt64) : Except MemoryError Unit :=
  if a.isAligned align then .ok () else .error (.misaligned a align)

def readU8 (m : Memory) (a : Address) : Except MemoryError UInt8 := do
  let bs ← m.read a 1
  return UInt8.ofNat (Word.ofBytes bs)

def readU16 (m : Memory) (a : Address) : Except MemoryError UInt16 := do
  checkAligned a 2
  let bs ← m.read a 2
  return UInt16.ofNat (Word.ofBytes bs)

def readU32 (m : Memory) (a : Address) : Except MemoryError UInt32 := do
  checkAligned a 4
  let bs ← m.read a 4
  return UInt32.ofNat (Word.ofBytes bs)

/-- A signed 32-bit word, in two's complement. -/
def readI32 (m : Memory) (a : Address) : Except MemoryError Int32 := do
  return (← m.readU32 a).toInt32

def readU64 (m : Memory) (a : Address) : Except MemoryError UInt64 := do
  checkAligned a 8
  let bs ← m.read a 8
  return UInt64.ofNat (Word.ofBytes bs)

def readPointer (m : Memory) (a : Address) : Except MemoryError Address := do
  return ⟨← m.readU64 a⟩

def writeU32 (m : Memory) (a : Address) (n : UInt32) : Except MemoryError Memory := do
  checkAligned a 4
  m.write a (bytesOf32 n)

def writeU64 (m : Memory) (a : Address) (n : UInt64) : Except MemoryError Memory := do
  checkAligned a 8
  m.write a (bytesOf64 n)

def writePointer (m : Memory) (a target : Address) : Except MemoryError Memory :=
  m.writeU64 a target.val

theorem writePointer_live {m m' : Memory} {a target : Address}
    (h : m.writePointer a target = .ok m') : m'.live = m.live := by
  unfold writePointer writeU64 at h
  rcases ha : checkAligned a 8 with e | u <;> rw [ha] at h
  · cases h
  · exact write_live h

theorem writePointer_next {m m' : Memory} {a target : Address}
    (h : m.writePointer a target = .ok m') : m'.next = m.next := by
  unfold writePointer writeU64 at h
  rcases ha : checkAligned a 8 with e | u <;> rw [ha] at h
  · cases h
  · exact write_next h

/-- The bytes at `a` up to the first zero, which is not one of them; `none` when the first `limit`
bytes hold no zero. Nothing after that zero is read. -/
def readCString (m : Memory) : Nat → Address → Except MemoryError (Option (List UInt8))
  | 0, _ => .ok none
  | limit + 1, a => do
    let b ← m.readU8 a
    if b = 0 then return some []
    let rest ← m.readCString limit (a + (1 : UInt64))
    return rest.map (b :: ·)

end Memory

/-! ## Texts -/

/-- The first place of some kind is either this one or one further on. -/
theorem exists_first_succ {P Q : Nat → Prop} {n : Nat} :
    (∃ i < n + 1, P i ∧ ∀ j < i, Q j) ↔
      P 0 ∨ Q 0 ∧ ∃ i < n, P (i + 1) ∧ ∀ j < i, Q (j + 1) := by
  rw [Nat.exists_lt_succ_left]
  refine or_congr (by simp) ?_
  simp only [Nat.forall_lt_succ_left]
  constructor
  · rintro ⟨i, hi, hP, h0, h⟩
    exact ⟨h0, i, hi, hP, h⟩
  · rintro ⟨h0, i, hi, hP, h⟩
    exact ⟨i, hi, hP, h0, h⟩

namespace Memory

/-- The bytes at `a` are `bs`, each of them read alone. -/
def HasBytes (m : Memory) (a : Address) (bs : List UInt8) : Prop :=
  ∀ k b, bs[k]? = some b → m.readU8 (a + UInt64.ofNat k) = .ok b

/-- The first `n` bytes at `a` can be read, and none of them is zero. -/
def NonzeroFor (m : Memory) (a : Address) (n : Nat) : Prop :=
  ∀ k < n, ∃ b, m.readU8 (a + UInt64.ofNat k) = .ok b ∧ b ≠ 0

section Texts

variable {m : Memory} {a : Address} {limit : Nat} {b : UInt8} {bs : List UInt8} {e : MemoryError}

theorem hasBytes_nil : m.HasBytes a [] := nofun

theorem hasBytes_cons : m.HasBytes a (b :: bs) ↔
    m.readU8 a = .ok b ∧ m.HasBytes (a + (1 : UInt64)) bs := by
  constructor
  · intro h
    have hb := h 0 b rfl
    rw [Address.add_ofNat_zero] at hb
    refine ⟨hb, fun k c hc => ?_⟩
    rw [Address.add_ofNat_succ]
    exact h (k + 1) c hc
  · rintro ⟨hb, h⟩ k c hc
    cases k with
    | zero =>
      cases hc
      rwa [Address.add_ofNat_zero]
    | succ k =>
      rw [← Address.add_ofNat_succ]
      exact h k c hc

theorem nonzeroFor_succ {n : Nat} : m.NonzeroFor a (n + 1) ↔
    (∃ b, m.readU8 a = .ok b ∧ b ≠ 0) ∧ m.NonzeroFor (a + (1 : UInt64)) n := by
  unfold NonzeroFor
  rw [Nat.forall_lt_succ_left, Address.add_ofNat_zero]
  simp only [Address.add_ofNat_succ]

theorem readCString_of_error (h : m.readU8 a = .error e) :
    m.readCString (limit + 1) a = .error e := by
  simp only [readCString, h, bind, Except.bind]

theorem readCString_of_zero (h : m.readU8 a = .ok 0) :
    m.readCString (limit + 1) a = .ok (some []) := by
  simp only [readCString, h, bind, Except.bind, if_true, pure, Except.pure]

theorem readCString_of_ne (h : m.readU8 a = .ok b) (hb : b ≠ 0) :
    m.readCString (limit + 1) a =
      (m.readCString limit (a + (1 : UInt64))).map (Option.map (b :: ·)) := by
  simp only [readCString, h, bind, Except.bind, if_neg hb]
  rcases m.readCString limit (a + (1 : UInt64)) with e | rest <;> rfl

/-- Behind a byte that is not zero the rest of the text follows. -/
theorem readCString_eq_some_of_ne (h : m.readU8 a = .ok b) (hb : b ≠ 0) :
    m.readCString (limit + 1) a = .ok (some bs) ↔
      ∃ rest, bs = b :: rest ∧ m.readCString limit (a + (1 : UInt64)) = .ok (some rest) := by
  rw [readCString_of_ne h hb]
  rcases m.readCString limit (a + (1 : UInt64)) with e | _ | rest <;> simp [Except.map, eq_comm]

/-- A text is read where its bytes stand with a zero after them, all within the limit. -/
theorem readCString_eq_some_iff : m.readCString limit a = .ok (some bs) ↔
    0 ∉ bs ∧ bs.length < limit ∧ m.HasBytes a (bs ++ [0]) := by
  induction limit generalizing a bs with
  | zero => simp [readCString]
  | succ limit ih =>
    rcases h : m.readU8 a with e | b
    · rw [readCString_of_error h]
      cases bs <;> simp [hasBytes_cons, h]
    by_cases hb : b = 0
    · subst hb
      rw [readCString_of_zero h]
      cases bs with
      | nil => simp [hasBytes_cons, hasBytes_nil, h]
      | cons c cs =>
        simp only [List.cons_append, hasBytes_cons, h, Except.ok.injEq]
        refine iff_of_false (by simp) ?_
        rintro ⟨hc, -, rfl, -⟩
        exact hc List.mem_cons_self
    · simp only [readCString_eq_some_of_ne h hb, ih]
      cases bs with
      | nil => simp [hasBytes_cons, h, hb]
      | cons c cs =>
        simp only [List.cons_append, hasBytes_cons, h, Except.ok.injEq, List.cons.injEq]
        constructor
        · rintro ⟨_, ⟨rfl, rfl⟩, hzero, hlength, hbytes⟩
          exact ⟨by simp [hzero, Ne.symm hb], by simpa using hlength, rfl, hbytes⟩
        · rintro ⟨hzero, hlength, rfl, hbytes⟩
          exact ⟨cs, ⟨rfl, rfl⟩, fun hmem => hzero (List.mem_cons_of_mem _ hmem),
            by simpa using hlength, hbytes⟩

/-- There is no text where the limit is reached before a zero. -/
theorem readCString_eq_none_iff : m.readCString limit a = .ok none ↔ m.NonzeroFor a limit := by
  induction limit generalizing a with
  | zero => simp [readCString, NonzeroFor]
  | succ limit ih =>
    rw [nonzeroFor_succ]
    rcases h : m.readU8 a with e | b
    · simp [readCString_of_error h]
    by_cases hb : b = 0
    · simp [readCString_of_zero (hb ▸ h), hb]
    · rw [readCString_of_ne h hb, ← ih]
      rcases m.readCString limit (a + (1 : UInt64)) with e | _ | rest <;> simp [Except.map, hb]

/-- A text fails as the first of its bytes does that cannot be read. -/
theorem readCString_eq_error_iff : m.readCString limit a = .error e ↔
    ∃ k < limit, m.readU8 (a + UInt64.ofNat k) = .error e ∧ m.NonzeroFor a k := by
  induction limit generalizing a with
  | zero => simp [readCString]
  | succ limit ih =>
    unfold NonzeroFor at *
    rw [exists_first_succ, Address.add_ofNat_zero]
    simp only [← Address.add_ofNat_succ]
    rw [← ih]
    rcases h : m.readU8 a with e' | b
    · simp [readCString_of_error h]
    by_cases hb : b = 0
    · simp [readCString_of_zero (hb ▸ h), hb]
    · rw [readCString_of_ne h hb]
      rcases m.readCString limit (a + (1 : UInt64)) with e | _ | rest <;> simp [Except.map, hb]

end Texts

end Memory

end TypeMetadata
