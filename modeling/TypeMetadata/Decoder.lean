import TypeMetadata.Error

/-!
# Decoders

A decoder reads memory and gives a value or the cause why there is none. It never writes, so two
decoders read the same memory whatever the first one answered. `Limits` bounds what a decoder is
willing to read on the word of the bytes themselves.
-/

namespace TypeMetadata

/-- A computation that reads memory. -/
abbrev Decoder := ReaderT Memory (Except Error)

/-- Bounds on what records may declare. -/
structure Limits where
  /-- Bytes in which a name has to end. -/
  nameLength : Nat := 4096
  /-- Slots a vtable may declare. -/
  vtableSize : UInt32 := 65536
  /-- Fields a field descriptor may declare. -/
  fields : UInt32 := 65536
  /-- Parents followed in search of a module. -/
  contextDepth : Nat := 64
deriving DecidableEq

namespace Decoder

variable {α β : Type}

/-- A memory access as a decoder. -/
def access (f : Memory → Except MemoryError α) : Decoder α := fun m =>
  match f m with
  | .ok x => .ok x
  | .error e => .error (.memory e)

/-- Fail because of what the bytes say. -/
def fail (e : DecodeError) : Decoder α := throw (.decode e)

def u16 (a : Address) : Decoder UInt16 := access fun m => m.readU16 a

def u32 (a : Address) : Decoder UInt32 := access fun m => m.readU32 a

def i32 (a : Address) : Decoder Int32 := access fun m => m.readI32 a

def u64 (a : Address) : Decoder UInt64 := access fun m => m.readU64 a

def pointer (a : Address) : Decoder Address := access fun m => m.readPointer a

/-- The value that a decoder has to find. -/
def require (x : Option α) (e : DecodeError) : Decoder α :=
  match x with
  | some x => pure x
  | none => fail e

/-- What `read` gives at `n` addresses from `a` on, `stride` bytes apart. -/
def series (read : Address → Decoder α) (stride : UInt64) : Nat → Address → Decoder (List α)
  | 0, _ => pure []
  | n + 1, a => do
    let x ← read a
    let xs ← series read stride n (a + stride)
    return x :: xs

/-! ## Decoders in sequence -/

variable {x : Decoder α} {f : α → Decoder β} {m : Memory}

theorem bind_of_ok {a : α} (h : x m = .ok a) : (x >>= f) m = f a m := by
  simp only [bind, ReaderT.bind, h, Except.bind]

theorem bind_of_error {e : Error} (h : x m = .error e) : (x >>= f) m = .error e := by
  simp only [bind, ReaderT.bind, h, Except.bind]

/-- The steps of a decoder that gives a value all gave one. -/
theorem of_bind_ok {b : β} (h : (x >>= f) m = .ok b) : ∃ a, x m = .ok a ∧ f a m = .ok b := by
  rcases hx : x m with e | a
  · rw [bind_of_error hx] at h
    cases h
  · rw [bind_of_ok hx] at h
    exact ⟨a, rfl, h⟩

theorem bind_eq_error_iff {e : Error} : (x >>= f) m = .error e ↔
    x m = .error e ∨ ∃ a, x m = .ok a ∧ f a m = .error e := by
  rcases hx : x m with e' | a
  · simp [bind_of_error hx]
  · simp [bind_of_ok hx]

section Answers

variable {a : α} {e : Error} {g : Memory → Except MemoryError α} {o : Option α} {d : DecodeError}

theorem access_eq_ok_iff : access g m = .ok a ↔ g m = .ok a := by
  unfold access
  rcases g m with e' | x <;> simp

theorem access_eq_error_iff : access g m = .error e ↔ ∃ e', g m = .error e' ∧ e = .memory e' := by
  unfold access
  rcases g m with e' | x <;> simp [eq_comm]

theorem require_eq_ok_iff : require o d m = .ok a ↔ o = some a := by
  cases o with
  | none => exact iff_of_false nofun nofun
  | some x =>
    change Except.ok x = .ok a ↔ some x = some a
    simp

theorem require_eq_error_iff : require o d m = .error e ↔ o = none ∧ e = .decode d := by
  cases o with
  | none => exact ⟨fun h => ⟨rfl, (Except.error.inj h).symm⟩, fun h => congrArg _ h.2.symm⟩
  | some x => exact iff_of_false nofun nofun

end Answers

/-! ## Series -/

section Series

variable {read : Address → Decoder α} {stride : UInt64}

theorem series_succ_of_ok {n : Nat} {a : Address} {x : α} (h : read a m = .ok x) :
    series read stride (n + 1) a m = (series read stride n (a + stride) m).map (x :: ·) := by
  rw [series, bind_of_ok h]
  rcases hs : series read stride n (a + stride) m with e | xs
  · rw [bind_of_error hs]
    rfl
  · rw [bind_of_ok hs]
    rfl

/-- A series gives what is read at each of its places. -/
theorem series_eq_ok_iff {n : Nat} {a : Address} {xs : List α} :
    series read stride n a m = .ok xs ↔
      xs.length = n ∧ ∀ i x, xs[i]? = some x → read (a + stride * UInt64.ofNat i) m = .ok x := by
  induction n generalizing a xs with
  | zero =>
    constructor
    · intro h
      cases h
      exact ⟨rfl, nofun⟩
    · rintro ⟨hlength, -⟩
      rw [List.length_eq_zero_iff.1 hlength]
      rfl
  | succ n ih =>
    constructor
    · intro h
      obtain ⟨x, hx, h⟩ := of_bind_ok h
      obtain ⟨rest, hrest, h⟩ := of_bind_ok h
      cases h
      obtain ⟨hlength, hall⟩ := ih.1 hrest
      refine ⟨by rw [List.length_cons, hlength], fun i y hy => ?_⟩
      cases i with
      | zero =>
        cases hy
        rwa [Address.add_no_stride]
      | succ i =>
        rw [← Address.add_stride]
        exact hall i y hy
    · rintro ⟨hlength, hall⟩
      obtain ⟨x, rest, rfl⟩ := List.exists_cons_of_length_eq_add_one hlength
      have hx := hall 0 x rfl
      rw [Address.add_no_stride] at hx
      have hrest : series read stride n (a + stride) m = .ok rest := by
        refine ih.2 ⟨Nat.succ.inj hlength, fun i y hy => ?_⟩
        rw [Address.add_stride]
        exact hall (i + 1) y hy
      rw [series_succ_of_ok hx, hrest]
      rfl

theorem length_of_series {n : Nat} {a : Address} {xs : List α}
    (h : series read stride n a m = .ok xs) : xs.length = n :=
  (series_eq_ok_iff.1 h).1

/-- What a series begins with is read by a shorter one. -/
theorem series_of_append {n : Nat} {a : Address} {before rest : List α}
    (h : series read stride n a m = .ok (before ++ rest)) :
    before.length ≤ n ∧ series read stride before.length a m = .ok before := by
  obtain ⟨hlength, hall⟩ := series_eq_ok_iff.1 h
  rw [List.length_append] at hlength
  refine ⟨by omega, series_eq_ok_iff.2 ⟨rfl, fun i x hx => hall i x ?_⟩⟩
  rwa [List.getElem?_append_left (List.getElem?_eq_some_iff.1 hx).1]

/-- A series fails as the first of its places does that cannot be read. -/
theorem series_eq_error_iff {n : Nat} {a : Address} {e : Error} :
    series read stride n a m = .error e ↔ ∃ i < n,
      read (a + stride * UInt64.ofNat i) m = .error e ∧
        ∀ j < i, ∃ x, read (a + stride * UInt64.ofNat j) m = .ok x := by
  induction n generalizing a with
  | zero => exact iff_of_false nofun fun ⟨i, hi, _⟩ => Nat.not_lt_zero i hi
  | succ n ih =>
    rw [exists_first_succ, Address.add_no_stride]
    simp only [← Address.add_stride]
    rw [← ih]
    rcases hx : read a m with e' | x
    · rw [series, bind_of_error hx]
      simp
    · rw [series_succ_of_ok hx]
      rcases series read stride n (a + stride) m with e' | xs <;> simp [Except.map]

/-- A series is a shorter one and the rest of it. -/
theorem series_add (n k : Nat) (a : Address) :
    series read stride (n + k) a = do
      let xs ← series read stride n a
      let ys ← series read stride k (a + stride * UInt64.ofNat n)
      return xs ++ ys := by
  induction n generalizing a with
  | zero => simp [series, Address.add_zero]
  | succ n ih =>
    have hn : n + 1 + k = n + k + 1 := by omega
    rw [hn, series, series]
    simp [ih, Address.add_stride]

end Series

end Decoder

end TypeMetadata
