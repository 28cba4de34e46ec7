/-!
# Little-endian words

A natural number of a fixed width as bytes, least significant first. `ofBytes_bytes` says that
reading back what was written gives the number modulo what the bytes can count, and `bytes_ofBytes`
that writing what was read gives back the bytes.
-/

namespace TypeMetadata

namespace Word

/-- The `w` bytes of `n`, least significant first; what does not fit is dropped. -/
def bytes : Nat → Nat → List UInt8
  | 0, _ => []
  | w + 1, n => UInt8.ofNat n :: bytes w (n / 256)

/-- The number written by `bs`, least significant first. -/
def ofBytes : List UInt8 → Nat
  | [] => 0
  | b :: bs => b.toNat + 256 * ofBytes bs

/-- How many numbers there are of `w` bytes. -/
def count : Nat → Nat
  | 0 => 1
  | w + 1 => 256 * count w

@[simp] theorem length_bytes (w n : Nat) : (bytes w n).length = w := by
  induction w generalizing n with
  | zero => rfl
  | succ w ih => simp [bytes, ih]

theorem ofBytes_bytes (w n : Nat) : ofBytes (bytes w n) = n % count w := by
  induction w generalizing n with
  | zero => simp [bytes, ofBytes, count, Nat.mod_one]
  | succ w ih =>
    rw [bytes, ofBytes, ih, count, Nat.mod_mul]
    simp

theorem bytes_ofBytes (bs : List UInt8) : bytes bs.length (ofBytes bs) = bs := by
  induction bs with
  | nil => rfl
  | cons b bs ih =>
    have hb : b.toNat < 256 := b.toNat_lt
    have hfirst : UInt8.ofNat (b.toNat + 256 * ofBytes bs) = b := by
      apply UInt8.toNat_inj.1
      rw [UInt8.toNat_ofNat']
      omega
    have hrest : (b.toNat + 256 * ofBytes bs) / 256 = ofBytes bs := by omega
    rw [ofBytes, List.length_cons, bytes, hfirst, hrest, ih]

@[simp] theorem ofBytes_replicate_zero (n : Nat) : ofBytes (List.replicate n 0) = 0 := by
  induction n with
  | zero => rfl
  | succ n ih => simp [List.replicate_succ, ofBytes, ih]

/-- Zeros behind the last byte that counts do not change a number. -/
@[simp] theorem ofBytes_append_zeros (bs : List UInt8) (n : Nat) :
    ofBytes (bs ++ List.replicate n 0) = ofBytes bs := by
  induction bs with
  | nil => simp [ofBytes]
  | cons b bs ih => simp [ofBytes, ih]

theorem bytes_mod (w n : Nat) : bytes w (n % count w) = bytes w n := by
  rw [← ofBytes_bytes]
  simpa using bytes_ofBytes (bytes w n)

/-- The low part comes first. -/
theorem bytes_add (w v n : Nat) : bytes (w + v) n = bytes w n ++ bytes v (n / count w) := by
  induction w generalizing n with
  | zero => simp [bytes, count]
  | succ w ih =>
    rw [Nat.succ_add, bytes, ih, bytes, List.cons_append, Nat.div_div_eq_div_mul, count]

end Word

/-- The bytes of a 16-bit word. -/
def bytesOf16 (n : UInt16) : List UInt8 := Word.bytes 2 n.toNat

/-- The bytes of a 32-bit word. -/
def bytesOf32 (n : UInt32) : List UInt8 := Word.bytes 4 n.toNat

/-- The bytes of a 64-bit word. -/
def bytesOf64 (n : UInt64) : List UInt8 := Word.bytes 8 n.toNat

@[simp] theorem length_bytesOf16 (n : UInt16) : (bytesOf16 n).length = 2 := Word.length_bytes ..

@[simp] theorem length_bytesOf32 (n : UInt32) : (bytesOf32 n).length = 4 := Word.length_bytes ..

@[simp] theorem length_bytesOf64 (n : UInt64) : (bytesOf64 n).length = 8 := Word.length_bytes ..

theorem bytesOf16_ofNat (n : Nat) : bytesOf16 (.ofNat n) = Word.bytes 2 n := by
  rw [bytesOf16, UInt16.toNat_ofNat']
  exact Word.bytes_mod 2 n

theorem bytesOf32_ofNat (n : Nat) : bytesOf32 (.ofNat n) = Word.bytes 4 n := by
  rw [bytesOf32, UInt32.toNat_ofNat']
  exact Word.bytes_mod 4 n

theorem bytesOf64_ofNat (n : Nat) : bytesOf64 (.ofNat n) = Word.bytes 8 n := by
  rw [bytesOf64, UInt64.toNat_ofNat']
  exact Word.bytes_mod 8 n

theorem bytesOf16_ofBytes {bs : List UInt8} (h : bs.length = 2) :
    bytesOf16 (.ofNat (Word.ofBytes bs)) = bs := by
  rw [bytesOf16_ofNat, ← h, Word.bytes_ofBytes]

theorem ofBytes_bytesOf16 (n : UInt16) : UInt16.ofNat (Word.ofBytes (bytesOf16 n)) = n := by
  simp [bytesOf16, Word.ofBytes_bytes, Word.count]

theorem bytesOf32_ofBytes {bs : List UInt8} (h : bs.length = 4) :
    bytesOf32 (.ofNat (Word.ofBytes bs)) = bs := by
  rw [bytesOf32_ofNat, ← h, Word.bytes_ofBytes]

theorem ofBytes_bytesOf32 (n : UInt32) : UInt32.ofNat (Word.ofBytes (bytesOf32 n)) = n := by
  simp [bytesOf32, Word.ofBytes_bytes, Word.count]

theorem bytesOf64_ofBytes {bs : List UInt8} (h : bs.length = 8) :
    bytesOf64 (.ofNat (Word.ofBytes bs)) = bs := by
  rw [bytesOf64_ofNat, ← h, Word.bytes_ofBytes]

theorem ofBytes_bytesOf64 (n : UInt64) : UInt64.ofNat (Word.ofBytes (bytesOf64 n)) = n := by
  simp [bytesOf64, Word.ofBytes_bytes, Word.count]

/-- At most eight bytes with zeros behind them are the bytes of just one word. -/
theorem bytesOf64_eq_append_zeros_iff {n : UInt64} {bs : List UInt8} (h : bs.length ≤ 8) :
    bytesOf64 n = bs ++ List.replicate (8 - bs.length) 0 ↔ n = .ofNat (Word.ofBytes bs) := by
  constructor
  · intro hn
    rw [← ofBytes_bytesOf64 n, hn, Word.ofBytes_append_zeros]
  · rintro rfl
    rw [← Word.ofBytes_append_zeros bs (8 - bs.length), bytesOf64_ofBytes (by simp; omega)]

/-- The low half comes first. -/
theorem bytesOf64_eq_append (n : UInt64) :
    bytesOf64 n = bytesOf32 n.toUInt32 ++ bytesOf32 (n >>> 32).toUInt32 := by
  have hlow : bytesOf32 n.toUInt32 = Word.bytes 4 n.toNat := bytesOf32_ofNat n.toNat
  have hhigh : bytesOf32 (n >>> 32).toUInt32 = Word.bytes 4 (n.toNat / Word.count 4) := by
    refine (bytesOf32_ofNat (n >>> 32).toNat).trans ?_
    rw [UInt64.toNat_shiftRight, Nat.shiftRight_eq_div_pow]
    rfl
  rw [hlow, hhigh]
  exact Word.bytes_add 4 4 n.toNat

theorem bytesOf32_eq_append (n : UInt32) :
    bytesOf32 n = bytesOf16 n.toUInt16 ++ bytesOf16 (n >>> 16).toUInt16 := by
  have hlow : bytesOf16 n.toUInt16 = Word.bytes 2 n.toNat := bytesOf16_ofNat n.toNat
  have hhigh : bytesOf16 (n >>> 16).toUInt16 = Word.bytes 2 (n.toNat / Word.count 2) := by
    refine (bytesOf16_ofNat (n >>> 16).toNat).trans ?_
    rw [UInt32.toNat_shiftRight, Nat.shiftRight_eq_div_pow]
    rfl
  rw [hlow, hhigh]
  exact Word.bytes_add 2 2 n.toNat

theorem bytesOf16_eq_append (n : UInt16) : bytesOf16 n = [n.toUInt8, (n >>> 8).toUInt8] := by
  have hhigh : (n >>> 8).toNat = n.toNat / 256 := by
    rw [UInt16.toNat_shiftRight, Nat.shiftRight_eq_div_pow]
    rfl
  simp only [bytesOf16, Word.bytes, ← hhigh]
  rfl

/-- The bytes of a text in UTF-8. -/
def bytesOfText (s : String) : List UInt8 := s.toUTF8.data.toList

end TypeMetadata
