/-!
# Hexadecimal text

Numbers are written in lower-case hexadecimal digits without leading zeros, bytes as two digits
each. Reading takes digits of either case; `bytes?_bytes` says that bytes read back as they were
written.
-/

namespace TypeMetadata

/-- The lower-case hexadecimal digits of `n`, without leading zeros. -/
def hexDigits (n : Nat) : String := String.ofList (Nat.toDigits 16 n)

/-- `n` in hexadecimal, marked as such. -/
def hexText (n : Nat) : String := "0x" ++ hexDigits n

namespace Hex

/-- What a hexadecimal digit stands for. -/
def digit? (c : Char) : Option Nat :=
  if '0' ≤ c ∧ c ≤ '9' then some (c.toNat - '0'.toNat)
  else if 'a' ≤ c ∧ c ≤ 'f' then some (c.toNat - 'a'.toNat + 10)
  else if 'A' ≤ c ∧ c ≤ 'F' then some (c.toNat - 'A'.toNat + 10)
  else none

/-- The number that comes of writing the digits `cs` behind `n`. -/
def extend? : Nat → List Char → Option Nat
  | n, [] => some n
  | n, c :: cs => do extend? (16 * n + (← digit? c)) cs

/-- The number that is written with a mark and one digit at least. -/
def number? : List Char → Option Nat
  | '0' :: 'x' :: c :: cs => do extend? (← digit? c) cs
  | _ => none

/-- The two digits of a byte. -/
def byteDigits (b : UInt8) : List Char :=
  [Nat.digitChar (b.toNat / 16), Nat.digitChar (b.toNat % 16)]

/-- Bytes as text. -/
def bytes (bs : List UInt8) : String := String.ofList (bs.flatMap byteDigits)

/-- The bytes that pairs of digits stand for. -/
def bytes? : List Char → Option (List UInt8)
  | [] => some []
  | [_] => none
  | high :: low :: cs =>
    return UInt8.ofNat (16 * (← digit? high) + (← digit? low)) :: (← bytes? cs)

theorem digit?_digitChar {n : Nat} (h : n < 16) : digit? (Nat.digitChar n) = some n := by
  have : ∀ n < 16, digit? (Nat.digitChar n) = some n := by decide
  exact this n h

/-- Bytes read back as they were written. -/
theorem bytes?_bytes (bs : List UInt8) : bytes? (bytes bs).toList = some bs := by
  rw [bytes, String.toList_ofList]
  induction bs with
  | nil => rfl
  | cons b bs ih =>
    have hb : b.toNat < 256 := b.toNat_lt
    have high : digit? (Nat.digitChar (b.toNat / 16)) = some (b.toNat / 16) :=
      digit?_digitChar (by omega)
    have low : digit? (Nat.digitChar (b.toNat % 16)) = some (b.toNat % 16) :=
      digit?_digitChar (by omega)
    have byte : UInt8.ofNat (16 * (b.toNat / 16) + b.toNat % 16) = b := by
      rw [Nat.div_add_mod, UInt8.ofNat_toNat]
    simp only [List.flatMap_cons, byteDigits, List.cons_append, List.nil_append, bytes?, high, low,
      ih, Option.bind_eq_bind, Option.bind_some, byte, Option.pure_def]

end Hex

end TypeMetadata
