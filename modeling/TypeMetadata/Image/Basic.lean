import TypeMetadata.Memory.Basic

/-!
# Images

An image is a run of bytes laid out at a fixed base, to be mapped as one region. Laying out appends:
each `push` lands at the cursor and returns where that was. `Build` is the monad of layouts; it
carries the image and stops at the first patch that cannot be made, with the image given up, so that
a failed layout changes nothing.
-/

namespace TypeMetadata

/-- Bytes laid out so far from `base` on. -/
structure Image where
  base : Address
  bytes : Array UInt8 := #[]

namespace Image

/-- Address of the next byte; it wraps with the address space. -/
def cursor (i : Image) : Address := i.base + UInt64.ofNat i.bytes.size

def append (i : Image) (bs : List UInt8) : Image := { i with bytes := i.bytes ++ bs }

/-- How many zeros bring `cursor` to a multiple of `align`: up to the next multiple, or to the end
of the address space, where the cursor wraps to zero, if that comes first. -/
def padding (cursor align : UInt64) : Nat :=
  if align = 0 ∨ cursor % align = 0 then 0
  else min (align.toNat - cursor.toNat % align.toNat) (0x10000000000000000 - cursor.toNat)

/-- Pad with zeros until the cursor is a multiple of `align`. -/
def align (i : Image) (align : UInt64) : Image :=
  i.append (List.replicate (padding i.cursor.val align) 0)

section Padding

variable {cursor align : UInt64} {k : Nat}

theorem padding_zero (cursor : UInt64) : padding cursor 0 = 0 := if_pos (.inl rfl)

theorem padding_lt (h : 0 < align) (cursor : UInt64) : padding cursor align < align.toNat := by
  have hpos : 0 < align.toNat := UInt64.lt_iff_toNat_lt.1 h
  unfold padding
  split
  · exact hpos
  · rename_i hne
    have hrest : cursor.toNat % align.toNat ≠ 0 := by
      intro hzero
      exact hne (.inr (UInt64.toNat_inj.1 ((UInt64.toNat_mod cursor align).trans hzero)))
    exact Nat.lt_of_le_of_lt (Nat.min_le_left _ _) (by omega)

/-- Behind the padding there is a multiple. -/
theorem dvd_padding (h : align ≠ 0) (cursor : UInt64) :
    align.toNat ∣ (cursor.toNat + padding cursor align) % 0x10000000000000000 := by
  have hlt := cursor.toNat_lt
  unfold padding
  split
  · rename_i hnone
    have hzero := congrArg UInt64.toNat (hnone.resolve_left h)
    rw [UInt64.toNat_mod] at hzero
    rw [Nat.add_zero, Nat.mod_eq_of_lt hlt]
    exact Nat.dvd_of_mod_eq_zero hzero
  · have hpos : 0 < align.toNat := Nat.pos_of_ne_zero fun hzero => h (UInt64.toNat_inj.1 hzero)
    have hrest := Nat.mod_lt cursor.toNat hpos
    have hsplit := Nat.div_add_mod cursor.toNat align.toNat
    have hnext : align.toNat ∣ cursor.toNat + (align.toNat - cursor.toNat % align.toNat) :=
      ⟨cursor.toNat / align.toNat + 1, by rw [Nat.mul_add]; omega⟩
    rw [Nat.min_def]
    split
    · -- the next multiple may be the end of the address space, which is the address zero
      rcases Nat.lt_or_ge (cursor.toNat + (align.toNat - cursor.toNat % align.toNat))
        0x10000000000000000 with hin | hend
      · rwa [Nat.mod_eq_of_lt hin]
      · have hzero : (cursor.toNat + (align.toNat - cursor.toNat % align.toNat))
            % 0x10000000000000000 = 0 := by omega
        rw [hzero]
        exact Nat.dvd_zero _
    · rw [Nat.add_sub_cancel' (Nat.le_of_lt hlt), Nat.mod_self]
      exact Nat.dvd_zero _

/-- Within the padding there is none. -/
theorem not_dvd_of_lt_padding (h : k < padding cursor align) :
    ¬align.toNat ∣ (cursor.toNat + k) % 0x10000000000000000 := by
  unfold padding at h
  split at h
  · exact absurd h (Nat.not_lt_zero k)
  · rename_i hne
    obtain ⟨hnext, hend⟩ := Nat.lt_min.1 h
    rw [Nat.mod_eq_of_lt (by omega)]
    have hsplit := Nat.div_add_mod cursor.toNat align.toNat
    rw [← hsplit, Nat.add_assoc, Nat.dvd_add_right (Nat.dvd_mul_right _ _)]
    intro hdvd
    have hzero := Nat.eq_zero_of_dvd_of_lt hdvd (by omega)
    have hrest : (cursor % align).toNat = 0 := by
      rw [UInt64.toNat_mod]
      omega
    exact hne (.inr (UInt64.toNat_inj.1 hrest))

end Padding

end Image

/-- Map an image at its base. -/
def Memory.load (m : Memory) (i : Image) : Memory := m.map i.base i.bytes

/-- Why a patch cannot be made. -/
inductive PatchError where
  | outside (address : Address) (length : Nat) (base : Address)
  | tooFar (origin target : Address)
  | oddSlot (slot : Address)
deriving DecidableEq

namespace PatchError

def message : PatchError → String
  | outside address length base =>
    s!"patch at {address} outside builder ({length} bytes at {base})"
  | tooFar origin target => s!"relative pointer {origin} -> {target} exceeds 32 bits"
  | oddSlot slot => s!"indirect slot {slot} must be 2-byte aligned"

end PatchError

/-- A layout that returns an `α`. -/
abbrev Build := StateT Image (Except PatchError)

namespace Build

/-- Address of the next byte. -/
def cursor : Build Address := return (← get).cursor

/-- Append `bs`, and return where they start. -/
def push (bs : List UInt8) : Build Address := modifyGet fun i => (i.cursor, i.append bs)

/-- Pad to a multiple of `align`, and return the cursor there. -/
def align (n : UInt64) : Build Address := do
  modify fun i => i.align n
  cursor

/-- Append `n` zeros. -/
def reserve (n : Nat) : Build Address := push (List.replicate n 0)

def pushU16 (n : UInt16) : Build Address := push (bytesOf16 n)

def pushU32 (n : UInt32) : Build Address := push (bytesOf32 n)

def pushI32 (n : Int32) : Build Address := pushU32 n.toUInt32

def pushU64 (n : UInt64) : Build Address := push (bytesOf64 n)

/-- A pointer, at the next multiple of its size. -/
def pushPointer (target : Address) : Build Address := do
  let _ ← align pointerSize
  pushU64 target.val

/-- A text in UTF-8 with a zero byte after it. -/
def pushText (s : String) : Build Address := push (bytesOfText s ++ [0])

end Build

end TypeMetadata
