import TypeMetadata.Text.Hex

/-!
# Addresses of the target

A target has 64-bit pointers. `Address` is one of them; its arithmetic wraps at `2 ^ 64`, as
pointer arithmetic on the target does, and `add?` is the addition that refuses to wrap.
-/

namespace TypeMetadata

/-- Width of a target pointer in bytes. -/
def pointerSize : UInt64 := 8

/-- A 64-bit address in the target. -/
structure Address where
  val : UInt64
deriving DecidableEq, Inhabited, Repr

namespace Address

/-- The null address. -/
def null : Address := ⟨0⟩

def toNat (a : Address) : Nat := a.val.toNat

def ofNat (n : Nat) : Address := ⟨UInt64.ofNat n⟩

def isNull (a : Address) : Bool := a = null

/-- `none` for the null address. -/
def nonNull? (a : Address) : Option Address := if a.isNull then none else some a

instance : HAdd Address UInt64 Address := ⟨fun a n => ⟨a.val + n⟩⟩

instance : HSub Address UInt64 Address := ⟨fun a n => ⟨a.val - n⟩⟩

/-- The address `delta` bytes further, or before for a negative `delta`. -/
def displace (a : Address) (delta : Int64) : Address := ⟨a.val + delta.toUInt64⟩

/-- The address `n` bytes further, unless it lies beyond the address space. -/
def add? (a : Address) (n : UInt64) : Option Address :=
  if a.toNat + n.toNat < 0x10000000000000000 then some (a + n) else none

/-- Signed distance from `origin` to `a`, the way round that fits in 64 bits. -/
def distanceFrom (a origin : Address) : Int64 := (a.val - origin.val).toInt64

/-- Alignment zero asks for nothing. -/
def isAligned (a : Address) (align : UInt64) : Bool := align = 0 || a.val % align = 0

instance : LE Address := ⟨fun a b => a.val ≤ b.val⟩

instance : LT Address := ⟨fun a b => a.val < b.val⟩

instance (a b : Address) : Decidable (a ≤ b) := inferInstanceAs (Decidable (a.val ≤ b.val))

instance (a b : Address) : Decidable (a < b) := inferInstanceAs (Decidable (a.val < b.val))

instance : Ord Address := ⟨fun a b => compare a.val b.val⟩

@[simp] theorem val_add (a : Address) (n : UInt64) : (a + n).val = a.val + n := rfl

@[simp] theorem val_sub (a : Address) (n : UInt64) : (a - n).val = a.val - n := rfl

theorem ext_val {a b : Address} (h : a.val = b.val) : a = b := by
  cases a; cases b; simp_all

theorem add_zero (a : Address) : a + (0 : UInt64) = a := ext_val (UInt64.add_zero a.val)

theorem add_add (a : Address) (n k : UInt64) : a + n + k = a + (n + k) :=
  ext_val (UInt64.add_assoc a.val n k)

/-- One stride further, and then `i` of them. -/
theorem add_stride (a : Address) (stride : UInt64) (i : Nat) :
    a + stride + stride * UInt64.ofNat i = a + stride * UInt64.ofNat (i + 1) := by
  have hone : stride * UInt64.ofNat 1 = stride := UInt64.mul_one stride
  rw [add_add, UInt64.ofNat_add, UInt64.mul_add, hone, UInt64.add_comm stride]

theorem add_no_stride (a : Address) (stride : UInt64) : a + stride * UInt64.ofNat 0 = a := by
  have hzero : stride * UInt64.ofNat 0 = 0 := UInt64.mul_zero
  rw [hzero, add_zero]

theorem add_ofNat_zero (a : Address) : a + UInt64.ofNat 0 = a := add_zero a

theorem add_ofNat_succ (a : Address) (k : Nat) :
    a + (1 : UInt64) + UInt64.ofNat k = a + UInt64.ofNat (k + 1) := by
  rw [add_add, UInt64.ofNat_add, UInt64.add_comm]
  rfl

theorem toNat_add_ofNat (a : Address) (k : Nat) :
    (a + UInt64.ofNat k).toNat = (a.toNat + k) % 0x10000000000000000 := by
  unfold toNat
  rw [val_add, UInt64.toNat_add, UInt64.toNat_ofNat']
  omega

theorem le_iff_toNat_le {a b : Address} : a ≤ b ↔ a.toNat ≤ b.toNat := UInt64.le_iff_toNat_le

theorem isAligned_iff {a : Address} {align : UInt64} :
    a.isAligned align = true ↔ align = 0 ∨ align.toNat ∣ a.toNat := by
  have hmod : a.val % align = 0 ↔ align.toNat ∣ a.toNat := by
    rw [← UInt64.toNat_inj, UInt64.toNat_mod, Nat.dvd_iff_mod_eq_zero]
    rfl
  rw [isAligned, Bool.or_eq_true, decide_eq_true_iff, decide_eq_true_iff, hmod]

theorem add_distanceFrom (a origin : Address) : origin.displace (a.distanceFrom origin) = a := by
  apply ext_val
  simp only [displace, distanceFrom]
  rw [UInt64.toUInt64_toInt64, UInt64.add_comm]
  exact UInt64.sub_add_cancel a.val origin.val

end Address

/-! ## Text -/

namespace Address

/-- Hexadecimal digits alone. -/
def digits (a : Address) : String := hexDigits a.toNat

instance : ToString Address := ⟨fun a => hexText a.toNat⟩

/-- All sixteen digits. -/
def padded (a : Address) : String :=
  let ds := Nat.toDigits 16 a.toNat
  "0x" ++ String.ofList (List.replicate (16 - ds.length) '0' ++ ds)

end Address

end TypeMetadata
