import TypeMetadata.Native.Call

/-!
# Tables of target functions

Functions sit at code addresses a fixed stride apart, in the order in which they were registered.
No other address can be called.
-/

namespace TypeMetadata

/-- Functions at `base`, one stride apart. -/
structure FunctionTable where
  base : Address
  functions : Array NativeFunction := #[]

namespace FunctionTable

/-- Distance between the code addresses of two functions. -/
def stride : UInt64 := 16

/-- Where code starts unless told otherwise, within reach of the usual images. -/
def defaultBase : Address := ⟨0x100100000⟩

def size (t : FunctionTable) : Nat := t.functions.size

/-- Code address of the function at `index`. -/
def addressOf (t : FunctionTable) (index : Nat) : Address := t.base + UInt64.ofNat index * stride

/-- The table with one more function, and its address. -/
def register (t : FunctionTable) (f : NativeFunction) : Address × FunctionTable :=
  (t.addressOf t.size, { t with functions := t.functions.push f })

/-- The function at `a`; addresses before the table or between its entries hold none. -/
def lookup? (t : FunctionTable) (a : Address) : Option NativeFunction :=
  let delta := a.distanceFrom t.base
  if delta < 0 ∨ delta.toUInt64 % stride ≠ 0 then none
  else t.functions[(delta.toUInt64 / stride).toNat]?

/-- A function that was registered is found at its address, as long as its distance from the base
is one forwards. -/
theorem lookup?_addressOf (t : FunctionTable) {i : Nat} (hi : 16 * i < 0x8000000000000000) :
    t.lookup? (t.addressOf i) = t.functions[i]? := by
  let x := UInt64.ofNat i * stride
  have hx : x.toNat = i * 16 := by
    rw [UInt64.toNat_mul, UInt64.toNat_ofNat']
    change i % 2 ^ 64 * 16 % 2 ^ 64 = _
    omega
  have hdelta : (t.addressOf i).distanceFrom t.base = x.toInt64 := by
    unfold addressOf Address.distanceFrom
    rw [Address.val_add, UInt64.add_comm, UInt64.add_sub_cancel]
  have hsign : ¬x.toInt64 < 0 := by
    rw [Int64.lt_iff_toInt_lt, ← Int64.toInt_toBitVec, UInt64.toBitVec_toInt64,
      BitVec.toInt_eq_toNat_of_lt (by rw [UInt64.toNat_toBitVec, hx]; omega)]
    simp
  have hmod : x % stride = 0 := by
    rw [← UInt64.toNat_inj, UInt64.toNat_mod, hx]
    exact Nat.mul_mod_left i 16
  have hdiv : (x / stride).toNat = i := by
    rw [UInt64.toNat_div, hx]
    exact Nat.mul_div_left i (by decide)
  unfold lookup?
  simp only [hdelta, UInt64.toUInt64_toInt64]
  rw [if_neg (not_or.2 ⟨hsign, Decidable.not_not.2 hmod⟩), hdiv]

theorem mem_of_lookup? {t : FunctionTable} {a : Address} {f : NativeFunction}
    (h : t.lookup? a = some f) : f ∈ t.functions := by
  unfold lookup? at h
  simp only at h
  split at h
  · cases h
  · exact Array.mem_of_getElem? h

/-- Run the function that a call names, with the call unchanged. -/
def invoke (t : FunctionTable) (c : Call) (m : Memory) : Except CallError UInt64 × Memory :=
  match t.lookup? c.function with
  | none => (.error (.notCallable c.function), m)
  | some f => f c m

end FunctionTable

end TypeMetadata
