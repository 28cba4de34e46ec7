import Mathlib.Data.List.Nodup
import TypeMetadata.Native.FunctionTable
import TypeMetadata.Native.StandIn

/-!
# What the addresses of a table call

A table finds the function at an address by the signed distance of the address from the base, and
it gives addresses out by an addition that wraps. The two fit together: an address calls a function
exactly if it is the one that the function was registered at (`FunctionTable.lookup?_eq_some_iff`).
So one registration changes what its own address calls and nothing else, and over any number of
them every function stays at its address (`FunctionTable.lookup?_registerAll_of_notMem`,
`lookup?_registerAll_addressOf`).
-/

namespace TypeMetadata

namespace FunctionTable

variable {t t' : FunctionTable} {a : Address} {f : NativeFunction} {fs : List NativeFunction}
  {i j : Nat}

/-! ## Addresses -/

theorem addressOf_eq (t : FunctionTable) (i : Nat) :
    t.addressOf i = t.base + UInt64.ofNat (16 * i) := by
  rw [addressOf, Nat.mul_comm, UInt64.ofNat_mul]
  rfl

/-- Up to the size of the address space no two functions share an address. -/
theorem addressOf_inj (hi : 16 * i < 0x10000000000000000) (hj : 16 * j < 0x10000000000000000)
    (h : t.addressOf i = t.addressOf j) : i = j := by
  have hnat := congrArg Address.toNat h
  rw [addressOf_eq, addressOf_eq, Address.toNat_add_ofNat, Address.toNat_add_ofNat] at hnat
  omega

/-- Where something is found is the address of an entry that lies forwards of the base. -/
theorem exists_of_lookup? (h : t.lookup? a = some f) :
    ∃ i, 16 * i < 0x8000000000000000 ∧ a = t.addressOf i ∧ t.functions[i]? = some f := by
  unfold lookup? at h
  simp only [Option.ite_none_left_eq_some, not_or, not_not] at h
  obtain ⟨⟨hsign, hmod⟩, hf⟩ := h
  rw [Address.distanceFrom, UInt64.toUInt64_toInt64] at hmod hf
  rw [Address.distanceFrom] at hsign
  generalize hx : a.val - t.base.val = x at *
  have hforwards : x.toNat < 0x8000000000000000 := by
    rw [Int64.lt_iff_toInt_lt, ← Int64.toInt_toBitVec, UInt64.toBitVec_toInt64,
      BitVec.toInt_eq_toNat_cond, UInt64.toNat_toBitVec] at hsign
    have hzero : (0 : Int64).toInt = 0 := rfl
    have hlt := x.toNat_lt
    split at hsign <;> omega
  have hstride : stride.toNat = 16 := rfl
  have hindex : 16 * (x / stride).toNat = x.toNat := by
    have hrest := congrArg UInt64.toNat hmod
    rw [UInt64.toNat_mod, hstride] at hrest
    rw [UInt64.toNat_div, hstride]
    exact Nat.mul_div_cancel' (Nat.dvd_of_mod_eq_zero hrest)
  refine ⟨_, by rwa [hindex], Address.ext_val ?_, hf⟩
  rw [addressOf_eq, hindex, UInt64.ofNat_toNat, Address.val_add, ← hx, UInt64.add_comm]
  exact (UInt64.sub_add_cancel a.val t.base.val).symm

/-- A table knows the addresses of its functions and no others. -/
theorem lookup?_eq_some_iff : t.lookup? a = some f ↔
    ∃ i, 16 * i < 0x8000000000000000 ∧ a = t.addressOf i ∧ t.functions[i]? = some f := by
  refine ⟨exists_of_lookup?, ?_⟩
  rintro ⟨i, hi, rfl, hf⟩
  rw [lookup?_addressOf t hi, hf]

/-- A new table knows none. -/
theorem lookup?_new (base a : Address) : lookup? { base } a = none := by
  refine Option.eq_none_iff_forall_ne_some.2 fun f h => ?_
  obtain ⟨i, -, -, hf⟩ := exists_of_lookup? h
  cases hf

/-! ## One registration -/

theorem lookup?_register_of_ne (h : a ≠ (t.register f).1) :
    (t.register f).2.lookup? a = t.lookup? a := by
  refine Option.ext fun g => ?_
  rw [lookup?_eq_some_iff, lookup?_eq_some_iff]
  refine exists_congr fun i => and_congr_right fun _ => and_congr_right fun ha => ?_
  have hi : i ≠ t.functions.size := by
    rintro rfl
    exact h ha
  change (t.functions.push f)[i]? = some g ↔ _
  rw [Array.getElem?_push, if_neg hi]

theorem lookup?_register_self (h : 16 * t.size < 0x8000000000000000) :
    (t.register f).2.lookup? (t.register f).1 = some f :=
  (lookup?_addressOf (t.register f).2 h).trans Array.getElem?_push_size

/-! ## Registrations one after another -/

/-- The functions registered one after another: their addresses, and the table that comes of it. -/
def registerAll : FunctionTable → List NativeFunction → List Address × FunctionTable
  | t, [] => ([], t)
  | t, f :: fs =>
    let rest := (t.register f).2.registerAll fs
    ((t.register f).1 :: rest.1, rest.2)

theorem addresses_registerAll (t : FunctionTable) (fs : List NativeFunction) :
    (t.registerAll fs).1 = (List.range' t.size fs.length).map t.addressOf := by
  induction fs generalizing t with
  | nil => rfl
  | cons f fs ih =>
    have hsize : (t.register f).2.size = t.size + 1 := Array.size_push f
    rw [List.length_cons, List.range'_succ, List.map_cons, ← hsize]
    exact congrArg (t.addressOf t.size :: ·) (ih (t.register f).2)

theorem registerAll_append (t : FunctionTable) (fs gs : List NativeFunction) :
    t.registerAll (fs ++ gs) =
      ((t.registerAll fs).1 ++ ((t.registerAll fs).2.registerAll gs).1,
        ((t.registerAll fs).2.registerAll gs).2) := by
  induction fs generalizing t with
  | nil => rfl
  | cons f fs ih =>
    have hrest := ih (t.register f).2
    simp only [List.cons_append, registerAll, hrest]

/-- As many functions as have room forwards of the base get addresses of their own. -/
theorem nodup_registerAll (h : 16 * (t.size + fs.length) ≤ 0x10000000000000000) :
    (t.registerAll fs).1.Nodup := by
  rw [addresses_registerAll]
  refine List.Nodup.map_on (fun i hi j hj => ?_) List.nodup_range'
  rw [List.mem_range'_1] at hi hj
  exact addressOf_inj (by omega) (by omega)

/-- What an address calls changes only by a registration that returns it. -/
theorem lookup?_registerAll_of_notMem (h : a ∉ (t.registerAll fs).1) :
    (t.registerAll fs).2.lookup? a = t.lookup? a := by
  induction fs generalizing t with
  | nil => rfl
  | cons f fs ih =>
    obtain ⟨hfirst, hrest⟩ := not_or.1 (mt List.mem_cons.2 h)
    exact (ih hrest).trans (lookup?_register_of_ne hfirst)

theorem lookup?_registerAll_addressOf (hroom : 16 * (t.size + fs.length) ≤ 0x8000000000000000)
    (hf : fs[i]? = some f) :
    (t.registerAll fs).2.lookup? (t.addressOf (t.size + i)) = some f := by
  induction fs generalizing t i with
  | nil => cases hf
  | cons g fs ih =>
    have hsize : (t.register g).2.size = t.size + 1 := Array.size_push g
    have hlength : (g :: fs).length = fs.length + 1 := List.length_cons
    cases i with
    | zero =>
      cases hf
      -- the first function is not overwritten, since its address is not returned again
      have hnodup : (t.registerAll (f :: fs)).1.Nodup := nodup_registerAll (by omega)
      exact (lookup?_registerAll_of_notMem (List.nodup_cons.1 hnodup).1).trans
        (lookup?_register_self (by omega))
    | succ i =>
      have hrest := ih (t := (t.register g).2) (i := i) (by omega) hf
      rwa [hsize, Nat.add_assoc, Nat.add_comm 1] at hrest

/-! ## Calls -/

theorem invoke_congr {c : Call} (h : t.lookup? c.function = t'.lookup? c.function) :
    t.invoke c = t'.invoke c := by
  funext m
  unfold invoke
  rw [h]

theorem invoke_of_some {c : Call} (h : t.lookup? c.function = some f) : t.invoke c = f c := by
  funext m
  unfold invoke
  rw [h]

theorem invoke_of_none {c : Call} (h : t.lookup? c.function = none) (m : Memory) :
    t.invoke c m = (.error (.notCallable c.function), m) := by
  unfold invoke
  rw [h]

/-- How `t` answers calls, when it has come of registering `fs` in a new table at `base`, with
`addresses` returned for them. -/
structure Dispatches (base : Address) (fs : List NativeFunction) (addresses : List Address)
    (t : FunctionTable) : Prop where
  addresses_eq : addresses = (List.range fs.length).map fun i => base + UInt64.ofNat (16 * i)
  nodup : addresses.Nodup
  /-- A function is run by the calls of its address, with the call as it is. -/
  runs : ∀ i f, fs[i]? = some f → ∀ c : Call, c.function = base + UInt64.ofNat (16 * i) →
    t.invoke c = f c
  /-- What an address calls is what it called when only the first few had been registered. -/
  keeps : ∀ before after, fs = before ++ after →
    (registerAll { base } before).1 <+: addresses ∧
      ∀ c : Call, c.function ∈ (registerAll { base } before).1 →
        t.invoke c = (registerAll { base } before).2.invoke c
  /-- A call of any other address fails, and nothing has been run that could change memory. -/
  refuses : ∀ c : Call, c.function ∉ addresses →
    ∀ m, t.invoke c m = (.error (.notCallable c.function), m)

/-- Functions registered in a new table, fewer than reach half around the address space, are called
by the addresses returned for them and by no others, wherever the table begins. -/
theorem dispatches_registerAll (base : Address) (fs : List NativeFunction)
    (hroom : 16 * fs.length < 0x8000000000000000) :
    Dispatches base fs (registerAll { base } fs).1 (registerAll { base } fs).2 := by
  have hsize : ({ base } : FunctionTable).size = 0 := rfl
  have haddress (i : Nat) : ({ base } : FunctionTable).addressOf i = base + UInt64.ofNat (16 * i) :=
    addressOf_eq _ i
  have hnodup : (registerAll { base } fs).1.Nodup := nodup_registerAll (by omega)
  refine ⟨?_, hnodup, fun i f hf c hc => ?_, fun before after hfs => ?_, fun c hc => ?_⟩
  · rw [addresses_registerAll, hsize, List.range_eq_range']
    exact List.map_congr_left fun i _ => haddress i
  · have hfound := lookup?_registerAll_addressOf (t := { base }) (by omega) hf
    rw [hsize, Nat.zero_add, haddress, ← hc] at hfound
    exact invoke_of_some hfound
  · rw [hfs, registerAll_append] at hnodup ⊢
    refine ⟨List.prefix_append _ _, fun c hc => invoke_congr ?_⟩
    exact lookup?_registerAll_of_notMem (List.disjoint_of_nodup_append hnodup hc)
  · exact invoke_of_none ((lookup?_registerAll_of_notMem hc).trans (lookup?_new base c.function))

/-- Three functions of which the second sits at the address zero: below the first and between two
there is none. -/
theorem dispatches_registerAll_wrapped :
    let fs := [StandIn.const 1, StandIn.sum, StandIn.context]
    let r := registerAll { base := ⟨0xfffffffffffffff0⟩ } fs
    16 * fs.length < 0x8000000000000000 ∧
      r.1 = [⟨0xfffffffffffffff0⟩, ⟨0⟩, ⟨0x10⟩] ∧
      ∀ m, r.2.invoke { function := ⟨0⟩, args := [2, 3] } m = (.ok 5, m) ∧
        r.2.invoke { function := ⟨0x10⟩, context := some ⟨7⟩ } m = (.ok 7, m) ∧
        r.2.invoke { function := ⟨0xffffffffffffffe0⟩ } m =
          (.error (.notCallable ⟨0xffffffffffffffe0⟩), m) ∧
        r.2.invoke { function := ⟨8⟩ } m = (.error (.notCallable ⟨8⟩), m) := by
  intro fs r
  have hroom : 16 * fs.length < 0x8000000000000000 := by decide
  have h := dispatches_registerAll ⟨0xfffffffffffffff0⟩ fs hroom
  have haddresses : r.1 = [⟨0xfffffffffffffff0⟩, ⟨0⟩, ⟨0x10⟩] := h.addresses_eq
  refine ⟨hroom, haddresses, fun m => ⟨?_, ?_, ?_, ?_⟩⟩
  · exact congrFun (h.runs 1 StandIn.sum rfl ⟨⟨0⟩, [2, 3], none⟩ rfl) m
  · exact congrFun (h.runs 2 StandIn.context rfl ⟨⟨0x10⟩, [], some ⟨7⟩⟩ rfl) m
  · exact h.refuses _ (by rw [haddresses]; decide) m
  · exact h.refuses _ (by rw [haddresses]; decide) m

end FunctionTable

end TypeMetadata
