import TypeMetadata.Proofs.Inspection
import TypeMetadata.Reflection.Class

/-!
# The walk over a vtable

The size that a header declares settles where its vtable ends before a slot is read. A loop over the
slots compares its cursor with that end, so it stops there only if the cursor meets the end exactly:
`VtableHeader.Loop` is that loop, and `loop_of_series` that it comes out as reading the slots one by
one. `VtableHeader.Walks` says what the slots have to hold, what is listed and which slot fails, in
terms of the words that stand in them.
-/

namespace TypeMetadata

namespace MethodSlot

/-- The words of the slot at `a`: its flags, and what its relative pointer refers to. -/
structure Says (m : Memory) (a : Address) (flags : MethodFlags) (target : Option Address) :
    Prop where
  flags_eq : m.readU32 a = .ok flags.bits
  target_eq : RelativePointer.direct (a + implementationOffset) m = .ok target

/-- The slot at `a` can be read, and its kind exists unless nothing is implemented there. -/
def Reads (m : Memory) (a : Address) : Prop :=
  ∃ flags target, Says m a flags target ∧ (target.isSome → flags.kind?.isSome)

/-- How the slot at `a` fails. -/
inductive Fails (m : Memory) (a : Address) : Error → Prop
  | flags {e : MemoryError} : m.readU32 a = .error e → Fails m a (.memory e)
  | target {bits : UInt32} {e : Error} : m.readU32 a = .ok bits →
      RelativePointer.direct (a + implementationOffset) m = .error e → Fails m a e
  | kind {flags : MethodFlags} {implementation : Address} : Says m a flags (some implementation) →
      flags.kind? = none → Fails m a (.decode (.unknownMethodKind a flags.kindRaw))

variable {m : Memory} {a : Address} {flags : MethodFlags} {target : Option Address} {e : Error}

theorem kind_of_isSome {s : MethodSlot} (h : s.flags.kind?.isSome) : ∃ k, s.kind = .ok k := by
  obtain ⟨k, hk⟩ := Option.isSome_iff_exists.1 h
  exact ⟨k, by simp only [kind, hk]⟩

theorem kind_of_none {s : MethodSlot} (h : s.flags.kind? = none) :
    s.kind = .error (.decode (.unknownMethodKind s.address s.flags.kindRaw)) := by
  simp only [kind, h]

/-! ## One slot -/

theorem Says.unique {flags' : MethodFlags} {target' : Option Address} (h : Says m a flags target)
    (h' : Says m a flags' target') : flags = flags' ∧ target = target' := by
  have hbits := Except.ok.inj (h.flags_eq.symm.trans h'.flags_eq)
  exact ⟨congrArg MethodFlags.mk hbits, Except.ok.inj (h.target_eq.symm.trans h'.target_eq)⟩

theorem Says.read_eq (h : Says m a flags target) (hkind : target.isSome → flags.kind?.isSome) :
    read a m = .ok (target.map fun implementation => ⟨a, flags, implementation⟩) := by
  have hflags : Decoder.u32 a m = .ok flags.bits := Decoder.access_eq_ok_iff.2 h.flags_eq
  unfold read
  rw [Decoder.bind_of_ok hflags, Decoder.bind_of_ok h.target_eq]
  cases target with
  | none => rfl
  | some implementation =>
    obtain ⟨k, hk⟩ := kind_of_isSome (s := ⟨a, flags, implementation⟩) (hkind rfl)
    exact Decoder.bind_of_ok hk

theorem Fails.read_eq (h : Fails m a e) : read a m = .error e := by
  unfold read
  cases h with
  | flags h => exact Decoder.bind_of_error (Decoder.access_eq_error_iff.2 ⟨_, h, rfl⟩)
  | target hflags h =>
    have hflags : Decoder.u32 a m = .ok _ := Decoder.access_eq_ok_iff.2 hflags
    rw [Decoder.bind_of_ok hflags, Decoder.bind_of_error h]
  | @kind flags implementation h hundefined =>
    have hflags : Decoder.u32 a m = .ok _ := Decoder.access_eq_ok_iff.2 h.flags_eq
    rw [Decoder.bind_of_ok hflags, Decoder.bind_of_ok h.target_eq]
    exact Decoder.bind_of_error (kind_of_none (s := ⟨a, flags, implementation⟩) hundefined)

theorem reads_or_fails (m : Memory) (a : Address) : Reads m a ∨ ∃ e, Fails m a e := by
  rcases hflags : m.readU32 a with e | bits
  · exact .inr ⟨_, .flags hflags⟩
  rcases htarget : RelativePointer.direct (a + implementationOffset) m with e | target
  · exact .inr ⟨e, .target hflags htarget⟩
  have hwords : Says m a ⟨bits⟩ target := ⟨hflags, htarget⟩
  cases target with
  | none => exact .inl ⟨_, _, hwords, nofun⟩
  | some implementation =>
    rcases hkind : (⟨bits⟩ : MethodFlags).kind? with _ | k
    · exact .inr ⟨_, .kind hwords hkind⟩
    · exact .inl ⟨_, _, hwords, fun _ => Option.isSome_of_eq_some hkind⟩

theorem read_eq_ok_iff {s : Option MethodSlot} : read a m = .ok s ↔ ∃ flags target,
    Says m a flags target ∧ (target.isSome → flags.kind?.isSome) ∧
      s = target.map fun implementation => ⟨a, flags, implementation⟩ := by
  constructor
  · intro h
    rcases reads_or_fails m a with ⟨flags, target, hwords, hkind⟩ | ⟨e, hfails⟩
    · rw [hwords.read_eq hkind] at h
      exact ⟨flags, target, hwords, hkind, (Except.ok.inj h).symm⟩
    · rw [hfails.read_eq] at h
      cases h
  · rintro ⟨flags, target, hwords, hkind, rfl⟩
    exact hwords.read_eq hkind

theorem read_eq_error_iff : read a m = .error e ↔ Fails m a e := by
  refine ⟨fun h => ?_, Fails.read_eq⟩
  rcases reads_or_fails m a with ⟨flags, target, hwords, hkind⟩ | ⟨e', hfails⟩
  · rw [hwords.read_eq hkind] at h
    cases h
  · rw [hfails.read_eq] at h
    cases h
    exact hfails

/-- A slot can be read exactly if it does not fail. -/
theorem reads_iff : Reads m a ↔ ∃ s, read a m = .ok s := by
  constructor
  · rintro ⟨flags, target, hwords, hkind⟩
    exact ⟨_, hwords.read_eq hkind⟩
  · rintro ⟨s, h⟩
    obtain ⟨flags, target, hwords, hkind, -⟩ := read_eq_ok_iff.1 h
    exact ⟨flags, target, hwords, hkind⟩

/-- The slot holds this method. -/
theorem read_eq_some_iff {s : MethodSlot} : read a m = .ok (some s) ↔ s.address = a ∧
    Says m a s.flags (some s.implementation) ∧ s.flags.kind?.isSome := by
  rw [read_eq_ok_iff]
  constructor
  · rintro ⟨flags, _ | implementation, hwords, hkind, hs⟩
    · cases hs
    · cases hs
      exact ⟨rfl, hwords, hkind rfl⟩
  · rintro ⟨rfl, hwords, hkind⟩
    exact ⟨s.flags, _, hwords, fun _ => hkind, rfl⟩

end MethodSlot

namespace VtableHeader

/-- Where slot `i` is. -/
def slotAt (h : VtableHeader) (i : Nat) : Address :=
  h.methodsStart + MethodSlot.size * UInt64.ofNat i

/-- A loop over slots that is over when its cursor meets `stop`: from `cursor` on and with `found`
in hand, it comes to `outcome` in so many turns. -/
inductive Loop (m : Memory) (stop : Address) :
    Address → List MethodSlot → Nat → Except Error (List MethodSlot) → Prop
  | met {found} : Loop m stop stop found 0 (.ok found)
  | failed {cursor found e} : cursor ≠ stop → MethodSlot.read cursor m = .error e →
      Loop m stop cursor found 1 (.error e)
  | turned {cursor found slot turns outcome} : cursor ≠ stop → MethodSlot.read cursor m = .ok slot →
      Loop m stop (cursor + MethodSlot.size) (found ++ slot.toList) turns outcome →
      Loop m stop cursor found (turns + 1) outcome

variable {limits : Limits} {h : VtableHeader} {m : Memory} {stop cursor : Address}
  {found : List MethodSlot} {turns turns' : Nat} {outcome outcome' : Except Error (List MethodSlot)}

/-! ## The loop -/

theorem Loop.unique (hl : Loop m stop cursor found turns outcome)
    (hl' : Loop m stop cursor found turns' outcome') : turns = turns' ∧ outcome = outcome' := by
  induction hl generalizing turns' with
  | met =>
    cases hl' with
    | met => exact ⟨rfl, rfl⟩
    | failed hne => exact absurd rfl hne
    | turned hne => exact absurd rfl hne
  | failed hne hread =>
    cases hl' with
    | met => exact absurd rfl hne
    | failed _ hread' =>
      cases hread.symm.trans hread'
      exact ⟨rfl, rfl⟩
    | turned _ hread' => cases hread.symm.trans hread'
  | turned hne hread _ ih =>
    cases hl' with
    | met => exact absurd rfl hne
    | failed _ hread' => cases hread.symm.trans hread'
    | turned _ hread' hrest =>
      cases hread.symm.trans hread'
      obtain ⟨rfl, rfl⟩ := ih hrest
      exact ⟨rfl, rfl⟩

/-- Slots do not come round to where they began. -/
theorem ne_add_slots (a : Address) {n : Nat} (hpos : 0 < n) (hn : n < 0x100000000) :
    a ≠ a + MethodSlot.size * UInt64.ofNat n := by
  intro heq
  have ha := a.val.toNat_lt
  have hval := congrArg Address.toNat heq
  have hsize : MethodSlot.size.toNat = 8 := rfl
  simp only [Address.toNat, Address.val_add, UInt64.toNat_add, UInt64.toNat_mul,
    UInt64.toNat_ofNat', hsize] at hval
  omega

/-- The loop meets the end of `n` slots in as many turns, or fails as reading them does. -/
theorem loop_of_series {n : Nat} (hn : n < 0x100000000) : ∃ turns ≤ n,
    Loop m (cursor + MethodSlot.size * UInt64.ofNat n) cursor found turns
      ((Decoder.series MethodSlot.read MethodSlot.size n cursor m).map
        fun slots => found ++ slots.filterMap id) := by
  induction n generalizing cursor found with
  | zero =>
    rw [Address.add_no_stride]
    refine ⟨0, Nat.le_refl 0, ?_⟩
    have hdone : (Decoder.series MethodSlot.read MethodSlot.size 0 cursor m).map
        (fun slots => found ++ slots.filterMap id) = .ok found :=
      congrArg Except.ok (List.append_nil found)
    rw [hdone]
    exact .met
  | succ n ih =>
    have hne := ne_add_slots cursor (Nat.succ_pos n) hn
    rcases hread : MethodSlot.read cursor m with e | slot
    · refine ⟨1, Nat.succ_le_succ (Nat.zero_le n), ?_⟩
      rw [Decoder.series, Decoder.bind_of_error hread]
      exact .failed hne hread
    · obtain ⟨turns, hturns, hloop⟩ :=
        @ih (cursor + MethodSlot.size) (found ++ slot.toList) (Nat.lt_of_succ_lt hn)
      refine ⟨turns + 1, Nat.succ_le_succ hturns, .turned hne hread ?_⟩
      rw [Address.add_stride] at hloop
      rw [Decoder.series_succ_of_ok hread]
      rcases hrest : Decoder.series MethodSlot.read MethodSlot.size n (cursor + MethodSlot.size) m
        with e | slots <;> rw [hrest] at hloop
      · exact hloop
      · cases slot <;> simpa [Except.map] using hloop

/-! ## The methods -/

/-- The vtable ends within the address space. -/
def Fits (h : VtableHeader) : Prop :=
  h.methodsStart.toNat + 8 * h.vtableSize.toNat < 0x10000000000000000

instance (h : VtableHeader) : Decidable h.Fits := Nat.decLt ..

theorem toNat_slots (h : VtableHeader) :
    (h.vtableSize.toUInt64 * MethodSlot.size).toNat = 8 * h.vtableSize.toNat := by
  have hsize : MethodSlot.size.toNat = 8 := rfl
  have hlt := h.vtableSize.toNat_lt
  rw [UInt64.toNat_mul, UInt32.toNat_toUInt64, hsize]
  omega

/-- The vtable ends where its last slot does. -/
theorem add?_of_fits (hfits : h.Fits) :
    h.methodsStart.add? (h.vtableSize.toUInt64 * MethodSlot.size) =
      some (h.slotAt h.vtableSize.toNat) := by
  unfold Fits at hfits
  unfold Address.add?
  rw [toNat_slots, if_pos hfits, slotAt, UInt64.mul_comm, UInt64.ofNat_uInt32ToNat]

theorem add?_of_not_fits (hfits : ¬h.Fits) :
    h.methodsStart.add? (h.vtableSize.toUInt64 * MethodSlot.size) = none := by
  unfold Fits at hfits
  unfold Address.add?
  rw [toNat_slots, if_neg hfits]

theorem methods_of_too_large (hsize : limits.vtableSize < h.vtableSize) : h.methods limits m =
    .error (.decode (.vtableTooLarge h.methodsStart h.vtableSize limits.vtableSize)) := by
  unfold methods
  rw [if_pos hsize]
  rfl

theorem methods_of_overflow (hsize : ¬limits.vtableSize < h.vtableSize) (hfits : ¬h.Fits) :
    h.methods limits m = .error (.decode (.vtableOverflow h.methodsStart h.vtableSize)) := by
  unfold methods
  rw [if_neg hsize, add?_of_not_fits hfits]
  rfl

/-- A vtable whose last slot ends with the address space is refused. -/
example : VtableHeader.methods {} ⟨⟨0xffffffffffffffe8⟩, 0, 2⟩ (.empty Memory.defaultHeapBase) =
    .error (.decode (.vtableOverflow ⟨0xfffffffffffffff0⟩ 2)) := rfl

theorem of_methods_ok {slots : List MethodSlot} (hslots : h.methods limits m = .ok slots) :
    ¬limits.vtableSize < h.vtableSize ∧ h.Fits := by
  have hsize : ¬limits.vtableSize < h.vtableSize := by
    intro hsize
    cases (methods_of_too_large hsize).symm.trans hslots
  refine ⟨hsize, Decidable.by_contra fun hfits => ?_⟩
  cases (methods_of_overflow hsize hfits).symm.trans hslots

theorem methods_of_fits (hsize : ¬limits.vtableSize < h.vtableSize) (hfits : h.Fits) :
    h.methods limits m = (Decoder.series MethodSlot.read MethodSlot.size h.vtableSize.toNat
      h.methodsStart m).map (List.filterMap id) := by
  unfold methods
  rw [if_neg hsize, add?_of_fits hfits]
  rcases hs : Decoder.series MethodSlot.read MethodSlot.size h.vtableSize.toNat h.methodsStart m
    with e | slots
  · exact Decoder.bind_of_error hs
  · exact Decoder.bind_of_ok hs

theorem toNat_slotAt (hfits : h.Fits) {i : Nat} (hi : i < h.vtableSize.toNat) :
    (h.slotAt i).toNat = h.methodsStart.toNat + 8 * i := by
  have hsize : MethodSlot.size.toNat = 8 := rfl
  unfold Fits Address.toNat at *
  simp only [slotAt, Address.val_add, UInt64.toNat_add, UInt64.toNat_mul, UInt64.toNat_ofNat',
    hsize]
  omega

/-- Slots that are read one after another lie one behind another. -/
theorem slotAt_lt (hfits : h.Fits) {i j : Nat} (hij : i < j) (hj : j < h.vtableSize.toNat) :
    h.slotAt i < h.slotAt j := by
  refine UInt64.lt_iff_toNat_lt.2 ?_
  have hi' := toNat_slotAt hfits (Nat.lt_trans hij hj)
  have hj' := toNat_slotAt hfits hj
  unfold Address.toNat at *
  omega

/-- What the methods of a vtable are whose size is allowed and which ends within the address
space. -/
structure Walks (limits : Limits) (h : VtableHeader) (m : Memory) : Prop where
  /-- A loop that stops where the vtable ends comes to the same, in at most one turn a slot. -/
  loop : ∃ stop, h.methodsStart.add? (h.vtableSize.toUInt64 * MethodSlot.size) = some stop ∧
    (∃ turns ≤ h.vtableSize.toNat, Loop m stop h.methodsStart [] turns (h.methods limits m)) ∧
      ∀ turns outcome, Loop m stop h.methodsStart [] turns outcome → outcome = h.methods limits m
  ok_iff : (∃ slots, h.methods limits m = .ok slots) ↔
    ∀ i < h.vtableSize.toNat, MethodSlot.Reads m (h.slotAt i)
  /-- The methods are those of the slots that have an implementation. -/
  mem_iff : ∀ slots, h.methods limits m = .ok slots → ∀ s, s ∈ slots ↔
    ∃ i < h.vtableSize.toNat, s.address = h.slotAt i ∧
      MethodSlot.Says m (h.slotAt i) s.flags (some s.implementation)
  ascending : ∀ slots, h.methods limits m = .ok slots →
    slots.Pairwise fun s t => s.address < t.address
  kind_ok : ∀ slots, h.methods limits m = .ok slots → ∀ s ∈ slots, ∃ k, s.kind = .ok k
  /-- The first slot that fails settles how the walk does. -/
  error_iff : ∀ e, h.methods limits m = .error e ↔ ∃ i < h.vtableSize.toNat,
    MethodSlot.Fails m (h.slotAt i) e ∧ ∀ j < i, MethodSlot.Reads m (h.slotAt j)

section Walks

variable (hsize : ¬limits.vtableSize < h.vtableSize) (hfits : h.Fits)
include hsize hfits

/-- The methods are those found in the slots, each read where it stands. -/
theorem methods_eq_ok_iff {slots : List MethodSlot} : h.methods limits m = .ok slots ↔
    ∃ found : List (Option MethodSlot), found.length = h.vtableSize.toNat ∧
      (∀ i s, found[i]? = some s → MethodSlot.read (h.slotAt i) m = .ok s) ∧
      slots = found.filterMap id := by
  rw [methods_of_fits hsize hfits]
  constructor
  · intro hmethods
    rcases hs : Decoder.series MethodSlot.read MethodSlot.size h.vtableSize.toNat h.methodsStart m
      with e | found <;> rw [hs] at hmethods
    · cases hmethods
    · cases hmethods
      obtain ⟨hlength, hall⟩ := Decoder.series_eq_ok_iff.1 hs
      exact ⟨found, hlength, hall, rfl⟩
  · rintro ⟨found, hlength, hall, rfl⟩
    rw [Decoder.series_eq_ok_iff.2 ⟨hlength, hall⟩]
    rfl

theorem methods_eq_error_iff {e : Error} : h.methods limits m = .error e ↔
    ∃ i < h.vtableSize.toNat, MethodSlot.Fails m (h.slotAt i) e ∧
      ∀ j < i, MethodSlot.Reads m (h.slotAt j) := by
  have hseries : h.methods limits m = .error e ↔
      Decoder.series MethodSlot.read MethodSlot.size h.vtableSize.toNat h.methodsStart m =
        .error e := by
    rw [methods_of_fits hsize hfits]
    rcases Decoder.series MethodSlot.read MethodSlot.size h.vtableSize.toNat h.methodsStart m
      with e' | found <;> simp [Except.map]
  rw [hseries, Decoder.series_eq_error_iff]
  simp only [MethodSlot.read_eq_error_iff, ← MethodSlot.reads_iff]
  rfl

theorem methods_ok_iff : (∃ slots, h.methods limits m = .ok slots) ↔
    ∀ i < h.vtableSize.toNat, MethodSlot.Reads m (h.slotAt i) := by
  constructor
  · rintro ⟨slots, hslots⟩ i hi
    obtain ⟨found, hlength, hall, -⟩ := (methods_eq_ok_iff hsize hfits).1 hslots
    have hlt : i < found.length := hlength ▸ hi
    exact MethodSlot.reads_iff.2 ⟨_, hall i found[i] (List.getElem?_eq_getElem hlt)⟩
  · intro hreads
    rcases hmethods : h.methods limits m with e | slots
    · obtain ⟨i, hi, hfails, -⟩ := (methods_eq_error_iff hsize hfits).1 hmethods
      obtain ⟨s, hs⟩ := MethodSlot.reads_iff.1 (hreads i hi)
      cases hs.symm.trans hfails.read_eq
    · exact ⟨slots, rfl⟩

theorem mem_methods_iff {slots : List MethodSlot} (hslots : h.methods limits m = .ok slots)
    {s : MethodSlot} : s ∈ slots ↔ ∃ i < h.vtableSize.toNat, s.address = h.slotAt i ∧
      MethodSlot.Says m (h.slotAt i) s.flags (some s.implementation) := by
  obtain ⟨found, hlength, hall, rfl⟩ := (methods_eq_ok_iff hsize hfits).1 hslots
  have hmem : s ∈ found.filterMap id ↔ ∃ i : Nat, found[i]? = some (some s) := by
    rw [List.mem_filterMap]
    simp only [id, exists_eq_right, List.mem_iff_getElem?]
  rw [hmem]
  constructor
  · rintro ⟨i, hi⟩
    obtain ⟨haddress, hwords, -⟩ := MethodSlot.read_eq_some_iff.1 (hall i _ hi)
    exact ⟨i, hlength ▸ (List.getElem?_eq_some_iff.1 hi).1, haddress, hwords⟩
  · rintro ⟨i, hi, haddress, hwords⟩
    have hlt : i < found.length := hlength ▸ hi
    have hfound : found[i]? = some found[i] := List.getElem?_eq_getElem hlt
    obtain ⟨flags, target, hwords', -, heq⟩ := MethodSlot.read_eq_ok_iff.1 (hall i _ hfound)
    obtain ⟨rfl, rfl⟩ := hwords'.unique hwords
    refine ⟨i, hfound.trans (congrArg some (heq.trans ?_))⟩
    rw [← haddress]
    rfl

theorem pairwise_methods {slots : List MethodSlot} (hslots : h.methods limits m = .ok slots) :
    slots.Pairwise fun s t => s.address < t.address := by
  obtain ⟨found, hlength, hall, rfl⟩ := (methods_eq_ok_iff hsize hfits).1 hslots
  rw [List.pairwise_filterMap, List.pairwise_iff_getElem]
  intro i j hi hj hij s hs t ht
  have hs := (MethodSlot.read_eq_some_iff.1 (hall i _ ((List.getElem?_eq_getElem hi).trans
    (congrArg some hs)))).1
  have ht := (MethodSlot.read_eq_some_iff.1 (hall j _ ((List.getElem?_eq_getElem hj).trans
    (congrArg some ht)))).1
  rw [hs, ht]
  exact slotAt_lt hfits hij (hlength ▸ hj)

theorem kind_of_mem_methods {slots : List MethodSlot} (hslots : h.methods limits m = .ok slots)
    {s : MethodSlot} (hs : s ∈ slots) : ∃ k, s.kind = .ok k := by
  obtain ⟨found, -, hall, rfl⟩ := (methods_eq_ok_iff hsize hfits).1 hslots
  obtain ⟨x, hx, rfl : x = some s⟩ := List.mem_filterMap.1 hs
  obtain ⟨i, hi⟩ := List.mem_iff_getElem?.1 hx
  exact MethodSlot.kind_of_isSome (MethodSlot.read_eq_some_iff.1 (hall i _ hi)).2.2

theorem loop_methods : ∃ turns ≤ h.vtableSize.toNat,
    Loop m (h.slotAt h.vtableSize.toNat) h.methodsStart [] turns (h.methods limits m) := by
  rw [methods_of_fits hsize hfits]
  exact loop_of_series h.vtableSize.toNat_lt

theorem walks : h.Walks limits m where
  loop := by
    obtain ⟨turns, hturns, hloop⟩ := loop_methods hsize hfits
    exact ⟨_, add?_of_fits hfits, ⟨turns, hturns, hloop⟩, fun _ _ hl => (hl.unique hloop).2⟩
  ok_iff := methods_ok_iff hsize hfits
  mem_iff _ hslots _ := mem_methods_iff hsize hfits hslots
  ascending _ := pairwise_methods hsize hfits
  kind_ok _ hslots _ := kind_of_mem_methods hsize hfits hslots
  error_iff _ := methods_eq_error_iff hsize hfits

end Walks

end VtableHeader

/-! ## Methods of a class -/

namespace Method

theorem mapM_ofSlot (s : Settings) (w : World) {slots : List MethodSlot}
    (h : ∀ slot ∈ slots, ∃ k, slot.kind = .ok k) :
    ∃ methods, slots.mapM (ofSlot s w) = .ok methods ∧
      methods.map address = slots.map MethodSlot.implementation ∧
      (methods.map fun x => .ok x.kind) = slots.map MethodSlot.kind := by
  induction slots with
  | nil => exact ⟨[], rfl, rfl, rfl⟩
  | cons slot slots ih =>
    obtain ⟨k, hk⟩ := h slot List.mem_cons_self
    obtain ⟨methods, hmethods, haddress, hkind⟩ := ih fun t ht => h t (List.mem_cons_of_mem _ ht)
    have hslot : ∃ first, ofSlot s w slot = .ok first ∧ first.address = slot.implementation ∧
        first.kind = k := by
      unfold ofSlot
      rw [hk]
      exact ⟨_, rfl, rfl, rfl⟩
    obtain ⟨first, hfirst, hfirst', rfl⟩ := hslot
    refine ⟨first :: methods, ?_, by simp [haddress, hfirst'], by simp [hkind, hk]⟩
    rw [List.mapM_cons, hfirst]
    simp only [hmethods, bind, Except.bind, pure, Except.pure]

end Method

namespace ClassType

variable {c : ClassType} {w : World} {methods : List Method}

/-- What a class answers with when it is first asked for its methods stays. -/
theorem runOn_methods_of_read (hknown : c.knownMethods = none)
    (hread : c.readMethods w = .ok methods) :
    ClassType.methods.runOn c w = ((.ok methods, { c with knownMethods := some methods }), w) := by
  obtain ⟨info, knownMethods, knownInitializers⟩ := c
  obtain rfl : knownMethods = none := hknown
  unfold ClassType.methods
  rw [InspectOn.runOn_bind, InspectOn.runOn_current]
  simp only
  rw [InspectOn.runOn_bind, InspectOn.runOn_lift, Inspect.run_get]
  simp only
  rw [hread]
  rfl

end ClassType

namespace VtableHeader

/-- What reading the methods of a vtable comes to, and what a class makes of them. -/
structure Enumerated (limits : Limits) (h : VtableHeader) : Prop where
  /-- The size that is declared is checked, whatever memory holds. -/
  too_large : limits.vtableSize < h.vtableSize → ∀ m, h.methods limits m =
    .error (.decode (.vtableTooLarge h.methodsStart h.vtableSize limits.vtableSize))
  overflow : ¬limits.vtableSize < h.vtableSize →
    0x10000000000000000 ≤ h.methodsStart.toNat + 8 * h.vtableSize.toNat → ∀ m,
      h.methods limits m = .error (.decode (.vtableOverflow h.methodsStart h.vtableSize))
  walks : ¬limits.vtableSize < h.vtableSize →
    h.methodsStart.toNat + 8 * h.vtableSize.toNat < 0x10000000000000000 → ∀ m, h.Walks limits m
  /-- A class that has this vtable has a method for each of its methods, in their order. -/
  reflected : ∀ (c : ClassType) (w : World) (slots : List MethodSlot), c.knownMethods = none →
    c.info.settings.limits = limits → c.descriptor.vtableHeader w.memory = .ok (some h) →
    h.methods limits w.memory = .ok slots → ∃ methods,
      ClassType.methods.runOn c w = ((.ok methods, { c with knownMethods := some methods }), w) ∧
        methods.length = slots.length ∧
        methods.map Method.address = slots.map MethodSlot.implementation ∧
        (methods.map fun x => .ok x.kind) = slots.map MethodSlot.kind

theorem methods_enumerated (limits : Limits) (h : VtableHeader) : h.Enumerated limits where
  too_large hsize _ := methods_of_too_large hsize
  overflow hsize hend _ := methods_of_overflow hsize (Nat.not_lt.2 hend)
  walks hsize hfits _ := h.walks hsize hfits
  reflected c w slots hknown hlimits hheader hslots := by
    obtain ⟨hsize, hfits⟩ := of_methods_ok hslots
    obtain ⟨methods, hmethods, haddress, hkind⟩ := Method.mapM_ofSlot c.info.settings w
      fun _ => kind_of_mem_methods hsize hfits hslots
    have hdecode : w.decode (c.descriptor.methods limits) = .ok slots :=
      (Decoder.bind_of_ok hheader).trans hslots
    have hread : c.readMethods w = .ok methods := by
      rw [ClassType.readMethods, hlimits, hdecode]
      exact hmethods
    have hlength := congrArg List.length haddress
    rw [List.length_map, List.length_map] at hlength
    exact ⟨methods, ClassType.runOn_methods_of_read hknown hread, hlength, haddress, hkind⟩

end VtableHeader

end TypeMetadata
