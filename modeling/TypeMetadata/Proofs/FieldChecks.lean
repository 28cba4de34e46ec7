import TypeMetadata.Record.Field

/-!
# The checks of a field descriptor

Reading a field descriptor is a row of checks, and the first that fails is how the whole fails:
`FieldDescriptor.Check.inOrder` is that row, each of its checks a decoder of its own, which reads
again what it has to know. What is read in the end is what the words at the computed addresses
resolve to. A descriptor with too many records, or with records that are too small, is refused
whatever the records hold.
-/

namespace TypeMetadata

namespace Decoder

variable {α β γ : Type} {x : Decoder α} {f g : γ → Decoder Unit} {m : Memory} {a : α} {e : Error}
  {c : γ} {cs : List γ}

/-! ## Rows of checks -/

theorem discard_eq (x : Decoder α) (m : Memory) : discard x m = (x m).map fun _ => () := rfl

theorem discard_of_ok (h : x m = .ok a) : discard x m = .ok () := by
  rw [discard_eq, h]
  rfl

theorem discard_of_error (h : x m = .error e) : discard x m = .error e := by
  rw [discard_eq, h]
  rfl

theorem discard_eq_ok_iff : discard x m = .ok () ↔ ∃ a, x m = .ok a := by
  rw [discard_eq]
  rcases x m with e | a <;> simp [Except.map]

theorem discard_eq_error_iff : discard x m = .error e ↔ x m = .error e := by
  rw [discard_eq]
  rcases x m with e | a <;> simp [Except.map]

theorem forM_cons_of_ok (h : f c m = .ok ()) : (c :: cs).forM f m = cs.forM f m :=
  bind_of_ok h

theorem forM_cons_of_error (h : f c m = .error e) : (c :: cs).forM f m = .error e :=
  bind_of_error h

theorem forM_append {ds : List γ} : (cs ++ ds).forM f = cs.forM f >>= fun _ => ds.forM f :=
  List.forM_append

theorem forM_map {δ : Type} (xs : List δ) (h : δ → γ) :
    (xs.map h).forM f = xs.forM fun x => f (h x) :=
  List.forM_map

theorem forM_flatMap {δ : Type} (xs : List δ) (h : δ → List γ) :
    (xs.flatMap h).forM f = xs.forM fun x => (h x).forM f := by
  induction xs with
  | nil => rfl
  | cons x xs ih =>
    rw [List.flatMap_cons, forM_append, ih]
    rfl

/-- What `x` has to check is checked first, and the rest by what is done with its value. -/
theorem discard_bind (ds : List γ) {k : α → Decoder β} (hx : ds.forM f m = discard x m)
    (hk : ∀ a, x m = .ok a → discard (k a) m = cs.forM f m) :
    discard (x >>= k) m = (ds ++ cs).forM f m := by
  rw [forM_append]
  rcases h : x m with e | a
  · rw [discard_of_error h] at hx
    rw [bind_of_error hx, discard_of_error (bind_of_error h)]
  · rw [discard_of_ok h] at hx
    rw [bind_of_ok hx, ← hk a h, discard_eq, discard_eq, bind_of_ok h]

theorem discard_bind_cons {k : α → Decoder β} (hx : f c m = discard x m)
    (hk : ∀ a, x m = .ok a → discard (k a) m = cs.forM f m) :
    discard (x >>= k) m = (c :: cs).forM f m := by
  refine discard_bind [c] ?_ hk
  rcases h : f c m with e | u
  · rw [forM_cons_of_error h, ← hx, h]
  · rw [forM_cons_of_ok h, ← hx, h]
    rfl

theorem discard_guard {p : Prop} [Decidable p] {d : DecodeError} {k : Unit → Decoder β}
    (hc : f c m = (if p then fail d else pure ()) m)
    (hk : ¬p → discard (k ()) m = cs.forM f m) :
    discard (if p then fail d >>= k else k ()) m = (c :: cs).forM f m := by
  by_cases hp : p
  · rw [if_pos hp] at hc ⊢
    rw [forM_cons_of_error hc]
    rfl
  · rw [if_neg hp] at hc ⊢
    rw [forM_cons_of_ok hc, hk hp]

theorem forM_eq_ok_iff : cs.forM f m = .ok () ↔ ∀ c ∈ cs, f c m = .ok () := by
  induction cs with
  | nil => exact iff_of_true rfl nofun
  | cons c cs ih =>
    rw [List.forall_mem_cons]
    rcases h : f c m with e | u
    · rw [forM_cons_of_error h]
      exact iff_of_false nofun fun hall => nomatch hall.1
    · rw [forM_cons_of_ok h, ih]
      exact (and_iff_right rfl).symm

/-- A row of checks fails as the first of them does that fails. -/
theorem forM_eq_error_iff : cs.forM f m = .error e ↔ ∃ before c after,
    cs = before ++ c :: after ∧ (∀ d ∈ before, f d m = .ok ()) ∧ f c m = .error e := by
  induction cs with
  | nil => exact iff_of_false nofun fun ⟨before, c, after, h, _⟩ => by simp at h
  | cons c cs ih =>
    rcases h : f c m with e' | u
    · rw [forM_cons_of_error h]
      constructor
      · intro he
        exact ⟨[], c, cs, rfl, nofun, h.trans he⟩
      · rintro ⟨_ | ⟨d, before⟩, c', after, hcs, hbefore, hc'⟩
        · cases hcs
          exact h.symm.trans hc'
        · cases hcs
          cases h.symm.trans (hbefore c List.mem_cons_self)
    · rw [forM_cons_of_ok h, ih]
      constructor
      · rintro ⟨before, c', after, rfl, hbefore, hc'⟩
        exact ⟨c :: before, c', after, rfl, List.forall_mem_cons.2 ⟨h, hbefore⟩, hc'⟩
      · rintro ⟨_ | ⟨d, before⟩, c', after, hcs, hbefore, hc'⟩
        · cases hcs
          cases h.symm.trans hc'
        · cases hcs
          exact ⟨before, c', after, rfl, (List.forall_mem_cons.1 hbefore).2, hc'⟩

theorem forM_congr (h : ∀ c ∈ cs, f c m = g c m) : cs.forM f m = cs.forM g m := by
  induction cs with
  | nil => rfl
  | cons c cs ih =>
    obtain ⟨hc, hcs⟩ := List.forall_mem_cons.1 h
    rcases hf : f c m with e | u
    · rw [forM_cons_of_error hf, forM_cons_of_error (hc.symm.trans hf)]
    · rw [forM_cons_of_ok hf, forM_cons_of_ok (hc.symm.trans hf), ih hcs]

/-- A series fails, or does not, as its places do one after another. -/
theorem discard_series (read : Address → Decoder α) (stride : UInt64) (n : Nat) (a : Address)
    (m : Memory) : discard (series read stride n a) m =
      (List.range n).forM (fun i => discard (read (a + stride * UInt64.ofNat i))) m := by
  induction n generalizing a with
  | zero => rfl
  | succ n ih =>
    let place (i : Nat) : Decoder Unit := discard (read (a + stride * UInt64.ofNat i))
    change _ = (List.range (n + 1)).forM place m
    have hrest : ((List.range n).map Nat.succ).forM place m =
        discard (series read stride n (a + stride)) m := by
      rw [ih, forM_map]
      refine forM_congr fun i _ => ?_
      rw [Address.add_stride]
    have hfirst : place 0 m = discard (read a) m :=
      congrArg (fun b => discard (read b) m) (Address.add_no_stride a stride)
    rw [List.range_succ_eq_map]
    rcases hx : read a m with e | x
    · rw [forM_cons_of_error (hfirst.trans (discard_of_error hx))]
      exact discard_of_error (bind_of_error hx)
    · rw [forM_cons_of_ok (hfirst.trans (discard_of_ok hx)), hrest, discard_eq, discard_eq,
        series_succ_of_ok hx]
      rcases series read stride n (a + stride) m with e | xs <;> rfl

end Decoder

namespace FieldRecord

/-- What is read of a record. -/
inductive Part where
  | flags
  | typeName
  | nameReference
  | name

namespace Part

def inOrder : List Part := [flags, typeName, nameReference, name]

/-- Read this part of the record at `a`. -/
def run (limits : Limits) (a : Address) : Part → Decoder Unit
  | flags => discard (Decoder.u32 a)
  | typeName => discard (RelativePointer.direct (a + mangledTypeNameOffset))
  | nameReference => discard (RelativePointer.direct (a + nameOffset))
  | name => do
    match ← RelativePointer.direct (a + nameOffset) with
    | some target => discard (Name.read limits target)
    | none => return ()

end Part

/-- The words of the record at `a`, and its name: the empty one without a reference to it. -/
structure HeldAt (limits : Limits) (m : Memory) (a : Address) (r : FieldRecord) : Prop where
  flags : m.readU32 a = .ok r.flags.bits
  mangledTypeName : RelativePointer.direct (a + mangledTypeNameOffset) m = .ok r.mangledTypeName
  name : RelativePointer.direct (a + nameOffset) m = .ok none ∧ r.name = "" ∨
    ∃ target, RelativePointer.direct (a + nameOffset) m = .ok (some target) ∧
      Name.read limits target m = .ok r.name

variable {limits : Limits} {m : Memory} {a : Address} {r : FieldRecord}

section Words

variable {bits : UInt32} {typeName : Option Address} (hflags : Decoder.u32 a m = .ok bits)
  (htypeName : RelativePointer.direct (a + mangledTypeNameOffset) m = .ok typeName)
include hflags htypeName

theorem read_of_null_name (hname : RelativePointer.direct (a + nameOffset) m = .ok none) :
    read limits a m = .ok ⟨⟨bits⟩, typeName, ""⟩ := by
  unfold read
  rw [Decoder.bind_of_ok hflags, Decoder.bind_of_ok htypeName, Decoder.bind_of_ok hname]
  rfl

theorem read_of_name {target : Address}
    (hname : RelativePointer.direct (a + nameOffset) m = .ok (some target)) :
    read limits a m =
      (Name.read limits target m).map fun name => ⟨⟨bits⟩, typeName, name⟩ := by
  unfold read
  rw [Decoder.bind_of_ok hflags, Decoder.bind_of_ok htypeName, Decoder.bind_of_ok hname]
  rcases htext : Name.read limits target m with e | name
  · exact Decoder.bind_of_error htext
  · exact Decoder.bind_of_ok htext

end Words

theorem read_eq_ok_iff : read limits a m = .ok r ↔ r.HeldAt limits m a := by
  constructor
  · intro h
    obtain ⟨bits, hflags, h'⟩ := Decoder.of_bind_ok h
    obtain ⟨typeName, htypeName, h'⟩ := Decoder.of_bind_ok h'
    obtain ⟨_ | target, hname, -⟩ := Decoder.of_bind_ok h'
    · rw [read_of_null_name hflags htypeName hname] at h
      cases h
      exact ⟨Decoder.access_eq_ok_iff.1 hflags, htypeName, .inl ⟨hname, rfl⟩⟩
    · rw [read_of_name hflags htypeName hname] at h
      rcases htext : Name.read limits target m with e | name <;> rw [htext] at h <;> cases h
      exact ⟨Decoder.access_eq_ok_iff.1 hflags, htypeName, .inr ⟨target, hname, htext⟩⟩
  · rintro ⟨hflags, htypeName, ⟨hname, htext⟩ | ⟨target, hname, htext⟩⟩
    · rw [read_of_null_name (Decoder.access_eq_ok_iff.2 hflags) htypeName hname, ← htext]
    · rw [read_of_name (Decoder.access_eq_ok_iff.2 hflags) htypeName hname, htext]
      rfl

/-- A record is read part by part. -/
theorem discard_read : discard (read limits a) m = Part.inOrder.forM (Part.run limits a) m := by
  refine Decoder.discard_bind_cons rfl fun bits _ => ?_
  refine Decoder.discard_bind_cons rfl fun typeName _ => ?_
  refine Decoder.discard_bind_cons rfl fun reference hreference => ?_
  cases reference with
  | none =>
    have hname : Part.run limits a .name m = .ok () := Decoder.bind_of_ok hreference
    rw [Decoder.forM_cons_of_ok hname]
    rfl
  | some target => exact Decoder.discard_bind_cons (Decoder.bind_of_ok hreference) fun _ _ => rfl

end FieldRecord

namespace FieldDescriptor

/-- What is checked when a field descriptor is read. -/
inductive Check where
  | kindWord
  | kind
  | recordSizeWord
  | countWord
  | countLimit
  | recordSize
  | record (i : Nat) (part : FieldRecord.Part)
  | typeName
  | superclass

namespace Check

/-- The checks of a descriptor that declares `n` records. -/
def inOrder (n : Nat) : List Check :=
  [kindWord, kind, recordSizeWord, countWord, countLimit, recordSize]
    ++ (List.range n).flatMap (fun i => FieldRecord.Part.inOrder.map (record i))
    ++ [typeName, superclass]

/-- Make this check of the descriptor at `a`. -/
def run (limits : Limits) (a : Address) : Check → Decoder Unit
  | kindWord => discard (Decoder.u16 (a + kindOffset))
  | kind => do
    let raw ← Decoder.u16 (a + kindOffset)
    discard (Decoder.require (FieldKind.ofRaw? raw.toNat) (.unknownFieldKind a raw))
  | recordSizeWord => discard (Decoder.u16 (a + recordSizeOffset))
  | countWord => discard (Decoder.u32 (a + countOffset))
  | countLimit => do
    let count ← Decoder.u32 (a + countOffset)
    if limits.fields < count then Decoder.fail (.tooManyFields a count limits.fields)
  | recordSize => do
    let size ← Decoder.u16 (a + recordSizeOffset)
    let count ← Decoder.u32 (a + countOffset)
    if 0 < count ∧ size < 12 then Decoder.fail (.fieldRecordSize a size 12)
  | record i part => do
    let size ← Decoder.u16 (a + recordSizeOffset)
    part.run limits (a + recordsOffset + size.toUInt64 * UInt64.ofNat i)
  | typeName => discard (RelativePointer.direct a)
  | superclass => discard (RelativePointer.direct (a + superclassOffset))

end Check

/-- How many records the descriptor at `a` declares. -/
def declaredCount (m : Memory) (a : Address) : Nat :=
  match m.readU32 (a + countOffset) with
  | .ok count => count.toNat
  | .error _ => 0

variable {limits : Limits} {m : Memory} {a : Address}

/-- The records are read one after another, each part by part. -/
theorem forM_records {size : UInt16} (hsize : Decoder.u16 (a + recordSizeOffset) m = .ok size)
    (n : Nat) : ((List.range n).flatMap fun i => FieldRecord.Part.inOrder.map (Check.record i)).forM
      (Check.run limits a) m =
      discard (Decoder.series (FieldRecord.read limits) size.toUInt64 n (a + recordsOffset)) m := by
  rw [Decoder.discard_series, Decoder.forM_flatMap]
  refine Decoder.forM_congr fun i _ => ?_
  rw [FieldRecord.discard_read, Decoder.forM_map]
  exact Decoder.forM_congr fun part _ => Decoder.bind_of_ok hsize

/-- A descriptor is read check by check. -/
theorem discard_read : discard (read limits a) m =
    (Check.inOrder (declaredCount m a)).forM (Check.run limits a) m := by
  refine Decoder.discard_bind_cons rfl fun raw hraw => ?_
  refine Decoder.discard_bind_cons (Decoder.bind_of_ok hraw) fun kind _ => ?_
  refine Decoder.discard_bind_cons rfl fun size hsize => ?_
  refine Decoder.discard_bind_cons rfl fun count hcount => ?_
  have hdeclared : declaredCount m a = count.toNat := by
    unfold declaredCount
    rw [Decoder.access_eq_ok_iff.1 hcount]
  rw [hdeclared]
  have hlimit : Check.run limits a .countLimit m =
      (if limits.fields < count then Decoder.fail (.tooManyFields a count limits.fields)
        else pure ()) m :=
    Decoder.bind_of_ok hcount
  have hrecordSize : Check.run limits a .recordSize m =
      (if 0 < count ∧ size < FieldRecord.minimumSize
        then Decoder.fail (.fieldRecordSize a size FieldRecord.minimumSize) else pure ()) m :=
    (Decoder.bind_of_ok hsize).trans (Decoder.bind_of_ok hcount)
  refine Decoder.discard_guard hlimit fun _ => ?_
  refine Decoder.discard_guard hrecordSize fun _ => ?_
  refine Decoder.discard_bind _ (forM_records hsize count.toNat) fun records _ => ?_
  refine Decoder.discard_bind_cons rfl fun typeName _ => ?_
  exact Decoder.discard_bind_cons rfl fun superclass _ => rfl

/-- The words of the header at `a` that its records depend on. -/
structure HeaderAt (m : Memory) (a : Address) (raw size : UInt16) (count : UInt32) : Prop where
  kind : m.readU16 (a + kindOffset) = .ok raw
  recordSize : m.readU16 (a + recordSizeOffset) = .ok size
  count : m.readU32 (a + countOffset) = .ok count

/-- What is read stands where the header says. -/
structure HeldAt (limits : Limits) (m : Memory) (a : Address) (d : FieldDescriptor)
    (raw size : UInt16) (count : UInt32) : Prop where
  header : HeaderAt m a raw size count
  address : d.address = a
  kind : FieldKind.ofRaw? raw.toNat = some d.kind
  length : d.records.length = count.toNat
  records : ∀ (i : Nat) (r : FieldRecord), d.records[i]? = some r →
    r.HeldAt limits m (a + recordsOffset + size.toUInt64 * UInt64.ofNat i)
  mangledTypeName : RelativePointer.direct a m = .ok d.mangledTypeName
  superclass : RelativePointer.direct (a + superclassOffset) m = .ok d.superclass

/-- What reading the field descriptor at `a` comes to. -/
structure Checked (limits : Limits) (m : Memory) (a : Address) : Prop where
  ok_iff : (∃ d, read limits a m = .ok d) ↔
    ∀ c ∈ Check.inOrder (declaredCount m a), Check.run limits a c m = .ok ()
  /-- The first check that fails is how the descriptor fails. -/
  error_iff : ∀ e, read limits a m = .error e ↔ ∃ before c after,
    Check.inOrder (declaredCount m a) = before ++ c :: after ∧
      (∀ d ∈ before, Check.run limits a d m = .ok ()) ∧ Check.run limits a c m = .error e
  held : ∀ d, read limits a m = .ok d → ∃ raw size count, d.HeldAt limits m a raw size count
  /-- Too many records are refused whatever they hold: any memory with this header will do. -/
  too_many : ∀ raw size count, (FieldKind.ofRaw? raw.toNat).isSome → limits.fields < count →
    ∀ m', HeaderAt m' a raw size count →
      read limits a m' = .error (.decode (.tooManyFields a count limits.fields))
  /-- Records that are too small are refused whatever they hold. -/
  too_small : ∀ raw size count, (FieldKind.ofRaw? raw.toNat).isSome → ¬limits.fields < count →
    0 < count → size < 12 → ∀ m', HeaderAt m' a raw size count →
      read limits a m' = .error (.decode (.fieldRecordSize a size 12))

/-- A header with a kind that exists leads to the two limits and then to the records. -/
theorem read_of_header {raw size : UInt16} {count : UInt32} (h : HeaderAt m a raw size count)
    {kind : FieldKind} (hkind : FieldKind.ofRaw? raw.toNat = some kind) : read limits a m =
      if limits.fields < count then .error (.decode (.tooManyFields a count limits.fields))
      else if 0 < count ∧ size < 12 then .error (.decode (.fieldRecordSize a size 12))
      else (do
        let records ← Decoder.series (FieldRecord.read limits) size.toUInt64 count.toNat
          (a + recordsOffset)
        let mangledTypeName ← RelativePointer.direct a
        let superclass ← RelativePointer.direct (a + superclassOffset)
        return ⟨a, kind, mangledTypeName, superclass, records⟩ : Decoder FieldDescriptor) m := by
  have hraw : Decoder.u16 (a + kindOffset) m = .ok raw := Decoder.access_eq_ok_iff.2 h.kind
  have hsize : Decoder.u16 (a + recordSizeOffset) m = .ok size :=
    Decoder.access_eq_ok_iff.2 h.recordSize
  have hcount : Decoder.u32 (a + countOffset) m = .ok count := Decoder.access_eq_ok_iff.2 h.count
  unfold read
  rw [Decoder.bind_of_ok hraw, Decoder.bind_of_ok (Decoder.require_eq_ok_iff.2 hkind),
    Decoder.bind_of_ok hsize, Decoder.bind_of_ok hcount]
  by_cases hlimit : limits.fields < count
  · rw [if_pos hlimit, if_pos hlimit]
    rfl
  rw [if_neg hlimit, if_neg hlimit]
  by_cases hroom : 0 < count ∧ size < 12
  · rw [if_pos hroom]
    exact congrFun (if_pos hroom) m
  · rw [if_neg hroom]
    exact congrFun (if_neg hroom) m

theorem heldAt_of_read {d : FieldDescriptor} (h : read limits a m = .ok d) :
    ∃ raw size count, d.HeldAt limits m a raw size count := by
  obtain ⟨raw, hraw, h'⟩ := Decoder.of_bind_ok h
  obtain ⟨kind, hkind, h'⟩ := Decoder.of_bind_ok h'
  obtain ⟨size, hsize, h'⟩ := Decoder.of_bind_ok h'
  obtain ⟨count, hcount, -⟩ := Decoder.of_bind_ok h'
  have hheader : HeaderAt m a raw size count :=
    ⟨Decoder.access_eq_ok_iff.1 hraw, Decoder.access_eq_ok_iff.1 hsize,
      Decoder.access_eq_ok_iff.1 hcount⟩
  have hkind := Decoder.require_eq_ok_iff.1 hkind
  rw [read_of_header hheader hkind] at h
  split at h
  · cases h
  split at h
  · cases h
  obtain ⟨records, hrecords, h⟩ := Decoder.of_bind_ok h
  obtain ⟨mangledTypeName, hmangled, h⟩ := Decoder.of_bind_ok h
  obtain ⟨superclass, hsuperclass, h⟩ := Decoder.of_bind_ok h
  cases h
  obtain ⟨hlength, hall⟩ := Decoder.series_eq_ok_iff.1 hrecords
  exact ⟨raw, size, count, hheader, rfl, hkind, hlength,
    fun i r hr => FieldRecord.read_eq_ok_iff.1 (hall i r hr), hmangled, hsuperclass⟩

theorem fields_checked (limits : Limits) (m : Memory) (a : Address) : Checked limits m a where
  ok_iff := by
    rw [← Decoder.forM_eq_ok_iff, ← discard_read, Decoder.discard_eq_ok_iff]
  error_iff e := by
    rw [← Decoder.forM_eq_error_iff, ← discard_read, Decoder.discard_eq_error_iff]
  held _ := heldAt_of_read
  too_many raw size count hkind hlimit m' hheader := by
    obtain ⟨kind, hkind⟩ := Option.isSome_iff_exists.1 hkind
    rw [read_of_header hheader hkind, if_pos hlimit]
  too_small raw size count hkind hlimit hpos hsize m' hheader := by
    obtain ⟨kind, hkind⟩ := Option.isSome_iff_exists.1 hkind
    rw [read_of_header hheader hkind, if_neg hlimit, if_pos ⟨hpos, hsize⟩]

end FieldDescriptor

end TypeMetadata
