import TypeMetadata.Proofs.ImageBytes
import TypeMetadata.World

/-!
# Reading a loaded image

Once an image is mapped, what it holds is what memory reads there: `Memory.Shows` says so, and
`load_shows` that it does, as long as nothing else is mapped within the image. From then on a
decoder is followed word by word, by the lemma on each of the readers it is made of.
-/

namespace TypeMetadata

/-- A process in which just this layout is loaded, if it can be made, and no function can be
called. -/
def World.showing {α : Type} (x : Build α) : World where
  memory :=
    match x.run ⟨⟨0x1000⟩, #[]⟩ with
    | .ok (_, i) => (Memory.empty Memory.defaultHeapBase).load i
    | .error _ => .empty Memory.defaultHeapBase
  functions := ⟨FunctionTable.defaultBase, #[]⟩

namespace Memory

/-- What the image holds is what memory reads where the image lies. -/
def Shows (m : Memory) (i : Image) : Prop :=
  ∀ k bs, bs ≠ [] → i.Holds k bs → m.read (i.addressAt k) bs.length = .ok bs

/-- No region begins within the image, behind its first byte. -/
def ClearFor (m : Memory) (i : Image) : Prop :=
  ∀ r ∈ m.regions.entries, r.base.toNat ≤ i.base.toNat ∨ i.base.toNat + i.bytes.size ≤ r.base.toNat

theorem below?_load {m : Memory} {i : Image} {a : Address} (hclear : m.ClearFor i)
    (hbase : i.base ≤ a) (ha : a.toNat < i.base.toNat + i.bytes.size) :
    (m.load i).regions.below? a = some ⟨i.base, i.bytes⟩ := by
  refine RegionMap.below?_eq_some_iff.2
    ⟨RegionMap.mem_insert.2 (.inl rfl), hbase, fun s hs hle => ?_⟩
  rcases RegionMap.mem_insert.1 hs with rfl | ⟨hs, -⟩
  · exact UInt64.le_refl _
  · rw [Address.le_iff_toNat_le] at hle ⊢
    rcases hclear s hs with h | h
    · exact h
    · omega

/-- What stands in a loaded image before the end of the address space is what memory reads there. -/
theorem read_load {m : Memory} {i : Image} {k : Nat} {bs : List UInt8} (hclear : m.ClearFor i)
    (hk : i.base.toNat + k < 0x10000000000000000) (hstands : i.Holds k bs) (hbs : bs ≠ []) :
    (m.load i).read (i.addressAt k) bs.length = .ok bs := by
  have hlen : 0 < bs.length := List.length_pos_iff.2 hbs
  have hlast := hstands.lt_size (l := bs.length - 1) (by omega)
  have ha := Image.toNat_addressAt hk
  have hbase : i.base ≤ i.addressAt k := by
    rw [Address.le_iff_toNat_le, ha]
    omega
  have hoffset : Region.offset? ⟨i.base, i.bytes⟩ (i.addressAt k) bs.length = some k := by
    unfold Region.offset?
    simp only [ha]
    rw [if_pos ⟨hbase, by omega⟩, Nat.add_sub_cancel_left]
  unfold read locate
  rw [below?_load hclear hbase (by omega)]
  simp only [hoffset]
  exact congrArg Except.ok (hstands.extract_eq (by omega))

/-- A loaded image shows itself as it was when it still ended within the address space. -/
theorem load_shows {m : Memory} {i j : Image} (hframe : j.Frame i 0 0) (hfits : j.Fits)
    (hclear : m.ClearFor i) : (m.load i).Shows j := by
  intro k bs hbs hstands
  have hlen : 0 < bs.length := List.length_pos_iff.2 hbs
  have hlast := hstands.lt_size (l := bs.length - 1) (by omega)
  have hbase := hframe.base
  unfold Image.Fits at hfits
  rw [← hframe.addressAt]
  exact read_load hclear (by rw [hbase]; omega) (hframe.holds hstands (.inr (Nat.zero_le _))) hbs

/-- What shows an image shows what it has grown from. -/
theorem Shows.of_grown {m : Memory} {i j : Image} (h : m.Shows j) (hgrown : Image.Grown i j) :
    m.Shows i := by
  intro k bs hbs hstands
  rw [← hgrown.addressAt]
  exact h k bs hbs (hgrown.holds hstands)

end Memory

/-! ## Readers -/

section Readers

/-- A count within its bound is laid out as itself. -/
theorem toNat_ofNat_of_le {n : Nat} {limit : UInt32} (h : n ≤ limit.toNat) :
    (UInt32.ofNat n).toNat = n := by
  have := limit.toNat_lt
  rw [UInt32.toNat_ofNat']
  omega

theorem not_lt_ofNat_of_le {n : Nat} {limit : UInt32} (h : n ≤ limit.toNat) :
    ¬ limit < UInt32.ofNat n := by
  rw [UInt32.lt_iff_toNat_lt, toNat_ofNat_of_le h]
  omega

variable {m : Memory} {i : Image} {k : Nat}

theorem Memory.checkAligned_addressAt {n : UInt64} (hn : n.toNat ∣ 0x10000000000000000)
    (ha : (i.base.toNat + k) % n.toNat = 0) : checkAligned (i.addressAt k) n = .ok () := by
  unfold checkAligned
  rw [Image.isAligned_addressAt hn, decide_eq_true ha]
  rfl

theorem Memory.Shows.read (h : m.Shows i) {bs : List UInt8} {n : Nat} (hk : i.Holds k bs)
    (hlength : bs.length = n + 1) : m.read (i.addressAt k) (n + 1) = .ok bs := by
  rw [← hlength]
  exact h k bs (List.ne_nil_of_length_eq_add_one hlength) hk

theorem Memory.readU16_of_holds (h : m.Shows i) {n : UInt16} (hk : i.Holds k (bytesOf16 n))
    (ha : (i.base.toNat + k) % 2 = 0) : m.readU16 (i.addressAt k) = .ok n := by
  have hread := h.read hk (length_bytesOf16 n)
  unfold readU16
  rw [checkAligned_addressAt (by decide) ha]
  simp only [hread, bind, Except.bind, pure, Except.pure, ofBytes_bytesOf16]

theorem Memory.readU32_of_read {a : Address} {n : UInt32} (h : m.read a 4 = .ok (bytesOf32 n))
    (ha : checkAligned a 4 = .ok ()) : m.readU32 a = .ok n := by
  unfold readU32
  rw [ha]
  simp only [h, bind, Except.bind, pure, Except.pure, ofBytes_bytesOf32]

theorem Memory.readU32_of_holds (h : m.Shows i) {n : UInt32} (hk : i.Holds k (bytesOf32 n))
    (ha : (i.base.toNat + k) % 4 = 0) : m.readU32 (i.addressAt k) = .ok n :=
  readU32_of_read (h.read hk (length_bytesOf32 n)) (checkAligned_addressAt (by decide) ha)

theorem Memory.readU64_of_holds (h : m.Shows i) {n : UInt64} (hk : i.Holds k (bytesOf64 n))
    (ha : (i.base.toNat + k) % 8 = 0) : m.readU64 (i.addressAt k) = .ok n := by
  have hread := h.read hk (length_bytesOf64 n)
  unfold readU64
  rw [checkAligned_addressAt (by decide) ha]
  simp only [hread, bind, Except.bind, pure, Except.pure, ofBytes_bytesOf64]

theorem Decoder.u16_of_holds (h : m.Shows i) {n : UInt16} (hk : i.Holds k (bytesOf16 n))
    (ha : (i.base.toNat + k) % 2 = 0) : Decoder.u16 (i.addressAt k) m = .ok n :=
  access_eq_ok_iff.2 (Memory.readU16_of_holds h hk ha)

theorem Decoder.u32_of_holds (h : m.Shows i) {n : UInt32} (hk : i.Holds k (bytesOf32 n))
    (ha : (i.base.toNat + k) % 4 = 0) : Decoder.u32 (i.addressAt k) m = .ok n :=
  access_eq_ok_iff.2 (Memory.readU32_of_holds h hk ha)

theorem Decoder.u64_of_holds (h : m.Shows i) {n : UInt64} (hk : i.Holds k (bytesOf64 n))
    (ha : (i.base.toNat + k) % 8 = 0) : Decoder.u64 (i.addressAt k) m = .ok n :=
  access_eq_ok_iff.2 (Memory.readU64_of_holds h hk ha)

theorem Decoder.pointer_of_holds (h : m.Shows i) {a : Address} (hk : i.Holds k (bytesOf64 a.val))
    (ha : (i.base.toNat + k) % 8 = 0) : Decoder.pointer (i.addressAt k) m = .ok a := by
  apply access_eq_ok_iff.2
  unfold Memory.readPointer
  rw [Memory.readU64_of_holds h hk ha]
  rfl

theorem Decoder.u32_misaligned (ha : (i.base.toNat + k) % 4 ≠ 0) :
    Decoder.u32 (i.addressAt k) m = .error (.memory (.misaligned (i.addressAt k) 4)) := by
  have haligned : (i.addressAt k).isAligned 4 = false := by
    rw [Image.isAligned_addressAt (by decide)]
    exact decide_eq_false ha
  unfold u32 access Memory.readU32 Memory.checkAligned
  rw [haligned]
  rfl

/-! A relative pointer is what the word says that stands there. -/

section Words

variable {a : Address} {n : UInt32}

theorem Decoder.i32_of_readU32 (h : m.readU32 a = .ok n) : Decoder.i32 a m = .ok n.toInt32 := by
  apply access_eq_ok_iff.2
  unfold Memory.readI32
  rw [h]
  rfl

theorem RelativePointer.direct_of_readU32 (h : m.readU32 a = .ok n) :
    direct a m = .ok (apply a n.toInt32) :=
  Decoder.bind_of_ok (Decoder.i32_of_readU32 h)

theorem RelativePointer.indirectable_of_readU32 (h : m.readU32 a = .ok n) :
    indirectable a m =
      if n &&& 1 = 0 then .ok (apply a n.toInt32)
      else (Decoder.pointer (a.displace (n &&& ~~~1).toInt32.toInt64) m).map Address.nonNull? := by
  unfold indirectable
  rw [Decoder.bind_of_ok (Decoder.i32_of_readU32 h)]
  simp only [UInt32.toUInt32_toInt32]
  split
  · rfl
  · rcases hp : Decoder.pointer (a.displace (n &&& ~~~1).toInt32.toInt64) m with e | p
    · exact Decoder.bind_of_error hp
    · exact Decoder.bind_of_ok hp

theorem RelativePointer.marked_of_readU32 (h : m.readU32 a = .ok n) (mask : UInt32) :
    marked a mask m = .ok (apply a (n &&& ~~~mask).toInt32, n &&& mask) :=
  Decoder.bind_of_ok (Decoder.access_eq_ok_iff.2 h)

end Words

theorem RelativePointer.direct_of_points (h : m.Shows i) {target : Option Address}
    (hk : i.Points k target) (ha : (i.base.toNat + k) % 4 = 0) :
    direct (i.addressAt k) m = .ok target := by
  obtain ⟨n, hn, rfl⟩ := hk
  exact direct_of_readU32 (Memory.readU32_of_holds h hn ha)

theorem Memory.readU8_of_holds (h : m.Shows i) {b : UInt8} (hk : i.Holds k [b]) :
    m.readU8 (i.addressAt k) = .ok b := by
  have hread : m.read (i.addressAt k) 1 = .ok [b] := h k [b] (by simp) hk
  simp [readU8, hread, Word.ofBytes, bind, Except.bind, pure, Except.pure]

theorem Memory.hasBytes_of_holds (h : m.Shows i) {bs : List UInt8} (hk : i.Holds k bs) :
    m.HasBytes (i.addressAt k) bs := by
  intro l b hb
  rw [Image.addressAt_add_ofNat]
  exact readU8_of_holds h (hk.byte hb)

/-- A text is read up to the zero after it. -/
theorem Memory.readCString_of_holds (h : m.Shows i) {bs : List UInt8} {limit : Nat}
    (hk : i.Holds k (bs ++ [0])) (hzero : 0 ∉ bs) (hlimit : bs.length < limit) :
    m.readCString limit (i.addressAt k) = .ok (some bs) :=
  readCString_eq_some_iff.2 ⟨hzero, hlimit, hasBytes_of_holds h hk⟩

theorem Name.ofBytes?_bytesOfText (s : String) : Name.ofBytes? (bytesOfText s) = some s := by
  unfold Name.ofBytes? bytesOfText
  rw [Array.toArray_toList]
  exact dif_pos s.isValidUTF8

theorem Name.read_of_holds (h : m.Shows i) {s : String} {limits : Limits}
    (hk : i.Holds k (bytesOfText s ++ [0])) (hzero : 0 ∉ bytesOfText s)
    (hlimit : (bytesOfText s).length < limits.nameLength) :
    Name.read limits (i.addressAt k) m = .ok s := by
  have hbytes := Memory.readCString_of_holds h hk hzero hlimit
  unfold Name.read
  rw [Decoder.bind_of_ok (Decoder.access_eq_ok_iff.2 hbytes)]
  rw [Decoder.bind_of_ok (a := bytesOfText s) rfl, ofBytes?_bytesOfText]
  rfl

theorem Name.readRelative_of_names (h : m.Shows i) {s : String} {limits : Limits}
    {lo : Nat} (hk : i.Names k lo s) (ha : (i.base.toNat + k) % 4 = 0) (hzero : 0 ∉ bytesOfText s)
    (hlimit : (bytesOfText s).length < limits.nameLength) :
    Name.readRelative limits (i.addressAt k) m = .ok s := by
  obtain ⟨-, hpoints, l, -, rfl, htext⟩ := hk
  have hrequired : RelativePointer.required (i.addressAt k) m = .ok (i.addressAt l) := by
    unfold RelativePointer.required
    rw [Decoder.bind_of_ok (RelativePointer.direct_of_points h hpoints ha)]
    rfl
  unfold Name.readRelative
  rw [Decoder.bind_of_ok hrequired]
  exact read_of_holds h htext hzero hlimit

/-- Records that stand a stride apart are read one after another. -/
theorem Decoder.series_ok {α : Type} {read : Address → Decoder α} {stride : UInt64} {xs : List α}
    (h : ∀ n x, xs[n]? = some x → read (i.addressAt (k + stride.toNat * n)) m = .ok x) :
    Decoder.series read stride xs.length (i.addressAt k) m = .ok xs := by
  refine series_eq_ok_iff.2 ⟨rfl, fun n x hx => ?_⟩
  rw [Image.addressAt_add_stride]
  exact h n x hx

end Readers

end TypeMetadata
