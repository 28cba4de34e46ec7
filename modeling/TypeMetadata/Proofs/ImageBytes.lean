import TypeMetadata.Emit.Context

/-!
# What a layout leaves in the image

`Image.Holds` says which bytes stand where, and `Image.Frame` that an image has only grown since,
apart from one range that was patched: `Frame.holds` carries what stood outside it along. The lemmas
on `Build` say this of each step of a layout that went through. A layout never wraps if its last
image does not, as images only grow.
-/

namespace TypeMetadata

namespace Image

/-- Address of the byte at `k`. -/
def addressAt (i : Image) (k : Nat) : Address := i.base + UInt64.ofNat k

/-- The bytes from `k` on are `bs`. -/
def Holds (i : Image) (k : Nat) (bs : List UInt8) : Prop :=
  ∀ l < bs.length, i.bytes[k + l]? = bs[l]?

/-- `j` is `i` with more bytes, and perhaps others from `lo` up to `hi`. -/
structure Frame (i j : Image) (lo hi : Nat) : Prop where
  base : j.base = i.base
  size : i.bytes.size ≤ j.bytes.size
  same : ∀ k < i.bytes.size, k < lo ∨ hi ≤ k → j.bytes[k]? = i.bytes[k]?

/-- `j` is `i` with more bytes. -/
abbrev Grown (i j : Image) : Prop := Frame i j 0 0

/-- The image ends within the address space. -/
def Fits (i : Image) : Prop := i.base.toNat + i.bytes.size ≤ 0x10000000000000000

instance (i : Image) : Decidable i.Fits := Nat.decLe ..

/-- The relative pointer at `k` refers to `target`. -/
def Points (i : Image) (k : Nat) (target : Option Address) : Prop :=
  ∃ n, i.Holds k (bytesOf32 n) ∧ RelativePointer.apply (i.addressAt k) n.toInt32 = target

/-- At `a` stands the text `s` with a zero after it, at `lo` or behind. -/
def Spells (i : Image) (lo : Nat) (a : Address) (s : String) : Prop :=
  ∃ k, lo ≤ k ∧ a = i.addressAt k ∧ i.Holds k (bytesOfText s ++ [0])

/-- The relative pointer at `k` refers to the text `s`, at `lo` or behind. -/
def Names (i : Image) (k lo : Nat) (s : String) : Prop :=
  ∃ a, i.Points k (some a) ∧ i.Spells lo a s

/-! ## Addresses -/

variable {i j : Image} {k lo hi : Nat} {bs cs : List UInt8}

theorem addressAt_add_ofNat (i : Image) (k c : Nat) :
    i.addressAt k + UInt64.ofNat c = i.addressAt (k + c) := by
  apply Address.ext_val
  simp only [addressAt, Address.val_add]
  rw [UInt64.add_assoc, UInt64.ofNat_add]

theorem addressAt_add (i : Image) (k : Nat) {c : UInt64} {n : Nat} (hc : c.toNat = n) :
    i.addressAt k + c = i.addressAt (k + n) := by
  rw [← hc, ← addressAt_add_ofNat, UInt64.ofNat_toNat]

theorem addressAt_add_stride (i : Image) (k n : Nat) (stride : UInt64) :
    i.addressAt k + stride * UInt64.ofNat n = i.addressAt (k + stride.toNat * n) := by
  rw [← addressAt_add_ofNat, UInt64.ofNat_mul, UInt64.ofNat_toNat]

theorem addressAt_sub (i : Image) (k : Nat) {c : UInt64} {n : Nat} (hc : c.toNat = n) :
    i.addressAt (k + n) - c = i.addressAt k := by
  apply Address.ext_val
  rw [← addressAt_add i k hc, Address.val_sub, Address.val_add, UInt64.add_sub_cancel]

theorem toNat_addressAt (h : i.base.toNat + k < 0x10000000000000000) :
    (i.addressAt k).toNat = i.base.toNat + k := by
  rw [addressAt, Address.toNat_add_ofNat, Nat.mod_eq_of_lt h]

theorem addressAt_inj {l : Nat} (hk : i.base.toNat + k < 0x10000000000000000)
    (hl : i.base.toNat + l < 0x10000000000000000) (h : i.addressAt k = i.addressAt l) : k = l := by
  have := congrArg Address.toNat h
  rw [toNat_addressAt hk, toNat_addressAt hl] at this
  omega

theorem ne_zero_of_dvd {n : UInt64} (hn : n.toNat ∣ 0x10000000000000000) : n ≠ 0 := by
  rintro rfl
  revert hn
  decide

theorem isAligned_addressAt {n : UInt64} (hn : n.toNat ∣ 0x10000000000000000) :
    (i.addressAt k).isAligned n = decide ((i.base.toNat + k) % n.toNat = 0) := by
  rw [Bool.eq_iff_iff, Address.isAligned_iff, addressAt, Address.toNat_add_ofNat,
    Nat.dvd_mod_iff hn, decide_eq_true_iff, Nat.dvd_iff_mod_eq_zero]
  exact or_iff_right (ne_zero_of_dvd hn)

/-! ## Bytes that stand -/

theorem Holds.left (h : i.Holds k (bs ++ cs)) : i.Holds k bs := by
  intro l hl
  rw [h l (by rw [List.length_append]; omega), List.getElem?_append_left hl]

theorem Holds.right (h : i.Holds k (bs ++ cs)) : i.Holds (k + bs.length) cs := by
  intro l hl
  rw [Nat.add_assoc, h _ (by rw [List.length_append]; omega),
    List.getElem?_append_right (by omega), Nat.add_sub_cancel_left]

theorem Holds.byte (h : i.Holds k bs) {l : Nat} {b : UInt8} (hb : bs[l]? = some b) :
    i.Holds (k + l) [b] := by
  intro n hn
  obtain rfl : n = 0 := Nat.lt_one_iff.1 hn
  exact (h l (List.getElem?_eq_some_iff.1 hb).1).trans hb

/-- Each of the parts of one length that stand one after another stands where it should. -/
theorem Holds.part {α : Type} {f : α → List UInt8} {c : Nat} (hf : ∀ x, (f x).length = c)
    {xs : List α} (h : i.Holds k (xs.flatMap f)) {n : Nat} {x : α} (hn : xs[n]? = some x) :
    i.Holds (k + c * n) (f x) := by
  induction xs generalizing k n with
  | nil => simp at hn
  | cons y xs ih =>
    rw [List.flatMap_cons] at h
    cases n with
    | zero =>
      obtain rfl : y = x := by simpa using hn
      exact h.left
    | succ n =>
      have hrest := ih h.right (by simpa using hn)
      rwa [hf, Nat.add_assoc, Nat.add_comm c, ← Nat.mul_succ] at hrest

theorem Holds.lt_size (h : i.Holds k bs) {l : Nat} (hl : l < bs.length) :
    k + l < i.bytes.size := by
  have := h l hl
  rw [List.getElem?_eq_getElem hl] at this
  exact (Array.getElem?_eq_some_iff.1 this).1

theorem Points.room {target : Option Address} (h : i.Points k target) : k + 4 ≤ i.bytes.size := by
  obtain ⟨word, hword, -⟩ := h
  have := hword.lt_size (l := 3) (by rw [length_bytesOf32]; decide)
  omega

theorem Holds.extract_eq (h : i.Holds k bs) (hsize : k + bs.length ≤ i.bytes.size) :
    (i.bytes.extract k (k + bs.length)).toList = bs := by
  have hlength : (i.bytes.extract k (k + bs.length)).toList.length = bs.length := by
    rw [Array.length_toList, Array.size_extract]
    omega
  apply List.ext_getElem?
  intro l
  by_cases hl : l < bs.length
  · rw [Array.getElem?_toList, Array.getElem?_extract, ← h l hl, if_pos (by omega)]
  · rw [List.getElem?_eq_none (by rw [hlength]; omega), List.getElem?_eq_none (by omega)]

theorem Frame.refl (i : Image) (lo hi : Nat) : Frame i i lo hi :=
  ⟨rfl, Nat.le_refl _, fun _ _ _ => rfl⟩

/-- Two changes, within the range of both. -/
theorem Frame.trans {l : Image} {lo₁ hi₁ lo₂ hi₂ : Nat} (h₁ : Frame i j lo₁ hi₁)
    (h₂ : Frame j l lo₂ hi₂) (hout : ∀ k < i.bytes.size, k < lo ∨ hi ≤ k →
      (k < lo₁ ∨ hi₁ ≤ k) ∧ (k < lo₂ ∨ hi₂ ≤ k)) : Frame i l lo hi := by
  refine ⟨h₂.base.trans h₁.base, Nat.le_trans h₁.size h₂.size, fun k hk hk' => ?_⟩
  obtain ⟨hk₁, hk₂⟩ := hout k hk hk'
  rw [h₂.same k (Nat.lt_of_lt_of_le hk h₁.size) hk₂, h₁.same k hk hk₁]

theorem Frame.holds (h : Frame i j lo hi) (hk : i.Holds k bs)
    (hout : k + bs.length ≤ lo ∨ hi ≤ k) : j.Holds k bs := by
  intro l hl
  rw [h.same (k + l) (hk.lt_size hl) (by omega), hk l hl]

/-- A 16-bit word that stands clear of the change. -/
theorem Frame.holds16 (h : Frame i j lo hi) {n : UInt16} (hk : i.Holds k (bytesOf16 n))
    (hout : k + 2 ≤ lo ∨ hi ≤ k) : j.Holds k (bytesOf16 n) :=
  h.holds hk (by rwa [bytesOf16, Word.length_bytes])

/-- A 32-bit word that stands clear of the change. -/
theorem Frame.holds32 (h : Frame i j lo hi) {n : UInt32} (hk : i.Holds k (bytesOf32 n))
    (hout : k + 4 ≤ lo ∨ hi ≤ k) : j.Holds k (bytesOf32 n) :=
  h.holds hk (by rwa [bytesOf32, Word.length_bytes])

theorem Frame.addressAt_eq (h : Frame i j lo hi) : j.addressAt = i.addressAt := by
  unfold Image.addressAt
  rw [h.base]

theorem Frame.addressAt (h : Frame i j lo hi) (k : Nat) : j.addressAt k = i.addressAt k :=
  congrFun h.addressAt_eq k

/-- The address `c` bytes behind another, in an image that has grown since. -/
theorem Frame.offset (h : Frame i j lo hi) {c : UInt64} {n : Nat} (hc : c.toNat = n) :
    i.addressAt k + c = j.addressAt (k + n) := by
  rw [h.addressAt, addressAt_add i k hc]

theorem Frame.points (h : Frame i j lo hi) {target : Option Address} (hk : i.Points k target)
    (hout : k + 4 ≤ lo ∨ hi ≤ k) : j.Points k target := by
  obtain ⟨n, hn, ht⟩ := hk
  exact ⟨n, h.holds32 hn hout, by rw [h.addressAt, ht]⟩

theorem Frame.spells (h : Frame i j lo hi) {low : Nat} {a : Address} {s : String}
    (hk : i.Spells low a s) (hout : hi ≤ low) : j.Spells low a s := by
  obtain ⟨l, hl, ha, htext⟩ := hk
  exact ⟨l, hl, by rw [ha, h.addressAt], h.holds htext (.inr (by omega))⟩

theorem Frame.names (h : Frame i j lo hi) {low : Nat} {s : String} (hk : i.Names k low s)
    (hpointer : k + 4 ≤ lo ∨ hi ≤ k) (htext : hi ≤ low) : j.Names k low s := by
  obtain ⟨a, hpoints, hspells⟩ := hk
  exact ⟨a, h.points hpoints hpointer, h.spells hspells htext⟩

theorem Fits.of_le (hj : j.Fits) (hbase : j.base = i.base)
    (hsize : i.bytes.size ≤ j.bytes.size) : i.Fits := by
  unfold Fits at *
  rw [hbase] at hj
  omega

theorem Frame.fits (h : Frame i j lo hi) (hj : j.Fits) : i.Fits := hj.of_le h.base h.size

theorem Grown.trans {l : Image} (h : Grown i j) (h' : Grown j l) : Grown i l :=
  Frame.trans h h' fun _ _ _ => ⟨.inr (Nat.zero_le _), .inr (Nat.zero_le _)⟩

/-- A patch of what has been added since. -/
theorem Grown.patch {l : Image} (h : Grown i j) (h' : Frame j l lo hi) (hlo : i.bytes.size ≤ lo) :
    Grown i l :=
  Frame.trans h h' fun _ hk _ => ⟨.inr (Nat.zero_le _), .inl (Nat.lt_of_lt_of_le hk hlo)⟩

theorem Grown.holds (h : Grown i j) (hk : i.Holds k bs) : j.Holds k bs :=
  Frame.holds h hk (.inr (Nat.zero_le _))

/-! ## Appending and patching -/

@[simp] theorem base_append (i : Image) (bs : List UInt8) : (i.append bs).base = i.base := rfl

@[simp] theorem addressAt_append (i : Image) (bs : List UInt8) (k : Nat) :
    (i.append bs).addressAt k = i.addressAt k := rfl

theorem toList_append (i : Image) (bs : List UInt8) :
    (i.append bs).bytes.toList = i.bytes.toList ++ bs :=
  Array.toList_appendList

@[simp] theorem size_append (i : Image) (bs : List UInt8) :
    (i.append bs).bytes.size = i.bytes.size + bs.length := by
  rw [← Array.length_toList, toList_append, List.length_append, Array.length_toList]

@[simp] theorem append_nil (i : Image) : i.append [] = i :=
  congrArg (Image.mk i.base) (Array.toList_inj.1 (by simp))

theorem append_append (i : Image) (bs cs : List UInt8) :
    (i.append bs).append cs = i.append (bs ++ cs) := by
  have h : ((i.append bs).append cs).bytes = (i.append (bs ++ cs)).bytes :=
    Array.toList_inj.1 (by simp only [toList_append, List.append_assoc])
  exact congrArg (Image.mk i.base) h

theorem frame_append (i : Image) (bs : List UInt8) (lo hi : Nat) : Frame i (i.append bs) lo hi := by
  refine ⟨rfl, by rw [size_append]; omega, fun k hk _ => ?_⟩
  rw [← Array.getElem?_toList, toList_append, List.getElem?_append_left (by simpa using hk),
    Array.getElem?_toList]

theorem frame_align (i : Image) (n : UInt64) (lo hi : Nat) : Frame i (i.align n) lo hi :=
  frame_append i _ lo hi

theorem holds_append (i : Image) (bs : List UInt8) : (i.append bs).Holds i.bytes.size bs := by
  intro l hl
  rw [← Array.getElem?_toList, toList_append, ← Array.length_toList,
    List.getElem?_append_right (by omega), Nat.add_sub_cancel_left]

theorem grown_patch {a : Address} (h : i.patch a bs = .ok j) :
    j.base = i.base ∧ j.bytes.size = i.bytes.size := by
  unfold patch at h
  simp only at h
  split at h
  · cases h
    exact ⟨rfl, size_overlay ..⟩
  · cases h

/-- A patch lies within what has been laid out, and changes nothing else. -/
theorem of_patch_ok {a : Address} (h : i.patch a bs = .ok j) :
    ∃ k, a = i.addressAt k ∧ k = (a.val - i.base.val).toNat ∧ k + bs.length ≤ i.bytes.size ∧
      Frame i j k (k + bs.length) ∧ j.bytes.size = i.bytes.size ∧ j.Holds k bs := by
  unfold patch at h
  simp only at h
  split at h
  · rename_i hin
    obtain ⟨h0, hroom⟩ := hin
    have hstart : (a.distanceFrom i.base).toNatClampNeg = (a.val - i.base.val).toNat := by
      rw [← Int64.toNat_toUInt64_of_le h0, Address.distanceFrom, UInt64.toUInt64_toInt64]
    rw [hstart] at h hroom
    cases h
    refine ⟨_, ?_, rfl, hroom, ⟨rfl, by simp, fun l hl hout => ?_⟩, by simp, fun l hl => ?_⟩
    · apply Address.ext_val
      rw [addressAt, Address.val_add, UInt64.ofNat_toNat, UInt64.add_comm]
      exact (UInt64.sub_add_cancel _ _).symm
    · simp only [getElem?_overlay]
      rw [if_neg (by omega)]
    · simp only [getElem?_overlay]
      rw [if_pos (by omega), Nat.add_sub_cancel_left]
  · cases h

/-- A patch at the base or behind it does not wrap. -/
theorem patch_behind_base {a : Address} (h : i.patch a bs = .ok j) (hbase : i.base ≤ a) :
    ∃ k, a = i.addressAt k ∧ i.base.toNat + k < 0x10000000000000000 ∧
      k + bs.length ≤ i.bytes.size ∧ Frame i j k (k + bs.length) ∧
      j.bytes.size = i.bytes.size ∧ j.Holds k bs := by
  obtain ⟨k, ha, hk, hroom, hframe, hsize, hholds⟩ := of_patch_ok h
  refine ⟨k, ha, ?_, hroom, hframe, hsize, hholds⟩
  rw [hk, UInt64.toNat_sub_of_le _ _ hbase]
  have hle := Address.le_iff_toNat_le.1 hbase
  have hlt := a.val.toNat_lt
  unfold Address.toNat at *
  omega

/-- A patch writes where it says and nowhere else. -/
theorem frame_patch (h : i.patch (i.addressAt k) bs = .ok j) (hfits : j.Fits)
    (hk : k < i.bytes.size) :
    Frame i j k (k + bs.length) ∧ j.bytes.size = i.bytes.size ∧ j.Holds k bs := by
  obtain ⟨hbase, hsize⟩ := grown_patch h
  have hin : i.base.toNat + k < 0x10000000000000000 := by
    unfold Fits at hfits
    rw [hbase] at hfits
    omega
  obtain ⟨l, hl, hlt, -, hframe, -, hholds⟩ := patch_behind_base h (by
    rw [Address.le_iff_toNat_le, toNat_addressAt hin]
    omega)
  obtain rfl := addressAt_inj hin hlt hl
  exact ⟨hframe, hsize, hholds⟩

/-- What lies within an image can be patched. -/
theorem exists_patch (hroom : k + bs.length ≤ i.bytes.size)
    (hsize : i.bytes.size < 0x8000000000000000) : ∃ j, i.patch (i.addressAt k) bs = .ok j := by
  have hstart : (i.addressAt k).distanceFrom i.base = Int64.ofNat k := by
    simp only [addressAt, Address.distanceFrom, Address.val_add]
    rw [UInt64.add_comm, UInt64.add_sub_cancel]
    rfl
  have hk : k < 0x8000000000000000 := by omega
  unfold patch
  simp only [hstart, Int64.toNatClampNeg_ofNat_of_lt hk]
  rw [if_pos ⟨Int64.zero_le_ofNat_of_lt hk, hroom⟩]
  exact ⟨_, rfl⟩

/-- An image that ends at a multiple needs no padding. -/
theorem align_of_mod {n : UInt64} (hn : n.toNat ∣ 0x10000000000000000)
    (h : (i.base.toNat + i.bytes.size) % n.toNat = 0) : i.align n = i := by
  have haligned : i.cursor.isAligned n = true :=
    (isAligned_addressAt (k := i.bytes.size) hn).trans (decide_eq_true h)
  have hmultiple : n = 0 ∨ i.cursor.val % n = 0 := by
    simpa [Address.isAligned] using haligned
  unfold align padding
  rw [if_pos hmultiple]
  exact append_nil i

theorem toNat_cursor (i : Image) :
    i.cursor.toNat = (i.base.toNat + i.bytes.size) % 0x10000000000000000 :=
  Address.toNat_add_ofNat i.base i.bytes.size

theorem toNat_cursor_append (i : Image) (bs : List UInt8) :
    (i.append bs).cursor.toNat = (i.cursor.toNat + bs.length) % 0x10000000000000000 := by
  rw [toNat_cursor, toNat_cursor, base_append, size_append, ← Nat.add_assoc, Nat.mod_add_mod]

theorem dvd_cursor_align (i : Image) {n : UInt64} (hn : n ≠ 0) :
    n.toNat ∣ (i.align n).cursor.toNat := by
  rw [align, toNat_cursor_append, List.length_replicate]
  exact dvd_padding hn i.cursor.val

theorem mod_align (i : Image) {n : UInt64} (hn : n.toNat ∣ 0x10000000000000000) :
    (i.base.toNat + (i.align n).bytes.size) % n.toNat = 0 := by
  have hdvd := dvd_cursor_align i (ne_zero_of_dvd hn)
  rw [toNat_cursor, Nat.dvd_mod_iff hn] at hdvd
  exact Nat.mod_eq_zero_of_dvd hdvd

end Image

/-! ## Steps of a layout -/

/-- `x` has been laid out at some time as `b`, and the image has only grown since. -/
def Image.LaidOut {α : Type} (j : Image) (x : Build α) (b : α) : Prop :=
  ∃ i i', x.run i = .ok (b, i') ∧ Image.Grown i' j

namespace Build

variable {α β : Type} {i j : Image} {k : Nat}

/-- The steps of a layout that went through all did. -/
theorem run_bind_ok {x : Build α} {f : α → Build β} {b : β}
    (h : (x >>= f).run i = .ok (b, j)) :
    ∃ a i', x.run i = .ok (a, i') ∧ (f a).run i' = .ok (b, j) := by
  rw [StateT.run_bind] at h
  rcases hx : x.run i with e | ⟨a, i'⟩ <;> rw [hx] at h
  · cases h
  · exact ⟨a, i', rfl, h⟩

/-- What a run shows of a layout. -/
theorem exists_of_any {x : Build α} {p : α × Image → Bool} (h : (x.run i).toOption.any p = true) :
    ∃ a j, x.run i = .ok (a, j) ∧ p (a, j) = true := by
  rcases hx : x.run i with e | ⟨a, j⟩ <;> rw [hx] at h
  · cases h
  · exact ⟨a, j, rfl, h⟩

theorem run_map_ok {x : Build α} {f : α → β} {b : β} (h : (f <$> x).run i = .ok (b, j)) :
    ∃ a, x.run i = .ok (a, j) ∧ f a = b := by
  rw [StateT.run_map] at h
  rcases hx : x.run i with e | ⟨a, i'⟩ <;> rw [hx] at h <;> cases h
  exact ⟨a, rfl, rfl⟩

theorem fits_of_mapM {f : α → Build β} {xs : List α} {ys : List β}
    (h : (xs.mapM f).run i = .ok (ys, j)) (hfits : j.Fits)
    (hf : ∀ x y i j, (f x).run i = .ok (y, j) → j.Fits → i.Fits) : i.Fits := by
  induction xs generalizing i ys with
  | nil =>
    cases h
    exact hfits
  | cons x xs ih =>
    rw [List.mapM_cons] at h
    obtain ⟨y, i₁, hx, h⟩ := run_bind_ok h
    obtain ⟨rest, i₂, hxs, h⟩ := run_bind_ok h
    cases h
    exact hf x y i i₁ hx (ih hxs)

theorem push_ok {bs : List UInt8} {a : Address} (h : (push bs).run i = .ok (a, j)) :
    a = i.addressAt i.bytes.size ∧ Image.Grown i j ∧
      j.bytes.size = i.bytes.size + bs.length ∧ j.Holds i.bytes.size bs := by
  cases h
  exact ⟨rfl, Image.frame_append i bs 0 0, Image.size_append i bs, Image.holds_append i bs⟩

theorem reserve_ok {n : Nat} {a : Address} (h : (reserve n).run i = .ok (a, j)) :
    Image.Grown i j ∧ j.bytes.size = i.bytes.size + n := by
  obtain ⟨-, hgrown, hsize, -⟩ := push_ok h
  rw [List.length_replicate] at hsize
  exact ⟨hgrown, hsize⟩

theorem pushU16_ok {n : UInt16} {a : Address} (h : (pushU16 n).run i = .ok (a, j)) :
    a = i.addressAt i.bytes.size ∧ Image.Grown i j ∧ j.bytes.size = i.bytes.size + 2 ∧
      j.Holds i.bytes.size (bytesOf16 n) := by
  simpa [bytesOf16] using push_ok h

theorem pushU32_ok {n : UInt32} {a : Address} (h : (pushU32 n).run i = .ok (a, j)) :
    a = i.addressAt i.bytes.size ∧ Image.Grown i j ∧ j.bytes.size = i.bytes.size + 4 ∧
      j.Holds i.bytes.size (bytesOf32 n) := by
  simpa [bytesOf32] using push_ok h

theorem align_ok {a : Address} (h : (align 4).run i = .ok (a, j)) :
    (j.base.toNat + j.bytes.size) % 4 = 0 := by
  cases h
  exact Image.mod_align i (n := 4) (by decide)

theorem run_patch (a : Address) (bs : List UInt8) (i : Image) :
    (patch a bs).run i = (i.patch a bs).map fun j => ((), j) := by
  rcases h : i.patch a bs with e | j <;> simp [patch, h] <;> rfl

theorem patch_ok {a : Address} {bs : List UInt8} {u : Unit}
    (h : (patch a bs).run i = .ok (u, j)) : i.patch a bs = .ok j := by
  unfold patch at h
  obtain ⟨i₁, i₂, hget, h⟩ := run_bind_ok h
  cases hget
  obtain ⟨i₃, i₄, hpatch, h⟩ := run_bind_ok h
  cases h
  rcases hp : i.patch a bs with e | i' <;> rw [hp] at hpatch
  · cases hpatch
  · cases hpatch
    rfl

/-- A distance that fits leads from where it was taken to what it was taken to. -/
theorem apply_displacement {a t : Address} {raw : Int32} (h : displacement a t = .ok raw) :
    RelativePointer.apply a raw = if t = a then none else some t := by
  unfold displacement at h
  simp only at h
  split at h
  · rename_i hfits
    cases h
    have hback : a.displace (t.distanceFrom a).toInt32.toInt64 = t := by
      rw [hfits, Address.add_distanceFrom]
    unfold RelativePointer.apply
    by_cases hta : t = a
    · subst hta
      have hzero : t.distanceFrom t = 0 := by
        unfold Address.distanceFrom
        rw [UInt64.sub_self]
        rfl
      rw [hzero, if_pos (by decide), if_pos rfl]
    · have hne : (t.distanceFrom a).toInt32 ≠ 0 := by
        intro h0
        rw [h0] at hback
        apply hta
        have hnone : (Int32.toInt64 0).toUInt64 = 0 := by decide
        rw [← hback, Address.displace, hnone, UInt64.add_zero]
      rw [if_neg hne, if_neg hta, hback]
  · cases h

/-- A relative pointer is patched in as an offset that leads to its target, unless that is where the
pointer stands itself. -/
theorem patch_of_patchRelative {a : Address} {target : Option Address} {u : Unit}
    (h : (patchRelative a target).run i = .ok (u, j)) :
    ∃ raw : Int32, i.patch a (bytesOf32 raw.toUInt32) = .ok j ∧
      RelativePointer.apply a raw = if target = some a then none else target := by
  cases target with
  | none => exact ⟨0, patch_ok h, rfl⟩
  | some t =>
    obtain ⟨raw, i', hraw, h⟩ := run_bind_ok h
    rcases hd : displacement a t with e | n <;> rw [hd] at hraw
    · cases hraw
    · cases hraw
      refine ⟨raw, patch_ok h, ?_⟩
      rw [apply_displacement hd]
      simp

theorem fits_of_patchRelative {a : Address} {target : Option Address} {u : Unit}
    (h : (patchRelative a target).run i = .ok (u, j)) (hfits : j.Fits) : i.Fits := by
  obtain ⟨raw, hpatch, -⟩ := patch_of_patchRelative h
  obtain ⟨hbase, hsize⟩ := Image.grown_patch hpatch
  exact hfits.of_le hbase (Nat.le_of_eq hsize.symm)

theorem patchRelative_ok {a : Address} {target : Option Address} {u : Unit}
    (h : (patchRelative a target).run i = .ok (u, j)) (ha : a = i.addressAt k) (hfits : j.Fits)
    (hk : k < i.bytes.size) :
    Image.Frame i j k (k + 4) ∧ j.bytes.size = i.bytes.size ∧
      j.Points k (if target = some a then none else target) := by
  obtain ⟨raw, hpatch, happly⟩ := patch_of_patchRelative h
  subst ha
  obtain ⟨hframe, hsize, hholds⟩ := Image.frame_patch hpatch hfits hk
  refine ⟨?_, hsize, raw.toUInt32, hholds, ?_⟩
  · simpa [bytesOf32] using hframe
  · rw [hframe.addressAt, ← happly]
    simp

end Build

namespace Emit

variable {i j : Image} {k : Nat}

theorem fits_of_textAt {a t : Address} {text : String}
    (h : (textAt a text).run i = .ok (t, j)) (hfits : j.Fits) : i.Fits := by
  obtain ⟨target, i₁, htext, h⟩ := Build.run_bind_ok h
  obtain ⟨_, i₂, hpatch, h⟩ := Build.run_bind_ok h
  cases h
  obtain ⟨-, hgrown, -, -⟩ := Build.push_ok htext
  exact hgrown.fits (Build.fits_of_patchRelative hpatch hfits)

theorem textAt_ok {a t : Address} {text : String} (h : (textAt a text).run i = .ok (t, j))
    (ha : a = i.addressAt k) (hfits : j.Fits) (hk : k + 4 ≤ i.bytes.size) {lo : Nat}
    (hlo : lo ≤ i.bytes.size) :
    Image.Frame i j k (k + 4) ∧ i.bytes.size < j.bytes.size ∧ j.Points k (some t) ∧
      j.Spells lo t text := by
  obtain ⟨target, i₁, htext, h⟩ := Build.run_bind_ok h
  obtain ⟨_, i₂, hpatch, h⟩ := Build.run_bind_ok h
  cases h
  obtain ⟨rfl, happend, hsize, hholds⟩ := Build.push_ok htext
  obtain ⟨hframe, hsize', hpoints⟩ :=
    Build.patchRelative_ok hpatch (by rw [ha, happend.addressAt]) hfits (by omega)
  have hgrown : i.bytes.size < j.bytes.size := by
    rw [hsize', hsize, List.length_append, List.length_singleton]
    omega
  have hall : Image.Frame i j k (k + 4) :=
    Image.Frame.trans happend hframe fun _ _ hout => ⟨.inr (Nat.zero_le _), hout⟩
  refine ⟨hall, hgrown, ?_, i.bytes.size, hlo, (hall.addressAt _).symm,
    hframe.holds hholds (.inr hk)⟩
  rw [if_neg] at hpoints
  · exact hpoints
  · -- the text is laid out behind the pointer to it
    intro heq
    have hbase := hall.base
    unfold Image.Fits at hfits
    rw [hbase] at hfits
    have := Image.addressAt_inj (by omega) (by omega) ((Option.some.inj heq).trans ha)
    omega

theorem fits_of_nameAt {a : Address} {name : String} {u : Unit}
    (h : (nameAt a name).run i = .ok (u, j)) (hfits : j.Fits) : i.Fits := by
  obtain ⟨t, i₁, htext, h⟩ := Build.run_bind_ok h
  cases h
  exact fits_of_textAt htext hfits

theorem nameAt_ok {a : Address} {name : String} {u : Unit}
    (h : (nameAt a name).run i = .ok (u, j)) (ha : a = i.addressAt k) (hfits : j.Fits)
    (hk : k + 4 ≤ i.bytes.size) {lo : Nat} (hlo : lo ≤ i.bytes.size) :
    Image.Frame i j k (k + 4) ∧ i.bytes.size < j.bytes.size ∧ j.Names k lo name := by
  obtain ⟨t, i₁, htext, h⟩ := Build.run_bind_ok h
  cases h
  obtain ⟨hframe, hsize, hpoints, hspells⟩ := textAt_ok htext ha hfits hk hlo
  exact ⟨hframe, hsize, t, hpoints, hspells⟩

end Emit

end TypeMetadata
