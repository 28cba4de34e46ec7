import TypeMetadata.Proofs.ByteStore
import TypeMetadata.Proofs.LoadedImage

/-!
# Texts up to the byte

A text ends at its first zero, wherever that is: right at the limit, at the last byte of a region or
a few regions further on. `Memory.TextsEnd` says which bytes are read, what is made of them and
which of them fails, and `Name.Decodes` what a name is once its bytes are known. A text that is laid
out reads back unless a zero or the limit cuts it short, as long as the layout does not wrap: what
lies beyond the end of the address space cannot be read.
-/

namespace TypeMetadata

namespace Memory

/-- The regions follow one another without a gap, from `a` on. -/
def Chain (m : Memory) : Address → List Region → Prop
  | _, [] => True
  | a, r :: rs => r ∈ m.regions.entries ∧ r.base = a ∧ m.Chain (a + UInt64.ofNat r.bytes.size) rs

/-- The bytes of some regions. -/
def chained (rs : List Region) : List UInt8 := rs.flatMap fun r => r.bytes.toList

/-- Reading a text at an address stops at its first zero, at the limit or at the first byte that
cannot be read. -/
structure TextsEnd (m : Memory) : Prop where
  some_iff : ∀ limit a bs, m.readCString limit a = .ok (some bs) ↔
    0 ∉ bs ∧ bs.length < limit ∧ m.HasBytes a (bs ++ [0])
  none_iff : ∀ limit a, m.readCString limit a = .ok none ↔ m.NonzeroFor a limit
  error_iff : ∀ limit a e, m.readCString limit a = .error e ↔
    ∃ k < limit, m.NonzeroFor a k ∧ (∀ b, m.readU8 (a + UInt64.ofNat k) ≠ .ok b) ∧
      e = .unmapped (a + UInt64.ofNat k) 1
  /-- A byte is read only if those before it could be, and were not zero. -/
  unread : ∀ (m' : Memory) limit a, (∀ k < limit, m.NonzeroFor a k →
      m'.readU8 (a + UInt64.ofNat k) = m.readU8 (a + UInt64.ofNat k)) →
    m'.readCString limit a = m.readCString limit a
  /-- A text may begin anywhere in a region and end anywhere in a later one, the last byte
  included, if there is no gap between them. -/
  across : m.Separate → ∀ limit a rs before bs behind, m.Chain a rs →
    chained rs = before ++ (bs ++ [0]) ++ behind → 0 ∉ bs → bs.length < limit →
      m.readCString limit (a + UInt64.ofNat before.length) = .ok (some bs)

variable {m m' : Memory} {a : Address} {limit : Nat} {b : UInt8} {bs cs : List UInt8}
  {e : MemoryError}

/-! ## Bytes -/

theorem readU8_eq_error (h : m.readU8 a = .error e) : e = .unmapped a 1 := by
  unfold readU8 read at h
  rcases hl : m.locate a 1 with e' | ⟨r, start⟩ <;> rw [hl] at h
  · cases h
    exact locate_eq_error hl
  · cases h

theorem readU8_eq_error_iff :
    m.readU8 a = .error e ↔ (∀ b, m.readU8 a ≠ .ok b) ∧ e = .unmapped a 1 := by
  rcases h : m.readU8 a with e' | b
  · simp [readU8_eq_error h, eq_comm]
  · simp

theorem hasBytes_append : m.HasBytes a (bs ++ cs) ↔
    m.HasBytes a bs ∧ m.HasBytes (a + UInt64.ofNat bs.length) cs := by
  induction bs generalizing a with
  | nil => simp [hasBytes_nil, Address.add_zero]
  | cons b bs ih =>
    rw [List.cons_append, hasBytes_cons, hasBytes_cons, ih, and_assoc, List.length_cons,
      Address.add_ofNat_succ]

/-! ## What is read -/

/-- Each further byte is read if the one before it was there and not zero. -/
theorem readCString_congr (h : ∀ k < limit, m.NonzeroFor a k →
      m'.readU8 (a + UInt64.ofNat k) = m.readU8 (a + UInt64.ofNat k)) :
    m'.readCString limit a = m.readCString limit a := by
  induction limit generalizing a with
  | zero => rfl
  | succ limit ih =>
    have hfirst := h 0 (Nat.succ_pos limit) nofun
    rw [Address.add_ofNat_zero] at hfirst
    rcases hb : m.readU8 a with e | b <;> rw [hb] at hfirst
    · rw [readCString_of_error hfirst, readCString_of_error hb]
    by_cases hzero : b = 0
    · rw [readCString_of_zero (hzero ▸ hfirst), readCString_of_zero (hzero ▸ hb)]
    · rw [readCString_of_ne hfirst hzero, readCString_of_ne hb hzero, ih]
      intro k hk hnonzero
      rw [Address.add_ofNat_succ]
      exact h (k + 1) (by omega) (nonzeroFor_succ.2 ⟨⟨b, hb, hzero⟩, hnonzero⟩)

theorem Separate.hasBytes_region (h : m.Separate) {r : Region} (hr : r ∈ m.regions.entries) :
    m.HasBytes r.base r.bytes.toList := by
  have hspans : r.Spans r.base r.bytes.size := ⟨Nat.le_refl _, Nat.le_refl _⟩
  have hread := h.read_eq hr hspans (h.nonempty r hr)
  have hslice : r.slice r.base r.bytes.size = r.bytes.toList := by simp [Region.slice]
  rw [hslice] at hread
  exact fun _ _ => h.readU8_of_read hread

theorem Separate.hasBytes_chain (h : m.Separate) {rs : List Region} (hrs : m.Chain a rs) :
    m.HasBytes a (chained rs) := by
  induction rs generalizing a with
  | nil => exact hasBytes_nil
  | cons r rs ih =>
    obtain ⟨hr, rfl, hrs⟩ := hrs
    refine hasBytes_append.2 ⟨h.hasBytes_region hr, ?_⟩
    rw [Array.length_toList]
    exact ih hrs

theorem texts_end (m : Memory) : m.TextsEnd where
  some_iff _ _ _ := readCString_eq_some_iff
  none_iff _ _ := readCString_eq_none_iff
  error_iff limit a e := by
    simp only [readCString_eq_error_iff, readU8_eq_error_iff]
    grind
  unread _ _ _ := readCString_congr
  across hsep limit a rs before bs behind hrs hbytes hzero hlimit := by
    have hchain := hsep.hasBytes_chain hrs
    rw [hbytes] at hchain
    exact readCString_eq_some_iff.2
      ⟨hzero, hlimit, (hasBytes_append.1 (hasBytes_append.1 hchain).1).2⟩

/-- A text that goes on in the next region and ends with it. -/
example :
    let m := ((Memory.empty defaultHeapBase).map ⟨0x1000⟩ #[1, 2]).map ⟨0x1002⟩ #[3, 0]
    m.readCString 4 ⟨0x1000⟩ = .ok (some [1, 2, 3]) ∧ m.readCString 3 ⟨0x1000⟩ = .ok none := by
  decide

end Memory

/-! ## Names -/

namespace Name

/-- A name is the text that its bytes spell. -/
structure Decodes (limits : Limits) (m : Memory) : Prop where
  ok_iff : ∀ a s, read limits a m = .ok s ↔
    m.readCString limits.nameLength a = .ok (some (bytesOfText s))
  /-- No text has these bytes. -/
  invalid_iff : ∀ a, read limits a m = .error (.decode (.invalidUtf8 a)) ↔
    ∃ bs, m.readCString limits.nameLength a = .ok (some bs) ∧ ∀ s, bs ≠ bytesOfText s
  unterminated_iff : ∀ a,
    read limits a m = .error (.decode (.unterminatedString a limits.nameLength)) ↔
      m.readCString limits.nameLength a = .ok none
  memory_iff : ∀ a e, read limits a m = .error (.memory e) ↔
    m.readCString limits.nameLength a = .error e

variable {limits : Limits} {m : Memory} {a : Address} {bs : List UInt8} {s : String}

theorem ofBytes?_eq_some_iff : ofBytes? bs = some s ↔ bs = bytesOfText s := by
  constructor
  · intro h
    unfold ofBytes? String.fromUTF8? at h
    split at h
    · cases h
      rfl
    · cases h
  · rintro rfl
    exact ofBytes?_bytesOfText s

theorem ofBytes?_eq_none_iff : ofBytes? bs = none ↔ ∀ s, bs ≠ bytesOfText s := by
  simp [Option.eq_none_iff_forall_ne_some, ofBytes?_eq_some_iff]

theorem read_eq (limits : Limits) (a : Address) (m : Memory) : read limits a m =
    match m.readCString limits.nameLength a with
    | .error e => .error (.memory e)
    | .ok none => .error (.decode (.unterminatedString a limits.nameLength))
    | .ok (some bs) => Decoder.require (ofBytes? bs) (.invalidUtf8 a) m := by
  unfold read
  rcases h : m.readCString limits.nameLength a with e | _ | bs
  · exact Decoder.bind_of_error (by simp only [Decoder.access, h])
  · rw [Decoder.bind_of_ok (Decoder.access_eq_ok_iff.2 h)]
    rfl
  · rw [Decoder.bind_of_ok (Decoder.access_eq_ok_iff.2 h)]
    rfl

theorem decodes (limits : Limits) (m : Memory) : Decodes limits m where
  ok_iff a s := by
    rw [read_eq]
    rcases m.readCString limits.nameLength a with e | _ | bs <;>
      simp [Decoder.require_eq_ok_iff, ofBytes?_eq_some_iff]
  invalid_iff a := by
    rw [read_eq]
    rcases m.readCString limits.nameLength a with e | _ | bs <;>
      simp [Decoder.require_eq_error_iff, ofBytes?_eq_none_iff]
  unterminated_iff a := by
    rw [read_eq]
    rcases m.readCString limits.nameLength a with e | _ | bs <;>
      simp [Decoder.require_eq_error_iff]
  memory_iff a e := by
    rw [read_eq]
    rcases m.readCString limits.nameLength a with e' | _ | bs <;>
      simp [Decoder.require_eq_error_iff]

/-- A text that has been laid out is read where it is loaded, unless a zero or the limit cuts it
short. -/
theorem read_load_iff {i : Image} {k : Nat} (hshows : m.Shows i)
    (hk : i.Holds k (bytesOfText s ++ [0])) : read limits (i.addressAt k) m = .ok s ↔
      0 ∉ bytesOfText s ∧ (bytesOfText s).length < limits.nameLength := by
  rw [(decodes limits m).ok_iff, Memory.readCString_eq_some_iff, ← and_assoc]
  exact and_iff_left (Memory.hasBytes_of_holds hshows hk)

end Name

/-- Texts are read up to their first zero, names are what they spell, and what is laid out as a text
reads back from where it is loaded, unless a zero or the limit cuts it short. The layout may go on
behind the text, even beyond the end of the address space. -/
theorem texts_read :
    (∀ m : Memory, m.TextsEnd) ∧ (∀ limits m, Name.Decodes limits m) ∧
      ∀ (limits : Limits) (s : String) (i j l : Image) (a : Address) (m : Memory),
        (Build.pushText s).run i = .ok (a, j) → Image.Grown j l → j.Fits → m.ClearFor l →
          (Name.read limits a (m.load l) = .ok s ↔
            0 ∉ bytesOfText s ∧ (bytesOfText s).length < limits.nameLength) := by
  refine ⟨Memory.texts_end, Name.decodes, fun limits s i j l a m hpush hgrown hfits hclear => ?_⟩
  obtain ⟨rfl, hframe, -, hholds⟩ := Build.push_ok hpush
  rw [← hframe.addressAt]
  exact Name.read_load_iff (Memory.load_shows hgrown hfits hclear) hholds

/-- A text of three bytes, with more laid out behind it, is read if the limit leaves room for the
zero, and one with a zero in it is not. -/
theorem texts_read_at_limit :
    (∃ a j, (Build.pushText "né").run ⟨⟨0x1000⟩, #[7]⟩ = .ok (a, j) ∧
      Name.read { nameLength := 4 } a ((Memory.empty Memory.defaultHeapBase).load (j.append [5])) =
        .ok "né" ∧
      Name.read { nameLength := 3 } a ((Memory.empty Memory.defaultHeapBase).load (j.append [5])) ≠
        .ok "né") ∧
    ∃ a j, (Build.pushText "n\x00é").run ⟨⟨0x1000⟩, #[7]⟩ = .ok (a, j) ∧
      Name.read {} a ((Memory.empty Memory.defaultHeapBase).load j) ≠ .ok "n\x00é" := by
  constructor
  · have hrun : (Build.pushText "né").run ⟨⟨0x1000⟩, #[7]⟩ =
        .ok (⟨0x1001⟩, ⟨⟨0x1000⟩, #[7, 0x6E, 0xC3, 0xA9, 0]⟩) := rfl
    have hread := fun limits => texts_read.2.2 limits "né" _ _ _ _
      (Memory.empty Memory.defaultHeapBase) hrun (Image.frame_append _ [5] 0 0) (by decide) nofun
    exact ⟨_, _, hrun, (hread _).2 (by decide), fun h => absurd ((hread _).1 h) (by decide)⟩
  · have hrun : (Build.pushText "n\x00é").run ⟨⟨0x1000⟩, #[7]⟩ =
        .ok (⟨0x1001⟩, ⟨⟨0x1000⟩, #[7, 0x6E, 0, 0xC3, 0xA9, 0]⟩) := rfl
    have hread := texts_read.2.2 {} "n\x00é" _ _ _ _ (Memory.empty Memory.defaultHeapBase) hrun
      (Image.Frame.refl ..) (by decide) nofun
    exact ⟨_, _, hrun, fun h => absurd (hread.1 h) (by decide)⟩

/-- That the text ends within the address space is needed: a layout that begins at the last byte has
room for one letter, and the zero after it is loaded where nothing can be read. -/
theorem not_text_read_back_of_wrap : ¬∀ (limits : Limits) (s : String) (i j l : Image)
    (a : Address) (m : Memory),
    (Build.pushText s).run i = .ok (a, j) → Image.Grown j l → m.ClearFor l →
      (Name.read limits a (m.load l) = .ok s ↔
        0 ∉ bytesOfText s ∧ (bytesOfText s).length < limits.nameLength) := by
  intro h
  have hread := h {} "a" ⟨⟨0xffffffffffffffff⟩, #[]⟩ ⟨⟨0xffffffffffffffff⟩, #[97, 0]⟩
    ⟨⟨0xffffffffffffffff⟩, #[97, 0]⟩ ⟨0xffffffffffffffff⟩ (.empty Memory.defaultHeapBase) rfl
    (Image.Frame.refl ..) nofun
  have hfails : Name.read {} ⟨0xffffffffffffffff⟩
      ((Memory.empty Memory.defaultHeapBase).load ⟨⟨0xffffffffffffffff⟩, #[97, 0]⟩) =
        .error (.memory (.unmapped ⟨0⟩ 1)) := rfl
  have htext : bytesOfText "a" = [97] := rfl
  rw [hfails, htext] at hread
  exact nomatch hread.2 (by decide)

end TypeMetadata
