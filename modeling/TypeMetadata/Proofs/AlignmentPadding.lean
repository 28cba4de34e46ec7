import TypeMetadata.Proofs.ImageBytes

/-!
# Padding zero by zero

Padding can be done by a loop that appends a zero as long as the cursor is no multiple, and nothing
in such a loop says when it is over. `Image.AlignLoop` is that loop. It stops at the first multiple
that the cursor comes to (`loop_of_least`), and there is one at the latest where the cursor wraps
around the end of the address space, at zero. How far that is, `Image.padding` says, so the loop
comes out as `Image.align` does (`Image.pads_align`).
-/

namespace TypeMetadata.Image

/-- A loop that appends a zero as long as the cursor is no multiple of `n`: from `i` on it comes to
`j` in so many turns. -/
inductive AlignLoop (n : UInt64) : Image → Nat → Image → Prop
  | met {i} : i.cursor.isAligned n = true → AlignLoop n i 0 i
  | turned {i turns j} : i.cursor.isAligned n = false → AlignLoop n (i.append [0]) turns j →
      AlignLoop n i (turns + 1) j

variable {i j j' : Image} {n : UInt64} {k turns turns' : Nat}

/-! ## The loop -/

theorem AlignLoop.unique (h : AlignLoop n i turns j) (h' : AlignLoop n i turns' j') :
    turns = turns' ∧ j = j' := by
  induction h generalizing turns' with
  | met haligned =>
    cases h' with
    | met => exact ⟨rfl, rfl⟩
    | turned hnot => exact absurd (haligned.symm.trans hnot) (by decide)
  | turned hnot _ ih =>
    cases h' with
    | met haligned => exact absurd (haligned.symm.trans hnot) (by decide)
    | turned _ hrest =>
      obtain ⟨rfl, rfl⟩ := ih hrest
      exact ⟨rfl, rfl⟩

/-- The loop is over at the first number of zeros that brings the cursor to a multiple. -/
theorem loop_of_least (haligned : (i.append (List.replicate k 0)).cursor.isAligned n = true)
    (hleast : ∀ l < k, (i.append (List.replicate l 0)).cursor.isAligned n = false) :
    AlignLoop n i k (i.append (List.replicate k 0)) := by
  induction k generalizing i with
  | zero =>
    rw [List.replicate_zero, append_nil] at haligned ⊢
    exact .met haligned
  | succ k ih =>
    have hzero (l : Nat) : (i.append [0]).append (List.replicate l 0) =
        i.append (List.replicate (l + 1) 0) := append_append i [0] (List.replicate l 0)
    have hfirst : i.cursor.isAligned n = false := by
      have hnot := hleast 0 (Nat.succ_pos k)
      rwa [List.replicate_zero, append_nil] at hnot
    rw [← hzero] at haligned ⊢
    refine .turned hfirst (ih haligned fun l hl => ?_)
    rw [hzero]
    exact hleast (l + 1) (Nat.succ_lt_succ hl)

theorem isAligned_append_zeros :
    (i.append (List.replicate k 0)).cursor.isAligned n = true ↔
      n = 0 ∨ n.toNat ∣ (i.cursor.toNat + k) % 0x10000000000000000 := by
  rw [Address.isAligned_iff, toNat_cursor_append, List.length_replicate]

theorem loop_align (i : Image) (n : UInt64) :
    AlignLoop n i (padding i.cursor.val n) (i.align n) := by
  refine loop_of_least (isAligned_append_zeros.2 ?_) fun l hl => Bool.eq_false_iff.2 fun h => ?_
  · by_cases hn : n = 0
    · exact .inl hn
    · exact .inr (dvd_padding hn i.cursor.val)
  · rcases isAligned_append_zeros.1 h with rfl | hdvd
    · rw [padding_zero] at hl
      exact absurd hl (Nat.not_lt_zero l)
    · exact not_dvd_of_lt_padding hl hdvd

/-! ## The padding -/

/-- Padding `i` to a multiple of `n` appends `k` zeros, and no fewer would do. -/
structure Pads (i : Image) (n : UInt64) (k : Nat) : Prop where
  /-- The loop is over after `k` turns, and what it comes to is the image that padding gives. -/
  loop : ∀ turns j, AlignLoop n i turns j ↔ turns = k ∧ j = i.align n
  base : (i.align n).base = i.base
  /-- All bytes stay that were laid out before. -/
  bytes : (i.align n).bytes.toList = i.bytes.toList ++ List.replicate k 0
  unaligned : n = 0 → k = 0
  lt : 0 < n → k < n.toNat
  multiple : 0 < n → n.toNat ∣ (i.base.toNat + (i.bytes.size + k)) % 0x10000000000000000
  least : 0 < n → ∀ l, n.toNat ∣ (i.base.toNat + (i.bytes.size + l)) % 0x10000000000000000 → k ≤ l
  /-- The cursor is the address behind the padding, which wraps with the address space. -/
  cursor : (i.align n).cursor.toNat = (i.base.toNat + (i.bytes.size + k)) % 0x10000000000000000

/-- Whatever has been laid out, and whether or not `n` is a power of two, padding to a multiple of
`n` comes to an end, and appends as few zeros as can be. -/
theorem pads_align (i : Image) (n : UInt64) : i.Pads n (padding i.cursor.val n) := by
  have hcursor (l : Nat) : (i.cursor.toNat + l) % 0x10000000000000000 =
      (i.base.toNat + (i.bytes.size + l)) % 0x10000000000000000 := by
    rw [toNat_cursor, Nat.mod_add_mod, Nat.add_assoc]
  have hne (hn : 0 < n) : n ≠ 0 := (UInt64.ne_of_lt hn).symm
  refine ⟨fun turns j => ⟨fun h => h.unique (loop_align i n), ?_⟩, rfl, toList_append i _, ?_,
    fun hn => padding_lt hn _, fun hn => ?_, fun hn l hl => ?_, ?_⟩
  · rintro ⟨rfl, rfl⟩
    exact loop_align i n
  · rintro rfl
    exact padding_zero _
  · rw [← hcursor]
    exact dvd_padding (hne hn) _
  · rw [← hcursor] at hl
    exact Nat.not_lt.1 fun hlt => not_dvd_of_lt_padding hlt hl
  · rw [align, toNat_cursor_append, List.length_replicate, hcursor]

/-- Three bytes below the end of the address space, the next multiple of ten is zero. -/
example : padding 0xfffffffffffffffd 10 = 3 := by decide

end TypeMetadata.Image
