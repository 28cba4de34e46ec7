/-!
# Blank characters

The characters that Unicode counts as white space, and texts without them at their ends.
`trim_eq_nil_iff` says that trimming leaves nothing exactly of a text that is blank throughout.
-/

namespace TypeMetadata.Text

/-- First and last code points of the runs of white space, in ascending order. -/
def blankRuns : List (Nat × Nat) :=
  [(0x9, 0xD), (0x20, 0x20), (0x85, 0x85), (0xA0, 0xA0), (0x1680, 0x1680), (0x2000, 0x200A),
    (0x2028, 0x2029), (0x202F, 0x202F), (0x205F, 0x205F), (0x3000, 0x3000)]

/-- Whether `c` is white space. -/
def isBlank (c : Char) : Bool :=
  blankRuns.any fun (first, last) => first ≤ c.toNat && c.toNat ≤ last

/-- What follows the white space that `cs` starts with. -/
def dropBlanks (cs : List Char) : List Char := cs.dropWhile isBlank

/-- `cs` without the white space at its ends. -/
def trim (cs : List Char) : List Char := (dropBlanks (dropBlanks cs).reverse).reverse

theorem trim_cons_space (cs : List Char) : trim (' ' :: cs) = trim cs := by
  have hdrop : dropBlanks (' ' :: cs) = dropBlanks cs := List.dropWhile_cons_of_pos (by decide)
  rw [trim, hdrop, trim]

theorem mem_of_mem_dropBlanks {c : Char} {cs : List Char} (h : c ∈ dropBlanks cs) : c ∈ cs :=
  (List.dropWhile_suffix _).subset h

theorem mem_of_mem_trim {c : Char} {cs : List Char} (h : c ∈ trim cs) : c ∈ cs :=
  mem_of_mem_dropBlanks (List.mem_reverse.1 (mem_of_mem_dropBlanks (List.mem_reverse.1 h)))

theorem dropBlanks_eq_nil_iff {cs : List Char} :
    dropBlanks cs = [] ↔ ∀ c ∈ cs, isBlank c = true := by
  induction cs with
  | nil => simp [dropBlanks]
  | cons c cs ih =>
    by_cases h : isBlank c = true
    · have : dropBlanks (c :: cs) = dropBlanks cs := by simp [dropBlanks, h]
      simp [this, ih, h]
    · simp [dropBlanks, h]

theorem trim_eq_nil_iff {cs : List Char} : trim cs = [] ↔ ∀ c ∈ cs, isBlank c = true := by
  induction cs with
  | nil => simp [trim, dropBlanks]
  | cons c cs ih =>
    by_cases h : isBlank c = true
    · have : trim (c :: cs) = trim cs := by simp [trim, dropBlanks, h]
      simp [this, ih, h]
    · have : dropBlanks (c :: cs) = c :: cs := by simp [dropBlanks, h]
      simp [trim, this, dropBlanks_eq_nil_iff, h]

end TypeMetadata.Text
