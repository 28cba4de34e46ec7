import TypeMetadata.Proofs.ByteStore
import TypeMetadata.Proofs.EnumCases
import TypeMetadata.Proofs.Readings

/-!
# Readings that stay

Two changes leave alone what is read of records. More memory may be mapped: every answer stays, and
every failure but that of bytes that are not mapped (`Reading.decode_within`). And limits may be
raised: every answer stays, and every failure but those that a limit makes
(`Reading.decode_of_le`). Both are `Reading.follows`, with what is excused in each.
-/

namespace TypeMetadata

/-! ## More memory -/

namespace Memory

/-- What is read in `m`, a byte or several at once, is read in `m'`, too. -/
def Within (m m' : Memory) : Prop :=
  ∀ a n bs, 0 < n → m.read a n = .ok bs → m'.read a n = .ok bs

variable {m m' : Memory}

theorem read_eq_error {a : Address} {n : Nat} {e : MemoryError} (h : m.read a n = .error e) :
    e = .unmapped a n := by
  unfold read at h
  rcases hl : m.locate a n with e' | p <;> rw [hl] at h
  · cases h
    exact locate_eq_error hl
  · cases h

/-- To map a region that begins in none of those that are mapped takes nothing away. -/
theorem within_map {b : Address} (bytes : Array UInt8)
    (h : ∀ r ∈ m.regions.entries, b < r.base ∨ r.finish ≤ b.toNat) :
    m.Within (m.map b bytes) := by
  intro a n bs hn hread
  obtain ⟨r, hr, hs, rfl⟩ := of_read_ok hread
  obtain ⟨hmem, hle, hmax⟩ := RegionMap.below?_eq_some_iff.1 hr
  -- what is read lies in `r`, so `b` lies before it or behind the first byte that is read
  have hapart : b < r.base ∨ ¬b ≤ a := by
    refine (h r hmem).imp_right fun hfinish hba => ?_
    have hspan := hs.2
    rw [Address.le_iff_toNat_le] at hba
    omega
  refine read_of_spans (RegionMap.below?_eq_some_iff.2 ⟨?_, hle, fun s hsm hsa => ?_⟩) hs
  · refine RegionMap.mem_insert.2 (.inr ⟨hmem, fun hbase : r.base = b => ?_⟩)
    subst hbase
    exact hapart.elim (UInt64.lt_irrefl _) fun hba => hba hle
  · rcases RegionMap.mem_insert.1 hsm with rfl | ⟨hsm, -⟩
    · exact UInt64.le_of_lt (hapart.resolve_right fun hba => hba hsa)
    · exact hmax s hsm hsa

end Memory

/-- Bytes were not there. -/
def Error.IsUnmapped (e : Error) : Prop := ∃ a n, e = .memory (.unmapped a n)

/-- What failed is a read of bytes that `m` does not have. -/
def Memory.Lacks (m : Memory) (e : Error) : Prop :=
  ∃ a n, e = .memory (.unmapped a n) ∧ ∀ bs, m.read a n ≠ .ok bs

theorem Widening.of_within {m m' : Memory} (h : m.Within m') (limits : Limits) :
    Widening m.Lacks m m' limits limits where
  read a n hn := by
    rcases hr : m.read a n with e | bs
    · refine .error ⟨a, n, congrArg Error.memory (Memory.read_eq_error hr), fun bs hbs => ?_⟩ rfl
      cases hr.symm.trans hbs
    · exact .inr (h a n bs hn hr)
  nameLength := .inl rfl
  vtableSize := .inl rfl
  fields := .inl rfl
  contextDepth := .inl rfl

/-- Whatever is read of the records in memory stays as it is when more is mapped, answer or failure,
unless it fails for bytes that are not mapped. -/
theorem Reading.decode_within {α : Type} {m m' : Memory} (h : m.Within m') (limits : Limits)
    (q : Reading α) :
    (∀ x, q.decode limits m = .ok x → q.decode limits m' = .ok x) ∧
      ∀ e, q.decode limits m = .error e → ¬e.IsUnmapped → q.decode limits m' = .error e := by
  obtain ⟨hok, herror⟩ := (q.follows (.of_within h limits)).settled
  refine ⟨hok, fun e he hmapped => herror e he ?_⟩
  rintro ⟨a, n, hunmapped, -⟩
  exact hmapped ⟨a, n, hunmapped⟩

/-- An enum of two cases that declares three. -/
def Emit.shortEnum : Build Address :=
  genericEnum [{ name := "a", mangledType := some "Si" }, { name := "b" }] 1 2

/-- A byte that is mapped far away changes neither the name of an enum's module nor what is wrong
with its cases. -/
theorem Reading.decode_within_enum :
    let m := (World.showing Emit.shortEnum).memory
    let m' := m.map ⟨0x3000⟩ #[7]
    let d : EnumDescriptor := ⟨⟨⟨⟨0x1040⟩, ⟨0xD2⟩, .enumType⟩⟩⟩
    m.Within m' ∧
      ((moduleName d.toContext).decode {} m = .ok "m" ∧
        (moduleName d.toContext).decode {} m' = .ok "m") ∧
      ((listedCases d true).decode {} m = .error (.decode (.enumCaseMismatch d.address 1 1 1 2)) ∧
        (listedCases d true).decode {} m' =
          .error (.decode (.enumCaseMismatch d.address 1 1 1 2))) := by
  intro m m' d
  have hwithin : m.Within m' := Memory.within_map _ (by decide +kernel)
  have hname : (moduleName d.toContext).decode {} m = .ok "m" := by decide +kernel
  have hcases : (listedCases d true).decode {} m =
      .error (.decode (.enumCaseMismatch d.address 1 1 1 2)) := by decide +kernel
  exact ⟨hwithin, ⟨hname, (Reading.decode_within hwithin {} _).1 _ hname⟩,
    hcases, (Reading.decode_within hwithin {} _).2 _ hcases (by rintro ⟨a, n, h⟩; cases h)⟩

/-! ## Higher limits -/

/-- Each limit is at most its counterpart. -/
instance : LE Limits := ⟨fun l l' => l.nameLength ≤ l'.nameLength ∧ l.vtableSize ≤ l'.vtableSize ∧
  l.fields ≤ l'.fields ∧ l.contextDepth ≤ l'.contextDepth⟩

instance (l l' : Limits) : Decidable (l ≤ l') :=
  inferInstanceAs (Decidable (_ ∧ _))

/-- A limit was exceeded. -/
def Error.IsLimit : Error → Prop
  | .decode (.unterminatedString ..) | .decode (.vtableTooLarge ..) | .decode (.tooManyFields ..)
  | .decode (.missingModule ..) => True
  | _ => False

theorem Widening.of_le {l l' : Limits} (h : l ≤ l') (m : Memory) :
    Widening Error.IsLimit m m l l' where
  read _ _ _ := .refl _
  nameLength := (Nat.eq_or_lt_of_le h.1).imp Eq.symm fun hlt => ⟨hlt, fun _ => trivial⟩
  vtableSize := .inr ⟨h.2.1, fun _ _ => trivial⟩
  fields := .inr ⟨h.2.2.1, fun _ _ => trivial⟩
  contextDepth := (Nat.eq_or_lt_of_le h.2.2.2).imp Eq.symm fun hlt => ⟨hlt, fun _ => trivial⟩

/-- Limits only reject: with higher ones every answer is the same, and so is every failure that no
limit made. -/
theorem Reading.decode_of_le {α : Type} {l l' : Limits} (h : l ≤ l') (m : Memory)
    (q : Reading α) :
    (∀ x, q.decode l m = .ok x → q.decode l' m = .ok x) ∧
      ∀ e, q.decode l m = .error e → ¬e.IsLimit → q.decode l' m = .error e :=
  (q.follows (.of_le h m)).settled

/-- Limits that the enum's records just keep within allow what the usual ones allow. -/
theorem Reading.decode_of_le_enum :
    let m := (World.showing Emit.shortEnum).memory
    let l : Limits := { nameLength := 2, vtableSize := 0, fields := 2, contextDepth := 1 }
    let d : EnumDescriptor := ⟨⟨⟨⟨0x1040⟩, ⟨0xD2⟩, .enumType⟩⟩⟩
    l ≤ {} ∧
      ((moduleName d.toContext).decode l m = .ok "m" ∧
        (moduleName d.toContext).decode {} m = .ok "m") ∧
      ((listedCases d true).decode l m = .error (.decode (.enumCaseMismatch d.address 1 1 1 2)) ∧
        (listedCases d true).decode {} m =
          .error (.decode (.enumCaseMismatch d.address 1 1 1 2))) := by
  intro m l d
  have hle : l ≤ {} := by decide
  have hname : (moduleName d.toContext).decode l m = .ok "m" := by decide +kernel
  have hcases : (listedCases d true).decode l m =
      .error (.decode (.enumCaseMismatch d.address 1 1 1 2)) := by decide +kernel
  exact ⟨hle, ⟨hname, (Reading.decode_of_le hle m _).1 _ hname⟩,
    hcases, (Reading.decode_of_le hle m _).2 _ hcases id⟩

end TypeMetadata
