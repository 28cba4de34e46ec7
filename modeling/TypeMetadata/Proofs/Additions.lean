import TypeMetadata.Proofs.LayingInPlace

/-!
# What a layout adds

An emitter patches nothing but the record that it lays out itself, and so it only adds to the image,
even if it fails half way. `Laying.Adds` says so of a layout, together with what is known of its
answer, and there is a rule for each way in which layouts are made; `Image.Fresh` keeps track of how
much of a record has been laid out. A layout that does not patch at all (`Laying.Quiet`) needs none
of that. As addresses wrap, all this holds as long as the image ends within the address space.
-/

namespace TypeMetadata

/-- The `len` bytes at `a` lie behind `i`, among the first `n`. -/
def Image.Fresh (i : Image) (len : Nat) (a : Address) (n : Nat) : Prop :=
  ∃ k, i.bytes.size ≤ k ∧ a = i.addressAt k ∧ k + len ≤ n

namespace Image.Fresh

variable {i : Image} {len n n' : Nat} {a : Address}

theorem mono (h : i.Fresh len a n) (hn : n ≤ n') : i.Fresh len a n' := by
  obtain ⟨k, hk, ha, hroom⟩ := h
  exact ⟨k, hk, ha, Nat.le_trans hroom hn⟩

theorem extend {c : Nat} (h : i.Fresh len a n) (hn : n + c ≤ n') : i.Fresh (len + c) a n' := by
  obtain ⟨k, hk, ha, hroom⟩ := h
  exact ⟨k, hk, ha, by omega⟩

theorem take {l : Nat} (h : i.Fresh len a n) (hl : l ≤ len) : i.Fresh l a n := by
  obtain ⟨k, hk, ha, hroom⟩ := h
  exact ⟨k, hk, ha, by omega⟩

theorem part {c : UInt64} {l : Nat} (h : i.Fresh len a n) (hc : c.toNat + l ≤ len) :
    i.Fresh l (a + c) n := by
  obtain ⟨k, hk, rfl, hroom⟩ := h
  exact ⟨k + c.toNat, by omega, addressAt_add i k rfl, by omega⟩

end Image.Fresh

namespace Laying

variable {α β : Type} {x y : Build α} {f : α → Build β}

/-! ## Additions -/

/-- From `n` bytes on, `l` only adds to what has grown from `i`, whether or not it goes through,
and `Q` holds of its answer and of the size it leaves. -/
def Adds (l : Laying x) (i : Image) (n : Nat) (Q : α → Nat → Prop) : Prop :=
  ∀ ⦃j r j'⦄, Image.Grown i j → n ≤ j.bytes.size → l.inPlace.runOn j = (r, j') → j'.Fits →
    Image.Grown i j' ∧ ∀ a, r = .ok a → Q a j'.bytes.size

section Rules

variable {i : Image} {n len : Nat} {P Q : α → Nat → Prop} {R : β → Nat → Prop} {l : Laying x}
  {a : Address} {bs : List UInt8}

theorem Adds.mono (h : l.Adds i n P) (hQ : ∀ a n', n ≤ n' → P a n' → Q a n') : l.Adds i n Q := by
  intro j r j' hgrown hn hrun hfits
  obtain ⟨hgrown', hP⟩ := h hgrown hn hrun hfits
  exact ⟨hgrown', fun a ha => hQ a _ (Nat.le_trans hn (base_and_size hrun).2) (hP a ha)⟩

/-- What has been laid out already stays where it is. -/
theorem Adds.keep {start : Address} (h : l.Adds i n P) (hs : i.Fresh len start n) :
    l.Adds i n fun _ n' => i.Fresh len start n' :=
  h.mono fun _ _ hn _ => hs.mono hn

theorem Adds.pure {a : α} (h : ∀ n', n ≤ n' → Q a n') : (pure a).Adds i n Q := by
  intro j r j' hgrown hn hrun hfits
  cases hrun
  refine ⟨hgrown, fun b hb => ?_⟩
  cases hb
  exact h _ hn

theorem Adds.bind {first : Laying x} {rest : ∀ a, Laying (f a)} (h : first.Adds i n P)
    (hrest : ∀ a n', n ≤ n' → P a n' → (rest a).Adds i n' R) : (first.bind rest).Adds i n R := by
  intro j r j' hgrown hn hrun hfits
  rcases hfirst : first.inPlace.runOn j with ⟨e | a, j₁⟩
  · cases hrun.symm.trans (InPlace.runOn_bind_error hfirst)
    exact ⟨(h hgrown hn hfirst hfits).1, nofun⟩
  · have hrun' := (InPlace.runOn_bind_ok hfirst).symm.trans hrun
    obtain ⟨hgrown₁, hP⟩ := h hgrown hn hfirst (fits_of_run hrun' hfits)
    exact hrest a _ (Nat.le_trans hn (base_and_size hfirst).2) (hP a rfl) hgrown₁ (Nat.le_refl _)
      hrun' hfits

theorem Adds.answer {g : α → β} (h : l.Adds i n P) :
    (l.bind fun a => .pure (g a)).Adds i n fun _ _ => True :=
  h.bind fun _ _ _ _ => .pure fun _ _ => trivial

theorem Adds.answer_fresh {start : Address} (h : l.Adds i n P) (hs : i.Fresh len start n) :
    (l.bind fun _ => .pure start).Adds i n fun a n' => i.Fresh len a n' :=
  (h.keep hs).bind fun _ _ _ hs' => .pure fun _ => hs'.mono

theorem Adds.push (bs : List UInt8) :
    (call (.push bs)).Adds i n fun a n' => n + bs.length ≤ n' ∧ i.Fresh bs.length a n' := by
  intro j r j' hgrown hn hrun hfits
  cases hrun
  refine ⟨hgrown.trans (Image.frame_append j bs 0 0), fun a ha => ?_⟩
  cases ha
  rw [Image.size_append]
  exact ⟨Nat.add_le_add_right hn _, j.bytes.size, hgrown.size, hgrown.addressAt _, Nat.le_refl _⟩

/-- A patch of what has been laid out since leaves alone what stood before. -/
theorem Adds.of_patch? {c : BuilderCall α} (hc : c.patch? = some (a, bs)) (hbs : bs ≠ [])
    (ha : i.Fresh bs.length a n) : (call c).Adds i n fun _ _ => True := by
  intro j r j' hgrown hn hrun hfits
  refine ⟨?_, fun _ _ => trivial⟩
  rcases BuilderCall.runOn_of_patch? hc j with ⟨x, l, hrun', hpatch⟩ | ⟨e, hrun'⟩ <;>
    cases hrun.symm.trans hrun'
  · obtain ⟨k, hk, rfl, hroom⟩ := ha
    have hpos := List.length_pos_iff.2 hbs
    -- the address names the same byte, as the image has only grown
    rw [← hgrown.addressAt] at hpatch
    exact hgrown.patch (Image.frame_patch hpatch hfits (by omega)).1 hk
  · exact hgrown

theorem Adds.cast (h : x = y) (hl : l.Adds i n P) : (h ▸ l : Laying y).Adds i n P := by
  subst h
  exact hl

theorem Adds.forM {f : α → Build PUnit} {each : ∀ a, Laying (f a)} {xs : List α}
    (h : ∀ x ∈ xs, ∀ n', n ≤ n' → (each x).Adds i n' fun _ _ => True) :
    (forM each xs).Adds i n fun _ _ => True := by
  induction xs generalizing n with
  | nil => exact .pure fun _ _ => trivial
  | cons x xs ih =>
    refine (h x List.mem_cons_self n (Nat.le_refl n)).bind fun _ n' hn _ => ih fun y hy m hm => ?_
    exact h y (List.mem_cons_of_mem x hy) m (Nat.le_trans hn hm)

theorem Adds.mapM {each : ∀ a, Laying (f a)} {xs : List α}
    (h : ∀ x ∈ xs, ∀ n', n ≤ n' → (each x).Adds i n' R)
    (hR : ∀ b n' n'', n' ≤ n'' → R b n' → R b n'') :
    (mapM each xs).Adds i n fun bs n' => ∀ b ∈ bs, R b n' := by
  induction xs generalizing n with
  | nil => exact .pure fun _ _ => nofun
  | cons x xs ih =>
    refine .cast _ ((h x List.mem_cons_self n (Nat.le_refl n)).bind fun b n₁ hn hb => ?_)
    refine (ih fun y hy m hm => ?_).bind fun bs n₂ hn₂ hbs => .pure fun n₃ hn₃ => ?_
    · exact h y (List.mem_cons_of_mem x hy) m (Nat.le_trans hn hm)
    · refine List.forall_mem_cons.2 ⟨hR b n₁ n₃ (Nat.le_trans hn₂ hn₃) hb, fun c hc => ?_⟩
      exact hR c n₂ n₃ hn₃ (hbs c hc)

end Rules

/-- No call of the layout is a patch. -/
def Quiet {α : Type} {x : Build α} : Laying x → Prop
  | pure _ => True
  | call c => c.patch? = none
  | bind first rest => first.Quiet ∧ ∀ a, (rest a).Quiet

theorem Quiet.adds {l : Laying x} (h : l.Quiet) {i : Image} {n : Nat} :
    l.Adds i n fun _ _ => True := by
  induction l generalizing n with
  | pure a => exact .pure fun _ _ => trivial
  | call c =>
    intro j r j' hgrown hn hrun hfits
    obtain ⟨x, bs, hrun'⟩ := BuilderCall.runOn_of_patch?_none h j
    cases hrun.symm.trans hrun'
    exact ⟨hgrown.trans (Image.frame_append j bs 0 0), fun _ _ => trivial⟩
  | bind first rest ihFirst ihRest =>
    exact (ihFirst h.1).bind fun a n' _ _ => ihRest a (h.2 a)

theorem quiet_ite {c : Prop} [Decidable c] {t : Laying x} {e : Laying y} (ht : t.Quiet)
    (he : e.Quiet) : (ite (c := c) t e).Quiet := by
  unfold ite
  split <;> assumption

theorem quiet_forM {f : α → Build PUnit} {each : ∀ a, Laying (f a)} (h : ∀ a, (each a).Quiet) :
    ∀ xs : List α, (forM each xs).Quiet
  | [] => trivial
  | x :: xs => ⟨h x, fun _ => quiet_forM h xs⟩

/-! ## Emitters -/

@[simp] theorem quiet_push (bs : List UInt8) : (push bs).Quiet := rfl

@[simp] theorem quiet_align (n : UInt64) : (align n).Quiet := rfl

@[simp] theorem quiet_word (n : UInt32) : (word n).Quiet := rfl

@[simp] theorem quiet_reserve (n : Nat) : (reserve n).Quiet := rfl

@[simp] theorem quiet_pointer (target : Address) : (pointer target).Quiet := ⟨rfl, fun _ => rfl⟩

theorem quiet_classWords (spec : ClassSpec) : (classWords spec).Quiet := by
  simp [classWords, Quiet]

theorem quiet_classParts (spec : ClassSpec) : (classParts spec).Quiet := by
  refine quiet_ite ?_ ?_ <;> simp [Quiet]

@[simp] theorem quiet_pointers (targets : List Address) : (pointers targets).Quiet := by
  refine quiet_forM (fun a => ?_) targets
  simp [Quiet]

@[simp] theorem quiet_words (ns : List UInt32) : (words ns).Quiet := by
  refine quiet_forM (fun n => ?_) ns
  simp [Quiet]

theorem quiet_valueMetadata (spec : ValueMetadataSpec) : (valueMetadata spec).Quiet := by
  unfold valueMetadata
  simp only [Quiet, quiet_push, quiet_word, quiet_pointer, quiet_pointers, true_and]
  intros
  generalize spec.enumWitnesses = witnesses
  cases witnesses <;> simp [Quiet]

section Emitters

variable {i : Image} {n len : Nat} {start : Address}

theorem adds_word (w : UInt32) : (word w).Adds i n fun a n' => i.Fresh 4 a n' :=
  (Adds.push (bytesOf32 w)).mono fun a n' _ h => by
    rw [← length_bytesOf32 w]
    exact h.2

/-- What is pushed next to a record belongs to it. -/
theorem adds_push_behind (h : i.Fresh len start n) (bs : List UInt8) :
    (push bs).Adds i n fun _ n' => i.Fresh (len + bs.length) start n' :=
  (Adds.push bs).mono fun _ _ _ hpush => h.extend hpush.1

theorem adds_word_behind (h : i.Fresh len start n) (w : UInt32) :
    (word w).Adds i n fun _ n' => i.Fresh (len + 4) start n' :=
  (adds_push_behind h (bytesOf32 w)).mono fun a n' _ h => by rwa [length_bytesOf32] at h

theorem adds_refer {a : Address} (h : i.Fresh 4 a n) (target : Option Address) :
    (refer a target).Adds i n fun _ _ => True :=
  Adds.of_patch? (c := .relative a (.direct target)) rfl (by simp [bytesOf32, Word.bytes])
    (by rwa [length_bytesOf32])

theorem adds_contextHeader (flags : ContextFlags) (parent : Option Address) :
    (contextHeader flags parent).Adds i n fun a n' => i.Fresh 8 a n' := by
  refine (quiet_align 4).adds.bind fun _ n₁ _ _ => (adds_word _).bind fun start n₂ _ h₁ => ?_
  refine (adds_word_behind h₁ 0).bind fun _ n₃ _ h₂ => ?_
  exact (adds_refer (h₂.part (by decide)) parent).answer_fresh h₂

theorem adds_textAt {a : Address} (h : i.Fresh 4 a n) (text : String) :
    (textAt a text).Adds i n fun _ _ => True := by
  refine ((Adds.push _).keep h).bind fun target n₁ _ h₁ => ?_
  exact (adds_refer h₁ (some target)).answer

theorem adds_nameAt {a : Address} (h : i.Fresh 4 a n) (name : String) :
    (nameAt a name).Adds i n fun _ _ => True :=
  (adds_textAt h name).answer

theorem adds_moduleContext (name : String) :
    (moduleContext name).Adds i n fun _ _ => True := by
  refine (adds_contextHeader _ none).bind fun start n₁ _ h₁ => ?_
  refine (adds_word_behind h₁ 0).bind fun _ n₂ _ h₂ => ?_
  exact (adds_nameAt (h₂.part (by decide)) name).answer

theorem adds_protocolType (name : String) (parent : Address) (numRequirements : UInt32)
    (classOnly : Bool) :
    (protocolType name parent numRequirements classOnly).Adds i n fun _ _ => True := by
  refine (adds_contextHeader _ (some parent)).bind fun start n₁ _ h₁ => ?_
  refine (adds_word_behind h₁ 0).bind fun _ n₂ _ h₂ => ?_
  refine (adds_word_behind h₂ 0).bind fun _ n₃ _ h₃ => ?_
  refine (adds_word_behind h₃ numRequirements).bind fun _ n₄ _ h₄ => ?_
  refine (adds_word_behind h₄ 0).bind fun _ n₅ _ h₅ => ?_
  refine (adds_word_behind h₅ 0).bind fun _ n₆ _ h₆ => ?_
  refine (adds_word_behind h₆ 0).bind fun _ n₇ _ h₇ => ?_
  exact (adds_nameAt (h₇.part (by decide)) name).answer

theorem adds_fieldRecord (recordSize : UInt16) (field : FieldSpec) :
    (fieldRecord recordSize field).Adds i n fun a n' => i.Fresh 12 a n' := by
  refine (adds_word _).bind fun start n₁ _ h₁ => ?_
  refine (adds_word_behind h₁ 0).bind fun _ n₂ _ h₂ => ?_
  refine (adds_word_behind h₂ 0).bind fun _ n₃ _ h₃ => ?_
  exact (quiet_reserve _).adds.answer_fresh h₃

theorem adds_fieldNames {a : Address} (h : i.Fresh 12 a n) (field : FieldSpec) :
    (fieldNames field a).Adds i n fun _ _ => True := by
  have hmangled : (optional (textAt (a + FieldRecord.mangledTypeNameOffset))
      field.mangledType).Adds i n fun _ _ => True := by
    rcases field.mangledType with _ | text
    · exact .pure fun _ _ => trivial
    · exact (adds_textAt (h.part (by decide)) text).answer
  refine (hmangled.keep h).bind fun _ n₁ _ h₁ => ?_
  exact (adds_nameAt (h₁.part (by decide)) field.name).answer

theorem adds_fieldDescriptor (kind : FieldKind) (fields : List FieldSpec) (recordSize : UInt16) :
    (fieldDescriptor kind fields recordSize).Adds i n fun _ _ => True := by
  refine (quiet_align 4).adds.bind fun _ n₁ _ _ => (quiet_word 0).adds.bind fun start n₂ _ _ => ?_
  refine (quiet_word 0).adds.bind fun _ n₃ _ _ => (quiet_push _).adds.bind fun _ n₄ _ _ => ?_
  refine (quiet_push _).adds.bind fun _ n₅ _ _ => (quiet_word _).adds.bind fun _ n₆ _ _ => ?_
  refine (Adds.mapM (fun field _ _ _ => adds_fieldRecord recordSize field)
    fun _ _ _ hn h => h.mono hn).bind fun records n₇ _ h₇ => ?_
  refine (Adds.mapM (R := fun _ _ => True) (fun p hp m hm => ?_) fun _ _ _ _ h => h).answer
  exact adds_fieldNames ((h₇ p.2 (List.of_mem_zip hp).2).mono hm) p.1

theorem adds_nominalHeader (kind : ContextKind) (spec : NominalSpec) (kindSpecific : UInt16) :
    (nominalHeader kind spec kindSpecific).Adds i n fun a n' => i.Fresh 20 a n' := by
  refine (adds_contextHeader _ (some spec.parent)).bind fun start n₁ _ h₁ => ?_
  refine (adds_word_behind h₁ 0).bind fun _ n₂ _ h₂ => ?_
  refine (adds_word_behind h₂ 0).bind fun _ n₃ _ h₃ => ?_
  refine (adds_word_behind h₃ 0).bind fun _ n₄ _ h₄ => ?_
  refine ((adds_refer (h₄.part (by decide)) spec.accessFunction).keep h₄).bind fun _ n₅ _ h₅ => ?_
  exact (adds_refer (h₅.part (by decide)) spec.fields).answer_fresh h₅

/-- Structs and enums end alike. -/
theorem adds_twoWords_name (h : i.Fresh 20 start n) (first second : UInt32) (name : String) :
    ((word first).bind fun _ => (word second).bind fun _ =>
      (nameAt (start + Context.nameOffset) name).bind fun _ => pure start).Adds i n
      fun _ _ => True := by
  refine (adds_word_behind h first).bind fun _ n₁ _ h₁ => ?_
  refine (adds_word_behind h₁ second).bind fun _ n₂ _ h₂ => ?_
  exact (adds_nameAt (h₂.part (by decide)) name).answer

theorem adds_structType (spec : NominalSpec) (numFields fieldOffsetVectorOffset : UInt32) :
    (structType spec numFields fieldOffsetVectorOffset).Adds i n fun _ _ => True :=
  (adds_nominalHeader _ spec 0).bind fun _ _ _ h => adds_twoWords_name h _ _ spec.name

theorem adds_enumType (spec : NominalSpec) (numPayloadCases numEmptyCases : UInt32) :
    (enumType spec numPayloadCases numEmptyCases).Adds i n fun _ _ => True :=
  (adds_nominalHeader _ spec 0).bind fun _ _ _ h => adds_twoWords_name h _ _ spec.name

theorem adds_methodSlot (method : MethodSpec) :
    (methodSlot method).Adds i n fun _ _ => True := by
  refine (adds_word _).bind fun start n₁ _ h₁ => (adds_word_behind h₁ 0).bind fun _ n₂ _ h₂ => ?_
  exact adds_refer (h₂.part (by decide)) method.implementation

theorem adds_vtable (methods : List MethodSpec) : (vtable methods).Adds i n fun _ _ => True := by
  refine (quiet_word _).adds.bind fun _ n₁ _ _ => (quiet_word _).adds.bind fun _ n₂ _ _ => ?_
  exact Adds.forM fun method _ _ _ => adds_methodSlot method

theorem adds_classType (spec : ClassSpec) : (classType spec).Adds i n fun _ _ => True := by
  refine (adds_nominalHeader _ spec.toNominalSpec _).bind fun start n₁ _ h₁ => ?_
  refine ((quiet_classWords spec).adds.keep h₁).bind fun _ n₂ _ h₂ => ?_
  refine ((quiet_classParts spec).adds.keep h₂).bind fun _ n₃ _ h₃ => ?_
  have hvtable : (whenSome vtable spec.methods).Adds i n₃ fun _ _ => True := by
    rcases spec.methods with _ | methods
    · exact .pure fun _ _ => trivial
    · exact adds_vtable methods
  refine (hvtable.keep h₃).bind fun _ n₄ _ h₄ => ?_
  exact (adds_nameAt (h₄.part (by decide)) spec.name).answer

theorem adds_pointer (target : Address) :
    (pointer target).Adds i n fun a n' => i.Fresh 8 a n' := by
  refine (quiet_align _).adds.bind fun _ n₁ _ _ => (Adds.push _).mono fun a n' _ h => ?_
  rw [← length_bytesOf64 target.val]
  exact h.2

theorem adds_classMetadata (description : Address) :
    (classMetadata description).Adds i n fun _ _ => True := by
  refine (adds_pointer .null).bind fun metadata n₁ _ h₁ => ?_
  have hself : (call (.patch metadata (bytesOf64 metadata.val))).Adds i n₁ fun _ _ => True :=
    Adds.of_patch? rfl (by simp [bytesOf64, Word.bytes]) (by rwa [length_bytesOf64])
  exact hself.bind fun _ n₂ _ _ => (quiet_pointer description).adds.answer

theorem adds_typeRecords (targets : List Address) :
    (typeRecords targets).Adds i n fun _ _ => True := by
  refine (quiet_align 4).adds.bind fun start n₁ _ _ => ?_
  refine (Adds.forM fun target _ m _ => ?_).answer
  exact (adds_word 0).bind fun entry n₂ _ h₂ => adds_refer h₂ (some target)

theorem adds_conformance (protocol type : Address) (witnessTable : Option Address) :
    (conformance protocol type witnessTable).Adds i n fun _ _ => True := by
  refine (quiet_align 4).adds.bind fun _ n₁ _ _ => (adds_word 0).bind fun start n₂ _ h₂ => ?_
  refine (adds_word_behind h₂ 0).bind fun _ n₃ _ h₃ => ?_
  refine (adds_word_behind h₃ 0).bind fun _ n₄ _ h₄ => ?_
  refine (adds_word_behind h₄ 0).bind fun _ n₅ _ h₅ => ?_
  refine ((adds_refer (h₅.take (by decide)) (some protocol)).keep h₅).bind fun _ n₆ _ h₆ => ?_
  refine ((adds_refer (h₆.part (by decide)) (some type)).keep h₆).bind fun _ n₇ _ h₇ => ?_
  exact (adds_refer (h₇.part (by decide)) witnessTable).answer

end Emitters

end Laying

end TypeMetadata
