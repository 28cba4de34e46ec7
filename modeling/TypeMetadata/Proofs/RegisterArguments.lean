import TypeMetadata.Proofs.InitializerCalls
import TypeMetadata.Proofs.RegistryGrowth

/-!
# Values in registers

How many bytes of a value are passed is a matter of the type that the registry has under the name of
the value's type. As types stay under their names (`grows_after`), that is the value's own type if
it was ever registered, and then all its bytes are in the word (`values_in_registers`). Where
another type had taken the name before, the layouts need not agree: of a larger value only the first
bytes are passed (`not_values_in_registers`).
-/

namespace TypeMetadata

/-! ## The type and the place of a value -/

namespace Value

variable {v v' : Value} {w w' : World} {a : Address} {type : ValueType}

/-- What a struct or enum value was made as a value of; an object has no value type. -/
def valueType? : Value → Option ValueType
  | struct type _ | enum type _ _ => some type
  | object _ => none

theorem typeName_of_valueType? (h : v.valueType? = some type) :
    v.typeName = type.qualifiedName := by
  cases v <;> cases h <;> rfl

theorem valueType?_filled (v : Value) (bs : List Buffer) :
    (v.filled bs).valueType? = v.valueType? := by
  unfold filled
  split <;> rfl

theorem valueType?_settle (v : Value) (w : World) :
    (v.settle w).1.2.valueType? = v.valueType? := by
  have hattempt := v.settle_attempt w
  rcases hs : v.settle w with ⟨⟨r, v'⟩, w'⟩
  rw [hs] at hattempt
  cases hattempt with
  | built => exact valueType?_filled v _
  | noRoom => rfl
  | stopped =>
    simp only
    unfold filledInside
    split
    · exact valueType?_filled _ _
    · rfl
    · rfl

/-- The value is at `a`, in whatever world it is asked for that, and nothing happens then. -/
def IsAt (v : Value) (a : Address) : Prop := ∀ w, v.settle w = ((.ok a, v), w)

theorem isAt_of_settle (h : v.settle w = ((.ok a, v'), w')) : v'.IsAt a := by
  have hattempt := v.settle_attempt w
  rw [h] at hattempt
  cases hattempt with
  | built room =>
    have hlength := ValueType.length_of_mapM_allocateEnum room
    exact settle_of_pending (pending_filled v hlength)

end Value

/-- The word is the value of this size at `a`, with zeros behind it. -/
structure World.InRegister (w : World) (a : Address) (size word : UInt64) : Prop where
  small : size ≤ 8
  bytes : ∃ bs, w.memory.read a size.toNat = .ok bs ∧
    bytesOf64 word = bs ++ List.replicate (8 - bs.length) 0

namespace Initializer

variable {n : Nat} {i : Initializer} {lookup : String → Option NominalType} {index : Nat}
  {typeName : String} {arg : Argument n} {vs vs' : Vector Value n} {w w' : World} {word : UInt64}
  {words : List UInt64} {t : NominalType} {slot : Fin n} {a : Address}

/-! ## What has become a word -/

theorem becomesWord_of_ok (found : lookup typeName = some t)
    (h : (i.argumentWord index typeName t arg).runOn vs w = ((.ok word, vs'), w')) :
    BecomesWord lookup typeName arg vs w word vs' w' := by
  cases arg with
  | word x =>
    rw [argumentWord] at h
    split at h <;> cases h
    rename_i haccepts
    exact .word _ found (acceptsWord_iff.1 haccepts)
  | value slot =>
    by_cases sameType : (vs.get slot).typeName = t.qualifiedName
    swap
    · rw [runOn_argumentWord_otherType sameType] at h
      cases h
    rcases place : (vs.get slot).settle w with ⟨⟨e | a, v⟩, w₁⟩
    · rw [runOn_argumentWord_noPlace sameType place] at h
      cases h
    have placed : Places lookup typeName slot vs w t a v w₁ := ⟨found, sameType, place⟩
    rw [runOn_argumentWord_placed placed] at h
    obtain ⟨hanswer, rfl⟩ := Prod.mk.inj h
    obtain ⟨hword, rfl⟩ := Prod.mk.inj hanswer
    rcases decode_wordFor_eq_ok_iff.1 hword with ⟨object, rfl⟩ |
      ⟨l, bs, layout, small, reads, hbytes⟩
    · exact .object placed object
    · exact .bytes placed layout small reads hbytes

theorem becomeWords_of_ok {args : List (String × Argument n)}
    (h : (i.argumentWords lookup index (args.map Prod.fst) (args.map Prod.snd)).runOn vs w =
      ((.ok words, vs'), w')) : BecomeWords lookup args vs w words vs' w' := by
  induction args generalizing index vs w words with
  | nil =>
    cases h
    exact .nil _ _
  | cons arg args ih =>
    obtain ⟨typeName, arg⟩ := arg
    rw [List.map_cons, List.map_cons, argumentWords] at h
    rcases found : lookup typeName with _ | t <;> rw [found] at h
    · cases h
    simp only at h
    rw [InspectOn.runOn_bind] at h
    rcases hfirst : (i.argumentWord index typeName t arg).runOn vs w with ⟨⟨e | word, vs₁⟩, w₁⟩ <;>
      rw [hfirst] at h
    · cases h
    simp only at h
    rw [InspectOn.runOn_bind] at h
    rcases hrest : (i.argumentWords lookup (index + 1) (args.map Prod.fst)
      (args.map Prod.snd)).runOn vs₁ w₁ with ⟨⟨e | words, vs₂⟩, w₂⟩ <;> rw [hrest] at h <;> cases h
    exact .cons (becomesWord_of_ok found hfirst) (ih hrest)

/-- With an answer all arguments have become words, and the call with them is the last that was
made. -/
theorem becomeWords_of_invoke {args : List (Argument n)} {object : ObjectReference}
    (h : (i.invoke lookup args).runOn vs w = ((.ok object, vs'), w')) :
    args.length = i.signature.arity ∧ ∃ words w₁,
      BecomeWords lookup (i.signature.argTypeNames.zip args) vs w words vs' w₁ ∧
      w'.calls = i.callWith words :: w₁.calls := by
  by_cases arity : args.length = i.signature.arity
  swap
  · unfold invoke at h
    rw [if_pos arity] at h
    cases h
  refine ⟨arity, ?_⟩
  rw [runOn_invoke_of_arity arity, InspectOn.runOn_bind] at h
  rcases hwords : (i.argumentWords lookup 0 ((i.signature.argTypeNames.zip args).map Prod.fst)
    ((i.signature.argTypeNames.zip args).map Prod.snd)).runOn vs w with ⟨⟨e | words, vs₁⟩, w₁⟩ <;>
    rw [hwords] at h
  · cases h
  have hcall : (InspectOn.lift (Inspect.call (i.callWith words)) >>= fun object =>
      pure ⟨⟨object⟩, i.metadata, i.className⟩ :
        InspectOn (Vector Value n) ObjectReference).runOn vs₁ w₁ = ((.ok object, vs'), w') := h
  rw [InspectOn.runOn_bind, InspectOn.runOn_lift, Inspect.run_call] at hcall
  rcases hr : (w₁.invoke (i.callWith words)).1 with e | x <;> rw [hr] at hcall <;> cases hcall
  exact ⟨words, w₁, becomeWords_of_ok hwords, rfl⟩

/-! ## What has become of the values -/

theorem get_set_self (vs : Vector Value n) (slot : Fin n) (v : Value) :
    (vs.set slot v slot.isLt).get slot = v :=
  Vector.getElem_set_self slot.isLt

theorem get_set_of_ne (vs : Vector Value n) {slot slot' : Fin n} (h : slot' ≠ slot) (v : Value) :
    (vs.set slot' v slot'.isLt).get slot = vs.get slot :=
  Vector.getElem_set_ne slot'.isLt slot.isLt fun heq => h (Fin.ext heq)

/-- An argument leaves every value as it was, but for the one it may have given its place. -/
theorem BecomesWord.getElem_eq (h : BecomesWord lookup typeName arg vs w word vs' w')
    (slot : Fin n) : vs'.get slot = vs.get slot ∨
      arg = .value slot ∧ ∃ a, (vs.get slot).settle w = ((.ok a, vs'.get slot), w') := by
  cases h with
  | word => exact .inl rfl
  | @object slot' _ _ _ t a v placed | @bytes slot' _ _ _ t a v _ _ _ placed =>
    by_cases hslot : slot' = slot
    · subst hslot
      exact .inr ⟨rfl, a, by rw [get_set_self, placed.place]⟩
    · exact .inl (get_set_of_ne vs hslot v)

theorem BecomesWord.valueType?_getElem (h : BecomesWord lookup typeName arg vs w word vs' w')
    (slot : Fin n) : (vs'.get slot).valueType? = (vs.get slot).valueType? := by
  rcases h.getElem_eq slot with hsame | ⟨-, a, hsettle⟩
  · rw [hsame]
  · have htype := (vs.get slot).valueType?_settle w
    rwa [hsettle] at htype

theorem BecomeWords.getElem_of_isAt {args : List (String × Argument n)}
    (h : BecomeWords lookup args vs w words vs' w') (hslot : (vs.get slot).IsAt a) :
    vs'.get slot = vs.get slot := by
  induction h with
  | nil => rfl
  | @cons _ _ _ vs vs₁ vs' w w₁ w' _ _ first _ ih =>
    have hfirst : vs₁.get slot = vs.get slot := by
      rcases first.getElem_eq slot with hsame | ⟨-, b, hsettle⟩
      · exact hsame
      · rw [hslot w] at hsettle
        exact (Prod.mk.inj (Prod.mk.inj hsettle).1).2.symm
    rw [ih (hfirst ▸ hslot), hfirst]

/-- What a value of the type `t` at `a` is passed as. -/
inductive PassedAs (t : NominalType) (w : World) (a : Address) : UInt64 → Prop
  | object (object : t.isClass = true) : PassedAs t w a a.val
  | bytes {l : TypeLayout} {word : UInt64} (layout : t.layout = some l)
    (inRegister : w.InRegister a l.size word) : PassedAs t w a word

theorem BecomesWord.passedAs (h : BecomesWord lookup typeName (.value slot) vs w word vs' w') :
    ∃ t a, lookup typeName = some t ∧ (vs.get slot).typeName = t.qualifiedName ∧
      (vs'.get slot).IsAt a ∧ PassedAs t w' a word := by
  cases h with
  | object placed object =>
    refine ⟨_, _, placed.found, placed.sameType, ?_, .object object⟩
    rw [get_set_self]
    exact Value.isAt_of_settle placed.place
  | bytes placed layout small reads hword =>
    refine ⟨_, _, placed.found, placed.sameType, ?_, .bytes layout ⟨small, _, reads, hword⟩⟩
    rw [get_set_self]
    exact Value.isAt_of_settle placed.place

/-- Each value is passed as the type that its parameter's type name stands for has it. -/
theorem BecomeWords.passedAs {args : List (String × Argument n)} {k : Nat} {type : ValueType}
    (h : BecomeWords lookup args vs w words vs' w') (harg : args[k]? = some (typeName, .value slot))
    (htype : (vs.get slot).valueType? = some type) :
    ∃ t word a w₁, words[k]? = some word ∧ lookup typeName = some t ∧
      type.qualifiedName = t.qualifiedName ∧ (vs'.get slot).IsAt a ∧ w.Builds w₁ ∧
      PassedAs t w₁ a word := by
  induction h generalizing k with
  | nil => simp at harg
  | @cons typeName' arg args vs vs₁ vs' w w₁ w' word words first rest ih =>
    cases k with
    | zero =>
      cases harg
      obtain ⟨t, a, found, sameType, hat, passed⟩ := first.passedAs
      refine ⟨t, word, a, w₁, rfl, found, ?_, ?_, first.builds, passed⟩
      · rw [← sameType, Value.typeName_of_valueType? htype]
      · rwa [rest.getElem_of_isAt hat]
    | succ k =>
      rw [List.getElem?_cons_succ] at harg
      rw [← first.valueType?_getElem] at htype
      obtain ⟨t, word, a, w₂, hword, found, hname, hat, hbuilds, passed⟩ := ih harg htype
      exact ⟨t, word, a, w₂, hword, found, hname, hat, first.builds.trans hbuilds, passed⟩

theorem BecomeWords.length_eq {args : List (String × Argument n)}
    (h : BecomeWords lookup args vs w words vs' w') : words.length = args.length := by
  induction h with
  | nil => rfl
  | cons _ _ ih => simp [ih]

end Initializer

namespace Registry

theorem Consistent.grows_foldl {r : Registry} (hr : r.Consistent)
    (requests : List (World × Request)) :
    r.Grows (requests.foldl (fun r wq => r.next wq.1 wq.2) r) := by
  induction requests generalizing r with
  | nil => exact .refl hr
  | cons wq requests ih =>
    have hgrows := grows_next hr wq.1 wq.2
    exact hgrows.trans (ih hgrows.consistent)

theorem grows_after (s : Settings) (before later : List (World × Request)) :
    (after s before).Grows (after s (before ++ later)) := by
  have hgrows := (consistent_after s before).grows_foldl later
  rwa [after, ← List.foldl_append] at hgrows

/-- After some of the requests, or all, the type was the one that is registered under its name. -/
def Registered (s : Settings) (requests : List (World × Request)) (type : ValueType) : Prop :=
  ∃ before later t, requests = before ++ later ∧
    (after s before).typeNamed? type.qualifiedName = some t ∧ t.valueType? = some type

theorem Registered.valueType? {s : Settings} {requests : List (World × Request)}
    {type : ValueType} {t : NominalType} (h : Registered s requests type)
    (ht : (after s requests).typeNamed? type.qualifiedName = some t) :
    t.valueType? = some type := by
  obtain ⟨before, later, t₀, rfl, ht₀, htype⟩ := h
  obtain ⟨t', ht', hshape⟩ := (grows_after s before later).typeNamed? ht₀
  cases ht.symm.trans ht'
  rw [← htype, NominalType.valueType?, NominalType.valueType?, hshape]

/-- Whatever was asked of the registry by which the types of the parameters are looked up: when an
initializer answers, it has been called with a word for each argument, and for a value of a struct
or enum that is, as far as the type now registered under the name of its type goes, the value with
zeros behind it, or where it is if that type is a class. If its own type is the one with the name,
or ever was, then it takes at most eight bytes and all of them are in the word. -/
theorem values_in_registers {n : Nat} (s : Settings) (requests : List (World × Request))
    (i : Initializer) (args : List (Argument n)) (vs vs' : Vector Value n) (w w' : World)
    (object : ObjectReference)
    (answers : (i.invoke (after s requests).typeNamed? args).runOn vs w =
      ((.ok object, vs'), w')) :
    ∃ words, w'.calls.head? = some (i.callWith words) ∧ words.length = args.length ∧
      ∀ (k : Nat) (slot : Fin n) (type : ValueType), args[k]? = some (.value slot) →
        (vs.get slot).valueType? = some type →
          ∃ t word a w₁, (after s requests).typeNamed? type.qualifiedName = some t ∧
            words[k]? = some word ∧ (vs'.get slot).IsAt a ∧ w.Builds w₁ ∧
            Initializer.PassedAs t w₁ a word ∧
            (Registered s requests type →
              ∃ l, type.layout = some l ∧ w₁.InRegister a l.size word) := by
  obtain ⟨arity, words, w₂, become, hcalls⟩ := Initializer.becomeWords_of_invoke answers
  have hlength : i.signature.argTypeNames.length = args.length := by
    rw [Signature.argTypeNames, List.length_map, arity, Signature.arity]
  refine ⟨words, by rw [hcalls]; rfl, ?_, fun k slot type harg htype => ?_⟩
  · rw [become.length_eq, List.length_zip, hlength, Nat.min_self]
  obtain ⟨hk, -⟩ := List.getElem?_eq_some_iff.1 harg
  have hzip : (i.signature.argTypeNames.zip args)[k]? =
      some (i.signature.argTypeNames[k], .value slot) :=
    List.getElem?_zip_eq_some.2 ⟨List.getElem?_eq_getElem (hlength ▸ hk), harg⟩
  obtain ⟨t, word, a, w₁, hword, found, hqualified, hat, hbuilds, passed⟩ :=
    become.passedAs hzip htype
  have ht : (after s requests).typeNamed? type.qualifiedName = some t := by
    rw [hqualified, (consistent_after s requests).qualifiedName_eq found, found]
  refine ⟨t, word, a, w₁, ht, hword, hat, hbuilds, passed, fun registered => ?_⟩
  have hown := registered.valueType? ht
  cases passed with
  | object object =>
    rw [NominalType.isClass_iff, hown] at object
    cases object
  | @bytes l _ layout inRegister =>
    rw [NominalType.layout, hown] at layout
    exact ⟨l, layout, inRegister⟩

/-- A process with two structs, of eight bytes and of sixteen, and one name for both. -/
def withShadowed : World :=
  .withNamesakes [8, 16] #[StandIn.sum, StandIn.const 0x1070, StandIn.const 0x1100]

/-- The one of eight bytes is registered. -/
def registeringSmall : List (World × Request) := [(withShadowed, .type ⟨0x1080⟩)]

/-- A call with one value twice, of sixteen bytes or of the first eight of them. -/
def callWithShadowed (type : ValueType) (w : World) :
    (Except Error ObjectReference × Vector Value 1) × World :=
  ((Initializer.ofPair "m.S").invoke (after {} registeringSmall).typeNamed?
    (.replicate 2 (.value (.last 0)))).runOn (.singleton (.struct type (.view ⟨0x100C⟩ 16))) w

theorem exists_runOn_callWithShadowed {type : ValueType} {w : World}
    (h : (callWithShadowed type w).1.1.toOption.isSome = true) :
    ∃ object, callWithShadowed type w =
      ((.ok object, (callWithShadowed type w).1.2), (callWithShadowed type w).2) := by
  unfold callWithShadowed at h ⊢
  generalize (Initializer.invoke _ _ _).runOn _ w = r at h
  obtain ⟨⟨e | object, vs⟩, w'⟩ := r
  · cases h
  · exact ⟨object, rfl⟩

/-- Of the registered struct all eight bytes are passed. -/
theorem values_in_registers_small :
    ∃ (type : ValueType) (words : List UInt64) (word : UInt64) (a : Address) (w₁ : World)
      (l : TypeLayout), Registered {} registeringSmall type ∧
      (callWithShadowed type withShadowed).2.calls.head?
        = some ((Initializer.ofPair "m.S").callWith words) ∧
      words[1]? = some word ∧ type.layout = some l ∧ w₁.InRegister a l.size word := by
  have hrun : ((after {} registeringSmall).typeNamed? "m.S").any (fun t =>
      t.valueType?.any fun (type : ValueType) => decide (type.qualifiedName = "m.S") &&
        (callWithShadowed type withShadowed).1.1.toOption.isSome) = true := by decide +kernel
  obtain ⟨t, ht, hrun⟩ := (Option.any_eq_true _ _).1 hrun
  obtain ⟨type, htype, hrun⟩ := (Option.any_eq_true _ _).1 hrun
  rw [Bool.and_eq_true, decide_eq_true_iff] at hrun
  obtain ⟨object, answers⟩ := exists_runOn_callWithShadowed hrun.2
  have registered : Registered {} registeringSmall type :=
    ⟨registeringSmall, [], t, rfl, hrun.1 ▸ ht, htype⟩
  obtain ⟨words, hcalls, -, hwords⟩ := values_in_registers {} registeringSmall (.ofPair "m.S")
    (.replicate 2 (.value (.last 0))) (.singleton (.struct type (.view ⟨0x100C⟩ 16))) _ _ _
    object answers
  obtain ⟨-, word, a, w₁, -, hword, -, -, -, hown⟩ := hwords 1 0 type rfl rfl
  obtain ⟨l, layout, inRegister⟩ := hown registered
  exact ⟨type, words, word, a, w₁, l, registered, hcalls, hword, layout, inRegister⟩

/-- A value of sixteen bytes is passed, too. -/
theorem not_values_in_registers :
    ¬∀ (n : Nat) (s : Settings) (requests : List (World × Request)) (i : Initializer)
      (args : List (Argument n)) (vs vs' : Vector Value n) (w w' : World)
      (object : ObjectReference),
      (i.invoke (after s requests).typeNamed? args).runOn vs w = ((.ok object, vs'), w') →
      ∀ (k : Nat) (slot : Fin n) (type : ValueType), args[k]? = some (.value slot) →
        (vs.get slot).valueType? = some type → ∃ l, type.layout = some l ∧ l.size ≤ 8 := by
  intro h
  obtain ⟨t, w, -, hshown⟩ := Inspect.exists_of_any (x := NominalType.read {} ⟨0x1110⟩)
    (w := withShadowed)
    (p := fun r => r.1.valueType?.any fun (type : ValueType) =>
      decide (type.layout.map TypeLayout.size = some (16 : UInt64)) &&
        (callWithShadowed type r.2).1.1.toOption.isSome)
    (by decide +kernel)
  obtain ⟨type, -, hshown⟩ := (Option.any_eq_true _ _).1 hshown
  rw [Bool.and_eq_true, decide_eq_true_iff] at hshown
  obtain ⟨hsize, hanswers⟩ := hshown
  obtain ⟨object, answers⟩ := exists_runOn_callWithShadowed hanswers
  obtain ⟨l, layout, small⟩ := h 1 {} registeringSmall (.ofPair "m.S")
    (.replicate 2 (.value (.last 0))) (.singleton (.struct type (.view ⟨0x100C⟩ 16))) _ w _
    object answers 0 0 type rfl rfl
  rw [layout, Option.map_some, Option.some_inj] at hsize
  rw [hsize] at small
  exact absurd small (by decide)

end Registry

end TypeMetadata
