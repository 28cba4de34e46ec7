import TypeMetadata.Emit.Metadata
import TypeMetadata.Emit.Nominal
import TypeMetadata.Proofs.ByteStore
import TypeMetadata.Proofs.GenericTypes
import TypeMetadata.Proofs.LoadedImage
import TypeMetadata.Proofs.Materialization
import TypeMetadata.Reflection.Initializer

/-!
# What an initializer is called with

`Initializer.Outcome` is the calling convention. With the wrong number of arguments there is no
call. Otherwise the arguments become words one after another, and the first that cannot decides
(`Refuses`, in the order of the checks); only when all have become words is the initializer called,
once and as the last call of all. What happens before that is the building of enum values, whose
calls have no context (`World.Builds`). `runOn_invoke_eq_iff` says that this is what `invoke` does.

That a struct or enum without a layout is a generic one holds of types that have been read
(`NominalType.WasRead`).
-/

namespace TypeMetadata

/-! ## Types that have been read -/

/-- A type without metadata is a generic one. -/
theorem TypeInfo.metadata_of_read {s : Settings} {d : NominalDescriptor} {w w' : World}
    {i : TypeInfo} (h : (TypeInfo.read s d).run w = (.ok i, w')) :
    i.metadata = none ↔ i.isGeneric = true := by
  obtain ⟨name, w₁, -, h⟩ := Inspect.run_bind_ok h
  obtain ⟨moduleName, w₂, -, h⟩ := Inspect.run_bind_ok h
  obtain ⟨metadata, w₃, hmetadata, h⟩ := Inspect.run_bind_ok h
  obtain ⟨fields?, w₄, -, h⟩ := Inspect.run_bind_ok h
  obtain ⟨w', w₅, -, h⟩ := Inspect.run_bind_ok h
  cases h
  change metadata = none ↔ d.isGeneric = true
  unfold requestMetadata at hmetadata
  split at hmetadata
  · rename_i hgeneric
    cases hmetadata
    simp [hgeneric]
  · rename_i hgeneric
    obtain ⟨function, w₆, -, hmetadata⟩ := Inspect.run_bind_ok hmetadata
    obtain ⟨x, w₇, -, hmetadata⟩ := Inspect.run_bind_ok hmetadata
    cases hmetadata
    simp [hgeneric]

theorem ValueType.layout_of_read {s : Settings} {d : NominalDescriptor} {w w' : World}
    {t : ValueType} (h : (ValueType.read s d).run w = (.ok t, w')) :
    t.layout = none ↔ t.info.isGeneric = true := by
  obtain ⟨info, w₁, hi, h⟩ := Inspect.run_bind_ok h
  have hmetadata := TypeInfo.metadata_of_read hi
  split at h
  · rename_i hnone
    cases h
    simpa [layout, hnone] using hmetadata
  · rename_i a hsome
    obtain ⟨metadata, w₂, -, h⟩ := Inspect.run_bind_ok h
    obtain ⟨witnesses, w₃, -, h⟩ := Inspect.run_bind_ok h
    cases h
    simpa [layout, hsome] using hmetadata

namespace NominalType

/-- The type was read at some time. What has become known of its methods, of the values of its
cases or of its conformances since then does not matter. -/
def WasRead (t : NominalType) : Prop :=
  ∃ s a w t₀ w', (NominalType.read s a).run w = (.ok t₀, w') ∧ t.info = t₀.info ∧
    t.valueType? = t₀.valueType?

variable {t : NominalType}

theorem isClass_iff : t.isClass = true ↔ t.valueType? = none := by
  unfold isClass valueType?
  cases t.shape <;> simp

/-- The structs and enums without a layout are the generic ones. -/
theorem WasRead.layout_eq_none (h : t.WasRead) (hvalue : t.isClass = false) :
    t.layout = none ↔ t.info.isGeneric = true := by
  obtain ⟨s, a, w, t₀, w', hread, hinfo, htype⟩ := h
  have hclass : t₀.isClass = false := by
    rw [← Bool.not_eq_true, isClass_iff] at hvalue ⊢
    rwa [← htype]
  rw [hinfo, layout, htype, ← layout]
  obtain ⟨d, w₁, -, hread⟩ := Inspect.run_bind_ok hread
  cases d with
  | classType d =>
    obtain ⟨c, w₂, -, hread⟩ := Inspect.run_bind_ok hread
    cases hread
    cases hclass
  | structType d =>
    obtain ⟨t, w₂, hs, hread⟩ := Inspect.run_bind_ok hread
    obtain ⟨core, w₃, hc, hs⟩ := Inspect.run_bind_ok hs
    cases hs
    cases hread
    exact ValueType.layout_of_read hc
  | enumType d =>
    obtain ⟨t, w₂, he, hread⟩ := Inspect.run_bind_ok hread
    obtain ⟨core, w₃, hc, he⟩ := Inspect.run_bind_ok he
    obtain ⟨entries, w₄, -, he⟩ := Inspect.run_bind_ok he
    cases he
    cases hread
    exact ValueType.layout_of_read hc
  | moduleContext _ | protocolType _ | other _ => cases hread

end NominalType

/-! ## Calls on the way -/

theorem BuildStep.context_of_call? {s : BuildStep} {c : Call} (h : s.call? = some c) :
    c.context = none := by
  cases s with
  | store dest pointer => cases h
  | copy type dest source =>
    simp only [call?, bind, Option.bind_eq_some_iff] at h
    obtain ⟨_, _, _, _, h⟩ := h
    cases h
    rfl
  | inject type dest tag =>
    simp only [call?, bind, Option.bind_eq_some_iff] at h
    obtain ⟨_, _, _, _, _, _, h⟩ := h
    cases h
    rfl

namespace World

variable {w w' w'' : World}

/-- What has been called between `w` and `w'` are witnesses, to build enum values. An initializer
is not among them, it gets a context. -/
def Builds (w w' : World) : Prop :=
  ∃ made, w'.calls = made ++ w.calls ∧
    ∀ c ∈ made, c.context = none ∧ ∃ step : BuildStep, step.call? = some c

theorem Builds.of_calls (h : w'.calls = w.calls) : w.Builds w' :=
  ⟨[], h, List.forall_mem_nil _⟩

theorem Builds.trans (h : w.Builds w') (h' : w'.Builds w'') : w.Builds w'' := by
  obtain ⟨made, hmade, hsteps⟩ := h
  obtain ⟨made', hmade', hsteps'⟩ := h'
  refine ⟨made' ++ made, by rw [hmade', hmade, List.append_assoc], fun c hc => ?_⟩
  rcases List.mem_append.1 hc with hc | hc
  · exact hsteps' c hc
  · exact hsteps c hc

theorem builds_perform (s : BuildStep) (w : World) : w.Builds (s.perform.run w).2 := by
  refine ⟨_, s.calls_perform w, fun c hc => ?_⟩
  have hstep := Option.mem_toList.1 hc
  exact ⟨BuildStep.context_of_call? hstep, s, hstep⟩

theorem builds_performAll {ss : List BuildStep}
    (h : (BuildStep.performAll ss).run w = (.ok (), w')) : w.Builds w' := by
  refine ⟨_, BuildStep.calls_performAll h, fun c hc => ?_⟩
  obtain ⟨s, -, hs⟩ := List.mem_filterMap.1 (List.mem_reverse.1 hc)
  exact ⟨BuildStep.context_of_call? hs, s, hs⟩

theorem builds_mapM_allocateEnum {types : List ValueType} {bs : List Buffer}
    (h : (types.mapM ValueType.allocateEnum).run w = (.ok bs, w')) : w.Builds w' := by
  obtain ⟨⟨memory, rfl⟩, -⟩ := ValueType.of_mapM_allocateEnum h
  exact .of_calls rfl

/-- To give a value its place takes no other calls than those that build it. -/
theorem builds_settle (v : Value) (w : World) : w.Builds (v.settle w).2 := by
  have hattempt := v.settle_attempt w
  rcases hs : v.settle w with ⟨r, w'⟩
  rw [hs] at hattempt
  cases hattempt with
  | built room performed =>
    exact (builds_mapM_allocateEnum room).trans (builds_performAll performed)
  | @noRoom front back type bs w₁ w₂ e split room refusal =>
    have hcalls : w₂.calls = w₁.calls := by
      rcases type.run_allocateEnum w₁ with ⟨e', he⟩ | ⟨b, memory, hr, -⟩
      · rw [he] at refusal
        cases refusal
        rfl
      · rw [hr] at refusal
        cases refusal
    exact (builds_mapM_allocateEnum room).trans
      (.of_calls ((calls_releaseAll bs w₂).trans hcalls))
  | @stopped bs w₁ w₂ w₃ k copied rest step e room pos le short split performed failure =>
    have hstep := builds_perform step w₂
    rw [failure] at hstep
    exact (builds_mapM_allocateEnum room).trans ((builds_performAll performed).trans
      (hstep.trans (.of_calls (calls_releaseAll _ w₃))))

end World

namespace Initializer

variable {n : Nat} {i : Initializer} {lookup : String → Option NominalType} {index : Nat}
  {typeName : String} {arg : Argument n} {vs vs' : Vector Value n} {w w' : World} {word : UInt64}
  {t : NominalType} {slot : Fin n} {v : Value} {a : Address} {e : Error}

/-! ## The calling convention -/

/-- The value in `slot` is one of the type `t` that goes by `typeName`, and its place is `a`. What
has become of it on the way there is `v`. -/
structure Places (lookup : String → Option NominalType) (typeName : String) (slot : Fin n)
    (vs : Vector Value n) (w : World) (t : NominalType) (a : Address) (v : Value) (w' : World) :
    Prop where
  found : lookup typeName = some t
  sameType : (vs.get slot).typeName = t.qualifiedName
  place : (vs.get slot).settle w = ((.ok a, v), w')

/-- An argument becomes a word: a word that stands for an object or for at most eight bytes is
taken as it is, an object is its address, and another value is its bytes, with zeros behind them. -/
inductive BecomesWord (lookup : String → Option NominalType) (typeName : String) :
    Argument n → Vector Value n → World → UInt64 → Vector Value n → World → Prop where
  | word {t : NominalType} {vs : Vector Value n} {w : World} (x : UInt64)
    (found : lookup typeName = some t)
    (fits : t.isClass = true ∨ ∃ l, t.layout = some l ∧ l.size ≤ 8) :
    BecomesWord lookup typeName (.word x) vs w x vs w
  | object {slot : Fin n} {vs : Vector Value n} {w w' : World} {t : NominalType} {a : Address}
    {v : Value} (placed : Places lookup typeName slot vs w t a v w') (object : t.isClass = true) :
    BecomesWord lookup typeName (.value slot) vs w a.val (vs.set slot v slot.isLt) w'
  | bytes {slot : Fin n} {vs : Vector Value n} {w w' : World} {t : NominalType} {a : Address}
    {v : Value} {l : TypeLayout} {bs : List UInt8} {x : UInt64}
    (placed : Places lookup typeName slot vs w t a v w') (layout : t.layout = some l)
    (small : l.size ≤ 8) (reads : w'.memory.read a l.size.toNat = .ok bs)
    (word : bytesOf64 x = bs ++ List.replicate (8 - bs.length) 0) :
    BecomesWord lookup typeName (.value slot) vs w x (vs.set slot v slot.isLt) w'

/-- The argument at `index` does not become a word. Each reason is one that comes after all those
above it have been ruled out. -/
inductive Refuses (i : Initializer) (lookup : String → Option NominalType) (index : Nat)
    (typeName : String) :
    Argument n → Vector Value n → World → Error → Vector Value n → World → Prop where
  | unknown {arg : Argument n} {vs : Vector Value n} {w : World} (none : lookup typeName = none) :
    Refuses i lookup index typeName arg vs w (.unknownType typeName) vs w
  | word {t : NominalType} {vs : Vector Value n} {w : World} (x : UInt64)
    (found : lookup typeName = some t) (value : t.isClass = false)
    (unfit : t.info.isGeneric = true ∨ ∃ l, t.layout = some l ∧ 8 < l.size) :
    Refuses i lookup index typeName (.word x) vs w (i.mismatch index typeName "word") vs w
  | otherType {t : NominalType} {slot : Fin n} {vs : Vector Value n} {w : World}
    (found : lookup typeName = some t) (other : (vs.get slot).typeName ≠ t.qualifiedName) :
    Refuses i lookup index typeName (.value slot) vs w
      (i.mismatch index typeName (vs.get slot).typeName) vs w
  | noPlace {t : NominalType} {slot : Fin n} {vs : Vector Value n} {w w' : World} {e : Error}
    {v : Value} (found : lookup typeName = some t)
    (sameType : (vs.get slot).typeName = t.qualifiedName)
    (noPlace : (vs.get slot).settle w = ((.error e, v), w')) :
    Refuses i lookup index typeName (.value slot) vs w e (vs.set slot v slot.isLt) w'
  | generic {slot : Fin n} {vs : Vector Value n} {w w' : World} {t : NominalType} {a : Address}
    {v : Value} (placed : Places lookup typeName slot vs w t a v w') (value : t.isClass = false)
    (generic : t.info.isGeneric = true) :
    Refuses i lookup index typeName (.value slot) vs w
      (.precondition (.genericLayout t.qualifiedName)) (vs.set slot v slot.isLt) w'
  | large {slot : Fin n} {vs : Vector Value n} {w w' : World} {t : NominalType} {a : Address}
    {v : Value} {l : TypeLayout} (placed : Places lookup typeName slot vs w t a v w')
    (layout : t.layout = some l) (large : 8 < l.size) :
    Refuses i lookup index typeName (.value slot) vs w
      (.precondition (.unsupportedArgument i.selector index l.size)) (vs.set slot v slot.isLt) w'
  | unreadable {slot : Fin n} {vs : Vector Value n} {w w' : World} {t : NominalType} {a : Address}
    {v : Value} {l : TypeLayout} {e : MemoryError}
    (placed : Places lookup typeName slot vs w t a v w') (layout : t.layout = some l)
    (small : l.size ≤ 8) (unreadable : w'.memory.read a l.size.toNat = .error e) :
    Refuses i lookup index typeName (.value slot) vs w (.memory e) (vs.set slot v slot.isLt) w'

/-- Arguments become words one after another, each given with the name of its type. -/
inductive BecomeWords (lookup : String → Option NominalType) :
    List (String × Argument n) → Vector Value n → World → List UInt64 → Vector Value n → World →
      Prop where
  | nil (vs : Vector Value n) (w : World) : BecomeWords lookup [] vs w [] vs w
  | cons {typeName : String} {arg : Argument n} {args : List (String × Argument n)}
    {vs vs₁ vs' : Vector Value n} {w w₁ w' : World} {word : UInt64} {words : List UInt64}
    (first : BecomesWord lookup typeName arg vs w word vs₁ w₁)
    (rest : BecomeWords lookup args vs₁ w₁ words vs' w') :
    BecomeWords lookup ((typeName, arg) :: args) vs w (word :: words) vs' w'

/-- The call of the initializer with these words. -/
def callWith (i : Initializer) (words : List UInt64) : Call :=
  { function := i.address, args := words, context := some i.metadata }

/-- What an initializer that is asked for with `args` comes to: the answer, the values and the
world then. -/
inductive Outcome (i : Initializer) (lookup : String → Option NominalType)
    (args : List (Argument n)) (vs : Vector Value n) (w : World) :
    (Except Error ObjectReference × Vector Value n) × World → Prop where
  | arity (arity : args.length ≠ i.signature.arity) :
    Outcome i lookup args vs w ((.error (.precondition
      (.arityMismatch i.selector i.signature.arity args.length)), vs), w)
  | refused {before after : List (String × Argument n)} {typeName : String} {arg : Argument n}
    {words : List UInt64} {vs₁ vs₂ : Vector Value n} {w₁ w₂ : World} {e : Error}
    (arity : args.length = i.signature.arity)
    (split : i.signature.argTypeNames.zip args = before ++ (typeName, arg) :: after)
    (become : BecomeWords lookup before vs w words vs₁ w₁)
    (refused : Refuses i lookup before.length typeName arg vs₁ w₁ e vs₂ w₂)
    (builds : w.Builds w₂) :
    Outcome i lookup args vs w ((.error e, vs₂), w₂)
  | called {words : List UInt64} {vs' : Vector Value n} {w' : World}
    (arity : args.length = i.signature.arity)
    (become : BecomeWords lookup (i.signature.argTypeNames.zip args) vs w words vs' w')
    (builds : w.Builds w') :
    Outcome i lookup args vs w
      ((((w'.invoke (i.callWith words)).1.mapError Error.call).map
        fun object => ⟨⟨object⟩, i.metadata, i.className⟩, vs'), (w'.invoke (i.callWith words)).2)

/-! ## One argument -/

theorem acceptsWord_iff : Argument.acceptsWord t = true ↔
    t.isClass = true ∨ ∃ l, t.layout = some l ∧ l.size ≤ 8 := by
  unfold Argument.acceptsWord
  rw [Bool.or_eq_true]
  refine or_congr_right ?_
  rcases t.layout with _ | l
  · simp
  · have hsize : decide (l.size ≤ Argument.wordSize) = true ↔ l.size ≤ 8 := decide_eq_true_iff
    simpa using hsize

theorem not_acceptsWord_iff (h : t.WasRead) : Argument.acceptsWord t ≠ true ↔
    t.isClass = false ∧ (t.info.isGeneric = true ∨ ∃ l, t.layout = some l ∧ 8 < l.size) := by
  rw [ne_eq, acceptsWord_iff, not_or, Bool.not_eq_true]
  refine and_congr_right fun hvalue => ?_
  rw [← h.layout_eq_none hvalue]
  rcases t.layout with _ | l <;> simp

/-- The word for a value of type `t` whose place is `a`. -/
def wordFor (i : Initializer) (index : Nat) (t : NominalType) (a : Address) : Decoder UInt64 :=
  if t.isClass then pure a.val
  else match t.layout with
    | none => throw (.precondition (.genericLayout t.qualifiedName))
    | some l =>
      if 8 < l.size then throw (.precondition (.unsupportedArgument i.selector index l.size))
      else Argument.wordAt a l.size

theorem runOn_argumentWord_otherType (other : (vs.get slot).typeName ≠ t.qualifiedName) :
    (i.argumentWord index typeName t (.value slot)).runOn vs w =
      ((.error (i.mismatch index typeName (vs.get slot).typeName), vs), w) := by
  have hother : vs[slot].typeName ≠ t.qualifiedName := other
  rw [argumentWord, InspectOn.runOn_bind, InspectOn.runOn_current]
  simp only
  rw [if_pos hother]
  rfl

theorem runOn_argumentWord_sameType (sameType : (vs.get slot).typeName = t.qualifiedName)
    {r : Except Error UInt64} (h : (i.valueWord index t).runOn (vs.get slot) w = ((r, v), w')) :
    (i.argumentWord index typeName t (.value slot)).runOn vs w =
      ((r, vs.set slot v slot.isLt), w') := by
  have hsame : vs[slot].typeName = t.qualifiedName := sameType
  have hrun : (i.valueWord index t).runOn vs[slot] w = ((r, v), w') := h
  rw [argumentWord, InspectOn.runOn_bind, InspectOn.runOn_current]
  simp only
  rw [if_neg (not_not.2 hsame), InspectOn.runOn_onPart, hrun]

theorem runOn_argumentWord_noPlace (sameType : (vs.get slot).typeName = t.qualifiedName)
    (noPlace : (vs.get slot).settle w = ((.error e, v), w')) :
    (i.argumentWord index typeName t (.value slot)).runOn vs w =
      ((.error e, vs.set slot v slot.isLt), w') := by
  refine runOn_argumentWord_sameType sameType ?_
  rw [valueWord, InspectOn.runOn_bind, Value.runOn_address, noPlace]

theorem runOn_argumentWord_placed (h : Places lookup typeName slot vs w t a v w') :
    (i.argumentWord index typeName t (.value slot)).runOn vs w =
      ((w'.decode (i.wordFor index t a), vs.set slot v slot.isLt), w') := by
  refine runOn_argumentWord_sameType h.sameType ?_
  unfold valueWord wordFor
  rw [InspectOn.runOn_bind, Value.runOn_address, h.place]
  simp only
  split
  · rfl
  · rcases t.layout with _ | l
    · rfl
    · change (if 8 < l.size then _
        else InspectOn.lift (Inspect.decode (Argument.wordAt a l.size)) :
          InspectOn Value UInt64).runOn v w' = _
      by_cases hsize : 8 < l.size
      · simp only [if_pos hsize]
        rfl
      · simp only [if_neg hsize]
        rw [InspectOn.runOn_lift, Inspect.run_decode]

theorem isClass_of_layout {l : TypeLayout} (layout : t.layout = some l) : t.isClass = false := by
  rw [← Bool.not_eq_true, NominalType.isClass_iff]
  intro hnone
  rw [NominalType.layout, hnone] at layout
  cases layout

theorem wordFor_of_object (object : t.isClass = true) :
    w.decode (i.wordFor index t a) = .ok a.val := by
  unfold wordFor
  rw [if_pos object]
  rfl

theorem wordFor_of_generic (value : t.isClass = false) (layout : t.layout = none) :
    w.decode (i.wordFor index t a) = .error (.precondition (.genericLayout t.qualifiedName)) := by
  unfold wordFor
  simp only [value, layout]
  rfl

theorem wordFor_of_large {l : TypeLayout} (layout : t.layout = some l) (large : 8 < l.size) :
    w.decode (i.wordFor index t a) =
      .error (.precondition (.unsupportedArgument i.selector index l.size)) := by
  unfold wordFor
  simp only [isClass_of_layout layout, layout, large]
  rfl

theorem wordFor_of_small {l : TypeLayout} (layout : t.layout = some l) (small : l.size ≤ 8) :
    w.decode (i.wordFor index t a) =
      (w.decode (Decoder.access fun m => m.read a l.size.toNat)).map fun bs =>
        .ofNat (Word.ofBytes bs) := by
  unfold wordFor
  simp only [isClass_of_layout layout, layout, UInt64.not_lt.2 small]
  unfold World.decode
  change (Decoder.access (fun m => m.read a l.size.toNat) w.memory >>= _) = _
  rcases Decoder.access (fun m => m.read a l.size.toNat) w.memory with e | bs <;> rfl

theorem length_le_of_read {m : Memory} {size : UInt64} {bs : List UInt8} (small : size ≤ 8)
    (reads : m.read a size.toNat = .ok bs) : bs.length ≤ 8 := by
  rw [Memory.length_of_read reads]
  exact UInt64.le_iff_toNat_le.1 small

theorem decode_wordFor_eq_ok_iff : w.decode (i.wordFor index t a) = .ok word ↔
    t.isClass = true ∧ word = a.val ∨ ∃ l bs, t.layout = some l ∧ l.size ≤ 8 ∧
      w.memory.read a l.size.toNat = .ok bs ∧
      bytesOf64 word = bs ++ List.replicate (8 - bs.length) 0 := by
  constructor
  · intro h
    rcases object : t.isClass with _ | _
    swap
    · rw [wordFor_of_object object] at h
      cases h
      exact .inl ⟨rfl, rfl⟩
    rcases layout : t.layout with _ | l
    · rw [wordFor_of_generic object layout] at h
      cases h
    by_cases large : 8 < l.size
    · rw [wordFor_of_large layout large] at h
      cases h
    have small : l.size ≤ 8 := UInt64.not_lt.1 large
    rw [wordFor_of_small layout small] at h
    rcases hbs : w.decode (Decoder.access fun m => m.read a l.size.toNat) with e | bs <;>
      rw [hbs] at h <;> cases h
    have reads := Decoder.access_eq_ok_iff.1 hbs
    exact .inr ⟨l, bs, rfl, small, reads,
      (bytesOf64_eq_append_zeros_iff (length_le_of_read small reads)).2 rfl⟩
  · rintro (⟨object, rfl⟩ | ⟨l, bs, layout, small, reads, hword⟩)
    · exact wordFor_of_object object
    · have hbs : w.decode (Decoder.access fun m => m.read a l.size.toNat) = .ok bs :=
        Decoder.access_eq_ok_iff.2 reads
      rw [wordFor_of_small layout small, hbs,
        (bytesOf64_eq_append_zeros_iff (length_le_of_read small reads)).1 hword]
      rfl

theorem BecomesWord.runOn_argumentWord (h : BecomesWord lookup typeName arg vs w word vs' w')
    (i : Initializer) (index : Nat) : ∃ t, lookup typeName = some t ∧
      (i.argumentWord index typeName t arg).runOn vs w = ((.ok word, vs'), w') := by
  cases h with
  | word _ found fits =>
    refine ⟨_, found, ?_⟩
    rw [argumentWord, if_pos (acceptsWord_iff.2 fits)]
    rfl
  | object placed object =>
    refine ⟨_, placed.found, ?_⟩
    rw [runOn_argumentWord_placed placed, decode_wordFor_eq_ok_iff.2 (.inl ⟨object, rfl⟩)]
  | bytes placed layout small reads hword =>
    refine ⟨_, placed.found, ?_⟩
    rw [runOn_argumentWord_placed placed,
      decode_wordFor_eq_ok_iff.2 (.inr ⟨_, _, layout, small, reads, hword⟩)]

theorem Refuses.runOn_argumentWord (known : ∀ name t, lookup name = some t → t.WasRead)
    (h : Refuses i lookup index typeName arg vs w e vs' w') (found : lookup typeName = some t) :
    (i.argumentWord index typeName t arg).runOn vs w = ((.error e, vs'), w') := by
  have hread := known _ _ found
  cases h with
  | unknown none =>
    rw [none] at found
    cases found
  | word _ found' value unfit =>
    cases found.symm.trans found'
    rw [argumentWord, if_neg ((not_acceptsWord_iff hread).2 ⟨value, unfit⟩)]
    rfl
  | otherType found' other =>
    cases found.symm.trans found'
    exact runOn_argumentWord_otherType other
  | noPlace found' sameType noPlace =>
    cases found.symm.trans found'
    exact runOn_argumentWord_noPlace sameType noPlace
  | generic placed value generic =>
    cases found.symm.trans placed.found
    have layout := (hread.layout_eq_none value).2 generic
    rw [runOn_argumentWord_placed placed, wordFor_of_generic value layout]
  | large placed layout large =>
    cases found.symm.trans placed.found
    rw [runOn_argumentWord_placed placed, wordFor_of_large layout large]
  | @unreadable _ _ _ _ _ a v l e placed layout small unreadable =>
    cases found.symm.trans placed.found
    have hunreadable : w'.decode (Decoder.access fun m => m.read a l.size.toNat)
        = .error (.memory e) := Decoder.access_eq_error_iff.2 ⟨e, unreadable, rfl⟩
    rw [runOn_argumentWord_placed placed, wordFor_of_small layout small, hunreadable]
    rfl

/-- Every argument either becomes a word or is refused. -/
theorem becomesWord_or_refuses (known : ∀ name t, lookup name = some t → t.WasRead)
    (i : Initializer) (index : Nat) (typeName : String) (arg : Argument n) (vs : Vector Value n)
    (w : World) : (∃ word vs' w', BecomesWord lookup typeName arg vs w word vs' w') ∨
      ∃ e vs' w', Refuses i lookup index typeName arg vs w e vs' w' := by
  rcases found : lookup typeName with _ | t
  · exact .inr ⟨_, _, _, .unknown found⟩
  cases arg with
  | word x =>
    by_cases haccepts : Argument.acceptsWord t = true
    · exact .inl ⟨x, vs, w, .word x found (acceptsWord_iff.1 haccepts)⟩
    · obtain ⟨value, unfit⟩ := (not_acceptsWord_iff (known _ _ found)).1 haccepts
      exact .inr ⟨_, vs, w, .word x found value unfit⟩
  | value slot =>
    by_cases sameType : (vs.get slot).typeName = t.qualifiedName
    swap
    · exact .inr ⟨_, vs, w, .otherType found sameType⟩
    rcases place : (vs.get slot).settle w with ⟨⟨e | a, v⟩, w'⟩
    · exact .inr ⟨e, _, w', .noPlace found sameType place⟩
    have placed : Places lookup typeName slot vs w t a v w' := ⟨found, sameType, place⟩
    rcases object : t.isClass with _ | _
    swap
    · exact .inl ⟨_, _, w', .object placed object⟩
    rcases layout : t.layout with _ | l
    · have generic := ((known _ _ found).layout_eq_none object).1 layout
      exact .inr ⟨_, _, w', .generic placed object generic⟩
    by_cases large : 8 < l.size
    · exact .inr ⟨_, _, w', .large placed layout large⟩
    have small : l.size ≤ 8 := UInt64.not_lt.1 large
    rcases reads : w'.memory.read a l.size.toNat with e | bs
    · exact .inr ⟨_, _, w', .unreadable placed layout small reads⟩
    exact .inl ⟨_, _, w', .bytes placed layout small reads
      ((bytesOf64_eq_append_zeros_iff (length_le_of_read small reads)).2 rfl)⟩

theorem BecomesWord.builds (h : BecomesWord lookup typeName arg vs w word vs' w') :
    w.Builds w' := by
  cases h with
  | word => exact .of_calls rfl
  | @object slot _ _ _ _ _ _ placed _ | @bytes slot _ _ _ _ _ _ _ _ _ placed _ _ _ _ =>
    have hsettle := World.builds_settle (vs.get slot) w
    rwa [placed.place] at hsettle

theorem Refuses.builds (h : Refuses i lookup index typeName arg vs w e vs' w') : w.Builds w' := by
  cases h with
  | unknown | word | otherType => exact .of_calls rfl
  | @noPlace _ slot _ _ _ _ _ _ _ place =>
    have hsettle := World.builds_settle (vs.get slot) w
    rwa [place] at hsettle
  | @generic slot _ _ _ _ _ _ placed _ _ | @large slot _ _ _ _ _ _ _ placed _ _
  | @unreadable slot _ _ _ _ _ _ _ _ placed _ _ _ =>
    have hsettle := World.builds_settle (vs.get slot) w
    rwa [placed.place] at hsettle

/-! ## One argument after another -/

section Arguments

variable {args before after : List (String × Argument n)} {words : List UInt64}
  {vs₁ : Vector Value n} {w₁ : World}

theorem BecomesWord.runOn_argumentWords (h : BecomesWord lookup typeName arg vs w word vs' w')
    (i : Initializer) (index : Nat) (typeNames : List String) (args : List (Argument n)) :
    (i.argumentWords lookup index (typeName :: typeNames) (arg :: args)).runOn vs w =
      (do return word :: (← i.argumentWords lookup (index + 1) typeNames args) :
        InspectOn (Vector Value n) (List UInt64)).runOn vs' w' := by
  obtain ⟨t, found, hword⟩ := h.runOn_argumentWord i index
  rw [argumentWords, found]
  simp only
  rw [InspectOn.runOn_bind, hword]

theorem Refuses.runOn_argumentWords (known : ∀ name t, lookup name = some t → t.WasRead)
    (h : Refuses i lookup index typeName arg vs w e vs' w') (typeNames : List String)
    (args : List (Argument n)) :
    (i.argumentWords lookup index (typeName :: typeNames) (arg :: args)).runOn vs w =
      ((.error e, vs'), w') := by
  rw [argumentWords]
  rcases found : lookup typeName with _ | t
  · cases h with
    | unknown => rfl
    | word _ found' | otherType found' | noPlace found' =>
      cases found.symm.trans found'
    | generic placed | large placed | unreadable placed =>
      cases found.symm.trans placed.found
  · simp only
    rw [InspectOn.runOn_bind, h.runOn_argumentWord known found]

theorem BecomeWords.runOn_append (h : BecomeWords lookup before vs w words vs₁ w₁)
    (i : Initializer) (index : Nat) (args : List (String × Argument n)) :
    (i.argumentWords lookup index ((before ++ args).map Prod.fst)
        ((before ++ args).map Prod.snd)).runOn vs w =
      (do return words ++ (← i.argumentWords lookup (index + before.length) (args.map Prod.fst)
          (args.map Prod.snd)) : InspectOn (Vector Value n) (List UInt64)).runOn vs₁ w₁ := by
  induction h generalizing index with
  | nil =>
    simp
  | @cons typeName arg before vs vs₁ vs' w w₁ w' word words first rest ih =>
    have hrest := ih (index + 1)
    rw [List.cons_append, List.map_cons, List.map_cons, first.runOn_argumentWords,
      InspectOn.runOn_bind, hrest, InspectOn.runOn_bind, InspectOn.runOn_bind, List.length_cons,
      Nat.add_right_comm, ← Nat.add_assoc]
    rcases (i.argumentWords lookup _ _ _).runOn vs' w' with ⟨⟨e | ws, vs''⟩, w''⟩ <;> rfl

theorem BecomeWords.builds (h : BecomeWords lookup args vs w words vs' w') : w.Builds w' := by
  induction h with
  | nil => exact .of_calls rfl
  | cons first _ ih => exact first.builds.trans ih

/-- Either all arguments become words, or a first one is refused. -/
theorem becomeWords_or_refuses (known : ∀ name t, lookup name = some t → t.WasRead)
    (i : Initializer) (index : Nat) (args : List (String × Argument n)) (vs : Vector Value n)
    (w : World) : (∃ words vs' w', BecomeWords lookup args vs w words vs' w') ∨
      ∃ before typeName arg after words vs₁ w₁ e vs' w',
        args = before ++ (typeName, arg) :: after ∧ BecomeWords lookup before vs w words vs₁ w₁ ∧
          Refuses i lookup (index + before.length) typeName arg vs₁ w₁ e vs' w' := by
  induction args generalizing index vs w with
  | nil => exact .inl ⟨[], vs, w, .nil vs w⟩
  | cons arg args ih =>
    obtain ⟨typeName, arg⟩ := arg
    rcases becomesWord_or_refuses known i index typeName arg vs w with
      ⟨word, vs₁, w₁, first⟩ | ⟨e, vs', w', refused⟩
    · rcases ih (index + 1) vs₁ w₁ with ⟨words, vs', w', rest⟩ |
        ⟨before, typeName', arg', after, words, vs₂, w₂, e, vs', w', rfl, rest, refused⟩
      · exact .inl ⟨_, vs', w', .cons first rest⟩
      · refine .inr ⟨(typeName, arg) :: before, typeName', arg', after, word :: words, vs₂, w₂, e,
          vs', w', rfl, .cons first rest, ?_⟩
        rwa [List.length_cons, Nat.add_comm before.length, ← Nat.add_assoc]
    · exact .inr ⟨[], typeName, arg, args, [], vs, w, e, vs', w', rfl, .nil vs w, refused⟩

end Arguments

/-! ## The call -/

section Calls

variable {args : List (Argument n)}
  {r : (Except Error ObjectReference × Vector Value n) × World}

/-- With the right number of arguments each of them is looked at with the name of its type. -/
theorem runOn_invoke_of_arity (arity : args.length = i.signature.arity)
    (lookup : String → Option NominalType) (vs : Vector Value n) (w : World) :
    (i.invoke lookup args).runOn vs w = (do
      let words ← i.argumentWords lookup 0 ((i.signature.argTypeNames.zip args).map Prod.fst)
        ((i.signature.argTypeNames.zip args).map Prod.snd)
      let object ← Inspect.call (i.callWith words)
      return ⟨⟨object⟩, i.metadata, i.className⟩ :
        InspectOn (Vector Value n) ObjectReference).runOn vs w := by
  have hlength : i.signature.argTypeNames.length = args.length := by
    rw [Signature.argTypeNames, List.length_map, arity, Signature.arity]
  rw [List.map_fst_zip (Nat.le_of_eq hlength), List.map_snd_zip (Nat.le_of_eq hlength.symm)]
  unfold invoke
  rw [if_neg (not_not.2 arity)]
  rfl

theorem Outcome.runOn_invoke (known : ∀ name t, lookup name = some t → t.WasRead)
    (h : i.Outcome lookup args vs w r) : (i.invoke lookup args).runOn vs w = r := by
  cases h with
  | arity arity =>
    unfold invoke
    rw [if_pos arity]
    rfl
  | refused arity split become refused _ =>
    rw [runOn_invoke_of_arity arity, split, InspectOn.runOn_bind, become.runOn_append,
      InspectOn.runOn_bind, Nat.zero_add, List.map_cons, List.map_cons,
      refused.runOn_argumentWords known]
  | @called words vs' w' arity become _ =>
    have hwords := become.runOn_append i 0 []
    rw [List.append_nil] at hwords
    rw [runOn_invoke_of_arity arity, InspectOn.runOn_bind, hwords]
    change (InspectOn.lift (Inspect.call (i.callWith (words ++ []))) >>= _ :
      InspectOn (Vector Value n) ObjectReference).runOn vs' w' = _
    rw [List.append_nil, InspectOn.runOn_bind, InspectOn.runOn_lift, Inspect.run_call]
    rcases (w'.invoke (i.callWith words)).1 with e | object <;> rfl

theorem exists_outcome (known : ∀ name t, lookup name = some t → t.WasRead) (i : Initializer)
    (args : List (Argument n)) (vs : Vector Value n) (w : World) :
    ∃ r, i.Outcome lookup args vs w r := by
  by_cases arity : args.length = i.signature.arity
  swap
  · exact ⟨_, .arity arity⟩
  rcases becomeWords_or_refuses known i 0 (i.signature.argTypeNames.zip args) vs w with
    ⟨words, vs', w', become⟩ |
      ⟨before, typeName, arg, after, words, vs₁, w₁, e, vs', w', split, become, refused⟩
  · exact ⟨_, .called arity become become.builds⟩
  · rw [Nat.zero_add] at refused
    exact ⟨_, .refused arity split become refused (become.builds.trans refused.builds)⟩

/-- An initializer that is asked for with `args` comes to just what the calling convention says,
whatever types are known, as long as they were read. -/
theorem runOn_invoke_eq_iff (i : Initializer) (lookup : String → Option NominalType)
    (known : ∀ name t, lookup name = some t → t.WasRead) (args : List (Argument n))
    (vs : Vector Value n) (w : World)
    (r : (Except Error ObjectReference × Vector Value n) × World) :
    (i.invoke lookup args).runOn vs w = r ↔ i.Outcome lookup args vs w r := by
  constructor
  · rintro rfl
    obtain ⟨r, hr⟩ := exists_outcome known i args vs w
    rwa [hr.runOn_invoke known]
  · exact Outcome.runOn_invoke known

end Calls

end Initializer

/-- Structs of these sizes in one module, with one name. Their access functions stand one behind
another. -/
def Emit.namesakes (sizes : List UInt64) : Build Unit := do
  let parent ← moduleContext "m"
  sizes.zipIdx.forM fun size => do
    let _ ← valueMetadata { kind := .structType, layout := .plain size.1 }
    let accessFunction := some ⟨0x8010 + 16 * .ofNat size.2⟩
    let _ ← structType { name := "S", parent, accessFunction } 0 0

/-- A process with such structs. -/
def World.withNamesakes (sizes : List UInt64) (functions : Array NativeFunction) : World :=
  { World.showing (Emit.namesakes sizes) with functions := ⟨⟨0x8000⟩, functions⟩ }

namespace Initializer

/-- An initializer for two values of one type. -/
def ofPair (typeName : String) : Initializer where
  signature :=
    { context := some "m.C", baseName := "init"
      parameters := [⟨some "x", typeName⟩, ⟨none, typeName⟩], returnTypeName := "m.C" }
  address := ⟨0x8000⟩
  metadata := ⟨0x9000⟩
  className := "m.C"

/-- The types of a process in which there is just this one. -/
def only (t : NominalType) (name : String) : Option NominalType :=
  if name = t.qualifiedName then some t else none

theorem known_only {t : NominalType} (h : t.WasRead) (name : String) (t' : NominalType)
    (found : only t name = some t') : t'.WasRead := by
  unfold only at found
  split at found <;> cases found
  exact h

/-- The initializer is called with seven, and the two bytes at `0x100C`. -/
def callPair (t : NominalType) (v : ValueType) (w : World) :
    (Except Error ObjectReference × Vector Value 1) × World :=
  ((ofPair "m.S").invoke (only t) [.word 7, .value 0]).runOn #v[.struct v (.view ⟨0x100C⟩ 2)] w

/-- A word, and a struct of two bytes. -/
theorem runOn_invoke_eq_iff_pair :
    ∃ t w v r, (NominalType.read {} ⟨0x1080⟩).run
        (.withNamesakes [2] #[StandIn.sum, StandIn.const 0x1070]) = (.ok t, w) ∧
      t.valueType? = some v ∧
      (ofPair "m.S").Outcome (only t) [.word 7, .value 0] #v[.struct v (.view ⟨0x100C⟩ 2)] w r ∧
      r.1.1 = .ok ⟨⟨0x74⟩, ⟨0x9000⟩, "m.C"⟩ ∧
      r.2.calls = [⟨⟨0x8000⟩, [0x07, 0x6D], some ⟨0x9000⟩⟩, ⟨⟨0x8010⟩, [], none⟩] := by
  obtain ⟨t, w, hread, hanswers⟩ := Inspect.exists_of_any (x := NominalType.read {} ⟨0x1080⟩)
    (w := .withNamesakes [2] #[StandIn.sum, StandIn.const 0x1070])
    (p := fun r => r.1.valueType?.any fun v =>
      decide ((callPair r.1 v r.2).1.1 = .ok ⟨⟨0x74⟩, ⟨0x9000⟩, "m.C"⟩) &&
        decide ((callPair r.1 v r.2).2.calls =
          [⟨⟨0x8000⟩, [0x07, 0x6D], some ⟨0x9000⟩⟩, ⟨⟨0x8010⟩, [], none⟩]))
    (by decide +kernel)
  obtain ⟨v, hv, hrun⟩ := (Option.any_eq_true _ _).1 hanswers
  rw [Bool.and_eq_true, decide_eq_true_iff, decide_eq_true_iff] at hrun
  have known := known_only ⟨_, _, _, t, w, hread, rfl, rfl⟩
  exact ⟨t, w, v, _, hread, hv, (runOn_invoke_eq_iff _ _ known _ _ _ _).1 rfl, hrun.1, hrun.2⟩

end Initializer

end TypeMetadata
