import TypeMetadata.Native.StandIn
import TypeMetadata.Proofs.HeapLedger

/-!
# How nested enum values get their places

An enum value without a place, its payload, if that has none either, and so on inwards are the
`pending` levels of a value. To give the value its place a buffer is allocated for each of them,
from the outside in, and then they are built in these buffers from the inside out (`steps`). If a
step fails the levels inside it keep their buffers, the others go back to where they were, and the
next attempt goes on from there (`settle_attempt`, `Resumes`).
-/

namespace TypeMetadata

/-- Part of building an enum value: copy its payload in, by the payload's own witness, or store a
pointer if that is an object, or write its tag. -/
inductive BuildStep where
  | copy (type : ValueType) (dest source : Address)
  | store (dest pointer : Address)
  | inject (type : ValueType) (dest : Address) (tag : UInt32)

namespace BuildStep

def perform : BuildStep → Inspect Unit
  | copy type dest source => type.copy dest source
  | store dest pointer => Inspect.update fun m => m.writePointer dest pointer
  | inject type dest tag => type.injectTag dest tag

/-- The call that a step makes, unless it is refused. -/
def call? : BuildStep → Option Call
  | copy type dest source => do
    let witnesses ← type.witnesses
    let metadata ← type.info.metadata
    let args := [dest.val, source.val, metadata.val]
    return { function := witnesses.initializeWithCopy, args }
  | store .. => none
  | inject type dest tag => do
    let witnesses ← (← type.witnesses).enumWitnesses
    let metadata ← type.info.metadata
    return { function := witnesses.injectTag, args := [dest.val, tag.toUInt64, metadata.val] }

def performAll (steps : List BuildStep) : Inspect Unit := steps.forM perform

end BuildStep

namespace Value

/-- The types of the levels without a place, from the outside in. -/
def pending : Value → List ValueType
  | enum type (.tagged _) none => [type]
  | enum type (.tagged _) (some inner) => type :: inner.pending
  | _ => []

/-- The value with these buffers for its pending levels. -/
def filled : Value → List Buffer → Value
  | enum type (.tagged tag) none, b :: _ => enum type (.complete tag b) none
  | enum type (.tagged tag) (some inner), b :: bs =>
    enum type (.complete tag b) (some (inner.filled bs))
  | v, _ => v

/-- The value with buffers only for the pending levels behind the first `k`. -/
def filledInside : Nat → Value → List Buffer → Value
  | 0, v, bs => v.filled bs
  | k + 1, enum type (.tagged tag) (some inner), _ :: bs =>
    enum type (.tagged tag) (some (filledInside k inner bs))
  | _, v, _ => v

/-- The payload `k` levels in. -/
def inside : Nat → Value → Value
  | k + 1, enum _ _ (some inner) => inside k inner
  | _, v => v

/-- Where a value is that has a place. -/
def place : Value → Address
  | struct _ b | enum _ (.stored b) _ | enum _ (.complete _ b) _ => b.address
  | object reference => reference.address
  | enum _ (.tagged _) _ => .null

/-- The step that copies the value. -/
def copyStep (v : Value) (source dest : Address) : BuildStep :=
  match v with
  | struct type _ | enum type _ _ => .copy type dest source
  | object _ => .store dest source

/-- What is done to build the pending levels in these buffers. -/
def steps : Value → List Buffer → List BuildStep
  | enum type (.tagged tag) none, b :: _ => [.inject type b.address tag]
  | enum type (.tagged tag) (some inner), b :: bs =>
    inner.steps bs
      ++ [inner.copyStep (inner.filled bs).place b.address, .inject type b.address tag]
  | _, _ => []

end Value

/-- Release buffers, the last first. -/
def releaseAll (bs : List Buffer) (w : World) : World := bs.foldr Buffer.release w

/-- What an attempt to give a value its place comes to: all levels are built, or there is no room
for one of them, or a step fails. -/
inductive Value.Attempt (v : Value) (w : World) : (Except Error Address × Value) × World → Prop
  | built {bs : List Buffer} {w₁ w₂ : World}
    (room : (v.pending.mapM ValueType.allocateEnum).run w = (.ok bs, w₁))
    (performed : (BuildStep.performAll (v.steps bs)).run w₁ = (.ok (), w₂)) :
    Attempt v w ((.ok (v.filled bs).place, v.filled bs), w₂)
  | noRoom {front back : List ValueType} {type : ValueType} {bs : List Buffer} {w₁ w₂ : World}
    {e : Error} (split : v.pending = front ++ type :: back)
    (room : (front.mapM ValueType.allocateEnum).run w = (.ok bs, w₁))
    (refusal : type.allocateEnum.run w₁ = (.error e, w₂)) :
    Attempt v w ((.error e, v), releaseAll bs w₂)
  | stopped {bs : List Buffer} {w₁ w₂ w₃ : World} {k : Nat} {copied rest : List BuildStep}
    {step : BuildStep} {e : Error}
    (room : (v.pending.mapM ValueType.allocateEnum).run w = (.ok bs, w₁))
    (pos : 0 < k) (le : k ≤ v.pending.length) (short : copied.length ≤ 1)
    (split : v.steps bs = (v.inside k).steps (bs.drop k) ++ copied ++ step :: rest)
    (performed : (BuildStep.performAll ((v.inside k).steps (bs.drop k) ++ copied)).run w₁
      = (.ok (), w₂))
    (failure : step.perform.run w₂ = (.error e, w₃)) :
    Attempt v w ((.error e, v.filledInside k bs), releaseAll (bs.take k) w₃)

namespace BuildStep

theorem run_performAll_cons (s : BuildStep) (ss : List BuildStep) (w : World) :
    (performAll (s :: ss)).run w =
      match s.perform.run w with
      | (.ok _, w') => (performAll ss).run w'
      | (.error e, w') => (.error e, w') := by
  have hcons : performAll (s :: ss) = (s.perform >>= fun _ => performAll ss) := rfl
  rw [hcons, Inspect.run_bind]
  rcases s.perform.run w with ⟨e | a, w'⟩ <;> rfl

theorem run_performAll_append (ss ss' : List BuildStep) (w : World) :
    (performAll (ss ++ ss')).run w =
      match (performAll ss).run w with
      | (.ok _, w') => (performAll ss').run w'
      | (.error e, w') => (.error e, w') := by
  induction ss generalizing w with
  | nil => rfl
  | cons s ss ih =>
    rw [List.cons_append, run_performAll_cons, run_performAll_cons]
    rcases s.perform.run w with ⟨e | a, w'⟩
    · rfl
    · exact ih w'

end BuildStep

namespace Value

theorem copyTo_eq (v : Value) (source dest : Address) :
    v.copyTo source dest = (v.copyStep source dest).perform := by
  cases v <;> rfl

@[simp] theorem copyStep_filled (v : Value) (bs : List Buffer) :
    (v.filled bs).copyStep = v.copyStep := by
  unfold filled
  split <;> rfl

@[simp] theorem inside_zero (v : Value) : v.inside 0 = v := by
  unfold inside
  rfl

@[simp] theorem filledInside_zero (v : Value) (bs : List Buffer) :
    v.filledInside 0 bs = v.filled bs := by
  unfold filledInside
  rfl

theorem run_placeIn_ok (v : Value) (type : ValueType) (tag : UInt32) (source : Address) (b : Buffer)
    (w : World) : (v.placeIn type tag (.ok source) b).run w =
      match (v.copyStep source b.address).perform.run w with
      | (.ok _, w') => (type.injectTag b.address tag).run w'
      | (.error e, w') => (.error e, w') := by
  have hplace : v.placeIn type tag (.ok source) b
      = (v.copyTo source b.address >>= fun _ => type.injectTag b.address tag) := rfl
  rw [hplace, Inspect.run_bind, copyTo_eq]
  rcases (v.copyStep source b.address).perform.run w with ⟨e | a, w'⟩ <;> rfl

section

variable {type : ValueType} {tag : UInt32} {w w₁ w₂ w₃ : World} {b : Buffer}

theorem run_mapM_allocateEnum_cons {types : List ValueType} {bs : List Buffer}
    (hb : type.allocateEnum.run w = (.ok b, w₁))
    (hbs : (types.mapM ValueType.allocateEnum).run w₁ = (.ok bs, w₂)) :
    ((type :: types).mapM ValueType.allocateEnum).run w = (.ok (b :: bs), w₂) := by
  rw [List.mapM_cons, Inspect.run_bind, hb]
  simp only
  rw [Inspect.run_bind, hbs]
  rfl

theorem Attempt.innermost (hb : type.allocateEnum.run w = (.ok b, w₁)) :
    (enum type (.tagged tag) none).Attempt w
      (match (type.injectTag b.address tag).run w₁ with
      | (.ok _, w) => ((.ok b.address, enum type (.complete tag b) none), w)
      | (.error e, w) => ((.error e, enum type (.tagged tag) none), b.release w)) := by
  have hroom : ((enum type (.tagged tag) none).pending.mapM ValueType.allocateEnum).run w
      = (.ok [b], w₁) := run_mapM_allocateEnum_cons hb rfl
  rcases htag : (type.injectTag b.address tag).run w₁ with ⟨e | a, w₂⟩
  · have hsteps : (enum type (.tagged tag) none).steps [b]
        = ((enum type (.tagged tag) none).inside 1).steps ([b].drop 1)
          ++ [] ++ .inject type b.address tag :: [] := rfl
    exact .stopped hroom (by decide) (by simp [pending]) (by simp) hsteps rfl htag
  · refine .built (v := enum type (.tagged tag) none) hroom ?_
    rw [steps, BuildStep.run_performAll_cons, BuildStep.perform, htag]
    rfl

/-- Around a payload that has got its place. -/
theorem Attempt.around_built {inner : Value} {bs : List Buffer}
    (hb : type.allocateEnum.run w = (.ok b, w₁))
    (room : (inner.pending.mapM ValueType.allocateEnum).run w₁ = (.ok bs, w₂))
    (performed : (BuildStep.performAll (inner.steps bs)).run w₂ = (.ok (), w₃)) :
    (enum type (.tagged tag) (some inner)).Attempt w
      (match ((inner.filled bs).placeIn type tag (.ok (inner.filled bs).place) b).run w₃ with
      | (.ok _, w) =>
        ((.ok b.address, enum type (.complete tag b) (some (inner.filled bs))), w)
      | (.error e, w) =>
        ((.error e, enum type (.tagged tag) (some (inner.filled bs))), b.release w)) := by
  have hroom : ((enum type (.tagged tag) (some inner)).pending.mapM ValueType.allocateEnum).run w
      = (.ok (b :: bs), w₂) := run_mapM_allocateEnum_cons hb room
  have hinside : (enum type (.tagged tag) (some inner)).inside 1 = inner := by
    rw [inside, inside_zero]
  have hsteps : (enum type (.tagged tag) (some inner)).steps (b :: bs)
      = ((enum type (.tagged tag) (some inner)).inside 1).steps ((b :: bs).drop 1) ++ []
        ++ inner.copyStep (inner.filled bs).place b.address
        :: [.inject type b.address tag] := by
    rw [hinside, steps, List.append_nil]
    rfl
  have hlength : 1 ≤ (enum type (.tagged tag) (some inner)).pending.length := by simp [pending]
  rw [run_placeIn_ok, copyStep_filled]
  rcases hcopy : (inner.copyStep (inner.filled bs).place b.address).perform.run w₃ with
    ⟨e | a, w₄⟩
  · have hstopped := Attempt.stopped hroom (by decide) hlength (by simp) hsteps
      (by rw [hinside]; simpa using performed) hcopy
    rwa [filledInside, filledInside_zero] at hstopped
  have hcopied : (BuildStep.performAll (inner.steps bs
      ++ [inner.copyStep (inner.filled bs).place b.address])).run w₂ = (.ok (), w₄) := by
    rw [BuildStep.run_performAll_append, performed]
    simp only
    rw [BuildStep.run_performAll_cons, hcopy]
    rfl
  simp only
  rcases htag : (type.injectTag b.address tag).run w₄ with ⟨e | a, w₅⟩
  · rw [List.append_nil, List.append_cons] at hsteps
    have hstopped := Attempt.stopped hroom (by decide) hlength (by simp) hsteps
      (by rw [hinside]; simpa using hcopied) htag
    rwa [filledInside, filledInside_zero] at hstopped
  · refine .built hroom ?_
    rw [steps, List.append_cons, BuildStep.run_performAll_append, hcopied]
    simp only
    rw [BuildStep.run_performAll_cons, BuildStep.perform, htag]
    rfl

/-- Around a payload whose own attempt has come to an end. -/
theorem Attempt.around {inner settled : Value} {source : Except Error Address}
    (hb : type.allocateEnum.run w = (.ok b, w₁)) (h : inner.Attempt w₁ ((source, settled), w₂)) :
    (enum type (.tagged tag) (some inner)).Attempt w
      (match (settled.placeIn type tag source b).run w₂ with
      | (.ok _, w) => ((.ok b.address, enum type (.complete tag b) (some settled)), w)
      | (.error e, w) => ((.error e, enum type (.tagged tag) (some settled)), b.release w)) := by
  cases h with
  | built room performed => exact .around_built hb room performed
  | @noRoom front back type' bs _ _ e split room refusal =>
    have hsplit : (enum type (.tagged tag) (some inner)).pending
        = (type :: front) ++ type' :: back := by
      rw [pending, split, List.cons_append]
    exact .noRoom hsplit (run_mapM_allocateEnum_cons hb room) refusal
  | @stopped bs _ _ _ k copied rest step e room pos le short split performed failure =>
    -- Seen from here, the step that failed is one level further in.
    obtain ⟨k, rfl⟩ : ∃ l, k = l + 1 := ⟨k - 1, by omega⟩
    have hroom : ((enum type (.tagged tag) (some inner)).pending.mapM ValueType.allocateEnum).run w
        = (.ok (b :: bs), _) := run_mapM_allocateEnum_cons hb room
    have hsteps : (enum type (.tagged tag) (some inner)).steps (b :: bs)
        = ((enum type (.tagged tag) (some inner)).inside (k + 2)).steps ((b :: bs).drop (k + 2))
          ++ copied ++ step :: (rest ++ [inner.copyStep (inner.filled bs).place b.address,
            .inject type b.address tag]) := by
      rw [steps, inside, List.drop_succ_cons, split, List.append_assoc]
      rfl
    exact .stopped hroom (by omega) (by simpa [pending] using le) short hsteps
      (by rw [inside]; exact performed) failure

end

theorem settle_of_pending {v : Value} (h : v.pending = []) (w : World) :
    v.settle w = ((.ok v.place, v), w) := by
  cases v with
  | struct type b => rfl
  | object reference => rfl
  | enum type state payload =>
    cases state with
    | stored b => rfl
    | complete tag b => rfl
    | tagged tag => cases payload <;> cases h

theorem filled_nil (v : Value) : v.filled [] = v := by
  unfold filled
  split <;> first | contradiction | rfl

theorem steps_nil (v : Value) : v.steps [] = [] := by
  unfold steps
  split <;> first | contradiction | rfl

theorem Attempt.of_pending {v : Value} (h : v.pending = []) (w : World) :
    v.Attempt w (v.settle w) := by
  have hroom : (v.pending.mapM ValueType.allocateEnum).run w = (.ok [], w) := by
    rw [h]
    rfl
  have hperformed : (BuildStep.performAll (v.steps [])).run w = (.ok (), w) := by
    rw [steps_nil]
    rfl
  have hbuilt := Attempt.built hroom hperformed
  rwa [filled_nil, ← settle_of_pending h] at hbuilt

theorem settle_attempt : ∀ (v : Value) (w : World), v.Attempt w (v.settle w)
  | struct _ _, w => .of_pending rfl w
  | object _, w => .of_pending rfl w
  | enum _ (.stored _) _, w => .of_pending rfl w
  | enum _ (.complete _ _) _, w => .of_pending rfl w
  | enum type (.tagged tag) none, w => by
    rw [run_settle_none]
    rcases hb : type.allocateEnum.run w with ⟨e | b, w₁⟩
    · have hsplit : (enum type (.tagged tag) none).pending = [] ++ type :: [] := rfl
      exact .noRoom hsplit rfl hb
    · exact .innermost hb
  | enum type (.tagged tag) (some inner), w => by
    rw [run_settle_some]
    rcases hb : type.allocateEnum.run w with ⟨e | b, w₁⟩
    · have hsplit : (enum type (.tagged tag) (some inner)).pending
          = [] ++ type :: inner.pending := rfl
      exact .noRoom hsplit rfl hb
    · have ih : inner.Attempt w₁ (((inner.settle w₁).1.1, (inner.settle w₁).1.2),
        (inner.settle w₁).2) := settle_attempt inner w₁
      exact .around hb ih
termination_by structural v => v

/-! ## Values that have got a place -/

theorem pending_filled : ∀ (v : Value) {bs : List Buffer}, bs.length = v.pending.length →
    (v.filled bs).pending = []
  | struct _ _, _, _ => rfl
  | object _, _, _ => rfl
  | enum _ (.stored _) _, _, _ => rfl
  | enum _ (.complete _ _) _, _, _ => rfl
  | enum _ (.tagged _) none, _ :: _, _ => rfl
  | enum _ (.tagged _) (some _), _ :: _, _ => rfl
  | enum _ (.tagged _) none, [], h => by cases h
  | enum _ (.tagged _) (some _), [], h => by cases h

theorem copyStep_filledInside (v : Value) (k : Nat) (bs : List Buffer) :
    (v.filledInside k bs).copyStep = v.copyStep := by
  unfold filledInside
  split
  · exact copyStep_filled _ _
  · rfl
  · rfl

/-- There are `bs` for all the pending levels of a value, and `cs` for the first `k`. -/
inductive Cut : Nat → Value → List Buffer → List Buffer → Prop
  | outside {v : Value} {bs : List Buffer} (h : bs.length = v.pending.length) : Cut 0 v bs []
  | last (type : ValueType) (tag : UInt32) (b c : Buffer) :
    Cut 1 (enum type (.tagged tag) none) [b] [c]
  | level {k : Nat} {inner : Value} {bs cs : List Buffer} (type : ValueType) (tag : UInt32)
    (b c : Buffer) (h : Cut k inner bs cs) :
    Cut (k + 1) (enum type (.tagged tag) (some inner)) (b :: bs) (c :: cs)

theorem Cut.of_length : ∀ (v : Value) {k : Nat} {bs cs : List Buffer}, k ≤ v.pending.length →
    bs.length = v.pending.length → cs.length = k → Cut k v bs cs
  | v, 0, bs, [], _, hbs, _ => .outside hbs
  | enum type (.tagged tag) none, 1, [b], [c], _, _, _ => .last type tag b c
  | enum type (.tagged tag) (some inner), k + 1, b :: bs, c :: cs, hk, hbs, hcs =>
    .level type tag b c (of_length inner (by simpa [pending] using hk)
      (by simpa [pending] using hbs) (by simpa using hcs))
  | enum type (.tagged tag) (some inner), k + 1, [], _, _, hbs, _ => by cases hbs
  | enum type (.tagged tag) none, 1, [], _, _, hbs, _ => by cases hbs
  | enum type (.tagged tag) none, 1, _ :: _ :: _, _, _, hbs, _ => by simp [pending] at hbs
  | enum type (.tagged tag) none, k + 2, _, _, hk, _, _ => by simp [pending] at hk
  | struct _ _, k + 1, _, _, hk, _, _ => by simp [pending] at hk
  | object _, k + 1, _, _, hk, _, _ => by simp [pending] at hk
  | enum _ (.stored _) _, k + 1, _, _, hk, _, _ => by simp [pending] at hk
  | enum _ (.complete _ _) _, k + 1, _, _, hk, _, _ => by simp [pending] at hk

namespace Cut

variable {v : Value} {k : Nat} {bs cs : List Buffer}

/-- The levels around those that have got a buffer are still to be built. -/
theorem pending_filledInside (h : Cut k v bs cs) :
    (v.filledInside k bs).pending = v.pending.take k := by
  induction h with
  | outside h => rw [filledInside_zero, pending_filled _ h, List.take_zero]
  | last type tag b c => rfl
  | level type tag b c h ih => rw [filledInside, pending, pending, ih, List.take_succ_cons]

/-- With buffers for these levels too, the value is as if all had got theirs at once. -/
theorem filled_filledInside (h : Cut k v bs cs) :
    (v.filledInside k bs).filled cs = v.filled (cs ++ bs.drop k) := by
  induction h with
  | outside h => rw [filledInside_zero, filled_nil]; rfl
  | last type tag b c => rfl
  | level type tag b c h ih => rw [filledInside, filled, ih]; rfl

/-- The steps that are left come after those of the levels that are built. -/
theorem steps_filledInside (h : Cut k v bs cs) :
    v.steps (cs ++ bs.drop k)
      = (v.inside k).steps (bs.drop k) ++ (v.filledInside k bs).steps cs := by
  induction h with
  | outside h => rw [inside_zero, steps_nil, List.append_nil]; rfl
  | last type tag b c => rfl
  | level type tag b c h ih =>
    rw [filledInside, inside, List.drop_succ_cons, List.cons_append, steps, steps, ih,
      h.filled_filledInside, copyStep_filledInside, List.append_assoc]

end Cut

/-- `v'` is `v` with the buffers `ds` for its levels behind the first `k`: with buffers for those
too it is as if all had got theirs at once, and of the steps for that `kept` are behind it. -/
structure Resumes (v v' : Value) (k : Nat) (ds : List Buffer) (kept : List BuildStep) : Prop where
  length_eq : k + ds.length = v.pending.length
  pending_eq : v'.pending = v.pending.take k
  filled_eq : ∀ cs, cs.length = k → v'.filled cs = v.filled (cs ++ ds)
  steps_eq : ∀ cs, cs.length = k → v.steps (cs ++ ds) = kept ++ v'.steps cs

namespace Resumes

variable {v v' v'' : Value} {k l : Nat} {bs ds es : List Buffer} {kept kept' : List BuildStep}

theorem refl (v : Value) : v.Resumes v v.pending.length [] [] where
  length_eq := rfl
  pending_eq := List.take_length.symm
  filled_eq cs _ := by rw [List.append_nil]
  steps_eq cs _ := by rw [List.append_nil]; rfl

theorem length_pending (h : v.Resumes v' k ds kept) : v'.pending.length = k := by
  have hle := h.length_eq
  rw [h.pending_eq, List.length_take]
  omega

theorem filledInside (hk : k ≤ v.pending.length) (hbs : bs.length = v.pending.length) :
    v.Resumes (v.filledInside k bs) k (bs.drop k) ((v.inside k).steps (bs.drop k)) where
  length_eq := by rw [List.length_drop, hbs]; omega
  pending_eq := by
    have hfront : (bs.take k).length = k := by
      rw [List.length_take, hbs]
      omega
    exact (Cut.of_length v hk hbs hfront).pending_filledInside
  filled_eq _ hcs := (Cut.of_length v hk hbs hcs).filled_filledInside
  steps_eq _ hcs := (Cut.of_length v hk hbs hcs).steps_filledInside

theorem filled (hbs : bs.length = v.pending.length) :
    v.Resumes (v.filled bs) 0 bs (v.steps bs) := by
  simpa using Resumes.filledInside (k := 0) (Nat.zero_le _) hbs

theorem trans (h : v.Resumes v' k ds kept) (h' : v'.Resumes v'' l es kept') :
    v.Resumes v'' l (es ++ ds) (kept ++ kept') := by
  have hk : l + es.length = k := h'.length_eq.trans h.length_pending
  refine ⟨?_, ?_, fun cs hcs => ?_, fun cs hcs => ?_⟩
  · rw [← h.length_eq, List.length_append]
    omega
  · rw [h'.pending_eq, h.pending_eq, List.take_take, Nat.min_eq_left (by omega)]
  · have hall : (cs ++ es).length = k := by rw [List.length_append, hcs, hk]
    rw [h'.filled_eq cs hcs, h.filled_eq _ hall, List.append_assoc]
  · have hall : (cs ++ es).length = k := by rw [List.length_append, hcs, hk]
    rw [← List.append_assoc, h.steps_eq _ hall, h'.steps_eq cs hcs, List.append_assoc]

end Resumes

end Value

/-! ## Buffers and calls -/

/-- Its functions do not allocate. -/
def FunctionTable.AllocatesNothing (t : FunctionTable) : Prop :=
  ∀ f ∈ t.functions, ∀ c m, (f c m).2.next = m.next

theorem World.next_invoke {w : World} (h : w.functions.AllocatesNothing) (c : Call) :
    (w.invoke c).2.memory.next = w.memory.next := by
  unfold World.invoke FunctionTable.invoke
  rcases hf : w.functions.lookup? c.function with _ | f
  · rfl
  · exact h f (FunctionTable.mem_of_lookup? hf) c w.memory

namespace BuildStep

/-- Whether a step stores a pointer, without a call. -/
def isStore : BuildStep → Bool
  | store .. => true
  | copy .. | inject .. => false

theorem run_perform_of_call {s : BuildStep} {c : Call} (h : s.call? = some c) (w : World) :
    s.perform.run w = (((w.invoke c).1.mapError Error.call).map fun _ => (), (w.invoke c).2) := by
  cases s with
  | store dest pointer => cases h
  | copy type dest source =>
    obtain ⟨⟨_, _, _, _, metadata, _⟩, witnesses⟩ := type
    rcases witnesses with _ | witnesses
    · cases h
    rcases metadata with _ | metadata
    · cases h
    cases h
    exact Inspect.run_discard_call _ w
  | inject type dest tag =>
    obtain ⟨⟨_, _, _, _, metadata, _⟩, witnesses⟩ := type
    rcases witnesses with _ | ⟨_, _, _, _, _, _, _, _, _, _, enumWitnesses⟩
    · cases h
    rcases enumWitnesses with _ | enumWitnesses
    · cases h
    rcases metadata with _ | metadata
    · cases h
    cases h
    exact Inspect.run_discard_call _ w

/-- Without a call a step stores a pointer, or it fails and nothing happens. -/
theorem run_perform_of_no_call {s : BuildStep} (h : s.call? = none) (w : World) :
    (∃ dest pointer memory, s = .store dest pointer ∧
      w.memory.writePointer dest pointer = .ok memory ∧
      s.perform.run w = (.ok (), { w with memory })) ∨
      ∃ e, s.perform.run w = (.error e, w) := by
  cases s with
  | store dest pointer =>
    rw [perform, Inspect.run_update]
    rcases hm : w.memory.writePointer dest pointer with e | memory
    · exact .inr ⟨_, rfl⟩
    · exact .inl ⟨dest, pointer, memory, rfl, hm, rfl⟩
  | copy type dest source =>
    obtain ⟨⟨_, _, _, _, metadata, _⟩, witnesses⟩ := type
    rcases witnesses with _ | witnesses
    · exact .inr ⟨_, rfl⟩
    rcases metadata with _ | metadata
    · exact .inr ⟨_, rfl⟩
    cases h
  | inject type dest tag =>
    obtain ⟨⟨_, _, _, _, metadata, _⟩, witnesses⟩ := type
    rcases witnesses with _ | ⟨_, _, _, _, _, _, _, _, _, _, enumWitnesses⟩
    · exact .inr ⟨_, rfl⟩
    rcases enumWitnesses with _ | enumWitnesses
    · exact .inr ⟨_, rfl⟩
    rcases metadata with _ | metadata
    · exact .inr ⟨_, rfl⟩
    cases h

/-- A step makes its call, or it stores a pointer or fails without one. -/
theorem run_perform (s : BuildStep) (w : World) :
    (∃ c r, s.call? = some c ∧ s.perform.run w = (r, (w.invoke c).2)) ∨
      ∃ r memory, s.call? = none ∧ s.perform.run w = (r, { w with memory }) ∧
        memory.next = w.memory.next ∧ (r = .ok () → s.isStore = true) := by
  rcases hc : s.call? with _ | c
  · refine .inr ?_
    rcases run_perform_of_no_call hc w with ⟨dest, pointer, memory, rfl, hm, hr⟩ | ⟨e, hr⟩
    · exact ⟨_, memory, rfl, hr, Memory.writePointer_next hm, fun _ => rfl⟩
    · exact ⟨_, w.memory, rfl, hr, rfl, fun h => nomatch h⟩
  · exact .inl ⟨c, _, rfl, run_perform_of_call hc w⟩

theorem calls_perform (s : BuildStep) (w : World) :
    (s.perform.run w).2.calls = s.call?.toList ++ w.calls := by
  rcases s.run_perform w with ⟨c, r, hc, hr⟩ | ⟨r, memory, hc, hr, -, -⟩ <;> rw [hc, hr] <;> rfl

theorem functions_perform (s : BuildStep) (w : World) :
    (s.perform.run w).2.functions = w.functions := by
  rcases s.run_perform w with ⟨c, r, hc, hr⟩ | ⟨r, memory, hc, hr, -, -⟩
  · rw [hr]
    rfl
  · rw [hr]

theorem next_perform (s : BuildStep) {w : World} (h : w.functions.AllocatesNothing) :
    (s.perform.run w).2.memory.next = w.memory.next := by
  rcases s.run_perform w with ⟨c, r, hc, hr⟩ | ⟨r, memory, hc, hr, hnext, -⟩ <;> rw [hr]
  · exact World.next_invoke h c
  · exact hnext

theorem calls_performAll {ss : List BuildStep} {w w' : World}
    (h : (performAll ss).run w = (.ok (), w')) :
    w'.calls = (ss.filterMap call?).reverse ++ w.calls := by
  induction ss generalizing w with
  | nil =>
    cases h
    rfl
  | cons s ss ih =>
    have hs := s.calls_perform w
    rw [run_performAll_cons] at h
    rcases hr : s.perform.run w with ⟨e | a, w₁⟩ <;> rw [hr] at h hs
    · cases h
    · rw [ih h, hs, List.filterMap_cons]
      cases s.call? <;> simp

/-- Steps that are performed are calls, but for the stores. -/
theorem called_of_performAll {ss : List BuildStep} {w w' : World}
    (h : (performAll ss).run w = (.ok (), w')) :
    ∀ s ∈ ss, s.isStore = true ∨ s.call?.isSome = true := by
  induction ss generalizing w with
  | nil => exact List.forall_mem_nil _
  | cons s ss ih =>
    rw [run_performAll_cons] at h
    rcases s.run_perform w with ⟨c, r, hc, hr⟩ | ⟨r, memory, hc, hr, -, hstore⟩
    · rcases r with e | a <;> rw [hr] at h
      · cases h
      · exact List.forall_mem_cons.2 ⟨.inr (by rw [hc]; rfl), ih h⟩
    · rcases r with e | a <;> rw [hr] at h
      · cases h
      · exact List.forall_mem_cons.2 ⟨.inl (hstore rfl), ih h⟩

theorem next_performAll {ss : List BuildStep} {w w' : World} (hw : w.functions.AllocatesNothing)
    (h : (performAll ss).run w = (.ok (), w')) : w'.memory.next = w.memory.next := by
  induction ss generalizing w with
  | nil =>
    cases h
    rfl
  | cons s ss ih =>
    have hs := s.next_perform hw
    have hf := s.functions_perform w
    rw [run_performAll_cons] at h
    rcases hr : s.perform.run w with ⟨e | a, w₁⟩ <;> rw [hr] at h hs hf
    · cases h
    · rw [ih (hf ▸ hw) h, hs]

end BuildStep

/-- A new buffer for an enum value is a whole stride of its own, the next block of the heap. -/
theorem ValueType.run_allocateEnum (t : ValueType) (w : World) :
    (∃ e, t.allocateEnum.run w = (.error e, w)) ∨
      ∃ b memory, t.allocateEnum.run w = (.ok b, { w with memory }) ∧ b.owned = true ∧
        some b.size = t.layout.map TypeLayout.stride ∧
        memory.live = b.address :: w.memory.live := by
  obtain ⟨⟨_, _, _, _, metadata, _⟩, witnesses⟩ := t
  rcases witnesses with _ | ⟨_, _, _, _, _, _, _, _, _, layout, enumWitnesses⟩
  · exact .inl ⟨_, rfl⟩
  rcases enumWitnesses with _ | enumWitnesses
  · exact .inl ⟨_, rfl⟩
  rcases metadata with _ | metadata
  · exact .inl ⟨_, rfl⟩
  have hrun := Buffer.run_allocate layout.stride w
  rcases ha : w.memory.allocate (max layout.stride 1) with e | ⟨a, memory⟩ <;> rw [ha] at hrun
  · exact .inl ⟨_, hrun⟩
  · exact .inr ⟨_, memory, hrun, rfl, rfl, (Memory.allocate_next ha).2.2⟩

/-- Buffers for the levels of a value come one after another, and nothing is called. -/
theorem ValueType.of_mapM_allocateEnum {types : List ValueType} {bs : List Buffer} {w w' : World}
    (h : (types.mapM ValueType.allocateEnum).run w = (.ok bs, w')) :
    (∃ memory, w' = { w with memory }) ∧
      (bs.map fun b => some b.size) = (types.map fun t => t.layout.map TypeLayout.stride) ∧
      (∀ b ∈ bs, b.owned = true) ∧
      w'.memory.live = (bs.map Buffer.address).reverse ++ w.memory.live := by
  induction types generalizing bs w with
  | nil =>
    rw [List.mapM_nil] at h
    cases h
    exact ⟨⟨_, rfl⟩, rfl, List.forall_mem_nil _, rfl⟩
  | cons t types ih =>
    rw [List.mapM_cons] at h
    obtain ⟨b, w₁, hb, h⟩ := Inspect.run_bind_ok h
    obtain ⟨bs, w₂, hbs, h⟩ := Inspect.run_bind_ok h
    cases h
    obtain ⟨⟨memory, rfl⟩, hsize, howned, hlive⟩ := ih hbs
    rcases t.run_allocateEnum w with ⟨e, he⟩ | ⟨b', memory', hr, hb', hstride, hlive'⟩
    · rw [he] at hb
      cases hb
    · rw [hr] at hb
      cases hb
      refine ⟨⟨memory, rfl⟩, ?_, ?_, ?_⟩
      · rw [List.map_cons, List.map_cons, hsize, hstride]
      · exact List.forall_mem_cons.2 ⟨hb', howned⟩
      · rw [hlive, hlive', List.map_cons, List.reverse_cons, List.append_assoc]
        rfl

theorem ValueType.length_of_mapM_allocateEnum {types : List ValueType} {bs : List Buffer}
    {w w' : World} (h : (types.mapM ValueType.allocateEnum).run w = (.ok bs, w')) :
    bs.length = types.length := by
  simpa using congrArg List.length (of_mapM_allocateEnum h).2.1

theorem calls_releaseAll (bs : List Buffer) (w : World) : (releaseAll bs w).calls = w.calls := by
  induction bs with
  | nil => rfl
  | cons b bs ih =>
    rw [← ih]
    unfold releaseAll
    rw [List.foldr_cons, Buffer.release]
    split
    · split <;> rfl
    · rfl

/-- Buffers that were allocated one after another, and nothing after them, can be released. -/
theorem releaseAll_newest {bs : List Buffer} {w : World} {live : List Address}
    (howned : ∀ b ∈ bs, b.owned = true)
    (hlive : w.memory.live = (bs.map Buffer.address).reverse ++ live) :
    ∃ memory, releaseAll bs w = { w with memory } ∧ memory.live = live := by
  induction bs generalizing live with
  | nil => exact ⟨w.memory, rfl, hlive⟩
  | cons b bs ih =>
    obtain ⟨hb, howned⟩ := List.forall_mem_cons.1 howned
    rw [List.map_cons, List.reverse_cons, List.append_assoc] at hlive
    obtain ⟨memory, hrest, hmemory⟩ := ih howned hlive
    have hmem : b.address ∈ memory.live := by
      rw [hmemory]
      exact List.mem_cons_self
    obtain ⟨memory', hfree⟩ := Memory.free_eq_ok_iff.2 hmem
    refine ⟨memory', ?_, ?_⟩
    · change b.release (releaseAll bs w) = _
      rw [hrest, Buffer.release, if_pos hb]
      simp only [hfree]
    · rw [(Memory.free_live hfree).2.1, hmemory, List.singleton_append,
        List.erase_cons_head]

/-- The buffer that is released last is the one that was allocated for the value. -/
theorem ValueType.live_of_allocateEnum {t : ValueType} {w w' : World} {b : Buffer}
    (h : t.allocateEnum.run w = (.ok b, w')) :
    b.address ∈ w'.memory.live ∧ (b.release w').memory.live = w.memory.live := by
  rcases t.run_allocateEnum w with ⟨e, he⟩ | ⟨b', memory, hr, howned, -, hlive⟩
  · rw [he] at h
    cases h
  · rw [hr] at h
    cases h
    have hnewest : ({ w with memory } : World).memory.live
        = ([b].map Buffer.address).reverse ++ w.memory.live := hlive
    obtain ⟨memory', hrelease, hlive'⟩ :=
      releaseAll_newest (List.forall_mem_singleton.2 howned) hnewest
    refine ⟨?_, ?_⟩
    · rw [hlive]
      exact List.mem_cons_self
    · change (releaseAll [b] { w with memory }).memory.live = _
      rw [hrelease, hlive']

namespace Value

/-- What becomes of a value by attempts to give it its place, each in a world of its own. -/
def attempted (v : Value) (worlds : List World) : Value :=
  worlds.foldl (fun v w => (v.settle w).1.2) v

theorem attempted_append (v : Value) (worlds more : List World) :
    v.attempted (worlds ++ more) = (v.attempted worlds).attempted more :=
  List.foldl_append

theorem resumes_settle (v : Value) (w : World) :
    ∃ k ds kept, v.Resumes (v.settle w).1.2 k ds kept := by
  have hattempt := settle_attempt v w
  rcases hs : v.settle w with ⟨⟨r, v'⟩, w'⟩
  rw [hs] at hattempt
  cases hattempt with
  | built room => exact ⟨_, _, _, .filled (ValueType.length_of_mapM_allocateEnum room)⟩
  | noRoom => exact ⟨_, _, _, .refl v⟩
  | stopped room pos le =>
    exact ⟨_, _, _, .filledInside le (ValueType.length_of_mapM_allocateEnum room)⟩

theorem resumes_attempted (v : Value) (worlds : List World) :
    ∃ k ds kept, v.Resumes (v.attempted worlds) k ds kept := by
  induction worlds generalizing v with
  | nil => exact ⟨_, _, _, .refl v⟩
  | cons w worlds ih =>
    obtain ⟨k, ds, kept, h⟩ := v.resumes_settle w
    obtain ⟨l, es, kept', h'⟩ := ih (v.settle w).1.2
    exact ⟨_, _, _, h.trans h'⟩

/-- An attempt to give a value its place, whatever of it is in place already, with functions that do
not allocate.

If it succeeds then one owned buffer of a stride was allocated for each level without a place, from
the outside in, and nothing else was allocated; the calls are those of the steps that build these
levels from the inside out; and from then on the address is the same in any world, without a call or
an allocation.

If it fails then either there was no room for some level, nothing was called and the value is as it
was; or the steps came to one that failed. Then the levels behind the first `k` keep their buffers,
the others are released, and the next attempt goes on from there.

However many attempts are made, each in a world of its own, later ones only add to what the earlier
ones kept: no level that has a buffer gets another, and no step that is kept is done again. -/
theorem settle_levels (v : Value) (w : World) (quiet : w.functions.AllocatesNothing) :
    (∀ a v' w', v.settle w = ((.ok a, v'), w') →
      ∃ bs w₁, (v.pending.mapM ValueType.allocateEnum).run w = (.ok bs, w₁) ∧
        (bs.map fun b => some b.size) = (v.pending.map fun t => t.layout.map TypeLayout.stride) ∧
        (∀ b ∈ bs, b.owned = true) ∧
        w₁.memory.live = (bs.map Buffer.address).reverse ++ w.memory.live ∧
        w'.memory.next = w₁.memory.next ∧
        (BuildStep.performAll (v.steps bs)).run w₁ = (.ok (), w') ∧
        (∀ s ∈ v.steps bs, s.isStore = true ∨ s.call?.isSome = true) ∧
        w'.calls = ((v.steps bs).filterMap BuildStep.call?).reverse ++ w.calls ∧
        v' = v.filled bs ∧ a = v'.place ∧
        ∀ w₂, v'.settle w₂ = ((.ok a, v'), w₂)) ∧
    (∀ e v' w', v.settle w = ((.error e, v'), w') →
      (v' = v ∧ w'.calls = w.calls ∧
        ∃ front type back bs w₁ w₂, v.pending = front ++ type :: back ∧
          (front.mapM ValueType.allocateEnum).run w = (.ok bs, w₁) ∧
          type.allocateEnum.run w₁ = (.error e, w₂) ∧ w' = releaseAll bs w₂) ∨
      ∃ k bs kept copied step rest w₁ w₂ w₃,
        (v.pending.mapM ValueType.allocateEnum).run w = (.ok bs, w₁) ∧
        v.steps bs = kept ++ copied ++ step :: rest ∧ copied.length ≤ 1 ∧
        (BuildStep.performAll (kept ++ copied)).run w₁ = (.ok (), w₂) ∧
        step.perform.run w₂ = (.error e, w₃) ∧
        w'.calls = ((kept ++ copied ++ [step]).filterMap BuildStep.call?).reverse ++ w.calls ∧
        0 < k ∧ w' = releaseAll (bs.take k) w₃ ∧ v.Resumes v' k (bs.drop k) kept) ∧
    ∀ worlds more, ∃ k ds kept l es kept', v.Resumes (v.attempted worlds) k ds kept ∧
      v.Resumes (v.attempted (worlds ++ more)) l (es ++ ds) (kept ++ kept') := by
  have hattempt := settle_attempt v w
  refine ⟨?_, ?_, ?_⟩
  · intro a v' w' h
    rw [h] at hattempt
    cases hattempt with
    | @built bs w₁ _ room performed =>
      obtain ⟨⟨memory, rfl⟩, hsize, howned, hlive⟩ := ValueType.of_mapM_allocateEnum room
      exact ⟨bs, _, room, hsize, howned, hlive, BuildStep.next_performAll quiet performed,
        performed, BuildStep.called_of_performAll performed,
        by rw [BuildStep.calls_performAll performed], rfl, rfl,
        settle_of_pending (pending_filled v (ValueType.length_of_mapM_allocateEnum room))⟩
  · intro e v' w' h
    rw [h] at hattempt
    cases hattempt with
    | @noRoom front back type bs w₁ w₂ _ split room refusal =>
      refine .inl ⟨rfl, ?_, front, type, back, bs, w₁, w₂, split, room, refusal, rfl⟩
      obtain ⟨⟨memory, rfl⟩, -⟩ := ValueType.of_mapM_allocateEnum room
      rcases type.run_allocateEnum { w with memory } with ⟨e', he⟩ | ⟨b, memory', hr, -⟩
      · rw [he] at refusal
        cases refusal
        exact calls_releaseAll bs _
      · rw [hr] at refusal
        cases refusal
    | @stopped bs w₁ w₂ w₃ k copied rest step _ room pos le short split performed failure =>
      have hlength := ValueType.length_of_mapM_allocateEnum room
      obtain ⟨⟨memory, rfl⟩, -⟩ := ValueType.of_mapM_allocateEnum room
      have hcalls := step.calls_perform w₂
      rw [failure, BuildStep.calls_performAll performed] at hcalls
      refine .inr ⟨k, bs, _, copied, step, rest, _, w₂, w₃, room, split, short, performed, failure,
        ?_, pos, rfl, .filledInside le hlength⟩
      rw [calls_releaseAll, hcalls]
      cases hc : step.call? <;> simp [hc]
  · intro worlds more
    obtain ⟨k, ds, kept, h⟩ := v.resumes_attempted worlds
    obtain ⟨l, es, kept', h'⟩ := (v.attempted worlds).resumes_attempted more
    rw [attempted_append]
    exact ⟨k, ds, kept, l, es, kept', h, h.trans h'⟩

/-- An enum with its witnesses at these addresses. -/
def enumOf (copy inject metadata : Address) (stride : UInt64) : ValueType where
  info :=
    { settings := {}, descriptor := ⟨⟨.null, ⟨0⟩, .enumType⟩⟩, name := "E", moduleName := "m",
      metadata := some metadata, fields := none }
  witnesses := some
    { address := .null, initializeBufferWithCopyOfBuffer := .null, destroy := .null
      initializeWithCopy := copy, assignWithCopy := .null, initializeWithTake := .null
      assignWithTake := .null, getEnumTagSinglePayload := .null
      storeEnumTagSinglePayload := .null, layout := ⟨stride, stride, ⟨0⟩, 0⟩
      enumWitnesses := some ⟨.null, .null, inject⟩ }

/-- A case that carries a case, whose tags are written by two functions. -/
def caseInCase : Value :=
  .ofCase (enumOf ⟨0x100⟩ ⟨0x110⟩ ⟨0x500⟩ 16) 1
    (some (.ofCase (enumOf ⟨0x100⟩ ⟨0x100⟩ ⟨0x600⟩ 8) 2 none))

/-- A process with just these functions, at `0x100` and `0x110`. -/
def worldOf (f g : NativeFunction) : World :=
  { memory := .empty ⟨0x1000⟩, functions := ⟨⟨0x100⟩, #[f, g]⟩ }

theorem quiet_worldOf {f g : NativeFunction} (hf : ∀ c m, (f c m).2.next = m.next)
    (hg : ∀ c m, (g c m).2.next = m.next) : (worldOf f g).functions.AllocatesNothing := by
  intro h hh c m
  rcases List.mem_cons.1 (Array.mem_toList_iff.2 hh) with rfl | hh
  · exact hf c m
  · cases List.mem_singleton.1 hh
    exact hg c m

/-- The two levels at once; the inner one alone, as the outer tag cannot be written; and then the
outer one in a second attempt. -/
theorem settle_levels_case_in_case :
    (∃ a v' w', (worldOf (StandIn.const 0) (StandIn.const 0)).functions.AllocatesNothing ∧
      caseInCase.settle (worldOf (StandIn.const 0) (StandIn.const 0)) = ((.ok a, v'), w') ∧
      w'.calls.reverse = [⟨⟨0x100⟩, [0x1010, 2, 0x600], none⟩,
        ⟨⟨0x100⟩, [0x1000, 0x1010, 0x600], none⟩, ⟨⟨0x110⟩, [0x1000, 1, 0x500], none⟩] ∧
      ∀ w₂, v'.settle w₂ = ((.ok a, v'), w₂)) ∧
    (∃ e v' w', (worldOf (StandIn.const 0) (StandIn.fail "no")).functions.AllocatesNothing ∧
      caseInCase.settle (worldOf (StandIn.const 0) (StandIn.fail "no")) = ((.error e, v'), w') ∧
      w'.calls.length = 3 ∧
      ∃ k ds kept, caseInCase.Resumes v' k ds kept ∧ 0 < k) ∧
    ∃ ds kept es kept',
      caseInCase.Resumes (caseInCase.attempted [worldOf (StandIn.const 0) (StandIn.fail "no")])
        1 ds kept ∧
      caseInCase.Resumes (caseInCase.attempted [worldOf (StandIn.const 0) (StandIn.fail "no"),
        worldOf (StandIn.const 0) (StandIn.const 0)]) 0 (es ++ ds) (kept ++ kept') := by
  have quiet := quiet_worldOf (f := StandIn.const 0) (g := StandIn.const 0) (fun _ _ => rfl)
    fun _ _ => rfl
  have quietFailing := quiet_worldOf (f := StandIn.const 0) (g := StandIn.fail "no")
    (fun _ _ => rfl) fun _ _ => rfl
  refine ⟨?_, ?_, ?_⟩
  · have hrun : (match caseInCase.settle (worldOf (StandIn.const 0) (StandIn.const 0)) with
        | ((.ok _, _), w') => decide (w'.calls.reverse = [⟨⟨0x100⟩, [0x1010, 2, 0x600], none⟩,
            ⟨⟨0x100⟩, [0x1000, 0x1010, 0x600], none⟩, ⟨⟨0x110⟩, [0x1000, 1, 0x500], none⟩])
        | ((.error _, _), _) => false) = true := by decide +kernel
    rcases hs : caseInCase.settle (worldOf (StandIn.const 0) (StandIn.const 0)) with
      ⟨⟨e | a, v'⟩, w'⟩ <;> rw [hs] at hrun
    · cases hrun
    · obtain ⟨bs, w₁, -, -, -, -, -, -, -, -, -, -, hlater⟩ :=
        (settle_levels caseInCase _ quiet).1 a v' w' hs
      exact ⟨a, v', w', quiet, rfl, of_decide_eq_true hrun, hlater⟩
  · have hrun : (match caseInCase.settle (worldOf (StandIn.const 0) (StandIn.fail "no")) with
        | ((.ok _, _), _) => false
        | ((.error _, _), w') => decide (w'.calls.length = 3)) = true := by decide +kernel
    rcases hs : caseInCase.settle (worldOf (StandIn.const 0) (StandIn.fail "no")) with
      ⟨⟨e | a, v'⟩, w'⟩ <;> rw [hs] at hrun
    · have hcalls := of_decide_eq_true hrun
      rcases (settle_levels caseInCase _ quietFailing).2.1 e v' w' hs with ⟨-, hnone, -⟩ |
        ⟨k, bs, kept, copied, step, rest, w₁, w₂, w₃, -, -, -, -, -, -, pos, -, hresumes⟩
      · rw [hnone] at hcalls
        cases hcalls
      · exact ⟨e, v', w', quietFailing, rfl, hcalls, k, bs.drop k, kept, hresumes, pos⟩
    · cases hrun
  · have hfirst : (caseInCase.attempted [worldOf (StandIn.const 0) (StandIn.fail "no")]
        ).pending.length = 1 := by decide +kernel
    have hsecond : (caseInCase.attempted [worldOf (StandIn.const 0) (StandIn.fail "no"),
        worldOf (StandIn.const 0) (StandIn.const 0)]).pending.length = 0 := by decide +kernel
    obtain ⟨k, ds, kept, l, es, kept', h, h'⟩ := (settle_levels caseInCase _ quietFailing).2.2
      [worldOf (StandIn.const 0) (StandIn.fail "no")] [worldOf (StandIn.const 0) (StandIn.const 0)]
    obtain rfl := h.length_pending.symm.trans hfirst
    obtain rfl := h'.length_pending.symm.trans hsecond
    exact ⟨ds, kept, es, kept', h, h'⟩

end Value

end TypeMetadata
