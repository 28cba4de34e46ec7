import TypeMetadata.Proofs.BuildingInPlace
import TypeMetadata.Proofs.GenericValues
import TypeMetadata.Proofs.Holdings
import TypeMetadata.Proofs.LazyCells

/-!
# Which cell is filled from which

Of the two cells of an enum value one is filled from the start: the tag of a case, the buffer of a
value that is in memory. What is asked of the value fills the other one from that, or leaves it
empty; so neither is ever asked for while it is being filled, every question is answered, and what
is done for it goes one way only (`LazyValue.answers_reachable`).
-/

namespace TypeMetadata

open CellInspect (runOn_bind runOn_lift)

namespace EnumCells

/-- Ask an enum value, and leave the answer. -/
def inspect (n : Nat) : Query → CellInspect (EnumCells LazyValue) Unit
  | .tag => do let _ ← readingTag n
  | .address => do let _ := (← building n).address
  | .buffer => do let _ ← building n
  | .bytes => do let _ ← CellInspect.lift (Inspect.decode (← building n).bytes)

end EnumCells

namespace LazyValue

/-- Ask the payload that lies `depth` payloads deep in a value, with at most `n` calls within calls;
the value and the world then. -/
def ask (n : Nat) (q : Query) : Nat → LazyValue → World → Except Stuck (LazyValue × World)
  | 0, .enum c, w => do
    let ((_, c), w) ← (EnumCells.inspect n q).runOn c w
    return (.enum c, w)
  | depth + 1, .enum c, w =>
    match c.payload with
    | some inner => do
      let (inner, w) ← inner.ask n q depth w
      return (.enum { c with payload := some inner }, w)
    | none => .ok (.enum c, w)
  | _, v, w => .ok (v, w)

/-- Asked so, a value becomes `v'` and the world `w'`: with calls enough within calls. -/
def Answers (v : LazyValue) (q : Query) (depth : Nat) (w : World) (v' : LazyValue) (w' : World) :
    Prop :=
  ∃ enough, ∀ n, enough ≤ n → v.ask n q depth w = .ok (v', w')

/-- What a value can become when it is asked, again and again, in whatever world. -/
inductive Becomes (v : LazyValue) : LazyValue → Prop
  | refl : Becomes v v
  | asked {v' v'' : LazyValue} {q : Query} {depth : Nat} {w w' : World} (h : Becomes v v')
    (answers : v'.Answers q depth w v'' w') : Becomes v v''

/-- A value that is made of a case or over memory, and then asked; its payload may have been asked
before. -/
inductive Reachable : LazyValue → Prop
  | struct (type : ValueType) (buffer : Buffer) : Reachable (.struct type buffer)
  | object (reference : ObjectReference) : Reachable (.object reference)
  | ofCase {type : ValueType} {tag : UInt32} {payload : Option LazyValue} {v : LazyValue}
    (inner : ∀ p ∈ payload, Reachable p) (h : Becomes (.ofCase type tag payload) v) : Reachable v
  | ofBuffer {type : ValueType} {buffer : Buffer} {v : LazyValue}
    (h : Becomes (.ofBuffer type buffer) v) : Reachable v

/-- Of each enum value in it the tag or the buffer is there, and none is being filled. -/
inductive Ready : LazyValue → Prop
  | struct (type : ValueType) (buffer : Buffer) : Ready (.struct type buffer)
  | object (reference : ObjectReference) : Ready (.object reference)
  | enum {c : EnumCells LazyValue}
    (filled : (∃ tag, c.tag = .filled tag) ∨ ∃ b, c.storage = .filled b)
    (idle : c.tag ≠ .filling ∧ c.storage ≠ .filling) (inner : ∀ p ∈ c.payload, Ready p) :
    Ready (.enum c)

end LazyValue

/-! ## What is asked of cells -/

namespace EnumState

variable {type : ValueType} {payload : Option LazyValue}

theorem filled_cells (state : EnumState) :
    (∃ tag, (state.cells type payload).tag = .filled tag) ∨
      ∃ b, (state.cells type payload).storage = .filled b := by
  cases state with
  | tagged tag => exact .inl ⟨tag, rfl⟩
  | complete tag b => exact .inl ⟨tag, rfl⟩
  | stored b => exact .inr ⟨b, rfl⟩

theorem idle_cells (state : EnumState) :
    (state.cells type payload).tag ≠ .filling ∧ (state.cells type payload).storage ≠ .filling := by
  cases state <;> exact ⟨nofun, nofun⟩

end EnumState

namespace Value

theorem ready_cells : ∀ v : Value, v.cells.Ready
  | struct type buffer => .struct type buffer
  | object reference => .object reference
  | enum _ state none => .enum state.filled_cells state.idle_cells nofun
  | enum _ state (some inner) =>
    .enum state.filled_cells state.idle_cells fun _ hp => Option.mem_some.1 hp ▸ inner.ready_cells

/-- The inspection gives a value its place, and then only looks at it. -/
def Settles {α : Type} (x : InspectOn Value α) : Prop :=
  ∀ v w, ∃ r, x.runOn v w = ((r, (settle v w).1.2), (settle v w).2)

theorem Settles.bind {α β : Type} {x : InspectOn Value α} {f : α → InspectOn Value β}
    (hx : Settles x) (hf : ∀ a v, InspectOn.Idles (· = v) (f a)) : Settles (x >>= f) := by
  intro v w
  obtain ⟨r, hr⟩ := hx v w
  rw [InspectOn.runOn_bind, hr]
  rcases r with e | a
  · exact ⟨_, rfl⟩
  · obtain ⟨hv, hw⟩ := hf a (v.settle w).1.2 _ (v.settle w).2 rfl
    exact ⟨((f a).runOn _ _).1.1, Prod.ext (Prod.ext rfl hv) hw⟩

theorem settles_buffer : Settles buffer := by
  have haddress : Settles address := fun _ _ => ⟨_, rfl⟩
  exact haddress.bind fun _ v _ _ h => ⟨h, rfl⟩

/-- Whatever a value is asked for but its tag, it is given its place. -/
theorem settles_inspect {q : Query} (hq : q ≠ .tag) : Settles q.inspect := by
  cases q with
  | tag => exact absurd rfl hq
  | address => exact Settles.bind (fun _ _ => ⟨_, rfl⟩) fun _ _ => .pure _
  | buffer => exact settles_buffer.bind fun _ _ => .pure _
  | bytes =>
    refine Settles.bind (settles_buffer.bind fun b v => ?_) fun _ _ => .pure _
    cases b with
    | none => exact .pure _
    | some b => exact (InspectOn.Idles.decode b.bytes).bind fun _ => .pure _

end Value

namespace EnumCells

/-- Whatever the cells of an enum value are asked for, but for the tag, the buffer is built. -/
theorem runOn_inspect {n : Nat} {q : Query} (hq : q ≠ .tag) {c c' : EnumCells LazyValue}
    {w w' : World} {r : Except Error Buffer}
    (h : (building n).runOn c w = .ok ((r, c'), w')) :
    ∃ r', (inspect n q).runOn c w = .ok ((r', c'), w') := by
  cases q with
  | tag => exact absurd rfl hq
  | address | buffer =>
    rw [inspect, runOn_bind, h]
    cases r <;> exact ⟨_, rfl⟩
  | bytes =>
    rw [inspect, runOn_bind, h]
    rcases r with e | b
    · exact ⟨_, rfl⟩
    · simp only
      rw [runOn_bind, runOn_lift, Inspect.run_decode]
      rcases w'.decode b.bytes with e | bs <;> exact ⟨_, rfl⟩

end EnumCells

namespace Value

/-- What is asked of the cells of an enum value comes to what is asked of the value. -/
theorem runOn_inspect_cells {n : Nat} (q : Query) {type : ValueType} {state : EnumState}
    {payload : Option Value} (hn : (Value.enum type state payload).payloads.length + 2 ≤ n)
    (w : World) :
    ∃ r r' state' payload' w',
      q.inspect.runOn (.enum type state payload) w = ((r, .enum type state' payload'), w') ∧
      (EnumCells.inspect n q).runOn (state.cells type (payload.map cells)) w =
        .ok ((r', state'.cells type (payload'.map cells)), w') := by
  by_cases hq : q = .tag
  · subst hq
    obtain ⟨k, rfl⟩ : ∃ k, n = k + 2 := ⟨n - 2, by omega⟩
    obtain ⟨r, state', w', htag, hcells⟩ := runOn_readingTag_cells k type state payload w
    refine ⟨r.map fun _ => (), r.map fun _ => (), state', payload, w', ?_, ?_⟩
    · rw [Query.inspect, InspectOn.runOn_bind, htag]
      cases r <;> rfl
    · rw [EnumCells.inspect, runOn_bind, hcells]
      cases r <;> rfl
  · obtain ⟨r, state', payload', w', hsettle, hcells⟩ := placedBy_building n type state payload w hn
    obtain ⟨a, hvalue⟩ := settles_inspect hq (.enum type state payload) w
    obtain ⟨a', hbuilt⟩ := EnumCells.runOn_inspect hq hcells
    rw [hsettle] at hvalue
    exact ⟨a, a', state', payload', w', hvalue, hbuilt⟩

/-- Without cells nothing changes. -/
theorem within_struct (q : Query) (depth : Nat) (type : ValueType) (b : Buffer) (w : World) :
    q.within depth (.struct type b) w = (.struct type b, w) := by
  cases depth with
  | succ depth => rfl
  | zero =>
    by_cases hq : q = .tag
    · subst hq
      rfl
    · obtain ⟨r, hr⟩ := settles_inspect hq (.struct type b) w
      rw [Query.within, hr]
      rfl

theorem within_object (q : Query) (depth : Nat) (reference : ObjectReference) (w : World) :
    q.within depth (.object reference) w = (.object reference, w) := by
  cases depth <;> cases q <;> rfl

/-- The cells of a value come to the value, whatever is asked. -/
theorem ask_cells {n : Nat} (q : Query) : ∀ (depth : Nat) (v : Value) (w : World),
    v.payloads.length + 2 ≤ n →
      v.cells.ask n q depth w = .ok ((q.within depth v w).1.cells, (q.within depth v w).2)
  | depth, .struct type b, w, hn => by
    rw [within_struct]
    cases depth <;> rfl
  | depth, .object reference, w, hn => by
    rw [within_object]
    cases depth <;> rfl
  | 0, .enum type state payload, w, hn => by
    obtain ⟨r, r', state', payload', w', hvalue, hcells⟩ := runOn_inspect_cells q hn w
    rw [cells_enum, LazyValue.ask, hcells, Query.within, hvalue, cells_enum]
    rfl
  | depth + 1, .enum type state none, w, hn => rfl
  | depth + 1, .enum type state (some inner), w, hn => by
    rw [payloads, List.length_cons] at hn
    rw [cells, LazyValue.ask, EnumState.cells]
    simp only
    rw [ask_cells q depth inner w (by omega)]
    rfl

theorem answers_cells (v : Value) (q : Query) (depth : Nat) (w : World) :
    v.cells.Answers q depth w (q.within depth v w).1.cells (q.within depth v w).2 :=
  ⟨v.payloads.length + 2, fun _ hn => ask_cells q depth v w hn⟩

end Value

namespace LazyValue

/-- There is but one answer. -/
theorem Answers.unique {v v' v'' : LazyValue} {q : Query} {depth : Nat} {w w' w'' : World}
    (h : v.Answers q depth w v' w') (h' : v.Answers q depth w v'' w'') : v' = v'' ∧ w' = w'' := by
  obtain ⟨n, h⟩ := h
  obtain ⟨n', h'⟩ := h'
  have heq := (h (max n n') (Nat.le_max_left ..)).symm.trans (h' _ (Nat.le_max_right ..))
  exact Prod.mk.inj (Except.ok.inj heq)

/-- What is kept by every question to a `Value` holds of all that its cells become. -/
theorem Becomes.invariant {u : Value} {v : LazyValue} (P : Value → Prop) (h : u.cells.Becomes v)
    (hu : P u) (hstep : ∀ u q depth w, P u → P (Query.within q depth u w).1) :
    ∃ u', v = u'.cells ∧ P u' := by
  induction h with
  | refl => exact ⟨u, rfl, hu⟩
  | asked _ answers ih =>
    obtain ⟨u', rfl, hu'⟩ := ih
    obtain ⟨rfl, rfl⟩ := answers.unique (u'.answers_cells _ _ _)
    exact ⟨_, rfl, hstep _ _ _ _ hu'⟩

/-- The cells that are reached are those of a `Value`. -/
theorem Reachable.exists_cells {v : LazyValue} (h : v.Reachable) : ∃ u : Value, v = u.cells := by
  induction h with
  | struct type b => exact ⟨.struct type b, rfl⟩
  | object reference => exact ⟨.object reference, rfl⟩
  | @ofCase type tag payload v _ hv ih =>
    obtain ⟨inner, rfl⟩ : ∃ inner : Option Value, payload = inner.map Value.cells := by
      cases payload with
      | none => exact ⟨none, rfl⟩
      | some p =>
        obtain ⟨u, hu⟩ := ih p rfl
        exact ⟨some u, congrArg some hu⟩
    have hcells : (Value.ofCase type tag inner).cells
        = LazyValue.ofCase type tag (inner.map Value.cells) := Value.cells_enum ..
    rw [← hcells] at hv
    obtain ⟨u, rfl, -⟩ := hv.invariant (fun _ => True) trivial fun _ _ _ _ _ => trivial
    exact ⟨u, rfl⟩
  | @ofBuffer type b v hv =>
    obtain ⟨u, rfl, -⟩ :=
      hv.invariant (u := .ofBuffer type b) (fun _ => True) trivial fun _ _ _ _ _ => trivial
    exact ⟨u, rfl⟩

end LazyValue

/-! ## Cases -/

/-- No call that was made since `w` is one that reads a tag. -/
def World.NoTagReadSince (w w' : World) : Prop :=
  ∃ made, w'.calls = made ++ w.calls ∧ ∀ c ∈ made, ∀ (t : ValueType) (a : Address),
    t.tagCall a ≠ .ok c

/-- Two arguments are given to the function that reads a tag, and three to those that build. -/
theorem BuildStep.tagCall_ne {s : BuildStep} {c : Call} (h : s.call? = some c) (t : ValueType)
    (a : Address) : t.tagCall a ≠ .ok c := by
  have hargs : c.args.length = 3 := by
    cases s with
    | store => cases h
    | copy type dest source =>
      obtain ⟨table, metadata, -, -, rfl⟩ := call?_copy_eq_some_iff.1 h
      rfl
    | inject type dest tag =>
      obtain ⟨table, e, metadata, -, -, -, rfl⟩ := call?_inject_eq_some_iff.1 h
      rfl
  intro htag
  unfold ValueType.tagCall at htag
  rcases hw : t.requireEnumWitnesses with e | witnesses <;> rw [hw] at htag
  · cases htag
  rcases hm : t.requireMetadata with e | metadata <;> rw [hm] at htag
  · cases htag
  cases htag
  cases hargs

theorem BuildStep.calls_performAll_stopped {ss : List BuildStep} {s : BuildStep} {w w₁ w₂ : World}
    {e : Error} (performed : (performAll ss).run w = (.ok (), w₁))
    (failure : s.perform.run w₁ = (.error e, w₂)) :
    w₂.calls = ((ss ++ [s]).filterMap call?).reverse ++ w.calls := by
  have hstep := s.calls_perform w₁
  rw [failure, calls_performAll performed] at hstep
  refine hstep.trans ?_
  rw [List.filterMap_append, List.reverse_append, List.append_assoc]
  rcases hc : s.call? with _ | c <;> simp [hc]

namespace Value

/-- To give a value its place, only functions that build are called. -/
theorem noTagReadSince_settle (v : Value) (w : World) : w.NoTagReadSince (v.settle w).2 := by
  have hattempt := v.settle_attempt w
  rcases hs : v.settle w with ⟨⟨r, v'⟩, w'⟩
  rw [hs] at hattempt
  suffices h : ∃ steps : List BuildStep,
      w'.calls = (steps.filterMap BuildStep.call?).reverse ++ w.calls by
    obtain ⟨steps, hcalls⟩ := h
    refine ⟨_, hcalls, fun c hc => ?_⟩
    obtain ⟨s, -, hs⟩ := List.mem_filterMap.1 (List.mem_reverse.1 hc)
    exact s.tagCall_ne hs
  cases hattempt with
  | @built bs w₁ w₂ room performed =>
    obtain ⟨⟨memory, rfl⟩, -⟩ := ValueType.of_mapM_allocateEnum room
    have hcalls := BuildStep.calls_performAll performed
    exact ⟨_, hcalls⟩
  | @noRoom front back type bs w₁ w₂ e split room refusal =>
    obtain ⟨⟨memory, rfl⟩, -⟩ := ValueType.of_mapM_allocateEnum room
    refine ⟨[], ?_⟩
    rw [calls_releaseAll]
    rcases type.run_allocateEnum { w with memory } with ⟨e', hr⟩ | ⟨b, memory', hr, -⟩ <;>
      rw [hr] at refusal <;> cases refusal
    rfl
  | @stopped bs w₁ w₂ w₃ k copied rest step e room pos le short split performed failure =>
    obtain ⟨⟨memory, rfl⟩, -⟩ := ValueType.of_mapM_allocateEnum room
    have hcalls := BuildStep.calls_performAll_stopped performed failure
    exact ⟨_, (calls_releaseAll ..).trans hcalls⟩

theorem tag?_settle {type : ValueType} {state : EnumState} {payload : Option Value} {tag : UInt32}
    (h : state.tag? = some tag) (w : World) :
    ∃ state' payload', (settle (.enum type state payload) w).1.2 = .enum type state' payload' ∧
      state'.tag? = some tag := by
  cases state with
  | stored b => cases h
  | complete n b => exact ⟨_, _, rfl, h⟩
  | tagged n =>
    obtain ⟨payload', -, ⟨e, hsettle⟩ | ⟨b, hsettle⟩⟩ := settle_ofCase type n payload w <;>
      · rw [← ofCase, hsettle]
        exact ⟨_, _, rfl, h⟩

/-- A tag that is known stays as it is. -/
theorem tag?_within {type : ValueType} {state : EnumState} {payload : Option Value} {tag : UInt32}
    (h : state.tag? = some tag) (q : Query) (depth : Nat) (w : World) :
    ∃ state' payload',
      (q.within depth (.enum type state payload) w).1 = .enum type state' payload' ∧
      state'.tag? = some tag := by
  cases depth with
  | succ depth => cases payload <;> exact ⟨_, _, rfl, h⟩
  | zero =>
    by_cases hq : q = .tag
    · subst hq
      cases state with
      | stored b => cases h
      | tagged n => exact ⟨_, _, rfl, h⟩
      | complete n b => exact ⟨_, _, rfl, h⟩
    · obtain ⟨r, hr⟩ := settles_inspect hq (.enum type state payload) w
      rw [Query.within, hr]
      exact tag?_settle h w

/-- To answer for a value with a tag no tag is read. -/
theorem noTagReadSince_within {type : ValueType} {state : EnumState} {payload : Option Value}
    {tag : UInt32} (h : state.tag? = some tag) (q : Query) (w : World) :
    w.NoTagReadSince (q.within 0 (.enum type state payload) w).2 := by
  by_cases hq : q = .tag
  · subst hq
    refine ⟨[], ?_, nofun⟩
    cases state with
    | stored b => cases h
    | tagged n => rfl
    | complete n b => rfl
  · obtain ⟨r, hr⟩ := settles_inspect hq (.enum type state payload) w
    rw [Query.within, hr]
    exact noTagReadSince_settle _ w

/-! ## Values in memory -/

/-- Of a value in memory the tag is read, by one call, and nothing else is done. -/
theorem buffer?_within {type : ValueType} {state : EnumState} {b : Buffer}
    (h : state.buffer? = some b) (q : Query) (depth : Nat) (w : World) :
    ∃ state' w', q.within depth (.enum type state none) w = (.enum type state' none, w') ∧
      state'.buffer? = some b ∧
      (w' = w ∨ q = .tag ∧ ∃ c, type.tagCall b.address = .ok c ∧ w' = (w.invoke c).2) := by
  cases depth with
  | succ depth => exact ⟨state, w, rfl, h, .inl rfl⟩
  | zero =>
    have hsettle : settle (.enum type state none) w =
        ((.ok b.address, .enum type state none), w) := by
      cases state with
      | tagged n => cases h
      | stored b' => cases h; rfl
      | complete n b' => cases h; rfl
    by_cases hq : q = .tag
    · subst hq
      cases state with
      | tagged n => cases h
      | complete n b' => exact ⟨_, w, rfl, h, .inl rfl⟩
      | stored b' =>
        cases h
        have hrun := runOn_tag_stored type b none w
        rw [ValueType.run_readTag] at hrun
        rw [Query.within, Query.inspect, InspectOn.runOn_bind]
        rcases hc : type.tagCall b.address with e | c <;> simp only [hc] at hrun
        · rw [hrun]
          exact ⟨_, w, rfl, rfl, .inl rfl⟩
        · rcases hx : (w.invoke c).1 with e | x <;> simp only [hx] at hrun <;> rw [hrun]
          · exact ⟨_, _, rfl, rfl, .inr ⟨rfl, c, rfl, rfl⟩⟩
          · exact ⟨_, _, rfl, rfl, .inr ⟨rfl, c, rfl, rfl⟩⟩
    · obtain ⟨r, hr⟩ := settles_inspect hq (.enum type state none) w
      rw [Query.within, hr, hsettle]
      exact ⟨_, _, rfl, h, .inl rfl⟩

end Value

namespace LazyValue

/-- What becomes of a case still has its tag. -/
theorem Becomes.ofCase {type : ValueType} {tag : UInt32} {payload : Option LazyValue}
    {v : LazyValue} (inner : ∀ p ∈ payload, Reachable p)
    (h : (LazyValue.ofCase type tag payload).Becomes v) :
    ∃ state payload', v = (Value.enum type state payload').cells ∧ state.tag? = some tag := by
  obtain ⟨payload, rfl⟩ : ∃ inner : Option Value, payload = inner.map Value.cells := by
    cases payload with
    | none => exact ⟨none, rfl⟩
    | some p =>
      obtain ⟨u, hu⟩ := (inner p rfl).exists_cells
      exact ⟨some u, congrArg some hu⟩
  have hcells : (Value.ofCase type tag payload).cells
      = LazyValue.ofCase type tag (payload.map Value.cells) := Value.cells_enum ..
  rw [← hcells] at h
  obtain ⟨u, rfl, state, payload', rfl, hstate⟩ := h.invariant
    (fun u => ∃ state payload', u = .enum type state payload' ∧ state.tag? = some tag)
    ⟨_, _, rfl, rfl⟩ fun u q depth w hu => by
      obtain ⟨state, payload', rfl, hstate⟩ := hu
      exact Value.tag?_within hstate q depth w
  exact ⟨state, payload', rfl, hstate⟩

/-- What becomes of a value in memory still has its buffer. -/
theorem Becomes.ofBuffer {type : ValueType} {b : Buffer} {v : LazyValue}
    (h : (LazyValue.ofBuffer type b).Becomes v) :
    ∃ state, v = (Value.enum type state none).cells ∧ state.buffer? = some b := by
  obtain ⟨u, rfl, state, rfl, hstate⟩ := Becomes.invariant (u := .ofBuffer type b)
    (fun u => ∃ state, u = .enum type state none ∧ state.buffer? = some b) h
    ⟨_, rfl, rfl⟩ fun u q depth w hu => by
      obtain ⟨state, rfl, hstate⟩ := hu
      obtain ⟨state', w', hwithin, hstate', -⟩ := Value.buffer?_within hstate q depth w
      exact ⟨state', congrArg Prod.fst hwithin, hstate'⟩
  exact ⟨state, rfl, hstate⟩

end LazyValue

/-! ## Where values come from -/

namespace EnumType

theorem cells_of_makeCase {t : EnumType} {name : String} {payload : Option Value} {v : Value}
    {w w' : World} (h : (t.makeCase name payload).run w = (.ok v, w')) :
    ∃ tag, v.cells = .ofCase t.core tag (payload.map Value.cells) := by
  unfold makeCase at h
  rcases hc : t.caseOf name payload with e | u <;> rw [hc] at h
  · cases h
  · cases h
    obtain ⟨tag, rfl⟩ := eq_ofCase_of_caseOf hc
    exact ⟨tag, Value.cells_enum ..⟩

theorem cells_of_valueAt {t : EnumType} {a : Address} {v : Value} (h : t.valueAt a = .ok v) :
    ∃ b, v.cells = .ofBuffer t.core b := by
  unfold valueAt at h
  rcases hb : t.core.view a with e | b <;> rw [hb] at h <;> cases h
  exact ⟨b, rfl⟩

theorem cells_of_copyOf {t : EnumType} {source : Address} {v : Value} {w w' : World}
    (h : (t.copyOf source).run w = (.ok v, w')) : ∃ b, v.cells = .ofBuffer t.core b := by
  obtain ⟨b, w₁, -, h⟩ := Inspect.run_bind_ok h
  cases h
  exact ⟨b, rfl⟩

/-- An enum after it has been read and then asked about the values of its cases. -/
inductive Kept : EnumType → Prop
  | read {s : Settings} {d : EnumDescriptor} {t : EnumType} {w w' : World}
    (h : (EnumType.read s d).run w = (.ok t, w')) : Kept t
  | asked {t : EnumType} (h : Kept t) (name : String) (q : Query) (w : World) :
    Kept ((onCaseValue name q.inspect).runOn t w).1.2

theorem tagged_of_entriesFrom {s : Settings} {w : World} {index : Nat}
    {records : List FieldRecord} {kinds : List CaseKind} :
    ∀ e ∈ entriesFrom s w index records kinds, e.state = .tagged e.case.tag := by
  induction records generalizing index kinds with
  | nil => exact List.forall_mem_nil _
  | cons r records ih =>
    cases kinds with
    | nil => exact List.forall_mem_nil _
    | cons k kinds => exact List.forall_mem_cons.2 ⟨rfl, ih⟩

theorem tagged_of_read {s : Settings} {d : EnumDescriptor} {t : EnumType} {w w' : World}
    (h : (read s d).run w = (.ok t, w')) : ∀ e ∈ t.entries, e.state = .tagged e.case.tag := by
  obtain ⟨core, w₁, -, h⟩ := Inspect.run_bind_ok h
  obtain ⟨entries, w₂, hentries, h⟩ := Inspect.run_bind_ok h
  cases h
  obtain ⟨fields?, w₃, -, hentries⟩ := Inspect.run_bind_ok hentries
  rcases fields? with _ | fields
  · cases hentries
    exact List.forall_mem_nil _
  · simp only at hentries
    split at hentries
    · cases hentries
      exact List.forall_mem_nil _
    · obtain ⟨kinds, w₄, -, hentries⟩ := Inspect.run_bind_ok hentries
      obtain ⟨w₅, w₆, -, hentries⟩ := Inspect.run_bind_ok hentries
      cases hentries
      exact tagged_of_entriesFrom

/-- What is kept of the value of a case is what has become of it. -/
theorem Kept.becomes {t : EnumType} (h : Kept t) :
    ∀ e ∈ t.entries, (LazyValue.ofCase t.core e.case.tag none).Becomes
      (Value.enum t.core e.state none).cells := by
  induction h with
  | read h =>
    intro e he
    rw [tagged_of_read h e he]
    exact .refl
  | @asked t h name q w ih =>
    rcases hr : t.requireEmptyCase name with e | entry
    · rw [runOn_onCaseValue_of_error hr]
      exact ih
    · rw [runOn_onCaseValue_of_ok hr]
      have hentry := ih entry (List.mem_of_find?_eq_some (entry?_of_requireEmptyCase hr))
      have hanswers := (Value.enum t.core entry.state none).answers_cells q 0 w
      obtain ⟨state, hstate⟩ := (q.keeps_inspect t.core).run w ⟨entry.state, rfl⟩
      change (q.within 0 (.enum t.core entry.state none) w).1 = _ at hstate
      rw [hstate] at hanswers
      rw [show (q.inspect.runOn (.enum t.core entry.state none) w).1.2 = _ from hstate]
      intro e he
      rcases Keyed.mem_put _ he with rfl | he
      · exact hentry.asked hanswers
      · exact ih e he

theorem Kept.becomes_caseValue {t : EnumType} (h : Kept t) {name : String} {v : Value}
    (hv : t.caseValue name = .ok v) :
    ∃ tag, (LazyValue.ofCase t.core tag none).Becomes v.cells := by
  unfold caseValue at hv
  rcases hr : t.requireEmptyCase name with e | entry <;> rw [hr] at hv <;> cases hv
  exact ⟨_, h.becomes entry (List.mem_of_find?_eq_some (entry?_of_requireEmptyCase hr))⟩

end EnumType

namespace LazyValue

/-- In every state that an enum value can reach the tag or the buffer is there, of the payloads in
it, too; and every question is answered without one for a cell that is being filled, by as few calls
within calls as there are payloads in each other and two more, as it is for a `Value`. For a case,
as `makeCase` makes it and as an enum keeps it of its own, no tag is read. For a value in memory, as
`valueAt` and `copyOf` make it, all that is ever done is to call the function that reads the tag. -/
theorem answers_reachable :
    (∀ v, Reachable v → v.Ready ∧ ∃ u : Value, v = u.cells ∧
      ∀ (n : Nat) (q : Query) (depth : Nat) (w : World), u.payloads.length + 2 ≤ n →
        v.ask n q depth w = .ok ((q.within depth u w).1.cells, (q.within depth u w).2)) ∧
    (∀ type tag payload v, (∀ p ∈ payload, Reachable p) →
      (LazyValue.ofCase type tag payload).Becomes v →
      (∃ c, v = .enum c ∧ c.tag = .filled tag) ∧
        ∀ q w v' w', v.Answers q 0 w v' w' → w.NoTagReadSince w') ∧
    (∀ type b v, (LazyValue.ofBuffer type b).Becomes v →
      (∃ c, v = .enum c ∧ c.storage = .filled b ∧ c.payload = none) ∧
        ∀ q depth w v' w', v.Answers q depth w v' w' →
          w' = w ∨ q = .tag ∧ ∃ c, type.tagCall b.address = .ok c ∧ w' = (w.invoke c).2) ∧
    (∀ (t : EnumType) name payload v w w', (t.makeCase name payload).run w = (.ok v, w') →
      ∃ tag, v.cells = .ofCase t.core tag (payload.map Value.cells)) ∧
    (∀ t : EnumType, t.Kept → ∀ name v, t.caseValue name = .ok v →
      ∃ tag, (LazyValue.ofCase t.core tag none).Becomes v.cells) ∧
    (∀ (t : EnumType) a v, t.valueAt a = .ok v → ∃ b, v.cells = .ofBuffer t.core b) ∧
    ∀ (t : EnumType) source v w w', (t.copyOf source).run w = (.ok v, w') →
      ∃ b, v.cells = .ofBuffer t.core b := by
  refine ⟨fun v hv => ?_, fun type tag payload v inner hv => ?_, fun type b v hv => ?_,
    fun t name payload v w w' => EnumType.cells_of_makeCase,
    fun t ht name v => ht.becomes_caseValue, fun t a v => EnumType.cells_of_valueAt,
    fun t source v w w' => EnumType.cells_of_copyOf⟩
  · obtain ⟨u, rfl⟩ := hv.exists_cells
    exact ⟨u.ready_cells, u, rfl, fun n q depth w hn => u.ask_cells q depth w hn⟩
  · obtain ⟨state, payload', rfl, hstate⟩ := hv.ofCase inner
    refine ⟨⟨_, Value.cells_enum .., by rw [EnumState.cells, hstate]; rfl⟩, ?_⟩
    intro q w v' w' hanswers
    obtain ⟨-, rfl⟩ := hanswers.unique (Value.answers_cells _ q 0 w)
    exact Value.noTagReadSince_within hstate q w
  · obtain ⟨state, rfl, hstate⟩ := hv.ofBuffer
    refine ⟨⟨_, Value.cells_enum .., by rw [EnumState.cells, hstate]; rfl, rfl⟩, ?_⟩
    intro q depth w v' w' hanswers
    obtain ⟨-, rfl⟩ := hanswers.unique (Value.answers_cells _ q depth w)
    obtain ⟨state', w', hwithin, -, hw⟩ := Value.buffer?_within hstate q depth w
    rw [hwithin]
    exact hw

/-- A case that carries a case gets its place in three calls, none of which reads a tag. -/
theorem answers_reachable_case_in_case :
    let w := Value.worldOf (StandIn.const 0) (StandIn.const 0)
    Reachable Value.caseInCase.cells ∧ Value.caseInCase.cells.Ready ∧
      ∃ v' w', Value.caseInCase.cells.Answers .address 0 w v' w' ∧ w'.calls.length = 3 ∧
        w.NoTagReadSince w' := by
  intro w
  have inner : ∀ p ∈ some (LazyValue.ofCase (Value.enumOf ⟨0x100⟩ ⟨0x100⟩ ⟨0x600⟩ 8) 2 none),
      Reachable p := by
    rintro p ⟨rfl⟩
    exact .ofCase (fun p hp => (Option.not_mem_none p hp).elim) .refl
  have hreachable : Reachable Value.caseInCase.cells := .ofCase inner .refl
  have hanswers := Value.caseInCase.answers_cells .address 0 w
  have hcalls : (Query.within .address 0 Value.caseInCase w).2.calls.length = 3 := by
    decide +kernel
  exact ⟨hreachable, (answers_reachable.1 _ hreachable).1, _, _, hanswers, hcalls,
    (answers_reachable.2.1 _ _ _ _ inner .refl).2 _ _ _ _ hanswers⟩

/-- Of a value with neither the tag asks for the buffer, which asks for the tag. -/
example : (EnumCells.readingTag 4).runOn
    ⟨Value.enumOf ⟨0x100⟩ ⟨0x110⟩ ⟨0x500⟩ 16, .empty, .empty, none⟩
    (Value.worldOf (StandIn.const 0) (StandIn.const 0)) = .error .reentered := rfl

end LazyValue

end TypeMetadata
