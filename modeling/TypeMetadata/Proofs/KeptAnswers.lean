import TypeMetadata.Proofs.CellDirections

/-!
# Answers that are kept

What keeps an answer has a cell for it: it is looked into first, and filled with the answer if it is
empty (`InspectOn.Memoizes`). If no request empties the cell, the first answer is the answer from
then on (`Memoizes.answersOnce`). The cells of a value are never emptied, whatever it or a payload
in it is asked for: `Value.KnownIn` is what every request keeps (`Value.knownIn_within`). What they
are filled with depends on the requests so far and their worlds: `Value.afterAll_inMemory` says how
for a value in memory, and `Value.placedAfter_ofCase` for the value of a case.
-/

namespace TypeMetadata

/-- What is left of `s` after requests, each made in a world of its own. -/
def afterAll {σ ι : Type} (step : ι → World → σ → σ) (s : σ) (asked : List (World × ι)) : σ :=
  asked.foldl (fun s wi => step wi.2 wi.1 s) s

/-- What every request keeps holds after all of them. -/
theorem afterAll_invariant {σ ι : Type} {step : ι → World → σ → σ} {P : σ → Prop}
    (hstep : ∀ i w s, P s → P (step i w s)) {s : σ} (hs : P s) (asked : List (World × ι)) :
    P (afterAll step s asked) := by
  induction asked generalizing s with
  | nil => exact hs
  | cons wi asked ih => exact ih (hstep wi.2 wi.1 s hs)

namespace InspectOn

variable {σ α β ι : Type} {step : ι → World → σ → σ} {x : InspectOn σ α} {cell : σ → Option α}

/-- The inspection keeps its answer in `cell`, and once it is there only looks there. -/
structure Memoizes (x : InspectOn σ α) (cell : σ → Option α) : Prop where
  filled : ∀ {s a}, cell s = some a → ∀ w, x.runOn s w = ((.ok a, s), w)
  fills : ∀ s w, cell (x.runOn s w).1.2 = (x.runOn s w).1.1.toOption

/-- The first answer is the answer from then on, whatever is asked for in between and in whatever
world, and for it nothing is read, called or changed. Where there is no answer, there was none
before and none is kept. -/
structure AnswersOnce (step : ι → World → σ → σ) (x : InspectOn σ α) (cell : σ → Option α) :
    Prop where
  stays : ∀ s w a s₁ w₁, x.runOn s w = ((.ok a, s₁), w₁) → ∀ asked u,
    x.runOn (afterAll step s₁ asked) u = ((.ok a, afterAll step s₁ asked), u)
  failed : ∀ s w e s₁ w₁, x.runOn s w = ((.error e, s₁), w₁) → cell s = none ∧ cell s₁ = none

theorem Memoizes.answersOnce (h : Memoizes x cell)
    (hstep : ∀ i w s a, cell s = some a → cell (step i w s) = some a) :
    AnswersOnce step x cell where
  stays s w a s₁ w₁ hrun asked u := by
    have hcell := h.fills s w
    rw [hrun] at hcell
    exact h.filled (afterAll_invariant (fun i w s => hstep i w s a) hcell asked) u
  failed s w e s₁ w₁ hrun := by
    have hcell := h.fills s w
    rw [hrun] at hcell
    refine ⟨?_, hcell⟩
    rcases hs : cell s with _ | a
    · rfl
    · rw [h.filled hs] at hrun
      cases hrun

theorem Memoizes.map (h : Memoizes x cell) (f : α → β) :
    Memoizes (f <$> x) fun s => (cell s).map f where
  filled {s b} hs w := by
    obtain ⟨a, ha, rfl⟩ := Option.map_eq_some_iff.1 hs
    rw [runOn_map, h.filled ha]
    rfl
  fills s w := by
    rw [runOn_map, h.fills]
    cases (x.runOn s w).1.1 <;> rfl

/-- What is inspected is a part, of which `y` answers as `x` does, or there is no such part and the
answer to `y` is always the same. -/
theorem Memoizes.part {τ : Type} {x : InspectOn τ α} {cell : τ → Option α} (h : Memoizes x cell)
    (f : α → β) {y : InspectOn σ β} {cell' : σ → Option β}
    (hy : ∀ s, (∃ (t : τ) (put : τ → σ), s = put t ∧ (∀ t', cell' (put t') = (cell t').map f) ∧
        ∀ w, y.runOn s w =
          (((x.runOn t w).1.1.map f, put (x.runOn t w).1.2), (x.runOn t w).2)) ∨
      ∃ b, cell' s = some b ∧ ∀ w, y.runOn s w = ((.ok b, s), w)) : Memoizes y cell' where
  filled {s b} hs w := by
    rcases hy s with ⟨t, put, rfl, hcell, hrun⟩ | ⟨b', hb, hrun⟩
    · rw [hcell] at hs
      obtain ⟨a, ha, rfl⟩ := Option.map_eq_some_iff.1 hs
      rw [hrun, h.filled ha]
      rfl
    · cases hb.symm.trans hs
      exact hrun w
  fills s w := by
    rcases hy s with ⟨t, put, rfl, hcell, hrun⟩ | ⟨b, hb, hrun⟩
    · rw [hrun, hcell, h.fills]
      cases (x.runOn t w).1.1 <;> rfl
    · rw [hrun]
      exact hb

end InspectOn

open InspectOn (Memoizes AnswersOnce)

/-- What is known of an enum value is known of it later, too. -/
structure EnumState.KnownIn (s s' : EnumState) : Prop where
  tag : ∀ n, s.tag? = some n → s'.tag? = some n
  buffer : ∀ b, s.buffer? = some b → s'.buffer? = some b

namespace EnumState.KnownIn

theorem refl (s : EnumState) : s.KnownIn s := ⟨fun _ h => h, fun _ h => h⟩

theorem complete_of_tagged (n : UInt32) (b : Buffer) : (tagged n).KnownIn (complete n b) :=
  ⟨fun _ h => h, nofun⟩

theorem complete_of_stored (n : UInt32) (b : Buffer) : (stored b).KnownIn (complete n b) :=
  ⟨nofun, fun _ h => h⟩

end EnumState.KnownIn

namespace Value

/-- What is known of a value and of the payloads in it is known of them later, too. -/
inductive KnownIn : Value → Value → Prop
  | struct (type : ValueType) (b : Buffer) : KnownIn (.struct type b) (.struct type b)
  | object (reference : ObjectReference) : KnownIn (.object reference) (.object reference)
  | bare (type : ValueType) {state state' : EnumState} (h : state.KnownIn state') :
    KnownIn (.enum type state none) (.enum type state' none)
  | around (type : ValueType) {state state' : EnumState} {inner inner' : Value}
    (h : state.KnownIn state') (hinner : KnownIn inner inner') :
    KnownIn (.enum type state (some inner)) (.enum type state' (some inner'))

theorem KnownIn.refl : ∀ v : Value, v.KnownIn v
  | .struct type b => .struct type b
  | .object reference => .object reference
  | .enum type state none => .bare type (.refl state)
  | .enum type state (some inner) => .around type (.refl state) (KnownIn.refl inner)

theorem KnownIn.enum {type : ValueType} {state state' : EnumState} (h : state.KnownIn state') :
    ∀ payload : Option Value, (Value.enum type state payload).KnownIn (.enum type state' payload)
  | none => .bare type h
  | some inner => .around type h (.refl inner)

/-- Giving a value its place empties no cell, even where it fails. -/
theorem knownIn_settle : ∀ (v : Value) (w : World), v.KnownIn (v.settle w).1.2
  | .struct type b, _ => .struct type b
  | .object reference, _ => .object reference
  | .enum type (.stored b) payload, _ => .refl _
  | .enum type (.complete n b) payload, _ => .refl _
  | .enum type (.tagged n) none, w => by
    obtain ⟨payload, rfl | ⟨inner, w₁, hinner, -⟩, ⟨e, h⟩ | ⟨b, h⟩⟩ :=
      settle_ofCase type n none w
    · exact h ▸ .refl _
    · exact h ▸ .bare type (.complete_of_tagged n b)
    all_goals cases hinner
  | .enum type (.tagged n) (some inner), w => by
    obtain ⟨payload, hpayload, hsettle⟩ := settle_ofCase type n (some inner) w
    obtain ⟨inner', hinner, rfl⟩ : ∃ inner', inner.KnownIn inner' ∧ payload = some inner' := by
      rcases hpayload with rfl | ⟨inner, w₁, ⟨rfl⟩, rfl⟩
      · exact ⟨inner, .refl inner, rfl⟩
      · exact ⟨_, inner.knownIn_settle w₁, rfl⟩
    rcases hsettle with ⟨e, h⟩ | ⟨b, h⟩
    · exact h ▸ .around type (.refl _) hinner
    · exact h ▸ .around type (.complete_of_tagged n b) hinner

theorem knownIn_tag (v : Value) (w : World) : v.KnownIn (tag.runOn v w).1.2 := by
  cases v with
  | struct type b => exact .struct type b
  | object reference => exact .object reference
  | enum type state payload =>
    cases state with
    | tagged n => exact .refl _
    | complete n b => exact .refl _
    | stored b =>
      rw [runOn_tag_stored]
      rcases (type.readTag b.address).run w with ⟨e | n, w'⟩
      · exact .refl _
      · exact .enum (.complete_of_stored n b) payload

theorem knownIn_inspect (q : Query) (v : Value) (w : World) :
    v.KnownIn (q.inspect.runOn v w).1.2 := by
  by_cases hq : q = .tag
  · subst hq
    rw [Query.inspect, InspectOn.runOn_leave]
    exact v.knownIn_tag w
  · obtain ⟨r, hr⟩ := settles_inspect hq v w
    rw [hr]
    exact v.knownIn_settle w

/-- No request to a value or to a payload in it empties a cell. -/
theorem knownIn_within (q : Query) : ∀ (depth : Nat) (v : Value) (w : World),
    v.KnownIn (q.within depth v w).1
  | 0, v, w => knownIn_inspect q v w
  | depth + 1, .enum type state (some inner), w =>
    .around type (.refl state) (knownIn_within q depth inner w)
  | _ + 1, .enum _ _ none, _ => .refl _
  | _ + 1, .struct type b, _ => .struct type b
  | _ + 1, .object reference, _ => .object reference

/-! ## The cells of a value -/

/-- The tag as far as it is known; what is no enum value is known to have none. -/
def tagCell : Value → Option (Option UInt32)
  | enum _ state _ => state.tag?.map some
  | _ => some none

/-- The buffer as far as it is known; an object is known to have none. -/
def bufferCell : Value → Option (Option Buffer)
  | struct _ b => some (some b)
  | enum _ state _ => state.buffer?.map some
  | object _ => some none

/-- The place as far as it is known. -/
def placeCell : Value → Option Address
  | struct _ b => some b.address
  | enum _ state _ => state.buffer?.map Buffer.address
  | object reference => some reference.address

theorem memoizes_tag : Memoizes tag tagCell where
  filled {v n} hv w := by
    cases v with
    | struct type b => cases hv; rfl
    | object reference => cases hv; rfl
    | enum type state payload => cases state <;> cases hv <;> rfl
  fills v w := by
    cases v with
    | struct type b => rfl
    | object reference => rfl
    | enum type state payload =>
      cases state with
      | tagged n => rfl
      | complete n b => rfl
      | stored b =>
        rw [runOn_tag_stored]
        rcases (type.readTag b.address).run w with ⟨e | n, w'⟩ <;> rfl

/-- A value has its place where it was given one, and otherwise has none. -/
theorem placeCell_settle (v : Value) (w : World) :
    placeCell (v.settle w).1.2 = (v.settle w).1.1.toOption := by
  cases v with
  | struct type b => rfl
  | object reference => rfl
  | enum type state payload =>
    cases state with
    | stored b => rfl
    | complete n b => rfl
    | tagged n =>
      obtain ⟨payload', -, ⟨e, h⟩ | ⟨b, h⟩⟩ := settle_ofCase type n payload w <;>
        · rw [← ofCase, h]
          rfl

theorem settle_of_placeCell {v : Value} {a : Address} (h : v.placeCell = some a) (w : World) :
    v.settle w = ((.ok a, v), w) := by
  cases v with
  | struct type b => cases h; rfl
  | object reference => cases h; rfl
  | enum type state payload => cases state <;> cases h <;> rfl

theorem memoizes_address : Memoizes address placeCell where
  filled := settle_of_placeCell
  fills := placeCell_settle

theorem runOn_buffer (v : Value) (w : World) :
    buffer.runOn v w =
      (((v.settle w).1.1.map fun _ => (v.settle w).1.2.buffer?, (v.settle w).1.2),
        (v.settle w).2) := by
  unfold buffer
  rw [InspectOn.runOn_bind, runOn_address]
  rcases v.settle w with ⟨⟨e | a, v'⟩, w'⟩ <;> rfl

theorem knownIn_buffer (v : Value) (w : World) : v.KnownIn (buffer.runOn v w).1.2 := by
  rw [runOn_buffer]
  exact v.knownIn_settle w

/-- The buffer is known where the place is. -/
theorem bufferCell_eq (v : Value) : v.bufferCell = v.placeCell.map fun _ => v.buffer? := by
  cases v with
  | struct type b => rfl
  | object reference => rfl
  | enum type state payload => cases state <;> rfl

theorem memoizes_buffer : Memoizes buffer bufferCell where
  filled {v b} hv w := by
    rw [bufferCell_eq] at hv
    obtain ⟨a, ha, rfl⟩ := Option.map_eq_some_iff.1 hv
    rw [runOn_buffer, settle_of_placeCell ha]
    rfl
  fills v w := by
    rw [runOn_buffer, bufferCell_eq, placeCell_settle]
    cases (v.settle w).1.1 <;> rfl

/-- A cell of values that is not emptied as long as nothing is forgotten. -/
def Lasting {α : Type} (cell : Value → Option α) : Prop :=
  ∀ (v v' : Value) (a : α), v.KnownIn v' → cell v = some a → cell v' = some a

/-- What is kept of the state of an enum value lasts. -/
theorem lasting_of_state {α β : Type} {cell : Value → Option α} {known? : EnumState → Option β}
    {f : β → α} (hcell : ∀ type state payload,
      cell (.enum type state payload) = (known? state).map f)
    (hknown : ∀ {s s' : EnumState}, s.KnownIn s' → ∀ b, known? s = some b → known? s' = some b) :
    Lasting cell := by
  intro v v' a h hv
  cases h with
  | struct type b => exact hv
  | object reference => exact hv
  | bare type h | around type h hinner =>
    rw [hcell] at hv ⊢
    obtain ⟨b, hb, rfl⟩ := Option.map_eq_some_iff.1 hv
    rw [hknown h b hb]
    rfl

theorem lasting_tagCell : Lasting tagCell :=
  lasting_of_state (fun _ _ _ => rfl) EnumState.KnownIn.tag

theorem lasting_bufferCell : Lasting bufferCell :=
  lasting_of_state (fun _ _ _ => rfl) EnumState.KnownIn.buffer

theorem lasting_placeCell : Lasting placeCell :=
  lasting_of_state (fun _ _ _ => rfl) EnumState.KnownIn.buffer

/-! ## The cells of payloads -/

/-- Inspect the payload that lies `depth` payloads deep in a value, unless there is none. -/
def onPayload {α : Type} (x : InspectOn Value α) : Nat → InspectOn Value (Option α)
  | 0 => some <$> x
  | depth + 1 => do
    match ← InspectOn.current with
    | .enum type state (some inner) =>
      InspectOn.onPart (fun _ => inner) (fun _ inner => .enum type state (some inner))
        (onPayload x depth)
    | _ => return none

/-- The cell of that payload. -/
def payloadCell {α : Type} (cell : Value → Option α) : Nat → Value → Option (Option α)
  | 0, v => (cell v).map some
  | depth + 1, .enum _ _ (some inner) => payloadCell cell depth inner
  | _ + 1, _ => some none

variable {α : Type} {x : InspectOn Value α} {cell : Value → Option α}

theorem memoizes_onPayload (h : Memoizes x cell) :
    ∀ depth, Memoizes (onPayload x depth) (payloadCell cell depth)
  | 0 => h.map some
  | depth + 1 => by
    refine (memoizes_onPayload h depth).part id fun v => ?_
    cases v with
    | struct type b => exact .inr ⟨none, rfl, fun _ => rfl⟩
    | object reference => exact .inr ⟨none, rfl, fun _ => rfl⟩
    | enum type state payload =>
      cases payload with
      | none => exact .inr ⟨none, rfl, fun _ => rfl⟩
      | some inner =>
        refine .inl ⟨inner, fun inner => .enum type state (some inner), rfl, fun inner' => ?_,
          fun w => ?_⟩
        · rw [Option.map_id_apply]
          rfl
        · rw [Except.map_id]
          rfl

theorem Lasting.payloadCell (h : Lasting cell) : ∀ depth, Lasting (payloadCell cell depth)
  | 0 => by
    intro v v' a hknown hv
    obtain ⟨b, hb, rfl⟩ := Option.map_eq_some_iff.1 hv
    exact Option.map_eq_some_iff.2 ⟨b, h v v' b hknown hb, rfl⟩
  | depth + 1 => by
    intro v v' a hknown hv
    cases hknown with
    | struct type b => exact hv
    | object reference => exact hv
    | bare type hstate => exact hv
    | around type hstate hinner => exact h.payloadCell depth _ _ a hinner hv

/-- The value after the payload that lies so deep in it was asked. -/
def asked (i : Nat × Query) (w : World) (v : Value) : Value := (i.2.within i.1 v w).1

theorem Lasting.asked (h : Lasting cell) (i : Nat × Query) (w : World) (v : Value) (a : α)
    (hv : cell v = some a) : cell (asked i w v) = some a :=
  h v _ a (knownIn_within i.2 i.1 v w) hv

theorem Lasting.afterAll (h : Lasting cell) {v : Value} {a : α} (hv : cell v = some a)
    (asks : List (World × Nat × Query)) : cell (afterAll Value.asked v asks) = some a :=
  afterAll_invariant (fun i w v => h.asked i w v a) hv asks

theorem answersOnce_onPayload (h : Memoizes x cell) (hcell : Lasting cell) (depth : Nat) :
    AnswersOnce asked (onPayload x depth) (payloadCell cell depth) :=
  (memoizes_onPayload h depth).answersOnce (hcell.payloadCell depth).asked

/-- Each answer of a value, and of the payloads in it, stays from the first time it is given. -/
structure FirstAnswersStay : Prop where
  tag : AnswersOnce asked tag tagCell
  place : AnswersOnce asked address placeCell
  buffer : AnswersOnce asked buffer bufferCell
  payloadTag : ∀ depth, AnswersOnce asked (onPayload Value.tag depth) (payloadCell tagCell depth)
  payloadPlace : ∀ depth,
    AnswersOnce asked (onPayload Value.address depth) (payloadCell placeCell depth)
  payloadBuffer : ∀ depth,
    AnswersOnce asked (onPayload Value.buffer depth) (payloadCell bufferCell depth)

theorem firstAnswersStay : FirstAnswersStay where
  tag := memoizes_tag.answersOnce lasting_tagCell.asked
  place := memoizes_address.answersOnce lasting_placeCell.asked
  buffer := memoizes_buffer.answersOnce lasting_bufferCell.asked
  payloadTag := answersOnce_onPayload memoizes_tag lasting_tagCell
  payloadPlace := answersOnce_onPayload memoizes_address lasting_placeCell
  payloadBuffer := answersOnce_onPayload memoizes_buffer lasting_bufferCell

/-! ## Values in memory -/

/-- The tag that is read for a request to a value in memory; requests to payloads reach none. -/
def tagRead (type : ValueType) (b : Buffer) : World × Nat × Query → Option UInt32
  | (w, 0, .tag) => ((type.readTag b.address).run w).1.toOption
  | _ => none

/-- The tag as it could first be read when it was asked for. -/
def firstTag (type : ValueType) (b : Buffer) (asks : List (World × Nat × Query)) : Option UInt32 :=
  asks.findSome? (tagRead type b)

/-- The value in memory with this tag, or whose tag is not known. -/
def inMemory (type : ValueType) (b : Buffer) : Option UInt32 → Value
  | none => .ofBuffer type b
  | some n => .enum type (.complete n b) none

theorem settle_inMemory (type : ValueType) (b : Buffer) (n? : Option UInt32) (w : World) :
    (inMemory type b n?).settle w = ((.ok b.address, inMemory type b n?), w) := by
  cases n? <;> rfl

theorem asked_inMemory (type : ValueType) (b : Buffer) (n? : Option UInt32) (i : Nat × Query)
    (w : World) :
    asked i w (inMemory type b n?) = inMemory type b (n?.or (tagRead type b (w, i))) := by
  obtain ⟨_ | depth, q⟩ := i
  · by_cases hq : q = .tag
    · subst hq
      unfold asked
      rw [Query.within, Query.inspect]
      cases n? with
      | some n => rfl
      | none =>
        change ((do let _ ← Value.tag : InspectOn Value PUnit).runOn (ofBuffer type b) w).1.2 = _
        rw [InspectOn.runOn_leave, ofBuffer, runOn_tag_stored, tagRead]
        rcases (type.readTag b.address).run w with ⟨e | n, w'⟩ <;> rfl
    · have hnone : tagRead type b (w, 0, q) = none := by
        cases q with
        | tag => exact absurd rfl hq
        | address | buffer | bytes => rfl
      obtain ⟨r, hr⟩ := settles_inspect hq (inMemory type b n?) w
      unfold asked
      rw [Query.within, hr, settle_inMemory, hnone, Option.or_none]
  · cases n? <;> rfl

/-- The tag of a value in memory is the one that could first be read. -/
theorem afterAll_inMemory (type : ValueType) (b : Buffer) (n? : Option UInt32)
    (asks : List (World × Nat × Query)) :
    afterAll asked (inMemory type b n?) asks = inMemory type b (n?.or (firstTag type b asks)) := by
  induction asks generalizing n? with
  | nil => rw [firstTag, List.findSome?_nil, Option.or_none]; rfl
  | cons wi asks ih =>
    have hstep := ih (n?.or (tagRead type b wi))
    rw [← asked_inMemory] at hstep
    refine hstep.trans ?_
    rw [firstTag, firstTag, List.findSome?_cons, Option.or_assoc]
    rcases tagRead type b wi with _ | n <;> rfl

/-- What a value in memory answers of which `n?` is the tag, if there is one. -/
structure AnswersInMemory (type : ValueType) (b : Buffer) (n? : Option UInt32) (v : Value) :
    Prop where
  tag : ∀ w, (Value.tag.runOn v w).1.1 =
    (n?.elim ((type.readTag b.address).run w).1 .ok).map some
  place : ∀ w, Value.address.runOn v w = ((.ok b.address, v), w)
  buffer : ∀ w, Value.buffer.runOn v w = ((.ok (some b), v), w)

theorem answersInMemory_afterAll (type : ValueType) (b : Buffer)
    (asks : List (World × Nat × Query)) :
    AnswersInMemory type b (firstTag type b asks) (afterAll asked (.ofBuffer type b) asks) := by
  have hafter := afterAll_inMemory type b none asks
  rw [Option.none_or] at hafter
  change afterAll asked (.ofBuffer type b) asks = _ at hafter
  rw [hafter]
  refine ⟨fun w => ?_, settle_inMemory type b _, fun w => ?_⟩
  · cases firstTag type b asks with
    | some n => rfl
    | none =>
      rw [inMemory, ofBuffer, runOn_tag_stored]
      rcases (type.readTag b.address).run w with ⟨e | n, w'⟩ <;> rfl
  · rw [runOn_buffer, settle_inMemory]
    cases firstTag type b asks <;> rfl

/-! ## Values of cases -/

/-- The request is for something of the value itself that it needs a place for. -/
def NeedsPlace (i : Nat × Query) : Prop := i.1 = 0 ∧ i.2 ≠ .tag

theorem asked_ofCase (type : ValueType) (n : UInt32) (payload : Option Value) (i : Nat × Query)
    (w : World) : ∃ payload',
      (asked i w (ofCase type n payload) = ofCase type n payload' ∧
        (NeedsPlace i → ∃ e, ((ofCase type n payload).settle w).1.1 = .error e)) ∨
      (NeedsPlace i ∧ ∃ b, ((ofCase type n payload).settle w).1.1 = .ok b.address ∧
        asked i w (ofCase type n payload) = .enum type (.complete n b) payload') := by
  obtain ⟨_ | depth, q⟩ := i
  · by_cases hq : q = .tag
    · subst hq
      exact ⟨payload, .inl ⟨rfl, fun h => absurd rfl h.2⟩⟩
    · obtain ⟨r, hr⟩ := settles_inspect hq (ofCase type n payload) w
      have hasked : asked (0, q) w (ofCase type n payload) =
          ((ofCase type n payload).settle w).1.2 := by
        unfold asked
        rw [Query.within, hr]
      rw [hasked]
      obtain ⟨payload', -, ⟨e, h⟩ | ⟨b, h⟩⟩ := settle_ofCase type n payload w <;> rw [h]
      · exact ⟨payload', .inl ⟨rfl, fun _ => ⟨e, rfl⟩⟩⟩
      · exact ⟨payload', .inr ⟨⟨rfl, hq⟩, b, rfl, rfl⟩⟩
  · cases payload with
    | none => exact ⟨none, .inl ⟨rfl, fun h => absurd h.1 (Nat.succ_ne_zero depth)⟩⟩
    | some inner =>
      exact ⟨some (q.within depth inner w).1,
        .inl ⟨rfl, fun h => absurd h.1 (Nat.succ_ne_zero depth)⟩⟩

/-- What has become of `v`, the value of a case with this tag, after requests: either it is still
one without a place, as every request that needs a place has failed, or one of them was the first to
be answered, and the value has the place that it was given then. -/
inductive PlacedAfter (type : ValueType) (n : UInt32) (v : Value)
    (asks : List (World × Nat × Query)) : Prop
  | waiting (payload : Option Value) (unplaced : afterAll asked v asks = .ofCase type n payload)
    (failed : ∀ before w i later, asks = before ++ (w, i) :: later → NeedsPlace i →
      ∃ e, ((afterAll asked v before).settle w).1.1 = .error e)
  | placed (before : List (World × Nat × Query)) (w : World) (i : Nat × Query)
    (later : List (World × Nat × Query)) (b : Buffer) (payload : Option Value)
    (split : asks = before ++ (w, i) :: later) (needed : NeedsPlace i)
    (unplaced : afterAll asked v before = .ofCase type n payload)
    (answer : ((afterAll asked v before).settle w).1.1 = .ok b.address)
    (place : ∀ u, address.runOn (afterAll asked v asks) u =
      ((.ok b.address, afterAll asked v asks), u))
    (buffer : ∀ u, buffer.runOn (afterAll asked v asks) u =
      ((.ok (some b), afterAll asked v asks), u))

theorem placedAfter_ofCase (type : ValueType) (n : UInt32) (payload : Option Value)
    (asks : List (World × Nat × Query)) : PlacedAfter type n (.ofCase type n payload) asks := by
  induction asks generalizing payload with
  | nil =>
    refine .waiting payload rfl fun before w i later hsplit => ?_
    exact absurd hsplit.symm (List.append_ne_nil_of_right_ne_nil _ (List.cons_ne_nil _ _))
  | cons wi asks ih =>
    obtain ⟨payload', ⟨hstep, hfailed⟩ | ⟨hneeded, b, hanswer, hstep⟩⟩ :=
      asked_ofCase type n payload wi.2 wi.1
    · have hafter (asks' : List (World × Nat × Query)) :
          afterAll asked (.ofCase type n payload) (wi :: asks') =
            afterAll asked (.ofCase type n payload') asks' :=
        congrArg (afterAll asked · asks') hstep
      cases ih payload' with
      | waiting payload'' unplaced failed =>
        refine .waiting payload'' (hafter asks ▸ unplaced) fun before w i later hsplit hi => ?_
        rcases List.cons_eq_append_iff.1 hsplit with ⟨rfl, hhead⟩ | ⟨before', rfl, hrest⟩
        · cases hhead
          exact hfailed hi
        · rw [hafter]
          exact failed before' w i later hrest hi
      | placed before w i later b payload'' split needed unplaced answer place buffer =>
        refine .placed (wi :: before) w i later b payload'' ?_ needed ?_ ?_ ?_ ?_
        · rw [split, List.cons_append]
        · rw [hafter, unplaced]
        · rw [hafter, answer]
        · rw [hafter]
          exact place
        · rw [hafter]
          exact buffer
    · have hafter : afterAll asked (.ofCase type n payload) (wi :: asks) =
          afterAll asked (.enum type (.complete n b) payload') asks :=
        congrArg (afterAll asked · asks) hstep
      refine .placed [] wi.1 wi.2 asks b payload rfl hneeded rfl hanswer ?_ ?_
      · rw [hafter]
        exact memoizes_address.filled (lasting_placeCell.afterAll rfl asks)
      · rw [hafter]
        exact memoizes_buffer.filled (lasting_bufferCell.afterAll rfl asks)

/-- What the value of a case with the tag `n` answers after requests. -/
structure AnswersAsCase (type : ValueType) (n : UInt32) (v : Value)
    (asks : List (World × Nat × Query)) : Prop where
  tag : ∀ w, Value.tag.runOn (afterAll asked v asks) w =
    ((.ok (some n), afterAll asked v asks), w)
  place : PlacedAfter type n v asks

theorem answersAsCase_afterAll (type : ValueType) (n : UInt32) (payload : Option Value)
    (asks : List (World × Nat × Query)) :
    AnswersAsCase type n (.ofCase type n payload) asks where
  tag := memoizes_tag.filled (lasting_tagCell.afterAll rfl asks)
  place := placedAfter_ofCase type n payload asks

end Value

end TypeMetadata
