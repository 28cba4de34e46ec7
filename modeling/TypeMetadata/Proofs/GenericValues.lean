import TypeMetadata.Proofs.GenericTypes
import TypeMetadata.Proofs.Holdings
import TypeMetadata.Proofs.Materialization
import TypeMetadata.Reflection.Initializer

/-!
# Values without a place

A value of a generic enum is a tag and maybe a payload, and never gets a place in memory
(`Value.WithoutPlace`). So nothing happens when it is asked for one, and no initializer is called
with it (`Initializer.runOn_invoke`). An enum value that has such a value for its payload, however
deep inside, gets no place either: the buffers that were allocated for the levels around it are
released again (`Value.settle_of_pending_uninstantiated`).
-/

namespace TypeMetadata

/-! ## Inspections that change nothing -/

namespace InspectOn

variable {σ α β : Type} {P : σ → Prop}

/-- Of a part for which `P` holds the inspection makes another such; the world stays as it is. -/
def Idles (P : σ → Prop) (x : InspectOn σ α) : Prop :=
  ∀ s w, P s → P (x.runOn s w).1.2 ∧ (x.runOn s w).2 = w

theorem Idles.pure (a : α) : Idles P (Pure.pure a : InspectOn σ α) := fun _ _ h => ⟨h, rfl⟩

theorem Idles.bind {x : InspectOn σ α} {f : α → InspectOn σ β} (hx : Idles P x)
    (hf : ∀ a, Idles P (f a)) : Idles P (x >>= f) := by
  intro s w h
  obtain ⟨hs, hw⟩ := hx s w h
  rw [runOn_bind]
  rcases hr : x.runOn s w with ⟨⟨e | a, s'⟩, w'⟩ <;> rw [hr] at hs hw <;> cases hw
  · exact ⟨hs, rfl⟩
  · exact hf a s' w' hs

theorem Idles.map {x : InspectOn σ α} (f : α → β) (h : Idles P x) : Idles P (f <$> x) := by
  rw [map_eq_pure_bind]
  exact h.bind fun _ => .pure _

theorem Idles.discard {x : InspectOn σ α} (h : Idles P x) :
    Idles P (do let _ ← x : InspectOn σ PUnit) := h.bind fun _ => .pure _

theorem Idles.decode (d : Decoder α) : Idles P (InspectOn.lift (Inspect.decode d)) := by
  intro s w h
  rw [runOn_lift, Inspect.run_decode]
  exact ⟨h, rfl⟩

/-- What an inspection does that changes nothing at all. -/
theorem Idles.runOn_eq {s : σ} {x : InspectOn σ α} (h : Idles (· = s) x) (w : World) :
    ((x.runOn s w).1.2, (x.runOn s w).2) = (s, w) :=
  Prod.ext (h s w rfl).1 (h s w rfl).2

end InspectOn

open InspectOn (Idles)

/-! ## Values without a place -/

namespace Value

variable {t : ValueType}

/-- A value of an enum that is given by its tag, and so is its payload if it has one. -/
inductive Own (t : ValueType) : Value → Prop
  | bare (tag : UInt32) : Own t (ofCase t tag none)
  | around (tag : UInt32) {v : Value} (h : Own t v) : Own t (ofCase t tag (some v))

theorem runOn_tag_ofCase (tag : UInt32) (payload : Option Value) (w : World) :
    Value.tag.runOn (ofCase t tag payload) w = ((.ok (some tag), ofCase t tag payload), w) := rfl

/-- A value of a type without a layout gets no place, and its payload is not even asked for one. -/
theorem runOn_address_ofCase (ht : t.Uninstantiated) (tag : UInt32) (payload : Option Value)
    (w : World) :
    address.runOn (ofCase t tag payload) w = ((.error t.noLayout, ofCase t tag payload), w) := by
  rw [runOn_address, ofCase]
  cases payload with
  | none => rw [run_settle_none, ht.run_allocateEnum]
  | some v => rw [run_settle_some, ht.run_allocateEnum]

theorem runOn_buffer_ofCase (ht : t.Uninstantiated) (tag : UInt32) (payload : Option Value)
    (w : World) :
    buffer.runOn (ofCase t tag payload) w = ((.error t.noLayout, ofCase t tag payload), w) := by
  unfold buffer
  rw [InspectOn.runOn_bind, runOn_address_ofCase ht]

theorem runOn_bytes_ofCase (ht : t.Uninstantiated) (tag : UInt32) (payload : Option Value)
    (w : World) :
    bytes.runOn (ofCase t tag payload) w = ((.error t.noLayout, ofCase t tag payload), w) := by
  unfold bytes
  rw [InspectOn.runOn_bind, runOn_buffer_ofCase ht]

/-- An enum value of which there is nothing but the tag. -/
structure WithoutPlace (t : ValueType) (v : Value) : Prop where
  tag : ∃ tag payload, v = ofCase t tag payload ∧
    ∀ w, Value.tag.runOn v w = ((.ok (some tag), v), w)
  address : ∀ w, Value.address.runOn v w = ((.error t.noLayout, v), w)
  buffer : ∀ w, Value.buffer.runOn v w = ((.error t.noLayout, v), w)
  bytes : ∀ w, Value.bytes.runOn v w = ((.error t.noLayout, v), w)

theorem withoutPlace_ofCase {t : ValueType} (ht : t.Uninstantiated) (tag : UInt32)
    (payload : Option Value) : (ofCase t tag payload).WithoutPlace t where
  tag := ⟨tag, payload, rfl, runOn_tag_ofCase tag payload⟩
  address := runOn_address_ofCase ht tag payload
  buffer := runOn_buffer_ofCase ht tag payload
  bytes := runOn_bytes_ofCase ht tag payload

end Value

/-- Whatever is asked of a value of a type without a layout, nothing happens. -/
theorem Query.idles_inspect {t : ValueType} (ht : t.Uninstantiated) (q : Query) (tag : UInt32)
    (payload : Option Value) : Idles (· = Value.ofCase t tag payload) q.inspect := by
  cases q with
  | tag => exact Idles.discard fun v w h => by rw [h]; exact ⟨rfl, rfl⟩
  | address =>
    refine Idles.discard fun v w h => ?_
    rw [h, Value.runOn_address_ofCase ht]
    exact ⟨rfl, rfl⟩
  | buffer =>
    refine Idles.discard fun v w h => ?_
    rw [h, Value.runOn_buffer_ofCase ht]
    exact ⟨rfl, rfl⟩
  | bytes =>
    refine Idles.discard fun v w h => ?_
    rw [h, Value.runOn_bytes_ofCase ht]
    exact ⟨rfl, rfl⟩

namespace Value.Own

variable {t : ValueType} {v : Value}

theorem eq_ofCase (h : v.Own t) : ∃ tag payload, v = ofCase t tag payload := by
  cases h with
  | bare tag => exact ⟨tag, none, rfl⟩
  | around tag h => exact ⟨tag, some _, rfl⟩

theorem within (ht : t.Uninstantiated) (h : v.Own t) (q : Query) (depth : Nat) (w : World) :
    q.within depth v w = (v, w) := by
  induction h generalizing depth with
  | bare tag =>
    cases depth with
    | zero => exact (q.idles_inspect ht tag none).runOn_eq w
    | succ depth => rfl
  | @around tag v h ih =>
    cases depth with
    | zero => exact (q.idles_inspect ht tag (some v)).runOn_eq w
    | succ depth =>
      rw [ofCase, Query.within, ih]

/-- There is nothing to release. -/
theorem release (h : v.Own t) (w : World) : v.release w = w := by
  induction h with
  | bare tag => rfl
  | around tag h ih => exact ih

end Value.Own

/-! ## Around a value without a place -/

namespace Value

/-- To give the value a place comes to nothing: buffers are allocated for the levels around the
first that is refused one, and released again. Nothing is called. -/
def ComesToNothing (v : Value) (w : World) : Prop :=
  ∃ front type back bs memory e memory', v.pending = front ++ type :: back ∧
    (front.mapM ValueType.allocateEnum).run w = (.ok bs, { w with memory }) ∧
    memory.live = (bs.map Buffer.address).reverse ++ w.memory.live ∧
    type.allocateEnum.run { w with memory } = (.error e, { w with memory }) ∧
    v.settle w = ((.error e, v), { w with memory := memory' }) ∧ memory'.live = w.memory.live

/-- No buffer is allocated for a level without a layout. -/
theorem not_mem_of_mapM_allocateEnum {types : List ValueType} {bs : List Buffer} {w w' : World}
    (h : (types.mapM ValueType.allocateEnum).run w = (.ok bs, w')) {t : ValueType}
    (ht : t.Uninstantiated) : t ∉ types := by
  induction types generalizing bs w with
  | nil => exact List.not_mem_nil
  | cons t' types ih =>
    rw [List.mapM_cons] at h
    obtain ⟨b, w₁, hb, h⟩ := Inspect.run_bind_ok h
    obtain ⟨bs, w₂, hbs, h⟩ := Inspect.run_bind_ok h
    cases h
    intro hmem
    rcases List.mem_cons.1 hmem with rfl | hmem
    · rw [ht.run_allocateEnum] at hb
      cases hb
    · exact ih hbs hmem

/-- Where one of the levels has no layout the value gets no place. -/
theorem settle_of_pending_uninstantiated {v : Value} {t : ValueType} (ht : t.Uninstantiated)
    (hmem : t ∈ v.pending) (w : World) : v.ComesToNothing w := by
  have hattempt := settle_attempt v w
  rcases hs : v.settle w with ⟨⟨r, v'⟩, w'⟩
  rw [hs] at hattempt
  cases hattempt with
  | built room => exact absurd hmem (not_mem_of_mapM_allocateEnum room ht)
  | stopped room => exact absurd hmem (not_mem_of_mapM_allocateEnum room ht)
  | @noRoom front back type bs w₁ w₂ e split room refusal =>
    obtain ⟨⟨memory, rfl⟩, -, howned, hlive⟩ := ValueType.of_mapM_allocateEnum room
    rcases type.run_allocateEnum { w with memory } with ⟨e', he⟩ | ⟨b, memory', hr, -⟩
    · rw [he] at refusal
      cases refusal
      obtain ⟨memory', hrelease, hmemory'⟩ := releaseAll_newest howned hlive
      exact ⟨front, type, back, bs, memory, e, memory', split, room, hlive, he,
        by rw [hs, hrelease], hmemory'⟩
    · rw [hr] at refusal
      cases refusal

/-- The buffer for a value whose payload has no layout is released again. -/
theorem settle_of_payload {t type : ValueType} (ht : t.Uninstantiated) (tag inner : UInt32)
    (payload : Option Value) {w w₁ : World} {b : Buffer}
    (hb : type.allocateEnum.run w = (.ok b, w₁)) :
    (ofCase type tag (some (ofCase t inner payload))).settle w =
      ((.error t.noLayout, ofCase type tag (some (ofCase t inner payload))), b.release w₁) := by
  have hinner : (ofCase t inner payload).settle w₁ =
      ((.error t.noLayout, ofCase t inner payload), w₁) := runOn_address_ofCase ht inner payload w₁
  rw [ofCase, run_settle_some, hb]
  simp only
  rw [hinner]
  rfl

end Value

/-! ## A value without a place as an argument -/

namespace Initializer

variable {n : Nat} {t : ValueType} {vs : Vector Value n}

/-- A value without a place does not become a word. -/
theorem runOn_argumentWord_value (hvs : ∀ v ∈ vs, v.WithoutPlace t) (i : Initializer) (index : Nat)
    (typeName : String) (type : NominalType) (slot : Fin n) (w : World) :
    ∃ e, (i.argumentWord index typeName type (.value slot)).runOn vs w = ((.error e, vs), w) := by
  rw [argumentWord, InspectOn.runOn_bind, InspectOn.runOn_current]
  simp only
  split
  · exact ⟨_, rfl⟩
  · refine ⟨t.noLayout, ?_⟩
    have haddress : Value.address.runOn vs[slot] w = ((.error t.noLayout, vs[slot]), w) :=
      (hvs _ (Vector.getElem_mem slot.isLt)).address w
    have hword : (i.valueWord index type).runOn vs[slot] w =
        ((.error t.noLayout, vs[slot]), w) := by
      unfold valueWord
      rw [InspectOn.runOn_bind, haddress]
    change ((((i.valueWord index type).runOn vs[slot] w).1.1,
      vs.set slot ((i.valueWord index type).runOn vs[slot] w).1.2),
      ((i.valueWord index type).runOn vs[slot] w).2) = _
    rw [hword]
    exact congrArg (fun vs => ((_, vs), w)) (Vector.set_getElem_self slot.isLt)

theorem runOn_argumentWord_word (i : Initializer) (index : Nat) (typeName : String)
    (type : NominalType) (word : UInt64) (w : World) :
    ∃ r, (i.argumentWord index typeName type (.word word)).runOn vs w = ((r, vs), w) := by
  rw [argumentWord]
  split <;> exact ⟨_, rfl⟩

/-- The arguments do not all become words, and none of the values is touched. -/
theorem runOn_argumentWords (hvs : ∀ v ∈ vs, v.WithoutPlace t) (i : Initializer)
    (lookup : String → Option NominalType) (args : List (Argument n)) (index : Nat)
    (typeNames : List String) (w : World) :
    ∃ r, (i.argumentWords lookup index typeNames args).runOn vs w = ((r, vs), w) ∧
      (typeNames.length = args.length → ∀ slot, .value slot ∈ args → ∃ e, r = .error e) := by
  induction args generalizing index typeNames with
  | nil => cases typeNames <;> exact ⟨_, rfl, nofun⟩
  | cons arg args ih =>
    cases typeNames with
    | nil => exact ⟨_, rfl, nofun⟩
    | cons typeName typeNames =>
      rw [argumentWords]
      rcases lookup typeName with _ | type
      · exact ⟨_, rfl, fun _ _ _ => ⟨_, rfl⟩⟩
      simp only
      rw [InspectOn.runOn_bind]
      cases arg with
      | value slot =>
        obtain ⟨e, he⟩ := runOn_argumentWord_value hvs i index typeName type slot w
        rw [he]
        exact ⟨_, rfl, fun _ _ _ => ⟨e, rfl⟩⟩
      | word word =>
        obtain ⟨r, hr⟩ : ∃ r, (i.argumentWord index typeName type (.word word)).runOn vs w =
            ((r, vs), w) := runOn_argumentWord_word i index typeName type word w
        rw [hr]
        rcases r with e | word
        · exact ⟨_, rfl, fun _ _ _ => ⟨e, rfl⟩⟩
        simp only
        obtain ⟨r, hr, hvalue⟩ := ih (index + 1) typeNames
        rw [InspectOn.runOn_bind, hr]
        rcases r with e | words
        · exact ⟨_, rfl, fun _ _ _ => ⟨e, rfl⟩⟩
        · refine ⟨_, rfl, fun hlength slot hslot => ?_⟩
          obtain ⟨e, he⟩ := hvalue (by simpa using hlength) slot (by simpa using hslot)
          cases he

/-- No initializer is called with a value that has no place. -/
theorem runOn_invoke (hvs : ∀ v ∈ vs, v.WithoutPlace t) (i : Initializer)
    (lookup : String → Option NominalType) {args : List (Argument n)} {slot : Fin n}
    (hslot : .value slot ∈ args) (w : World) :
    ∃ e, (i.invoke lookup args).runOn vs w = ((.error e, vs), w) := by
  unfold invoke
  split
  · exact ⟨_, rfl⟩
  · rename_i hlength
    obtain ⟨r, hr, hvalue⟩ := runOn_argumentWords hvs i lookup args 0 i.signature.argTypeNames w
    have harity : i.signature.argTypeNames.length = args.length := by
      rw [Signature.argTypeNames, List.length_map]
      exact (not_not.1 hlength).symm
    obtain ⟨e, rfl⟩ := hvalue harity slot hslot
    refine ⟨e, ?_⟩
    change (_ >>= _ : InspectOn (Vector Value n) ObjectReference).runOn vs w = _
    rw [InspectOn.runOn_bind, hr]

end Initializer

end TypeMetadata
