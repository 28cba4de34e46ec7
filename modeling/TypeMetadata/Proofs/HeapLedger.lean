import Mathlib.Data.List.Perm.Basic
import TypeMetadata.Proofs.Inspection
import TypeMetadata.Reflection.Enum

/-!
# The ledger of value buffers

Every block of the heap has one owner: a buffer that is still held, or someone who had it before.
`World.Ledger` states the balance, and `Inspect.Moves` what an inspection does to it: it takes over
some blocks and hands out others, and one that fails leaves none of its own behind. The frame is
part of the statement, so `Moves.bind` chains inspections without a word on the other blocks.
`Value.settle_ledger` is the one induction, on how deep payloads lie in each other.
-/

namespace TypeMetadata

/-- Its functions neither allocate nor free. -/
def FunctionTable.SparesHeap (t : FunctionTable) : Prop :=
  ∀ f ∈ t.functions, ∀ c m, (f c m).2.live.Perm m.live

/-- The live blocks are `blocks`, each of them once, and no release but those in `log` was ever
refused. -/
structure World.Ledger (w : World) (blocks log : List Address) : Prop where
  live : w.memory.live.Perm blocks
  refusals : w.refusals = log
  spares : w.functions.SparesHeap

namespace World.Ledger

variable {w : World} {blocks others log : List Address}

theorem perm (h : w.Ledger blocks log) (hp : blocks.Perm others) : w.Ledger others log :=
  ⟨h.live.trans hp, h.refusals, h.spares⟩

theorem nodup (h : w.Ledger blocks log) : blocks.Nodup :=
  h.live.nodup_iff.1 w.memory.live_nodup

theorem withMemory (h : w.Ledger blocks log) {m : Memory} (hm : m.live.Perm w.memory.live) :
    World.Ledger { w with memory := m } blocks log :=
  ⟨hm.trans h.live, h.refusals, h.spares⟩

theorem invoke (h : w.Ledger blocks log) (c : Call) : (w.invoke c).2.Ledger blocks log := by
  unfold World.invoke FunctionTable.invoke
  cases hf : w.functions.lookup? c.function with
  | none => exact ⟨h.live, h.refusals, h.spares⟩
  | some f =>
    exact ⟨(h.spares f (FunctionTable.mem_of_lookup? hf) c w.memory).trans h.live, h.refusals,
      h.spares⟩

end World.Ledger

/-! ## What an inspection does to the ledger -/

namespace Inspect

variable {α β : Type} {old : List Address} {new : α → List Address}

/-- The inspection takes over the blocks `old`. With an answer come the blocks `new`, and after a
failure there is none of either. -/
def Moves (old : List Address) (x : Inspect α) (new : α → List Address) : Prop :=
  ∀ w rest log, w.Ledger (old ++ rest) log →
    match x.run w with
    | (.ok a, w') => w'.Ledger (new a ++ rest) log
    | (.error _, w') => w'.Ledger rest log

/-- The inspection leaves the ledger as it was. -/
abbrev Spares (x : Inspect α) : Prop := Moves [] x fun _ => []

theorem Moves.pure {a : α} (h : new a = old) : Moves old (pure a) new := by
  intro w rest log hw
  rw [← h] at hw
  exact hw

theorem Moves.throw (e : Error) : Moves [] (throw e) new := fun _ _ _ h => h

theorem Moves.bind {x : Inspect α} {f : α → Inspect β} {mid : α → List Address}
    {new : β → List Address} (hx : Moves old x mid) (hf : ∀ a, Moves (mid a) (f a) new) :
    Moves old (x >>= f) new := by
  intro w rest log h
  have hw := hx w rest log h
  rw [run_bind]
  rcases hr : x.run w with ⟨e | a, w'⟩ <;> rw [hr] at hw
  · exact hw
  · exact hf a w' rest log hw

theorem spares_pure (a : α) : Spares (pure a) := .pure rfl

theorem Spares.discard {x : Inspect α} (h : Spares x) : Spares (discard x) := by
  rw [Functor.discard, LawfulFunctor.map_const, Function.comp_apply, map_eq_pure_bind]
  exact h.bind fun _ => spares_pure _

theorem spares_decode (d : Decoder α) : Spares (decode d) := by
  intro w rest log h
  rw [run_decode]
  cases w.decode d <;> exact h

theorem spares_get : Spares (get : Inspect World) := fun _ _ _ h => h

theorem moves_ofExcept {x : Except Error α} (h : ∀ a, x = .ok a → new a = []) :
    Moves [] (liftM x : Inspect α) new := by
  cases x with
  | error e => exact .throw e
  | ok a => exact .pure (h a rfl)

theorem spares_ofExcept (x : Except Error α) : Spares (liftM x : Inspect α) :=
  moves_ofExcept fun _ _ => rfl

theorem spares_call (c : Call) : Spares (call c) := by
  intro w rest log h
  have hw := h.invoke c
  rw [run_call]
  cases (w.invoke c).1 <;> exact hw

theorem spares_update {f : Memory → Except MemoryError Memory}
    (hf : ∀ m m', f m = .ok m' → m'.live = m.live) : Spares (update f) := by
  intro w rest log h
  rw [run_update]
  rcases hm : f w.memory with e | m
  · exact h
  · exact h.withMemory (hf _ _ hm ▸ .refl _)

end Inspect

/-! ## Buffers -/

namespace Buffer

/-- What a buffer owns of the heap: its block, unless it is a view. -/
def blocks (b : Buffer) : List Address := if b.owned then [b.address] else []

theorem run_allocate (size : UInt64) (w : World) :
    (allocate size).run w =
      match w.memory.allocate (max size 1) with
      | .ok (address, memory) => (.ok ⟨address, size, true⟩, { w with memory })
      | .error e => (.error (.memory e), w) := by
  unfold allocate
  rw [Inspect.run_bind, Inspect.run_get]
  simp only
  rcases w.memory.allocate (max size 1) with e | ⟨a, m⟩ <;> rfl

theorem allocate_moves (size : UInt64) : Inspect.Moves [] (allocate size) blocks := by
  intro w rest log h
  rw [run_allocate]
  rcases ha : w.memory.allocate (max size 1) with e | ⟨a, m⟩
  · exact h
  · obtain ⟨-, -, hlive⟩ := Memory.allocate_next ha
    refine ⟨?_, h.refusals, h.spares⟩
    change m.live.Perm (a :: rest)
    rw [hlive]
    exact h.live.cons a

/-- A block that is on the ledger can be freed. -/
theorem release_ledger {b : Buffer} {w : World} {rest log : List Address}
    (h : w.Ledger (b.blocks ++ rest) log) : (b.release w).Ledger rest log := by
  unfold blocks at h
  unfold release
  split at h
  · next howned =>
    have hmem : b.address ∈ w.memory.live := h.live.mem_iff.2 List.mem_cons_self
    rw [if_pos howned]
    unfold Memory.free
    rw [if_pos hmem]
    refine ⟨?_, h.refusals, h.spares⟩
    have := h.live.erase b.address
    rwa [List.singleton_append, List.erase_cons_head] at this
  · next hview =>
    rw [if_neg hview]
    exact h

end Buffer

/-- An inspection with a buffer in hand, which it releases if it fails. -/
theorem Inspect.Spares.guard {α : Type} {x : Inspect α} {b : Buffer} (h : x.Spares) :
    Inspect.Moves b.blocks (tryCatch x fun e => do modify b.release; throw e)
      fun _ => b.blocks := by
  intro w rest log hw
  have hx := h w (b.blocks ++ rest) log hw
  rw [Inspect.run_tryCatch]
  rcases hr : x.run w with ⟨e | a, w'⟩ <;> rw [hr] at hx
  · exact Buffer.release_ledger hx
  · exact hx

/-! ## Value types -/

theorem TypeInfo.spares_read (settings : Settings) (d : NominalDescriptor) :
    (TypeInfo.read settings d).Spares := by
  have hmetadata : (TypeInfo.requestMetadata d).Spares := by
    unfold TypeInfo.requestMetadata
    split
    · exact Inspect.spares_pure _
    · refine (Inspect.spares_decode _).bind fun function => ?_
      exact (Inspect.spares_call _).bind fun metadata => Inspect.spares_pure _
  refine (Inspect.spares_decode _).bind fun name => ?_
  refine (Inspect.spares_decode _).bind fun moduleName => ?_
  refine hmetadata.bind fun metadata => ?_
  refine (Inspect.spares_decode _).bind fun fields => ?_
  exact Inspect.spares_get.bind fun w => Inspect.spares_pure _

namespace ValueType

variable (t : ValueType)

theorem spares_read (settings : Settings) (d : NominalDescriptor) : (read settings d).Spares := by
  refine (TypeInfo.spares_read settings d).bind fun info => ?_
  cases info.metadata with
  | none => exact Inspect.spares_pure _
  | some a =>
    refine (Inspect.spares_decode _).bind fun metadata => ?_
    exact (Inspect.spares_decode _).bind fun witnesses => Inspect.spares_pure _

theorem allocate_moves : Inspect.Moves [] t.allocate Buffer.blocks :=
  (Inspect.spares_ofExcept _).bind fun layout => Buffer.allocate_moves layout.stride

theorem blocks_of_view {t : ValueType} {a : Address} {b : Buffer} (h : t.view a = .ok b) :
    b.blocks = [] := by
  unfold view at h
  rcases hr : t.requireLayout with e | layout <;> rw [hr] at h
  · cases h
  · cases h
    rfl

theorem spares_copy (dest src : Address) : (t.copy dest src).Spares := by
  refine (Inspect.spares_ofExcept _).bind fun witnesses => ?_
  refine (Inspect.spares_ofExcept _).bind fun metadata => ?_
  exact (Inspect.spares_call _).discard

theorem allocateFilled_moves {fill : Buffer → Inspect Unit} (h : ∀ b, (fill b).Spares) :
    Inspect.Moves [] (t.allocateFilled fill) Buffer.blocks := by
  refine t.allocate_moves.bind fun b => ?_
  exact (h b).guard.bind fun _ => .pure rfl

theorem allocateCopy_moves (src : Address) :
    Inspect.Moves [] (t.allocateCopy src) Buffer.blocks :=
  t.allocateFilled_moves fun b => t.spares_copy b.address src

theorem allocateEnum_moves : Inspect.Moves [] t.allocateEnum Buffer.blocks := by
  refine (Inspect.spares_ofExcept _).bind fun witnesses => ?_
  refine (Inspect.spares_ofExcept _).bind fun metadata => ?_
  exact t.allocate_moves

theorem spares_injectTag (a : Address) (tag : UInt32) : (t.injectTag a tag).Spares := by
  refine (Inspect.spares_ofExcept _).bind fun witnesses => ?_
  refine (Inspect.spares_ofExcept _).bind fun metadata => ?_
  exact (Inspect.spares_call _).discard

theorem spares_readTag (a : Address) : (t.readTag a).Spares := by
  refine (Inspect.spares_ofExcept _).bind fun witnesses => ?_
  refine (Inspect.spares_ofExcept _).bind fun metadata => ?_
  exact (Inspect.spares_call _).bind fun tag => Inspect.spares_pure _

end ValueType

/-! ## Parts that hold blocks -/

namespace InspectOn

variable {σ α β : Type} {blocks : σ → List Address}

/-- What the inspection takes off the ledger for the part, and puts on it, is what the part holds
before and after. -/
def Balances (blocks : σ → List Address) (x : InspectOn σ α) : Prop :=
  ∀ s w rest log, w.Ledger (blocks s ++ rest) log →
    (x.runOn s w).2.Ledger (blocks (x.runOn s w).1.2 ++ rest) log

theorem Balances.pure (a : α) : Balances blocks (pure a) := fun _ _ _ _ h => h

theorem Balances.current : Balances blocks current := fun _ _ _ _ h => h

theorem Balances.lift {x : Inspect α} (hx : x.Spares) : Balances blocks (lift x) := by
  intro s w rest log h
  have hw := hx w _ log h
  rw [runOn_lift]
  rcases hr : x.run w with ⟨e | a, w'⟩ <;> rw [hr] at hw <;> exact hw

theorem Balances.bind {x : InspectOn σ α} {f : α → InspectOn σ β} (hx : Balances blocks x)
    (hf : ∀ a, Balances blocks (f a)) : Balances blocks (x >>= f) := by
  intro s w rest log h
  have hw := hx s w rest log h
  rw [runOn_bind]
  rcases hr : x.runOn s w with ⟨⟨e | a, s'⟩, w'⟩ <;> rw [hr] at hw
  · exact hw
  · exact hf a s' w' rest log hw

end InspectOn

/-! ## Values -/

namespace EnumState

def blocks (s : EnumState) : List Address := s.buffer?.elim [] Buffer.blocks

@[simp] theorem blocks_tagged (tag : UInt32) : (tagged tag).blocks = [] := rfl

@[simp] theorem blocks_complete (tag : UInt32) (b : Buffer) : (complete tag b).blocks = b.blocks :=
  rfl

theorem release_ledger {s : EnumState} {w : World} {rest log : List Address}
    (h : w.Ledger (s.blocks ++ rest) log) :
    (s.buffer?.elim w fun b => b.release w).Ledger rest log := by
  cases s with
  | tagged tag => exact h
  | stored b => exact Buffer.release_ledger h
  | complete tag b => exact Buffer.release_ledger h

end EnumState

namespace Value

/-- The blocks that a value owns, with those of its payload. -/
def blocks : Value → List Address
  | struct _ buffer => buffer.blocks
  | enum _ state none => state.blocks
  | enum _ state (some inner) => inner.blocks ++ state.blocks
  | object _ => []
termination_by structural v => v

theorem blocks_ofCase (t : ValueType) (tag : UInt32) (payload : Option Value) :
    (ofCase t tag payload).blocks = payload.elim [] blocks := by
  cases payload with
  | none => rfl
  | some p => exact List.append_nil p.blocks

theorem release_ledger : ∀ (v : Value) {w : World} {rest log : List Address},
    w.Ledger (v.blocks ++ rest) log → (v.release w).Ledger rest log
  | struct _ _, _, _, _, h => Buffer.release_ledger h
  | enum _ _ none, _, _, _, h => EnumState.release_ledger h
  | enum _ _ (some inner), _, _, _, h => by
    rw [blocks, List.append_assoc] at h
    exact EnumState.release_ledger (inner.release_ledger h)
  | object _, _, _, _, h => h
termination_by structural v => v

theorem spares_copyTo (v : Value) (src dest : Address) : (v.copyTo src dest).Spares := by
  cases v with
  | struct t b => exact t.spares_copy dest src
  | enum t state payload => exact t.spares_copy dest src
  | object reference => exact Inspect.spares_update fun m m' h => Memory.writePointer_live h

theorem spares_placeIn (v : Value) (t : ValueType) (tag : UInt32) (source : Except Error Address)
    (b : Buffer) : (v.placeIn t tag source b).Spares := by
  refine (Inspect.spares_ofExcept _).bind fun src => ?_
  exact (v.spares_copyTo src b.address).bind fun _ => t.spares_injectTag b.address tag

theorem run_settle_none (t : ValueType) (tag : UInt32) (w : World) :
    settle (.enum t (.tagged tag) none) w =
      match t.allocateEnum.run w with
      | (.error e, w) => ((.error e, .enum t (.tagged tag) none), w)
      | (.ok b, w) =>
        match (t.injectTag b.address tag).run w with
        | (.ok _, w) => ((.ok b.address, .enum t (.complete tag b) none), w)
        | (.error e, w) => ((.error e, .enum t (.tagged tag) none), b.release w) := by
  rw [settle, World.bind_apply]
  rcases t.allocateEnum.run w with ⟨e | b, w₁⟩
  · rfl
  · simp only []
    rw [World.bind_apply]
    rcases (t.injectTag b.address tag).run w₁ with ⟨e | a, w₂⟩ <;> rfl

theorem run_settle_some (t : ValueType) (tag : UInt32) (inner : Value) (w : World) :
    settle (.enum t (.tagged tag) (some inner)) w =
      match t.allocateEnum.run w with
      | (.error e, w) => ((.error e, .enum t (.tagged tag) (some inner)), w)
      | (.ok b, w) =>
        let ((source, inner), w) := inner.settle w
        match (inner.placeIn t tag source b).run w with
        | (.ok _, w) => ((.ok b.address, .enum t (.complete tag b) (some inner)), w)
        | (.error e, w) => ((.error e, .enum t (.tagged tag) (some inner)), b.release w) := by
  rw [settle, World.bind_apply]
  rcases t.allocateEnum.run w with ⟨e | b, w₁⟩
  · rfl
  · simp only []
    rw [World.bind_apply]
    rcases inner.settle w₁ with ⟨⟨source, settled⟩, w₂⟩
    simp only []
    rw [World.bind_apply]
    rcases (settled.placeIn t tag source b).run w₂ with ⟨e | a, w₃⟩ <;> rfl

/-- Giving the value of a case its place either comes to nothing, or the place is that of a buffer
that the value has from then on. Its payload may have been given a place in any case. -/
theorem settle_ofCase (t : ValueType) (tag : UInt32) (payload : Option Value) (w : World) :
    ∃ payload', (payload' = payload ∨ ∃ inner w₁, payload = some inner ∧
        payload' = some (inner.settle w₁).1.2) ∧
      ((∃ e, ((ofCase t tag payload).settle w).1 = (.error e, ofCase t tag payload')) ∨
        ∃ b, ((ofCase t tag payload).settle w).1 =
          (.ok b.address, .enum t (.complete tag b) payload')) := by
  unfold ofCase
  cases payload with
  | none =>
    rw [run_settle_none]
    refine ⟨none, .inl rfl, ?_⟩
    rcases t.allocateEnum.run w with ⟨e | b, w₁⟩
    · exact .inl ⟨e, rfl⟩
    simp only
    rcases (t.injectTag b.address tag).run w₁ with ⟨e | u, w₂⟩
    · exact .inl ⟨e, rfl⟩
    · exact .inr ⟨b, rfl⟩
  | some inner =>
    rw [run_settle_some]
    rcases t.allocateEnum.run w with ⟨e | b, w₁⟩
    · exact ⟨some inner, .inl rfl, .inl ⟨e, rfl⟩⟩
    refine ⟨some (inner.settle w₁).1.2, .inr ⟨inner, w₁, rfl, rfl⟩, ?_⟩
    rcases hs : inner.settle w₁ with ⟨⟨source, settled⟩, w₂⟩
    simp only [hs]
    rcases (settled.placeIn t tag source b).run w₂ with ⟨e | u, w₃⟩
    · exact .inl ⟨e, rfl⟩
    · exact .inr ⟨b, rfl⟩

/-- Whether or not a value gets its place, the blocks that are live for it afterwards are those that
it and its payload then hold. -/
theorem settle_ledger : ∀ (v : Value) (w : World) (rest log : List Address),
    w.Ledger (v.blocks ++ rest) log →
      (v.settle w).2.Ledger ((v.settle w).1.2.blocks ++ rest) log
  | struct _ _, _, _, _, h => h
  | object _, _, _, _, h => h
  | enum _ (.stored _) _, _, _, _, h => by cases ‹Option Value› <;> exact h
  | enum _ (.complete _ _) _, _, _, _, h => by cases ‹Option Value› <;> exact h
  | enum t (.tagged tag) none, w, rest, log, h => by
    have hb := t.allocateEnum_moves w _ log h
    rw [run_settle_none]
    rcases hr : t.allocateEnum.run w with ⟨e | b, w₁⟩ <;> rw [hr] at hb
    · exact hb
    · have htag := t.spares_injectTag b.address tag w₁ _ log hb
      simp only
      rcases hr : (t.injectTag b.address tag).run w₁ with ⟨e | a, w₂⟩ <;> rw [hr] at htag
      · exact Buffer.release_ledger htag
      · exact htag
  | enum t (.tagged tag) (some inner), w, rest, log, h => by
    have hb := t.allocateEnum_moves w _ log h
    rw [run_settle_some]
    rcases hr : t.allocateEnum.run w with ⟨e | b, w₁⟩ <;> rw [hr] at hb
    · exact hb
    · -- the payload is settled with the new buffer among the blocks of others
      have hin := settle_ledger inner w₁ (b.blocks ++ rest) log (hb.perm ?_)
      · simp only
        rcases hr : inner.settle w₁ with ⟨⟨source, settled⟩, w₂⟩
        rw [hr] at hin
        have hplace := settled.spares_placeIn t tag source b w₂ _ log hin
        simp only
        rcases hr : (settled.placeIn t tag source b).run w₂ with ⟨e | a, w₃⟩ <;> rw [hr] at hplace
        · refine Buffer.release_ledger (hplace.perm ?_)
          simp only [blocks, EnumState.blocks_tagged, List.append_nil]
          exact List.perm_append_comm_assoc ..
        · refine hplace.perm ?_
          simp only [blocks, EnumState.blocks_complete, List.nil_append, List.append_assoc]
          exact .refl _
      · simp only [blocks, EnumState.blocks_tagged, List.append_nil]
        exact List.perm_append_comm_assoc ..
termination_by structural v => v

theorem runOn_address (v : Value) (w : World) : address.runOn v w = v.settle w := rfl

theorem address_balances : InspectOn.Balances blocks address := settle_ledger

theorem buffer_balances : InspectOn.Balances blocks buffer :=
  address_balances.bind fun _ => InspectOn.Balances.current.bind fun _ => .pure _

theorem bytes_balances : InspectOn.Balances blocks bytes := by
  refine buffer_balances.bind fun b => ?_
  cases b with
  | none => exact .pure _
  | some b => exact (InspectOn.Balances.lift (Inspect.spares_decode _)).bind fun _ => .pure _

theorem runOn_tag_stored (t : ValueType) (b : Buffer) (payload : Option Value) (w : World) :
    tag.runOn (.enum t (.stored b) payload) w =
      match (t.readTag b.address).run w with
      | (.ok n, w) => ((.ok (some n), .enum t (.complete n b) payload), w)
      | (.error e, w) => ((.error e, .enum t (.stored b) payload), w) := by
  unfold tag
  rw [InspectOn.runOn_bind, InspectOn.runOn_current]
  simp only
  rw [InspectOn.runOn_bind]
  rw [show (liftM (t.readTag b.address) : InspectOn Value UInt32) =
    InspectOn.lift (t.readTag b.address) from rfl, InspectOn.runOn_lift]
  rcases (t.readTag b.address).run w with ⟨e | n, w⟩ <;> rfl

theorem tag_balances : InspectOn.Balances blocks tag := by
  intro v w rest log h
  cases v with
  | struct t b => exact h
  | object reference => exact h
  | enum t state payload =>
    cases state with
    | tagged n => exact h
    | complete n b => exact h
    | stored b =>
      have hw := t.spares_readTag b.address w _ log h
      rw [runOn_tag_stored]
      rcases hr : (t.readTag b.address).run w with ⟨e | n, w'⟩ <;> rw [hr] at hw
      · exact hw
      · cases payload <;> exact hw

/-! ### Values without a payload -/

/-- The value is one of the enum `t` that carries no payload. -/
def IsBare (t : ValueType) (v : Value) : Prop := ∃ state, v = .enum t state none

variable {t : ValueType}

theorem keeps_address : InspectOn.Keeps (IsBare t) address := by
  rintro v w ⟨state, rfl⟩
  rw [runOn_address]
  cases state with
  | stored b => exact ⟨_, rfl⟩
  | complete tag b => exact ⟨_, rfl⟩
  | tagged tag =>
    obtain ⟨payload, rfl | ⟨inner, w₁, hinner, -⟩, ⟨e, h⟩ | ⟨b, h⟩⟩ := settle_ofCase t tag none w
    · rw [← ofCase, h]
      exact ⟨_, rfl⟩
    · rw [← ofCase, h]
      exact ⟨_, rfl⟩
    all_goals cases hinner

theorem keeps_buffer : InspectOn.Keeps (IsBare t) buffer :=
  keeps_address.bind fun _ => InspectOn.Keeps.current.bind fun _ => .pure _

theorem keeps_bytes : InspectOn.Keeps (IsBare t) bytes := by
  refine keeps_buffer.bind fun b => ?_
  cases b with
  | none => exact .pure _
  | some b => exact (InspectOn.Keeps.lift _).bind fun _ => .pure _

theorem keeps_tag : InspectOn.Keeps (IsBare t) tag := by
  rintro v w ⟨state, rfl⟩
  cases state with
  | tagged n => exact ⟨_, rfl⟩
  | complete n b => exact ⟨_, rfl⟩
  | stored b =>
    rw [runOn_tag_stored]
    rcases (t.readTag b.address).run w with ⟨e | n, w'⟩ <;> exact ⟨_, rfl⟩

end Value

/-! ## Enums -/

namespace EnumType

/-- The blocks that the values of an enum's cases own. -/
def blocks (t : EnumType) : List Address := t.entries.flatMap fun e => e.state.blocks

theorem blocks_entriesFrom (s : Settings) (w : World) (index : Nat) (records : List FieldRecord)
    (kinds : List CaseKind) :
    ((entriesFrom s w index records kinds).flatMap fun e => e.state.blocks) = [] := by
  induction records generalizing index kinds with
  | nil => rfl
  | cons r records ih =>
    cases kinds with
    | nil => rfl
    | cons k kinds =>
      rw [entriesFrom, List.flatMap_cons, ih]
      rfl

theorem readEntries_moves (settings : Settings) (d : EnumDescriptor) :
    Inspect.Moves [] (readEntries settings d) fun l => l.flatMap fun e => e.state.blocks := by
  refine (Inspect.spares_decode _).bind fun fields => ?_
  cases fields with
  | none => exact .pure rfl
  | some fields =>
    simp only
    split
    · exact .pure rfl
    · refine (Inspect.spares_decode _).bind fun kinds => ?_
      refine Inspect.spares_get.bind fun w => ?_
      exact .pure (blocks_entriesFrom settings w 0 fields.records kinds)

theorem read_moves (settings : Settings) (d : EnumDescriptor) :
    Inspect.Moves [] (read settings d) blocks := by
  refine (ValueType.spares_read settings _).bind fun core => ?_
  exact (readEntries_moves settings d).bind fun entries => .pure rfl

theorem release_ledger {t : EnumType} {w : World} {rest log : List Address}
    (h : w.Ledger (t.blocks ++ rest) log) : (t.release w).Ledger rest log := by
  obtain ⟨core, entries⟩ := t
  unfold blocks release at *
  simp only at *
  induction entries generalizing w with
  | nil => exact h
  | cons e entries ih =>
    rw [List.flatMap_cons, List.append_assoc] at h
    exact ih (EnumState.release_ledger h)

theorem eq_ofCase_of_caseOf {t : EnumType} {name : String} {payload : Option Value} {v : Value}
    (h : t.caseOf name payload = .ok v) : ∃ tag, v = .ofCase t.core tag payload := by
  unfold caseOf at h
  rcases hr : t.requireEntry name with e | entry <;> rw [hr] at h
  · cases h
  · simp only [bind, Except.bind] at h
    split at h
    · cases h
    · cases h
    · cases h
      exact ⟨_, rfl⟩

theorem blocks_of_caseOf {t : EnumType} {name : String} {payload : Option Value} {v : Value}
    (h : t.caseOf name payload = .ok v) : v.blocks = payload.elim [] Value.blocks := by
  obtain ⟨tag, rfl⟩ := eq_ofCase_of_caseOf h
  exact Value.blocks_ofCase ..

/-- A payload that is taken goes on in the value, and one that is not is released. -/
theorem makeCase_moves (t : EnumType) (name : String) (payload : Option Value) :
    Inspect.Moves (payload.elim [] Value.blocks) (t.makeCase name payload) Value.blocks := by
  unfold makeCase
  rcases hc : t.caseOf name payload with e | v
  · intro w rest log h
    cases payload with
    | none => exact h
    | some p => exact p.release_ledger h
  · exact .pure (blocks_of_caseOf hc)

theorem name_of_found {t : EnumType} {name : String} {entry : CaseEntry}
    (h : t.entry? name = some entry) : entry.case.name = name := by
  simpa using List.find?_some h

theorem requireEmptyCase_eq_ok_iff {t : EnumType} {name : String} {entry : CaseEntry} :
    t.requireEmptyCase name = .ok entry ↔
    t.entry? name = some entry ∧ entry.case.hasPayload = false := by
  unfold requireEmptyCase requireEntry
  rcases t.entry? name with _ | found
  · exact ⟨nofun, nofun⟩
  · change (if found.case.hasPayload then _ else _) = _ ↔ _
    split
    · rename_i hpayload
      refine ⟨nofun, ?_⟩
      rintro ⟨⟨rfl⟩, hempty⟩
      rw [hempty] at hpayload
      cases hpayload
    · rename_i hempty
      constructor
      · rintro ⟨rfl⟩
        exact ⟨rfl, Bool.eq_false_iff.2 hempty⟩
      · rintro ⟨⟨rfl⟩, -⟩
        rfl

theorem entry?_of_requireEmptyCase {t : EnumType} {name : String} {e : CaseEntry}
    (h : t.requireEmptyCase name = .ok e) : t.entry? name = some e :=
  (requireEmptyCase_eq_ok_iff.1 h).1

/-- Inspecting the value of a case, and what is then kept of it. -/
theorem runOn_onCaseValue_of_ok {α : Type} {t : EnumType} {name : String} {entry : CaseEntry}
    (h : t.requireEmptyCase name = .ok entry) (x : InspectOn Value α) (w : World) :
    (onCaseValue name x).runOn t w =
      (((x.runOn (.enum t.core entry.state none) w).1.1,
        t.keep entry (x.runOn (.enum t.core entry.state none) w).1.2),
        (x.runOn (.enum t.core entry.state none) w).2) := by
  unfold onCaseValue
  rw [InspectOn.runOn_bind, InspectOn.runOn_current]
  simp only
  rw [InspectOn.runOn_bind, h]
  rfl

theorem runOn_onCaseValue_of_error {α : Type} {t : EnumType} {name : String} {e : Error}
    (h : t.requireEmptyCase name = .error e) (x : InspectOn Value α) (w : World) :
    (onCaseValue name x).runOn t w = ((.error e, t), w) := by
  unfold onCaseValue
  rw [InspectOn.runOn_bind, InspectOn.runOn_current]
  simp only
  rw [InspectOn.runOn_bind, h]
  rfl

/-- Of the enum's blocks, those of the case change with the case's value, the others stay. -/
theorem blocks_keep {t : EnumType} {name : String} {e : CaseEntry} (h : t.entry? name = some e) :
    ∃ others, t.blocks.Perm (e.state.blocks ++ others) ∧
      ∀ type state, (t.keep e (.enum type state none)).blocks.Perm (state.blocks ++ others) := by
  have hname := name_of_found h
  obtain ⟨front, back, hl, hput⟩ := Keyed.put_split _ h
  refine ⟨front.flatMap (fun e => e.state.blocks) ++ back.flatMap fun e => e.state.blocks, ?_, ?_⟩
  · rw [blocks, hl, List.flatMap_append, List.flatMap_cons]
    exact List.perm_append_comm_assoc ..
  · intro type state
    rw [keep, blocks, hput { e with state } hname, List.flatMap_append, List.flatMap_cons]
    exact List.perm_append_comm_assoc ..

theorem onCaseValue_balances {α : Type} (name : String) {x : InspectOn Value α}
    (hx : InspectOn.Balances Value.blocks x) (hbare : ∀ t, InspectOn.Keeps (Value.IsBare t) x) :
    InspectOn.Balances blocks (onCaseValue name x) := by
  intro t w rest log h
  rcases hr : t.requireEmptyCase name with e | entry
  · rw [runOn_onCaseValue_of_error hr]
    exact h
  · obtain ⟨others, hblocks, hkeep⟩ := blocks_keep (entry?_of_requireEmptyCase hr)
    have hw := hx (.enum t.core entry.state none) w (others ++ rest) log
      (h.perm (by simpa [Value.blocks] using hblocks.append_right rest))
    obtain ⟨state, hstate⟩ := (hbare t.core).run w ⟨entry.state, rfl⟩
    rw [hstate] at hw
    rw [runOn_onCaseValue_of_ok hr, hstate]
    refine hw.perm ?_
    have := (hkeep t.core state).symm.append_right rest
    simpa [Value.blocks] using this

end EnumType

end TypeMetadata
