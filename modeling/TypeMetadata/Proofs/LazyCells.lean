import TypeMetadata.Proofs.HeapLedger

/-!
# Enum values as cells

An enum value can be kept as two cells, one for its tag and one for its buffer, each of which is
filled when it is first asked for: the tag is read from the buffer, and the buffer is built from the
tag, which asks the payload for its place in turn. Here the two functions that call each other are
run on such cells as they stand, where a cell knows that it is being filled and calls within calls
are counted. On the cells of a `Value` they come to an end, and to what the value comes to
(`Value.placedBy_building`, `Value.runOn_readingTag_cells`).
-/

namespace TypeMetadata

namespace ValueType

/-- The call that reads the case of the enum value at `a`. -/
def tagCall (t : ValueType) (a : Address) : Except Error Call := do
  let witnesses ← t.requireEnumWitnesses
  let metadata ← t.requireMetadata
  return { function := witnesses.getTag, args := [a.val, metadata.val] }

theorem run_readTag (t : ValueType) (a : Address) (w : World) :
    (t.readTag a).run w =
      match t.tagCall a with
      | .ok c => (((w.invoke c).1.mapError Error.call).map UInt64.toUInt32, (w.invoke c).2)
      | .error e => (.error e, w) := by
  unfold readTag tagCall
  rcases t.requireEnumWitnesses with e | witnesses
  · rfl
  rcases t.requireMetadata with e | metadata
  · rfl
  change (Inspect.call _ >>= fun tag => pure tag.toUInt32 : Inspect UInt32).run w = _
  rw [Inspect.run_bind, Inspect.run_call]
  simp only [bind, Except.bind, pure, Except.pure]
  rcases (w.invoke _).1 with e | tag <;> rfl

end ValueType

/-- A place for something that is found out when it is first asked for. -/
inductive Cell (α : Type) where
  | empty
  | filling
  | filled (x : α)

namespace Cell

variable {α : Type}

/-- The cell with what is known. -/
def ofOption : Option α → Cell α
  | none => empty
  | some x => filled x

/-- The cell after an attempt to fill it. -/
def ofAnswer : Except Error α → Cell α
  | .ok x => filled x
  | .error _ => empty

end Cell

/-- Why a computation on cells comes to nothing. -/
inductive Stuck where
  /-- A cell was asked for while it was being filled. -/
  | reentered
  /-- There were more calls within calls than are allowed. -/
  | tooDeep

/-- The world without the buffer, if what it was for has failed. -/
def Buffer.releaseAfter {α : Type} (b : Buffer) : Except Error α → World → World
  | .ok _, w => w
  | .error _, w => b.release w

/-- An inspection that may change a `σ`, and that may get stuck. -/
abbrev CellInspect (σ : Type) := ExceptT Error (StateT σ (StateT World (Except Stuck)))

namespace CellInspect

variable {σ τ α β : Type}

/-- The inspection that this function makes. -/
def ofFunction (f : σ → World → Except Stuck ((Except Error α × σ) × World)) : CellInspect σ α :=
  ExceptT.mk f

/-- Run the inspection on `s`: the answer, and what has become of `s` and the world. -/
def runOn (x : CellInspect σ α) (s : σ) (w : World) : Except Stuck ((Except Error α × σ) × World) :=
  (ExceptT.run x).run s w

/-- An inspection that leaves the `σ` alone. -/
def lift (x : Inspect α) : CellInspect σ α := ofFunction fun s w =>
  .ok (((x.run w).1, s), (x.run w).2)

instance : MonadLift Inspect (CellInspect σ) := ⟨lift⟩

def stuck (why : Stuck) : CellInspect σ α := ofFunction fun _ _ => .error why

/-- The `σ` as it is now. -/
def current : CellInspect σ σ := ofFunction fun s w => .ok ((.ok s, s), w)

/-- What is in a cell, once `init` has filled it if it is empty. After a failure it is empty
again. -/
def demand (cell : σ → Cell α) (put : Cell α → σ → σ) (init : CellInspect σ α) : CellInspect σ α :=
  ofFunction fun s w =>
    match cell s with
    | .filled x => .ok ((.ok x, s), w)
    | .filling => .error .reentered
    | .empty => do
      let ((r, s), w) ← init.runOn (put .filling s) w
      return ((r, put (.ofAnswer r) s), w)

/-- Run `x`; the buffer does not outlive a failure. -/
def orRelease (b : Buffer) (x : CellInspect σ α) : CellInspect σ α := ofFunction fun s w => do
  let ((r, s), w) ← x.runOn s w
  return ((r, s), b.releaseAfter r w)

theorem runOn_ofFunction (f : σ → World → Except Stuck ((Except Error α × σ) × World)) (s : σ)
    (w : World) : (ofFunction f).runOn s w = f s w := rfl

theorem runOn_bind (x : CellInspect σ α) (f : α → CellInspect σ β) (s : σ) (w : World) :
    (x >>= f).runOn s w =
      match x.runOn s w with
      | .ok ((.ok a, s'), w') => (f a).runOn s' w'
      | .ok ((.error e, s'), w') => .ok ((.error e, s'), w')
      | .error why => .error why := by
  have hrun : (x >>= f).runOn s w =
    x.runOn s w >>= fun p => ExceptT.bindCont f p.1.1 p.1.2 p.2 := rfl
  rw [hrun]
  rcases x.runOn s w with why | ⟨⟨e | a, s'⟩, w'⟩ <;> rfl

theorem runOn_lift (x : Inspect α) (s : σ) (w : World) :
    (lift x : CellInspect σ α).runOn s w = .ok (((x.run w).1, s), (x.run w).2) := rfl

theorem runOn_current (s : σ) (w : World) :
    (current : CellInspect σ σ).runOn s w = .ok ((.ok s, s), w) := rfl

theorem runOn_ofExcept (x : Except Error α) (s : σ) (w : World) :
    (liftM x : CellInspect σ α).runOn s w = .ok ((x, s), w) := by
  cases x <;> rfl

section

variable {cell : σ → Cell α} {put : Cell α → σ → σ} {init : CellInspect σ α} {s s' : σ}
  {w w' : World}

theorem runOn_demand_filled {x : α} (h : cell s = .filled x) :
    (demand cell put init).runOn s w = .ok ((.ok x, s), w) := by
  rw [demand, runOn_ofFunction, h]

theorem runOn_demand_empty {r : Except Error α} (h : cell s = .empty)
    (hinit : init.runOn (put .filling s) w = .ok ((r, s'), w')) :
    (demand cell put init).runOn s w = .ok ((r, put (.ofAnswer r) s'), w') := by
  rw [demand, runOn_ofFunction, h]
  simp only [hinit]
  rfl

theorem runOn_orRelease {x : CellInspect σ α} {b : Buffer} {r : Except Error α}
    (h : x.runOn s w = .ok ((r, s'), w')) :
    (orRelease b x).runOn s w = .ok ((r, s'), b.releaseAfter r w') := by
  rw [orRelease, runOn_ofFunction, h]
  rfl

end

end CellInspect

/-- An enum value, whose tag and buffer are found out when they are first asked for. -/
structure EnumCells (V : Type) where
  type : ValueType
  tag : Cell UInt32
  storage : Cell Buffer
  payload : Option V

/-- A value in the target. -/
inductive LazyValue where
  | struct (type : ValueType) (buffer : Buffer)
  | enum (cells : EnumCells LazyValue)
  | object (reference : ObjectReference)

open CellInspect (current demand orRelease)

namespace LazyValue

/-- The case of an enum value that is given by its tag. -/
def ofCase (type : ValueType) (tag : UInt32) (payload : Option LazyValue) : LazyValue :=
  .enum ⟨type, .filled tag, .empty, payload⟩

/-- An enum value that is in memory. -/
def ofBuffer (type : ValueType) (buffer : Buffer) : LazyValue :=
  .enum ⟨type, .empty, .filled buffer, none⟩

/-- Copy a value to `dest`, where `place` gives an enum value its buffer. -/
def copyTo (place : CellInspect (EnumCells LazyValue) Buffer) (dest : Address) :
    CellInspect LazyValue Unit := .ofFunction fun v w =>
  match v with
  | .struct type buffer => (CellInspect.lift (type.copy dest buffer.address)).runOn v w
  | .object reference =>
    (CellInspect.lift (Inspect.update fun m => m.writePointer dest reference.address)).runOn v w
  | .enum cells => do
    let copy := do
      let source ← place
      CellInspect.lift (cells.type.copy dest source.address)
    let ((r, cells), w) ← copy.runOn cells w
    return ((r, .enum cells), w)

end LazyValue

namespace EnumCells

/-- Copy the payload, if there is one, to `dest`. -/
def copyPayload (place : CellInspect (EnumCells LazyValue) Buffer) (dest : Address) :
    CellInspect (EnumCells LazyValue) Unit := .ofFunction fun c w =>
  match c.payload with
  | none => .ok ((.ok (), c), w)
  | some payload => do
    let ((r, payload), w) ← (LazyValue.copyTo place dest).runOn payload w
    return ((r, { c with payload := some payload }), w)

/-- Read the tag from the buffer. -/
def readTag (buffer : CellInspect (EnumCells LazyValue) Buffer) :
    CellInspect (EnumCells LazyValue) UInt32 := do
  let type := (← current).type
  let witnesses ← type.requireEnumWitnesses
  let metadata ← type.requireMetadata
  let b ← buffer
  let tag ← CellInspect.lift (Inspect.call
    { function := witnesses.getTag, args := [b.address.val, metadata.val] })
  return tag.toUInt32

/-- Put the payload and the tag into the new buffer `b`. -/
def fill (type : ValueType) (tag : UInt32) (buffer : CellInspect (EnumCells LazyValue) Buffer)
    (b : Buffer) : CellInspect (EnumCells LazyValue) Buffer := do
  orRelease b do
    copyPayload buffer b.address
    CellInspect.lift (type.injectTag b.address tag)
  return b

/-- Build the value from its tag and its payload. -/
def materialize (tag : CellInspect (EnumCells LazyValue) UInt32)
    (buffer : CellInspect (EnumCells LazyValue) Buffer) :
    CellInspect (EnumCells LazyValue) Buffer := do
  let type := (← current).type
  let _ ← type.requireEnumWitnesses
  let _ ← type.requireMetadata
  let tag ← tag
  let b ← CellInspect.lift type.allocate
  fill type tag buffer b

mutual

/-- The tag, with at most so many calls within calls. -/
def readingTag : Nat → CellInspect (EnumCells LazyValue) UInt32
  | 0 => .stuck .tooDeep
  | n + 1 => demand EnumCells.tag (fun cell c => { c with tag := cell }) (readTag (building n))

/-- The buffer, with at most so many calls within calls. -/
def building : Nat → CellInspect (EnumCells LazyValue) Buffer
  | 0 => .stuck .tooDeep
  | n + 1 => demand EnumCells.storage (fun cell c => { c with storage := cell })
    (materialize (readingTag n) (building n))

end

end EnumCells

/-- The cells of an enum value of which this is known. -/
def EnumState.cells (state : EnumState) (type : ValueType) (payload : Option LazyValue) :
    EnumCells LazyValue :=
  ⟨type, .ofOption state.tag?, .ofOption state.buffer?, payload⟩

/-- The value with what is known of it in cells. -/
def Value.cells : Value → LazyValue
  | struct type buffer => .struct type buffer
  | enum type state none => .enum (state.cells type none)
  | enum type state (some inner) => .enum (state.cells type (some inner.cells))
  | object reference => .object reference
termination_by structural v => v

theorem Value.cells_enum (type : ValueType) (state : EnumState) (payload : Option Value) :
    (Value.enum type state payload).cells = .enum (state.cells type (payload.map cells)) := by
  cases payload <;> rfl

namespace EnumCells

open CellInspect

variable {c : EnumCells LazyValue} {w : World}

theorem runOn_readingTag_filled {tag : UInt32} (n : Nat) (h : c.tag = .filled tag) :
    (readingTag (n + 1)).runOn c w = .ok ((.ok tag, c), w) := by
  rw [readingTag]
  exact runOn_demand_filled h

theorem runOn_building_filled {b : Buffer} (n : Nat) (h : c.storage = .filled b) :
    (building (n + 1)).runOn c w = .ok ((.ok b, c), w) := by
  rw [building]
  exact runOn_demand_filled h

theorem runOn_readingTag_empty {n : Nat} {r : Except Error UInt32} {c' : EnumCells LazyValue}
    {w' : World} (h : c.tag = .empty)
    (hread : (readTag (building n)).runOn { c with tag := .filling } w = .ok ((r, c'), w')) :
    (readingTag (n + 1)).runOn c w = .ok ((r, { c' with tag := .ofAnswer r }), w') := by
  rw [readingTag]
  exact runOn_demand_empty h hread

theorem runOn_building_empty {n : Nat} {r : Except Error Buffer} {c' : EnumCells LazyValue}
    {w' : World} (h : c.storage = .empty)
    (hbuild : (materialize (readingTag n) (building n)).runOn { c with storage := .filling } w =
      .ok ((r, c'), w')) :
    (building (n + 1)).runOn c w = .ok ((r, { c' with storage := .ofAnswer r }), w') := by
  rw [building]
  exact runOn_demand_empty h hbuild

/-- With its buffer at hand, a value's tag is read from there. -/
theorem runOn_readTag {buffer : CellInspect (EnumCells LazyValue) Buffer} {b : Buffer}
    (h : buffer.runOn c w = .ok ((.ok b, c), w)) :
    (readTag buffer).runOn c w = .ok ((((c.type.readTag b.address).run w).1, c),
      ((c.type.readTag b.address).run w).2) := by
  rw [ValueType.run_readTag]
  unfold readTag ValueType.tagCall
  rw [runOn_bind, runOn_current]
  simp only
  rw [runOn_bind, runOn_ofExcept]
  rcases c.type.requireEnumWitnesses with e | witnesses
  · rfl
  simp only
  rw [runOn_bind, runOn_ofExcept]
  rcases c.type.requireMetadata with e | metadata
  · rfl
  simp only
  rw [runOn_bind, h]
  simp only
  rw [runOn_bind, runOn_lift, Inspect.run_call]
  simp only [bind, Except.bind, pure, Except.pure]
  rcases (w.invoke _).1 with e | tag <;> rfl

/-- With its tag known, a value gets a buffer, and then the payload and the tag are put there. -/
theorem runOn_materialize {tag : CellInspect (EnumCells LazyValue) UInt32}
    {buffer : CellInspect (EnumCells LazyValue) Buffer} {n : UInt32}
    (h : ∀ w, tag.runOn c w = .ok ((.ok n, c), w)) :
    (materialize tag buffer).runOn c w =
      match c.type.allocateEnum.run w with
      | (.ok b, w) => (fill c.type n buffer b).runOn c w
      | (.error e, w) => .ok ((.error e, c), w) := by
  unfold materialize ValueType.allocateEnum
  rw [runOn_bind, runOn_current]
  simp only
  rw [runOn_bind, runOn_ofExcept]
  rcases c.type.requireEnumWitnesses with e | witnesses
  · rfl
  simp only
  rw [runOn_bind, runOn_ofExcept]
  rcases c.type.requireMetadata with e | metadata
  · rfl
  simp only
  rw [runOn_bind, h]
  simp only
  rw [runOn_bind, runOn_lift]
  change _ = match c.type.allocate.run w with
    | (.ok b, w) => _
    | (.error e, w) => _
  rcases c.type.allocate.run w with ⟨e | b, w'⟩ <;> rfl

/-- A failed copy of the payload ends it. -/
theorem runOn_fill_error {buffer : CellInspect (EnumCells LazyValue) Buffer} {b : Buffer}
    {n : UInt32} {type : ValueType} {e : Error} {c' : EnumCells LazyValue} {w' : World}
    (h : (copyPayload buffer b.address).runOn c w = .ok ((.error e, c'), w')) :
    (fill type n buffer b).runOn c w = .ok ((.error e, c'), b.release w') := by
  have hput : (do
      copyPayload buffer b.address
      CellInspect.lift (type.injectTag b.address n)
      : CellInspect (EnumCells LazyValue) Unit).runOn c w = .ok ((.error e, c'), w') := by
    rw [runOn_bind, h]
  unfold fill
  rw [runOn_bind, runOn_orRelease hput]
  rfl

/-- With the payload copied, all that is left is the tag. -/
theorem runOn_fill_ok {buffer : CellInspect (EnumCells LazyValue) Buffer} {b : Buffer} {n : UInt32}
    {type : ValueType} {c' : EnumCells LazyValue} {w' : World}
    (h : (copyPayload buffer b.address).runOn c w = .ok ((.ok (), c'), w')) :
    (fill type n buffer b).runOn c w =
      match (type.injectTag b.address n).run w' with
      | (.ok _, w) => .ok ((.ok b, c'), w)
      | (.error e, w) => .ok ((.error e, c'), b.release w) := by
  have hinject : (do
      copyPayload buffer b.address
      CellInspect.lift (type.injectTag b.address n)
      : CellInspect (EnumCells LazyValue) Unit).runOn c w
      = .ok ((((type.injectTag b.address n).run w').1, c'),
        ((type.injectTag b.address n).run w').2) := by
    rw [runOn_bind, h]
    rfl
  unfold fill
  rw [runOn_bind, runOn_orRelease hinject]
  rcases (type.injectTag b.address n).run w' with ⟨e | a, w''⟩ <;> rfl

end EnumCells

namespace Value

open EnumCells CellInspect

/-- In this world `place` does with the cells of an enum value what is done with the value to give
it its place. -/
def PlacedBy (place : CellInspect (EnumCells LazyValue) Buffer) (type : ValueType)
    (state : EnumState) (payload : Option Value) (w : World) : Prop :=
  ∃ r state' payload' w',
    settle (.enum type state payload) w =
      ((r.map Buffer.address, .enum type state' payload'), w') ∧
    place.runOn (state.cells type (payload.map cells)) w =
      .ok ((r, state'.cells type (payload'.map cells)), w')

variable {place : CellInspect (EnumCells LazyValue) Buffer} {w : World}

/-- Copy the value from where it is, if it has a place. -/
def copyInto (v : Value) (source : Except Error Address) (dest : Address) : Inspect Unit := do
  v.copyTo (← source) dest

/-- A value is copied once it has its place. -/
theorem runOn_copyTo_cells (v : Value) (dest : Address)
    (h : ∀ type state payload, v = .enum type state payload →
      PlacedBy place type state payload w) :
    (LazyValue.copyTo place dest).runOn v.cells w =
      let ((source, v'), w₁) := v.settle w
      .ok ((((v'.copyInto source dest).run w₁).1, v'.cells),
        ((v'.copyInto source dest).run w₁).2) := by
  cases v with
  | struct type b => rfl
  | object reference => rfl
  | enum type state payload =>
    obtain ⟨r, state', payload', w₁, hsettle, hplace⟩ := h type state payload rfl
    rw [cells_enum, LazyValue.copyTo, runOn_ofFunction, hsettle]
    simp only
    rw [runOn_bind, hplace]
    rcases r with e | b
    · rw [cells_enum]
      rfl
    · rw [cells_enum]
      rfl

theorem runOn_copyPayload_cells {c : EnumCells LazyValue} (inner : Value) (dest : Address)
    (hc : c.payload = some inner.cells)
    (h : ∀ type state payload, inner = .enum type state payload →
      PlacedBy place type state payload w) :
    (copyPayload place dest).runOn c w =
      let ((source, inner), w₁) := inner.settle w
      .ok ((((inner.copyInto source dest).run w₁).1, { c with payload := some inner.cells }),
        ((inner.copyInto source dest).run w₁).2) := by
  rw [copyPayload, runOn_ofFunction, hc]
  simp only
  rw [runOn_copyTo_cells inner dest h]
  rfl

theorem run_placeIn (v : Value) (type : ValueType) (tag : UInt32) (source : Except Error Address)
    (b : Buffer) (w : World) : (v.placeIn type tag source b).run w =
      match (v.copyInto source b.address).run w with
      | (.ok _, w) => (type.injectTag b.address tag).run w
      | (.error e, w) => (.error e, w) := by
  have hplace : v.placeIn type tag source b
      = (v.copyInto source b.address >>= fun _ => type.injectTag b.address tag) := by
    unfold placeIn copyInto
    rw [bind_assoc]
  rw [hplace, Inspect.run_bind]
  rcases (v.copyInto source b.address).run w with ⟨e | a, w'⟩ <;> rfl

section

variable {type : ValueType} {tag : UInt32} {cells : Option LazyValue} {k : Nat} {w₁ w₂ : World}

/-- Where there is no room for it, a case stays as it is. -/
theorem runOn_building_refused {e : Error} (h : type.allocateEnum.run w = (.error e, w₁)) :
    (building (k + 2)).runOn ((EnumState.tagged tag).cells type cells) w =
      .ok ((.error e, (EnumState.tagged tag).cells type cells), w₁) := by
  have hbuild : (materialize (readingTag (k + 1)) (building (k + 1))).runOn
      ⟨type, .filled tag, .filling, cells⟩ w = _ :=
    runOn_materialize fun w => runOn_readingTag_filled k rfl
  simp only [h] at hbuild
  rw [runOn_building_empty (c := (EnumState.tagged tag).cells type cells) rfl hbuild]
  rfl

/-- What has been put into its buffer is what a case comes to. -/
theorem runOn_building_filled_in {b : Buffer} {r : Except Error Buffer} {c : EnumCells LazyValue}
    (h : type.allocateEnum.run w = (.ok b, w₁))
    (hfill : (fill type tag (building (k + 1)) b).runOn ⟨type, .filled tag, .filling, cells⟩ w₁ =
      .ok ((r, c), w₂)) :
    (building (k + 2)).runOn ((EnumState.tagged tag).cells type cells) w =
      .ok ((r, { c with storage := .ofAnswer r }), w₂) := by
  have hbuild : (materialize (readingTag (k + 1)) (building (k + 1))).runOn
      ⟨type, .filled tag, .filling, cells⟩ w = _ :=
    runOn_materialize fun w => runOn_readingTag_filled k rfl
  simp only [h, hfill] at hbuild
  exact runOn_building_empty (c := (EnumState.tagged tag).cells type cells) rfl hbuild

end

/-- A case without a payload. -/
theorem placedBy_building_none (k : Nat) (type : ValueType) (tag : UInt32) (w : World) :
    PlacedBy (building (k + 2)) type (.tagged tag) none w := by
  unfold PlacedBy
  rw [run_settle_none]
  rcases hb : type.allocateEnum.run w with ⟨e | b, w₁⟩
  · exact ⟨.error e, .tagged tag, none, w₁, rfl, runOn_building_refused hb⟩
  have hfill : (fill type tag (building (k + 1)) b).runOn
      ⟨type, .filled tag, .filling, none⟩ w₁ = _ := runOn_fill_ok rfl
  rcases ht : (type.injectTag b.address tag).run w₁ with ⟨e | a, w₂⟩ <;> simp only [ht] at hfill ⊢
  · refine ⟨.error e, .tagged tag, none, b.release w₂, rfl, ?_⟩
    rw [Option.map_none, runOn_building_filled_in hb hfill]
    rfl
  · refine ⟨.ok b, .complete tag b, none, w₂, rfl, ?_⟩
    rw [Option.map_none, runOn_building_filled_in hb hfill]
    rfl

/-- A case around a payload for which the calls within calls are enough. -/
theorem placedBy_building_some {k : Nat} {type : ValueType} {tag : UInt32} {inner : Value}
    {w : World} (h : ∀ type state payload w, inner = .enum type state payload →
      PlacedBy (building (k + 1)) type state payload w) :
    PlacedBy (building (k + 2)) type (.tagged tag) (some inner) w := by
  unfold PlacedBy
  rw [run_settle_some]
  rcases hb : type.allocateEnum.run w with ⟨e | b, w₁⟩
  · exact ⟨.error e, .tagged tag, some inner, w₁, rfl, runOn_building_refused hb⟩
  have hcopy : (copyPayload (building (k + 1)) b.address).runOn
      ⟨type, .filled tag, .filling, some inner.cells⟩ w₁ = _ :=
    runOn_copyPayload_cells inner b.address rfl fun type state payload => h type state payload w₁
  rcases hs : inner.settle w₁ with ⟨⟨source, settled⟩, w₂⟩
  rcases hinto : (settled.copyInto source b.address).run w₂ with ⟨e | a, w₃⟩ <;>
    simp only [hs, hinto] at hcopy <;> simp only [hs, run_placeIn, hinto]
  · refine ⟨.error e, .tagged tag, some settled, b.release w₃, rfl, ?_⟩
    rw [Option.map_some, runOn_building_filled_in hb (runOn_fill_error hcopy)]
    rfl
  have hfill : (fill type tag (building (k + 1)) b).runOn
      ⟨type, .filled tag, .filling, some inner.cells⟩ w₁ = _ := runOn_fill_ok hcopy
  rcases ht : (type.injectTag b.address tag).run w₃ with ⟨e | a, w₄⟩ <;> simp only [ht] at hfill ⊢
  · refine ⟨.error e, .tagged tag, some settled, b.release w₄, rfl, ?_⟩
    rw [Option.map_some, runOn_building_filled_in hb hfill]
    rfl
  · refine ⟨.ok b, .complete tag b, some settled, w₄, rfl, ?_⟩
    rw [Option.map_some, runOn_building_filled_in hb hfill]
    rfl

/-- The cells of an enum value that is asked for its place, with calls enough within calls: one more
than payloads lie in each other, and one to look at the innermost tag. -/
theorem placedBy_building (n : Nat) (type : ValueType) (state : EnumState) (payload : Option Value)
    (w : World) (hn : (Value.enum type state payload).payloads.length + 2 ≤ n) :
    PlacedBy (building n) type state payload w := by
  induction n generalizing type state payload w with
  | zero => omega
  | succ n ih =>
    obtain ⟨k, rfl⟩ : ∃ k, n = k + 1 := ⟨n - 1, by omega⟩
    cases state with
    | stored b => exact ⟨.ok b, .stored b, payload, w, rfl, runOn_building_filled _ rfl⟩
    | complete tag b => exact ⟨.ok b, .complete tag b, payload, w, rfl, runOn_building_filled _ rfl⟩
    | tagged tag =>
      cases payload with
      | none => exact placedBy_building_none k type tag w
      | some inner =>
        refine placedBy_building_some fun type' state' payload' w' heq => ?_
        subst heq
        rw [payloads, List.length_cons] at hn
        exact ih _ _ _ _ (by omega)

/-- The cells of an enum value that is asked for its tag. -/
theorem runOn_readingTag_cells (n : Nat) (type : ValueType) (state : EnumState)
    (payload : Option Value) (w : World) :
    ∃ r state' w',
      tag.runOn (.enum type state payload) w = ((r.map some, .enum type state' payload), w') ∧
      (readingTag (n + 2)).runOn (state.cells type (payload.map cells)) w =
        .ok ((r, state'.cells type (payload.map cells)), w') := by
  cases state with
  | tagged tag => exact ⟨.ok tag, .tagged tag, w, rfl, runOn_readingTag_filled _ rfl⟩
  | complete tag b => exact ⟨.ok tag, .complete tag b, w, rfl, runOn_readingTag_filled _ rfl⟩
  | stored b =>
    have hread := runOn_readTag (c := ⟨type, .filling, .filled b, payload.map cells⟩) (w := w)
      (runOn_building_filled n rfl)
    have hfound := runOn_readingTag_empty
      (c := (EnumState.stored b).cells type (payload.map cells)) rfl hread
    rw [runOn_tag_stored]
    rcases hr : (type.readTag b.address).run w with ⟨e | tag, w'⟩ <;> simp only [hr] at hfound
    · exact ⟨.error e, .stored b, w', rfl, hfound⟩
    · exact ⟨.ok tag, .complete tag b, w', rfl, hfound⟩

end Value

end TypeMetadata
