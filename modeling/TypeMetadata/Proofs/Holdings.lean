import Mathlib.Data.List.Perm.Basic
import TypeMetadata.Emit.Field
import TypeMetadata.Emit.Metadata
import TypeMetadata.Emit.Nominal
import TypeMetadata.Proofs.HeapBlocks
import TypeMetadata.Proofs.HeapLedger
import TypeMetadata.Proofs.LoadedImage
import TypeMetadata.Reflection.Struct

/-!
# Runs of value operations

A user of values holds buffers, values and enums, makes new ones, asks them for tags, addresses and
bytes, builds values into others and drops what is no longer needed, in any order and with any of
these failing anywhere. `Holdings.perform_ledger` is the step: the blocks of what is held change as
the heap does. `Holdings.live_after` is the run: no block is lost and none is freed twice.
-/

namespace TypeMetadata

open Inspect (Moves)

/-- What can be asked of a value. -/
inductive Query where
  | tag
  | address
  | buffer
  | bytes

namespace Query

/-- Ask a value, and leave the answer. -/
def inspect : Query → InspectOn Value Unit
  | tag => do let _ ← Value.tag
  | address => do let _ ← Value.address
  | buffer => do let _ ← Value.buffer
  | bytes => do let _ ← Value.bytes

/-- Ask the payload that lies `depth` payloads deep in a value; the value and the world then. -/
def within (q : Query) : Nat → Value → World → Value × World
  | 0, v, w =>
    let ((_, v), w) := q.inspect.runOn v w
    (v, w)
  | depth + 1, .enum type state (some inner), w =>
    let (inner, w) := q.within depth inner w
    (.enum type state (some inner), w)
  | _ + 1, v, w => (v, w)

theorem inspect_balances (q : Query) : InspectOn.Balances Value.blocks q.inspect := by
  cases q with
  | tag => exact Value.tag_balances.bind fun _ => .pure _
  | address => exact Value.address_balances.bind fun _ => .pure _
  | buffer => exact Value.buffer_balances.bind fun _ => .pure _
  | bytes => exact Value.bytes_balances.bind fun _ => .pure _

theorem keeps_inspect (q : Query) (t : ValueType) :
    InspectOn.Keeps (Value.IsBare t) q.inspect := by
  cases q with
  | tag => exact Value.keeps_tag.bind fun _ => .pure _
  | address => exact Value.keeps_address.bind fun _ => .pure _
  | buffer => exact Value.keeps_buffer.bind fun _ => .pure _
  | bytes => exact Value.keeps_bytes.bind fun _ => .pure _

theorem within_ledger (q : Query) : ∀ (depth : Nat) (v : Value) (w : World)
    (rest log : List Address), w.Ledger (v.blocks ++ rest) log →
      (q.within depth v w).2.Ledger ((q.within depth v w).1.blocks ++ rest) log
  | 0, v, w, rest, log, h => q.inspect_balances v w rest log h
  | depth + 1, .enum type state (some inner), w, rest, log, h => by
    have hin := q.within_ledger depth inner w (state.blocks ++ rest) log
      (by simpa [Value.blocks] using h)
    simpa [within, Value.blocks] using hin
  | _ + 1, .enum _ _ none, _, _, _, h => h
  | _ + 1, .struct _ _, _, _, _, h => h
  | _ + 1, .object _, _, _, _, h => h

end Query

/-- A way to come by a value. -/
inductive Making where
  | emptyStruct (type : StructType)
  | structAt (type : StructType) (a : Address)
  | copyOfStruct (type : StructType) (source : Address)
  | emptyEnum (type : EnumType)
  | enumAt (type : EnumType) (a : Address)
  | copyOfEnum (type : EnumType) (source : Address)
  | object (reference : ObjectReference)

namespace Making

/-- Make the value. -/
def inspect : Making → Inspect Value
  | emptyStruct t => t.emptyValue
  | structAt t a => t.valueAt a
  | copyOfStruct t source => t.copyOf source
  | emptyEnum t => t.emptyValue
  | enumAt t a => t.valueAt a
  | copyOfEnum t source => t.copyOf source
  | object reference => return .object reference

theorem blocks_of_view {t : ValueType} {a : Address} {f : Buffer → Value} {v : Value}
    (hf : ∀ b, (f b).blocks = b.blocks) (h : (do return f (← t.view a)) = Except.ok v) :
    v.blocks = [] := by
  rcases hr : t.view a with e | b <;> rw [hr] at h
  · cases h
  · cases h
    rw [hf, ValueType.blocks_of_view hr]

theorem inspect_moves (m : Making) : Moves [] m.inspect Value.blocks := by
  cases m with
  | emptyStruct t => exact t.core.allocate_moves.bind fun b => .pure rfl
  | structAt t a => exact Inspect.moves_ofExcept fun v h => blocks_of_view (fun _ => rfl) h
  | copyOfStruct t source => exact (t.core.allocateCopy_moves source).bind fun b => .pure rfl
  | emptyEnum t => exact .throw _
  | enumAt t a => exact Inspect.moves_ofExcept fun v h => blocks_of_view (fun _ => rfl) h
  | copyOfEnum t source => exact (t.core.allocateCopy_moves source).bind fun b => .pure rfl
  | object reference => exact .pure rfl

end Making

/-- What is done elsewhere in the meantime, by whom may change memory and the target's functions but
has nothing to do with the heap. -/
structure Meanwhile where
  change : World → World
  live : ∀ w, (change w).memory.live.Perm w.memory.live
  refusals : ∀ w, (change w).refusals = w.refusals
  spares : ∀ w, w.functions.SparesHeap → (change w).functions.SparesHeap

/-- A thing that someone holds. -/
inductive Holding where
  | buffer (b : Buffer)
  | value (v : Value)
  | enum (t : EnumType)

namespace Holding

def blocks : Holding → List Address
  | buffer b => b.blocks
  | value v => v.blocks
  | enum t => t.blocks

/-- The world without the thing. -/
def release : Holding → World → World
  | buffer b => b.release
  | value v => v.release
  | enum t => t.release

theorem release_ledger {x : Holding} {w : World} {rest log : List Address}
    (h : w.Ledger (x.blocks ++ rest) log) : (x.release w).Ledger rest log := by
  cases x with
  | buffer b => exact Buffer.release_ledger h
  | value v => exact v.release_ledger h
  | enum t => exact EnumType.release_ledger h

end Holding

/-- An operation on the things that are held, which it names by their places. Where there is no such
thing nothing is done. -/
inductive Operation where
  | allocate (size : UInt64)
  | view (a : Address) (size : UInt64)
  | make (m : Making)
  | readEnum (settings : Settings) (d : EnumDescriptor)
  | makeCase (place : Nat) (name : String)
  | makeCaseWith (place : Nat) (name : String) (payload : Nat)
  | copyRaw (type : ValueType) (dest source : Address)
  | ask (place depth : Nat) (q : Query)
  | askCase (place : Nat) (name : String) (q : Query)
  | drop (place : Nat)
  | meanwhile (m : Meanwhile)

/-- The things that someone holds. -/
abbrev Holdings := List Holding

namespace Holdings

def blocks (h : Holdings) : List Address := h.flatMap Holding.blocks

/-- What is held after an attempt to come by a thing. -/
def keep {α : Type} (h : Holdings) (thing : α → Holding) : Except Error α × World → Holdings × World
  | (.ok a, w) => (thing a :: h, w)
  | (.error _, w) => (h, w)

/-- What is held after an operation, and the world then. A payload is given away with the request
for the value that it is to be built into. -/
def perform (h : Holdings) (w : World) : Operation → Holdings × World
  | .allocate size => h.keep .buffer ((Buffer.allocate size).run w)
  | .view a size => (.buffer (.view a size) :: h, w)
  | .make m => h.keep .value (m.inspect.run w)
  | .readEnum settings d => h.keep .enum ((EnumType.read settings d).run w)
  | .makeCase place name =>
    match h[place]? with
    | some (.enum t) => h.keep .value ((t.makeCase name none).run w)
    | _ => (h, w)
  | .makeCaseWith place name payload =>
    match h[place]?, h[payload]? with
    | some (.enum t), some (.value v) =>
      keep (h.eraseIdx payload) .value ((t.makeCase name (some v)).run w)
    | _, _ => (h, w)
  | .copyRaw t dest source => (h, ((t.copy dest source).run w).2)
  | .ask place depth q =>
    match h[place]? with
    | some (.value v) =>
      let (v, w) := q.within depth v w
      (h.set place (.value v), w)
    | _ => (h, w)
  | .askCase place name q =>
    match h[place]? with
    | some (.enum t) =>
      let ((_, t), w) := (EnumType.onCaseValue name q.inspect).runOn t w
      (h.set place (.enum t), w)
    | _ => (h, w)
  | .drop place =>
    match h[place]? with
    | some x => (h.eraseIdx place, x.release w)
    | none => (h, w)
  | .meanwhile m => (h, m.change w)

/-- What is held, and the world, after operations one after another. -/
def after (h : Holdings) (w : World) : List Operation → Holdings × World
  | [] => (h, w)
  | o :: operations =>
    let (h, w) := h.perform w o
    h.after w operations

variable {h : Holdings} {w : World} {rest log : List Address} {place : Nat} {x : Holding}

theorem blocks_eraseIdx (hx : h[place]? = some x) :
    h.blocks.Perm (x.blocks ++ blocks (h.eraseIdx place)) := by
  obtain ⟨hi, rfl⟩ := List.getElem?_eq_some_iff.1 hx
  exact (List.getElem_cons_eraseIdx_perm hi).symm.flatMap_right _

theorem blocks_set (hx : h[place]? = some x) (y : Holding) :
    (blocks (h.set place y)).Perm (y.blocks ++ blocks (h.eraseIdx place)) := by
  obtain ⟨hi, rfl⟩ := List.getElem?_eq_some_iff.1 hx
  exact (List.set_perm_cons_eraseIdx hi y).flatMap_right _

theorem keep_ledger {α : Type} {thing : α → Holding} {old : List Address} {i : Inspect α}
    (hi : Moves old i fun a => (thing a).blocks) (hw : w.Ledger (old ++ (h.blocks ++ rest)) log) :
    (h.keep thing (i.run w)).2.Ledger ((h.keep thing (i.run w)).1.blocks ++ rest) log := by
  have hafter := hi w _ log hw
  rcases hr : i.run w with ⟨e | a, w'⟩ <;> rw [hr] at hafter
  · exact hafter
  · simpa [keep, blocks] using hafter

/-- A thing taken out of its place, and what is put there for it. -/
theorem set_ledger (hx : h[place]? = some x) (hw : w.Ledger (h.blocks ++ rest) log) {y : Holding}
    {w' : World} (hy : w.Ledger (x.blocks ++ (blocks (h.eraseIdx place) ++ rest)) log →
      w'.Ledger (y.blocks ++ (blocks (h.eraseIdx place) ++ rest)) log) :
    w'.Ledger (blocks (h.set place y) ++ rest) log := by
  rw [← List.append_assoc, ← List.append_assoc] at hy
  exact (hy (hw.perm ((blocks_eraseIdx hx).append_right _))).perm
    ((blocks_set hx y).symm.append_right _)

theorem perform_ledger (o : Operation) (hw : w.Ledger (h.blocks ++ rest) log) :
    (h.perform w o).2.Ledger ((h.perform w o).1.blocks ++ rest) log := by
  cases o with
  | allocate size => exact keep_ledger (Buffer.allocate_moves size) hw
  | view a size => exact hw
  | make m => exact keep_ledger m.inspect_moves hw
  | readEnum settings d => exact keep_ledger (EnumType.read_moves settings d) hw
  | makeCase place name =>
    simp only [perform]
    split
    · rename_i t ht
      exact keep_ledger (t.makeCase_moves name none) hw
    · exact hw
  | makeCaseWith place name payload =>
    simp only [perform]
    split
    · rename_i t v ht hv
      refine keep_ledger (t.makeCase_moves name (some v)) ?_
      rw [← List.append_assoc]
      exact hw.perm ((blocks_eraseIdx hv).append_right _)
    · exact hw
  | copyRaw t dest source =>
    have hafter := t.spares_copy dest source w _ log hw
    simp only [perform]
    rcases hr : (t.copy dest source).run w with ⟨e | a, w'⟩ <;> rw [hr] at hafter <;> exact hafter
  | ask place depth q =>
    simp only [perform]
    split
    · rename_i v hv
      exact set_ledger hv hw (q.within_ledger depth v w _ log)
    · exact hw
  | askCase place name q =>
    simp only [perform]
    split
    · rename_i t ht
      exact set_ledger ht hw
        (EnumType.onCaseValue_balances name q.inspect_balances q.keeps_inspect t w _ log)
    · exact hw
  | drop place =>
    simp only [perform]
    split
    · rename_i x hx
      refine Holding.release_ledger ?_
      rw [← List.append_assoc]
      exact hw.perm ((blocks_eraseIdx hx).append_right _)
    · exact hw
  | meanwhile m =>
    exact ⟨(m.live w).trans hw.live, (m.refusals w).trans hw.refusals, m.spares w hw.spares⟩

theorem after_ledger (operations : List Operation) (hw : w.Ledger (h.blocks ++ rest) log) :
    (h.after w operations).2.Ledger ((h.after w operations).1.blocks ++ rest) log := by
  induction operations generalizing h w with
  | nil => exact hw
  | cons o operations ih => exact ih (perform_ledger o hw)

/-- From a start at which nothing is held on, and with target functions that neither allocate nor
free, the live blocks are at any time those of the start and those of what is held, all of them
different, and no release is refused. -/
theorem live_after (w : World) (spares : w.functions.SparesHeap) (operations : List Operation) :
    let (h, w') := after [] w operations
    w'.memory.live.Perm (h.blocks ++ w.memory.live) ∧ (h.blocks ++ w.memory.live).Nodup ∧
      w'.refusals = w.refusals := by
  have hw : w.Ledger (blocks [] ++ w.memory.live) w.refusals := ⟨.refl _, rfl, spares⟩
  have hafter := after_ledger operations hw
  exact ⟨hafter.live, hafter.nodup, hafter.refusals⟩

end Holdings

/-- An enum of 16 bytes, one case of which carries a payload. The functions for its values are at
`0x8000` and behind. -/
def Emit.enumWithPayload : Build Address := do
  let parent ← moduleContext "m"
  let listed ← fieldDescriptor .enumType
    [{ name := "a", mangledType := some "Si" }, { name := "b" }]
  let enumWitnesses := some ⟨⟨0x8020⟩, .null, ⟨0x8010⟩⟩
  let _ ← valueMetadata
    { kind := .enumType, layout := ⟨16, 16, ⟨7⟩, 0⟩, initializeWithCopy := ⟨0x8000⟩, enumWitnesses }
  enumType
    { name := "E", parent, accessFunction := some ⟨0x8030⟩, fields := some listed.address } 1 1

/-- The target's functions go away. -/
def Meanwhile.functionsGone : Meanwhile where
  change w := { w with functions := ⟨w.functions.base, #[]⟩ }
  live _ := .refl _
  refusals _ := rfl
  spares _ _ := nofun

namespace Holdings

/-- A process with this enum. -/
def showingEnum : World :=
  { World.showing Emit.enumWithPayload with
    functions := ⟨⟨0x8000⟩, #[StandIn.copyBytes 16, StandIn.setByteTag 8, StandIn.byteTag 8,
      StandIn.const 0x10B8]⟩ }

theorem spares_showingEnum : showingEnum.functions.SparesHeap := by
  intro f hf c m
  simp only [showingEnum, List.mem_toArray, List.mem_cons, List.not_mem_nil, or_false] at hf
  rcases hf with rfl | rfl | rfl | rfl
  · exact (StandIn.writesAt_copyBytes 16).live_eq c m ▸ .refl _
  · exact (StandIn.writesAt_setByteTag 8).live_eq c m ▸ .refl _
  · exact (StandIn.writesAt_byteTag 8 0).live_eq c m ▸ .refl _
  · exact .refl _

/-- The enum is read. A value gets its place, and another one with a payload, which gets its own on
the way; the first is then given to a case that takes no payload. The other case is asked for its
place. A block and a view come and go, with something between them that is no enum. Without
functions, a further value gets no place. -/
def lifetimes : List Operation :=
  [.readEnum {} ⟨⟨⟨⟨0x10C8⟩, ⟨0x52⟩, .enumType⟩⟩⟩,
    .makeCase 0 "b", .ask 0 0 .address,
    .makeCase 1 "b", .makeCaseWith 2 "a" 0, .ask 0 0 .address,
    .makeCaseWith 2 "b" 1,
    .askCase 1 "b" .address,
    .allocate 8, .view ⟨0x1000⟩ 8, .readEnum {} ⟨⟨⟨.null, ⟨0⟩, .enumType⟩⟩⟩, .drop 0, .drop 0,
    .meanwhile .functionsGone, .makeCase 1 "b", .ask 0 0 .address]

/-- What is held at the end is the value without a place, the one with its payload, and the enum
with the value of its other case. -/
theorem live_after_drop :
    showingEnum.functions.SparesHeap ∧
      let (h, w') := after [] showingEnum lifetimes
      h.map Holding.blocks = [[], [⟨0x60000020⟩, ⟨0x60000010⟩], [⟨0x60000030⟩]] ∧
        w'.calls.length = 7 ∧
        w'.memory.live.Perm (h.blocks ++ showingEnum.memory.live) ∧
        (h.blocks ++ showingEnum.memory.live).Nodup ∧ w'.refusals = showingEnum.refusals := by
  have hheld : (after [] showingEnum lifetimes).1.map Holding.blocks =
        [[], [⟨0x60000020⟩, ⟨0x60000010⟩], [⟨0x60000030⟩]] ∧
      (after [] showingEnum lifetimes).2.calls.length = 7 := by
    decide +kernel
  -- From here on the operations are any with this outcome, which keeps them from being run again.
  generalize lifetimes = operations at *
  have hlive := live_after showingEnum spares_showingEnum operations
  generalize after [] showingEnum operations = final at *
  exact ⟨spares_showingEnum, hheld.1, hheld.2, hlive⟩

end Holdings

end TypeMetadata
