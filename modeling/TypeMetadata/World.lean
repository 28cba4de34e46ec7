import TypeMetadata.Keyed
import TypeMetadata.Native.FunctionTable
import TypeMetadata.Settings

/-!
# The inspected process

`World` is all that an inspection can read or change: memory, the functions that can be called and
the calls made so far, and the tables that give names to addresses. `Inspect` is the monad of
inspections. One that fails keeps what it has changed until then.
-/

namespace TypeMetadata

/-- Names of addresses. -/
structure NameTable where
  entries : List (Address × String) := []

namespace NameTable

/-- Give `a` a name, instead of the one it had. -/
def insert (t : NameTable) (a : Address) (name : String) : NameTable :=
  ⟨Keyed.put Prod.fst (a, name) t.entries⟩

def lookup? (t : NameTable) (a : Address) : Option String :=
  Keyed.lookup? a t.entries

def size (t : NameTable) : Nat := t.entries.length

end NameTable

/-- A process under inspection. -/
structure World where
  memory : Memory
  functions : FunctionTable
  /-- Calls made so far, the latest first. -/
  calls : List Call := []
  /-- Blocks whose release was refused so far, the latest first. -/
  refusals : List Address := []
  /-- Names of code addresses. -/
  symbols : NameTable := {}
  /-- Type names by the address of their mangled form. -/
  references : NameTable := {}

/-- An inspection that gives an `α` or fails. -/
abbrev Inspect := ExceptT Error (StateM World)

namespace Settings

/-- The symbol at a code address. -/
def symbolName (s : Settings) (w : World) (a : Address) : Option String :=
  if s.useSymbols then w.symbols.lookup? a else none

/-- The name of the type whose mangled name is at `a`. -/
def typeName (s : Settings) (w : World) (a : Address) : Option String :=
  if s.useReferences then w.references.lookup? a else none

end Settings

namespace World

variable {α : Type}

/-- What a decoder reads in the memory of `w`. -/
def decode (w : World) (d : Decoder α) : Except Error α := d w.memory

/-- The world after a call, which is on record whether or not there is a function to call. -/
def invoke (w : World) (c : Call) : Except CallError UInt64 × World :=
  let (result, memory) := w.functions.invoke c w.memory
  (result, { w with memory, calls := c :: w.calls })

end World

namespace Inspect

variable {α : Type}

/-- Read memory as it is now. -/
def decode (d : Decoder α) : Inspect α := do
  match (← get).decode d with
  | .ok x => return x
  | .error e => throw e

instance : MonadLift Decoder Inspect := ⟨decode⟩

/-- Refuse a request. -/
def refuse (p : Precondition) : Inspect α := throw (.precondition p)

/-- Call a target function. -/
def call (c : Call) : Inspect UInt64 := do
  let (result, w) := (← get).invoke c
  set w
  match result with
  | .ok x => return x
  | .error e => throw (.call e)

/-- Change memory, unless the change is refused. -/
def update (f : Memory → Except MemoryError Memory) : Inspect Unit := do
  match f (← get).memory with
  | .ok memory => modify fun w => { w with memory }
  | .error e => throw (.memory e)

end Inspect

/-- An inspection that may also change a `σ`. One that fails keeps that change, too. -/
abbrev InspectOn (σ : Type) := ExceptT Error (StateT σ (StateM World))

namespace InspectOn

variable {σ τ α : Type}

/-- The inspection that this function makes. -/
def ofFunction (f : σ → StateM World (Except Error α × σ)) : InspectOn σ α := ExceptT.mk f

/-- An inspection that leaves the `σ` alone. -/
def lift (x : Inspect α) : InspectOn σ α := ofFunction fun s => do
  let r ← x.run
  return (r, s)

instance : MonadLift Inspect (InspectOn σ) := ⟨lift⟩

/-- The `σ` as it is now. -/
def current : InspectOn σ σ := ofFunction fun s => pure (.ok s, s)

/-- Put another `σ` in its place. -/
def replace (s : σ) : InspectOn σ Unit := ofFunction fun _ => pure (.ok (), s)

/-- Run the inspection on `s`: the answer, and what has become of `s`. -/
def runOn (x : InspectOn σ α) (s : σ) : StateM World (Except Error α × σ) := (ExceptT.run x).run s

/-- An inspection of a part, as one of the whole. -/
def onPart (get : σ → τ) (set : σ → τ → σ) (x : InspectOn τ α) : InspectOn σ α :=
  ofFunction fun s => do
    let (r, t) ← x.runOn (get s)
    return (r, set s t)

end InspectOn

end TypeMetadata
