import TypeMetadata.Native.Call

/-!
# Stand-ins for target functions

Small functions with which an image can play a live process: access functions that return a
constant, witnesses that copy bytes or keep an enum's tag in one byte, and an allocating
initializer. One that gets another number of arguments than it takes fails as a bad call.
-/

namespace TypeMetadata.StandIn

/-- A function body: it may change memory and may fail, keeping the changes. -/
abbrev Body := ExceptT CallError (StateM Memory)

/-- The target function with this body. -/
def ofBody (body : Call → Body UInt64) : NativeFunction := fun c m => (body c).run m

def fromMemory {α : Type} (f : Memory → Except MemoryError α) : Body α := do
  match f (← get) with
  | .ok x => return x
  | .error e => throw (.memory e)

/-- Change memory, unless the change is refused. -/
def update (f : Memory → Except MemoryError Memory) : Body Unit := do
  set (← fromMemory f)

def badCall {α : Type} (c : Call) : Body α := throw (.failed c.function "bad call")

/-- Always returns `value`. -/
def const (value : UInt64) : NativeFunction := ofBody fun _ => pure value

/-- The sum of the arguments. -/
def sum : NativeFunction := ofBody fun c => pure (c.args.foldl (· + ·) 0)

/-- The context, zero for none. -/
def context : NativeFunction := ofBody fun c => pure (c.context.elim 0 Address.val)

/-- Always fails. -/
def fail (reason : String) : NativeFunction :=
  ofBody fun c => throw (.failed c.function reason)

/-- Copies `size` bytes from its second argument to its first, which it returns. -/
def copyBytes (size : Nat) : NativeFunction := ofBody fun c => do
  match c.args with
  | [dest, src, _] =>
    let bs ← fromMemory fun m => m.read ⟨src⟩ size
    update fun m => m.write ⟨dest⟩ bs
    return dest
  | _ => badCall c

/-- The byte at `offset` in its first argument. -/
def byteTag (offset : UInt64) : NativeFunction := ofBody fun c => do
  match c.args with
  | [value, _] => return (← fromMemory fun m => m.readU8 ⟨value + offset⟩).toUInt64
  | _ => badCall c

/-- The 64-bit word at `offset` in its first argument. -/
def wordTag (offset : UInt64) : NativeFunction := ofBody fun c => do
  match c.args with
  | [value, _] => fromMemory fun m => m.readU64 ⟨value + offset⟩
  | _ => badCall c

/-- Writes the low byte of its second argument at `offset` in its first. -/
def setByteTag (offset : UInt64) : NativeFunction := ofBody fun c => do
  match c.args with
  | [value, tag, _] =>
    update fun m => m.write ⟨value + offset⟩ [tag.toUInt8]
    return 0
  | _ => badCall c

/-- Write words one after another. -/
def storeWords : Address → List UInt64 → Body Unit
  | _, [] => pure ()
  | a, w :: ws => do
    update fun m => m.writeU64 a w
    storeWords (a + pointerSize) ws

/-- Allocates an object of `size` bytes: the context in its first word, the arguments from its
third word on. -/
def newObject (size : UInt64) : NativeFunction := ofBody fun c => do
  let some metadata := c.context | throw (.failed c.function "no context")
  let (object, m) ← fromMemory fun m => m.allocate size
  set m
  update fun m => m.writePointer object metadata
  storeWords (object + 2 * pointerSize) c.args
  return object.val

/-! ## Calls with the right number of arguments -/

section Runs

variable {β : Type} {c : Call} {m : Memory}

theorem run_fromMemory_bind {α : Type} (f : Memory → Except MemoryError α) (g : α → Body β) :
    (fromMemory f >>= g).run m =
      match f m with
      | .ok x => (g x).run m
      | .error e => (.error (.memory e), m) := by
  have hrun : (fromMemory f).run m =
      match f m with
      | .ok x => (Except.ok x, m)
      | .error e => (Except.error (CallError.memory e), m) := by
    change (match f m with
      | .ok x => (pure x : Body α)
      | .error e => throw (CallError.memory e)) m = _
    cases f m <;> rfl
  change ExceptT.bindCont g ((fromMemory f).run m).1 ((fromMemory f).run m).2 = _
  rw [hrun]
  cases f m <;> rfl

theorem run_update_bind (f : Memory → Except MemoryError Memory) (g : Unit → Body β) :
    (update f >>= g).run m =
      match f m with
      | .ok m' => (g ()).run m'
      | .error e => (.error (.memory e), m) := by
  unfold update
  rw [bind_assoc, run_fromMemory_bind]
  cases f m <;> rfl

theorem run_copyBytes {size : Nat} {dest src md : UInt64} (h : c.args = [dest, src, md]) :
    copyBytes size c m =
      match m.read ⟨src⟩ size with
      | .error e => (.error (.memory e), m)
      | .ok bs =>
        match m.write ⟨dest⟩ bs with
        | .error e => (.error (.memory e), m)
        | .ok m' => (.ok dest, m') := by
  unfold copyBytes ofBody
  simp only [h]
  rw [run_fromMemory_bind]
  rcases m.read ⟨src⟩ size with e | bs
  · rfl
  · simp only
    rw [run_update_bind]
    cases m.write ⟨dest⟩ bs <;> rfl

theorem run_byteTag {offset value md : UInt64} (h : c.args = [value, md]) :
    byteTag offset c m =
      match m.readU8 ((⟨value⟩ : Address) + offset) with
      | .error e => (.error (.memory e), m)
      | .ok b => (.ok b.toUInt64, m) := by
  unfold byteTag ofBody
  simp only [h]
  have ha : (⟨value + offset⟩ : Address) = (⟨value⟩ : Address) + offset := rfl
  rw [run_fromMemory_bind, ha]
  cases m.readU8 ((⟨value⟩ : Address) + offset) <;> rfl

theorem run_setByteTag {offset value tag md : UInt64} (h : c.args = [value, tag, md]) :
    setByteTag offset c m =
      match m.write ((⟨value⟩ : Address) + offset) [tag.toUInt8] with
      | .error e => (.error (.memory e), m)
      | .ok m' => (.ok 0, m') := by
  unfold setByteTag ofBody
  simp only [h]
  have ha : (⟨value + offset⟩ : Address) = (⟨value⟩ : Address) + offset := rfl
  rw [run_update_bind, ha]
  cases m.write ((⟨value⟩ : Address) + offset) [tag.toUInt8] <;> rfl

end Runs

end TypeMetadata.StandIn
