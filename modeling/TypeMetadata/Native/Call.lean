import TypeMetadata.Memory.Heap

/-!
# Calls into the target

A target function takes pointer-sized words, and a context word out of band, and returns one word;
it may change memory on the way, also when it fails.
-/

namespace TypeMetadata

/-- A call of the function at an address. -/
structure Call where
  function : Address
  args : List UInt64 := []
  context : Option Address := none
deriving DecidableEq

/-- Why a call gave no result. -/
inductive CallError where
  | notCallable (function : Address)
  | failed (function : Address) (reason : String)
  | memory (cause : MemoryError)
deriving DecidableEq

namespace CallError

def label : CallError → String
  | notCallable .. => "Call.NotCallable"
  | failed .. => "Call.Failed"
  | memory cause => "Call." ++ cause.label

def message : CallError → String
  | notCallable function => s!"no callable function at {function}"
  | failed function reason => s!"call to {function} failed: {reason}"
  | memory cause => cause.message

end CallError

/-- What a target function does with a call. -/
abbrev NativeFunction := Call → Memory → Except CallError UInt64 × Memory

end TypeMetadata
