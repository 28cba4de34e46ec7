import TypeMetadata.Reflection.NominalType

/-!
# Calling initializers

An initializer takes words: an object as its pointer, a struct or enum of at most one word as its
bytes. Arguments are looked at one after another, and the first that cannot be passed decides; the
target is called only when every argument has become a word.
-/

namespace TypeMetadata

/-- An argument: a word, or one of `n` values. -/
inductive Argument (n : Nat) where
  | word (w : UInt64)
  | value (slot : Fin n)

namespace Argument

/-- Bytes of a word. -/
def wordSize : UInt64 := 8

/-- Whether a word may stand for a value of type `t`. -/
def acceptsWord (t : NominalType) : Bool :=
  t.isClass || t.layout.any fun l => l.size ≤ wordSize

/-- The value at `a` as a word, with zeros for the bytes it has not. -/
def wordAt (a : Address) (size : UInt64) : Decoder UInt64 := do
  let bs ← Decoder.access fun m => m.read a size.toNat
  return UInt64.ofNat (Word.ofBytes bs)

end Argument

namespace Initializer

variable {n : Nat}

/-- The refusal of an argument of another type. -/
def mismatch (i : Initializer) (index : Nat) (expected actual : String) : Error :=
  .precondition (.argumentTypeMismatch i.selector index expected actual)

/-- A value of type `t` as a word. -/
def valueWord (i : Initializer) (index : Nat) (t : NominalType) : InspectOn Value UInt64 := do
  let a ← Value.address
  if t.isClass then return a.val
  let layout ← ValueType.require t.layout (.genericLayout t.qualifiedName)
  if Argument.wordSize < layout.size then
    throw (.precondition (.unsupportedArgument i.selector index layout.size))
  Inspect.decode (Argument.wordAt a layout.size)

/-- The argument at `index` as a word for a parameter of type `t`, which goes by `typeName`. -/
def argumentWord (i : Initializer) (index : Nat) (typeName : String) (t : NominalType) :
    Argument n → InspectOn (Vector Value n) UInt64
  | .word w =>
    if Argument.acceptsWord t then pure w else throw (i.mismatch index typeName "word")
  | .value slot => do
    let actual := (← InspectOn.current)[slot].typeName
    if actual ≠ t.qualifiedName then throw (i.mismatch index typeName actual)
    InspectOn.onPart (fun vs => vs[slot]) (fun vs v => vs.set slot v) (i.valueWord index t)

/-- The arguments as words, from the one at `index` on. -/
def argumentWords (i : Initializer) (lookup : String → Option NominalType) :
    Nat → List String → List (Argument n) → InspectOn (Vector Value n) (List UInt64)
  | index, typeName :: typeNames, arg :: args => do
    let some t := lookup typeName | throw (.unknownType typeName)
    let word ← i.argumentWord index typeName t arg
    let words ← i.argumentWords lookup (index + 1) typeNames args
    return word :: words
  | _, _, _ => return []

/-- Call the initializer with the class's metadata as context. Types are looked up by name. -/
def invoke (i : Initializer) (lookup : String → Option NominalType) (args : List (Argument n)) :
    InspectOn (Vector Value n) ObjectReference := do
  if args.length ≠ i.signature.arity then
    throw (.precondition (.arityMismatch i.selector i.signature.arity args.length))
  let words ← i.argumentWords lookup 0 i.signature.argTypeNames args
  let object ← Inspect.call { function := i.address, args := words, context := i.metadata }
  return ⟨⟨object⟩, i.metadata, i.className⟩

end Initializer

end TypeMetadata
