import TypeMetadata.Record.Pointer

/-!
# Names

A name is a UTF-8 text that a zero byte ends.
-/

namespace TypeMetadata.Name

/-- The text that `bs` spells in UTF-8. -/
def ofBytes? (bs : List UInt8) : Option String := String.fromUTF8? ⟨bs.toArray⟩

/-- The name at `a`. -/
def read (limits : Limits) (a : Address) : Decoder String := do
  let bs? ← Decoder.access fun m => m.readCString limits.nameLength a
  let bs ← Decoder.require bs? (.unterminatedString a limits.nameLength)
  Decoder.require (ofBytes? bs) (.invalidUtf8 a)

/-- The name that the relative pointer at `a` refers to. -/
def readRelative (limits : Limits) (a : Address) : Decoder String := do
  read limits (← RelativePointer.required a)

end TypeMetadata.Name
