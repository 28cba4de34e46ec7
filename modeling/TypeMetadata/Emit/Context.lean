import TypeMetadata.Image.Patch
import TypeMetadata.Record.Context
import TypeMetadata.Record.Descriptor

/-!
# Laying out contexts

An emitter lays out one record, then the names it owns, and returns the record's address. What a
record refers to is given as an address laid out before, and patched in once the record stands.
-/

namespace TypeMetadata.Emit

/-- The two words that every context starts with. -/
def contextHeader (flags : ContextFlags) (parent : Option Address) : Build Address := do
  let _ ← Build.align 4
  let start ← Build.pushU32 flags.bits
  let _ ← Build.pushU32 0
  Build.patchRelative (start + Context.parentOffset) parent
  return start

/-- Lay out a text, refer to it from `a`, and return where it stands. -/
def textAt (a : Address) (text : String) : Build Address := do
  let target ← Build.pushText text
  Build.patchRelative a (some target)
  return target

/-- Lay out a name, and refer to it from `a`. -/
def nameAt (a : Address) (name : String) : Build Unit := do
  let _ ← textAt a name

/-- A module. -/
def moduleContext (name : String) : Build Address := do
  let start ← contextHeader (.pack .moduleContext false 0) none
  let _ ← Build.pushU32 0
  nameAt (start + Context.nameOffset) name
  return start

/-- A context with nothing but a header. -/
def bareContext (kind : ContextKind) (parent : Option Address) : Build Address :=
  contextHeader (.pack kind false 0) parent

/-- A header with these flags, whether or not they stand for a kind. -/
def rawContext (flags : ContextFlags) : Build Address := contextHeader flags none

/-- A protocol. -/
def protocolType (name : String) (parent : Address) (numRequirements : UInt32)
    (classOnly : Bool) : Build Address := do
  let start ← contextHeader (.pack .protocolType false (if classOnly then 0 else 1)) (some parent)
  let _ ← Build.pushU32 0
  let _ ← Build.pushU32 0
  let _ ← Build.pushU32 numRequirements
  let _ ← Build.pushU32 0
  let _ ← Build.pushU32 0
  let _ ← Build.pushU32 0
  nameAt (start + Context.nameOffset) name
  return start

end TypeMetadata.Emit
