import TypeMetadata.Image.Patch
import TypeMetadata.Record.Conformance

/-!
# Laying out conformances and sections
-/

namespace TypeMetadata.Emit

/-- A section of direct references. -/
def typeRecords (targets : List Address) : Build Address := do
  let start ← Build.align 4
  targets.forM fun target => do
    let entry ← Build.pushU32 0
    Build.patchRelative entry (some target)
  return start

/-- The conformance of a type, referred to directly, to a protocol. -/
def conformance (protocol type : Address) (witnessTable : Option Address) : Build Address := do
  let _ ← Build.align 4
  let start ← Build.pushU32 0
  let _ ← Build.pushU32 0
  let _ ← Build.pushU32 0
  let _ ← Build.pushU32 0
  Build.patchRelative start (some protocol)
  Build.patchRelative (start + ConformanceRecord.typeOffset) (some type)
  Build.patchRelative (start + ConformanceRecord.witnessTableOffset) witnessTable
  return start

/-- A section of references to conformances. -/
def conformanceRecords (targets : List Address) : Build Address := typeRecords targets

end TypeMetadata.Emit
