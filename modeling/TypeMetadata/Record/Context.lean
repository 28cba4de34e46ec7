import TypeMetadata.Record.Flags
import TypeMetadata.Record.Name

/-!
# Contexts

Every descriptor starts with the same two words: its flags, and a relative pointer to the context
around it. `Context.moduleName` follows these pointers outwards to the nearest module, at most as
many as the limits allow, so that it ends on every chain, also on one that leads back to itself.
-/

namespace TypeMetadata

/-- A descriptor's address, with the flags found there and the kind they stand for. -/
structure Context where
  address : Address
  flags : ContextFlags
  kind : ContextKind
deriving DecidableEq

namespace Context

/-- Offset of the relative pointer to the parent. -/
def parentOffset : UInt64 := 4

/-- Offset of the name, in every context that has one. -/
def nameOffset : UInt64 := 8

/-- The context at `a`. -/
def read (a : Address) : Decoder Context := do
  let flags : ContextFlags := ⟨← Decoder.u32 a⟩
  let kind ← Decoder.require flags.kind? (.unknownContextKind a flags.kindRaw)
  return ⟨a, flags, kind⟩

def isGeneric (c : Context) : Bool := c.flags.isGeneric

/-- Where the context around `c` is; `none` for the outermost one. -/
def parent (c : Context) : Decoder (Option Address) :=
  RelativePointer.indirectable (c.address + parentOffset)

/-- The name of `c`, for kinds that have one. -/
def name (limits : Limits) (c : Context) : Decoder String :=
  Name.readRelative limits (c.address + nameOffset)

/-- The nearest module around `c`, at most `depth` parents away. -/
def enclosingModule? : Nat → Context → Decoder (Option Context)
  | 0, _ => pure none
  | depth + 1, c => do
    let some a ← c.parent | return none
    let parent ← read a
    if parent.kind = .moduleContext then return some parent
    enclosingModule? depth parent

/-- The name of the nearest module around `c`. -/
def moduleName (limits : Limits) (c : Context) : Decoder String := do
  let found ← c.enclosingModule? limits.contextDepth
  let enclosing ← Decoder.require found (.missingModule c.address limits.contextDepth)
  enclosing.name limits

end Context

end TypeMetadata
