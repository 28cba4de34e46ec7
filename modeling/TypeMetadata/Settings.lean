import TypeMetadata.Decoder

/-!
# Settings

What a type is built with, and keeps: the limits on decoding, and which of the things that can be
looked up or checked are to be.
-/

namespace TypeMetadata

/-- How types are built from their descriptors. -/
structure Settings where
  limits : Limits := {}
  /-- Name vtable entries by their symbols. -/
  resolveMethodNames : Bool := true
  /-- Bind initializers, which takes their names. -/
  bindInitializers : Bool := true
  /-- Compare the cases of an enum with what its descriptor declares. -/
  verifyEnumCases : Bool := true
  /-- Look code addresses up in the table of symbols. -/
  useSymbols : Bool := true
  /-- Look mangled type names up in the table of references. -/
  useReferences : Bool := true
deriving DecidableEq

end TypeMetadata
