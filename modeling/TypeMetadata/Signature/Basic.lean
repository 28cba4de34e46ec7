import TypeMetadata.Text.Blank

/-!
# Method signatures

A symbol such as `shapes.Circle.init(x: Swift.Int, _: Swift.Int) -> shapes.Circle` names the type
that a method belongs to, the method, its parameters with their labels and types, and what it
returns. A selector keeps of this the name and the labels, `init(x:_:)`.
-/

namespace TypeMetadata

/-- A parameter; `none` is the label `_`, with which nothing is written at a call. -/
structure Parameter where
  label : Option String
  typeName : String
deriving DecidableEq

/-- What a symbol says about a method. -/
structure Signature where
  /-- The type that the method belongs to. -/
  context : Option String
  baseName : String
  parameters : List Parameter
  returnTypeName : String
deriving DecidableEq

namespace Signature

/-- The label as it is written in a selector. -/
def labelText : Option String → String
  | some label => label
  | none => "_"

/-- Name and labels. -/
def selector (s : Signature) : String :=
  s.baseName ++ "(" ++ String.join (s.parameters.map fun p => labelText p.label ++ ":") ++ ")"

def arity (s : Signature) : Nat := s.parameters.length

def labels (s : Signature) : List (Option String) := s.parameters.map Parameter.label

def argTypeNames (s : Signature) : List String := s.parameters.map Parameter.typeName

end Signature

end TypeMetadata
