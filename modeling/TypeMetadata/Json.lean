/-!
# Structured summaries

A summary of a type or protocol, in the shape in which it is handed to other tools.
-/

namespace TypeMetadata

/-- A structured value; an object lists its members in no particular order. -/
inductive Json where
  | bool (value : Bool)
  | number (value : Nat)
  | text (value : String)
  | list (items : List Json)
  | object (members : List (String × Json))

namespace Json

/-- A member that is left out when there is nothing to say. -/
def member? (name : String) : Option Json → List (String × Json)
  | some value => [(name, value)]
  | none => []

end Json

end TypeMetadata
