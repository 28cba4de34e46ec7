import TypeMetadata.Signature.Spelling

/-!
# Writing arguments of function type

Beside names, tuples and arrays, an argument's type may be a function type. What stands between two
brackets is a list of types with commas between them, whether the brackets hold type arguments, the
elements of a tuple or the parameters of a function.
-/

namespace TypeMetadata.Signature

mutual

inductive ArgumentType where
  | nominal (name : DottedName)
  | generic (name : DottedName) (arguments : ArgumentTypes)
  | tuple (elements : ArgumentTypes)
  | array (element : ArgumentType)
  | function (parameters : ArgumentTypes) (result : ArgumentType)

/-- Types between two brackets, each of which may have a label. -/
inductive ArgumentTypes where
  | nil
  | cons (label : Option Identifier) (type : ArgumentType) (more : ArgumentTypes)

end

/-- What separates a type from those behind it. -/
def ArgumentTypes.comma : ArgumentTypes → List Char
  | .nil => []
  | .cons .. => [',', ' ']

mutual

def ArgumentType.text : ArgumentType → List Char
  | .nominal name => name.text
  | .generic name arguments => name.text ++ '<' :: (arguments.text ++ ['>'])
  | .tuple elements => '(' :: (elements.text ++ [')'])
  | .array element => '[' :: (element.text ++ [']'])
  | .function parameters result =>
    '(' :: (parameters.text ++ ')' :: ' ' :: '-' :: '>' :: ' ' :: result.text)

def ArgumentTypes.text : ArgumentTypes → List Char
  | .nil => []
  | .cons label type more => elementLabel label ++ (type.text ++ (more.comma ++ more.text))

end

/-- An argument with its label. -/
structure Argument where
  label : Option Identifier
  type : ArgumentType

namespace Argument

def text (a : Argument) : List Char := parameterLabel a.label ++ ':' :: ' ' :: a.type.text

/-- Arguments with commas between them. -/
def listText : List Argument → List Char
  | [] => []
  | a :: as => a.text ++ as.flatMap fun a => ',' :: ' ' :: a.text

end Argument

end TypeMetadata.Signature
