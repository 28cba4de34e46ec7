import TypeMetadata.Signature.Parser

/-!
# Writing signatures

The symbols of methods are written from dotted names, types and labels. A type is a dotted name,
alone or with type arguments, a tuple whose elements may have labels, or an array.
-/

namespace TypeMetadata.Signature

open Text

/-- Characters of an identifier: all but white space and what signatures are punctuated with. -/
def isIdentifierChar (c : Char) : Bool :=
  !isBlank c && !(['.', ',', ':', '(', ')', '<', '>', '[', ']', '-'].contains c)

/-- A name without points; `_` alone is none. -/
structure Identifier where
  text : List Char
  ne_nil : text ≠ []
  ne_wildcard : text ≠ ['_']
  isIdentifierChar_of_mem : ∀ c ∈ text, isIdentifierChar c = true

/-- Identifiers with points between them. -/
structure DottedName where
  first : Identifier
  rest : List Identifier

def DottedName.text (n : DottedName) : List Char :=
  n.first.text ++ n.rest.flatMap fun i => '.' :: i.text

mutual

inductive TypeTerm where
  | nominal (name : DottedName)
  | generic (name : DottedName) (first : TypeTerm) (more : TypeArguments)
  | unit
  | tuple (label : Option Identifier) (first : TypeTerm) (more : TupleElements)
  | array (element : TypeTerm)

/-- Type arguments after the first. -/
inductive TypeArguments where
  | nil
  | cons (type : TypeTerm) (more : TypeArguments)

/-- Elements of a tuple after the first. -/
inductive TupleElements where
  | nil
  | cons (label : Option Identifier) (type : TypeTerm) (more : TupleElements)

end

/-- The label in front of an element of a tuple. -/
def elementLabel : Option Identifier → List Char
  | some label => label.text ++ [':', ' ']
  | none => []

mutual

def TypeTerm.text : TypeTerm → List Char
  | .nominal name => name.text
  | .generic name first more => name.text ++ '<' :: (first.text ++ more.text ++ ['>'])
  | .unit => ['(', ')']
  | .tuple label first more => '(' :: (elementLabel label ++ first.text ++ more.text ++ [')'])
  | .array element => '[' :: (element.text ++ [']'])

def TypeArguments.text : TypeArguments → List Char
  | .nil => []
  | .cons type more => ',' :: ' ' :: (type.text ++ more.text)

def TupleElements.text : TupleElements → List Char
  | .nil => []
  | .cons label type more => ',' :: ' ' :: (elementLabel label ++ type.text ++ more.text)

end

/-- The label of a parameter. -/
def parameterLabel : Option Identifier → List Char
  | some label => label.text
  | none => ['_']

/-- A parameter with its label. -/
structure SpelledParameter where
  label : Option Identifier
  type : TypeTerm

namespace SpelledParameter

def text (p : SpelledParameter) : List Char := parameterLabel p.label ++ ':' :: ' ' :: p.type.text

def parameter (p : SpelledParameter) : Parameter :=
  ⟨p.label.map fun label => String.ofList label.text, String.ofList p.type.text⟩

end SpelledParameter

/-- What follows the parameters of a method that returns a `type`. -/
def arrow (type : List Char) : List Char := ')' :: ' ' :: '-' :: '>' :: ' ' :: type

/-- A method of a type, as its symbol spells it. -/
structure Spelling where
  context : DottedName
  name : Identifier
  parameters : List SpelledParameter
  returnType : TypeTerm

namespace Spelling

/-- What stands between the parentheses. -/
def parametersText : List SpelledParameter → List Char
  | [] => []
  | p :: ps => p.text ++ ps.flatMap fun p => ',' :: ' ' :: p.text

def text (s : Spelling) : List Char :=
  s.context.text ++ '.' ::
    (s.name.text ++ '(' :: (parametersText s.parameters ++ arrow s.returnType.text))

/-- What the symbol says about the method. -/
def signature (s : Spelling) : Signature where
  context := some (String.ofList s.context.text)
  baseName := String.ofList (unmarkedName s.name.text)
  parameters := s.parameters.map SpelledParameter.parameter
  returnTypeName := String.ofList s.returnType.text

end Spelling

end TypeMetadata.Signature
