import TypeMetadata.Signature.Basic

/-!
# Reading signatures

A trimmed symbol is cut into an optional context with a point after it, a name, arguments between
parentheses, an arrow, and what the method returns. Where it can be cut in several ways, the longest
context counts, and with that context the longest arguments; only then are the arguments looked at,
so that arguments which cannot be read make the whole symbol unreadable. Context, arguments and
return type stay on one line.
-/

namespace TypeMetadata.Signature

open Text

/-- A symbol cut into its parts. -/
structure Parts where
  context : Option (List Char)
  name : List Char
  args : List Char
  returnType : List Char

/-- Characters that a name may consist of. -/
def isNameChar (c : Char) : Bool := c ≠ '.' && c ≠ '(' && !isBlank c

/-- The return type in a text that consists of an arrow and a return type. -/
def returnType? (cs : List Char) : Option (List Char) :=
  match dropBlanks cs with
  | '-' :: '>' :: rest =>
    let type := dropBlanks rest
    if type ≠ [] ∧ '\n' ∉ type then some type else none
  | _ => none

/-- Arguments and return type in a text that follows an opening parenthesis: the closing one is the
last that can be. -/
def arguments? : List Char → Option (List Char × List Char)
  | [] => none
  | c :: rest =>
    match if c = '\n' then none else arguments? rest with
    | some (args, type) => some (c :: args, type)
    | none => if c = ')' then (returnType? rest).map ([], ·) else none

/-- The parts of a text without a context. -/
def unqualified? (cs : List Char) : Option Parts :=
  let name := cs.takeWhile isNameChar
  match name, cs.dropWhile isNameChar with
  | [], _ => none
  | _, '(' :: rest => (arguments? rest).map fun (args, type) => ⟨none, name, args, type⟩
  | _, _ => none

/-- The parts of a text with a context, the longest that can be. -/
def qualified? : List Char → Option Parts
  | [] => none
  | c :: rest =>
    if c = '\n' then none
    else
      match qualified? rest with
      | some parts => some { parts with context := parts.context.map (c :: ·) }
      | none =>
        match rest with
        | '.' :: more => (unqualified? more).map fun parts => { parts with context := some [c] }
        | _ => none

/-- The parts of a text. -/
def parts? (cs : List Char) : Option Parts :=
  match qualified? cs with
  | some parts => some parts
  | none => unqualified? cs

/-- The text cut at the commas outside any brackets, which may be round, square or pointed; a
closing bracket that was not opened counts for nothing. -/
def splitArguments : Nat → List Char → List (List Char)
  | _, [] => [[]]
  | depth, c :: rest =>
    if c = ',' ∧ depth = 0 then [] :: splitArguments 0 rest
    else
      let depth' :=
        if c = '(' ∨ c = '<' ∨ c = '[' then depth + 1
        else if c = ')' ∨ c = '>' ∨ c = ']' then depth - 1
        else depth
      match splitArguments depth' rest with
      | part :: more => (c :: part) :: more
      | [] => [[c]]

/-- The arguments between two parentheses; a blank text holds none. -/
def argumentParts (cs : List Char) : List (List Char) :=
  if trim cs = [] then [] else splitArguments 0 cs

/-- The parameter that a label and a type with a colon between them declare. -/
def parameter? (cs : List Char) : Option Parameter :=
  match cs.dropWhile (· ≠ ':') with
  | [] => none
  | _ :: rest =>
    let label := trim (cs.takeWhile (· ≠ ':'))
    let type := trim rest
    if label = [] ∨ type = [] then none
    else some ⟨if label = ['_'] then none else some (String.ofList label), String.ofList type⟩

/-- How the name of an initializer begins that also allocates. -/
def allocatingMark : List Char := "__allocating_".toList

/-- A method's name without the mark of allocation. -/
def unmarkedName (name : List Char) : List Char :=
  if allocatingMark.isPrefixOf name then name.drop allocatingMark.length else name

/-- The signature that a symbol spells. -/
def parse? (symbol : String) : Option Signature := do
  let parts ← parts? (trim symbol.toList)
  let parameters ← (argumentParts parts.args).mapM parameter?
  return {
    context := parts.context.map String.ofList
    baseName := String.ofList (unmarkedName parts.name)
    parameters
    returnTypeName := String.ofList (trim parts.returnType) }

end TypeMetadata.Signature
