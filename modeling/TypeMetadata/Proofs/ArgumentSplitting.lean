import TypeMetadata.Proofs.SignatureSpelling
import TypeMetadata.Signature.FunctionType

/-!
# Cutting arguments apart

Where arguments are cut, the bracket at the end of an arrow passes for one that closes. It takes the
commas behind it out of the brackets around them, unless more brackets are open there than arrows
stand before them: these commas lie open. The commas between two arguments are always cut at, and
arguments come out as they were written exactly if no comma lies open in any of them, as where no
type has an arrow (`argumentParts_listText`).
-/

namespace TypeMetadata.Signature

open Text

/-! ## Texts that are cut -/

/-- The depth behind a text. -/
def depthBehind (depth : Nat) (cs : List Char) : Nat := cs.foldl depthAfter depth

/-- The number of commas at which a text is cut. -/
def cuts : Nat → List Char → Nat
  | _, [] => 0
  | depth, c :: rest =>
    (if c = ',' ∧ depth = 0 then 1 else 0) + cuts (depthAfter depth c) rest

section Cuts

variable (depth : Nat) (c : Char) (cs ds : List Char)

@[simp] theorem depthBehind_nil : depthBehind depth [] = depth := rfl

@[simp] theorem depthBehind_cons :
    depthBehind depth (c :: cs) = depthBehind (depthAfter depth c) cs := rfl

@[simp] theorem depthBehind_append :
    depthBehind depth (cs ++ ds) = depthBehind (depthBehind depth cs) ds :=
  List.foldl_append

@[simp] theorem cuts_append :
    cuts depth (cs ++ ds) = cuts depth cs + cuts (depthBehind depth cs) ds := by
  induction cs generalizing depth with
  | nil => simp [cuts]
  | cons c cs ih => simp [cuts, ih, Nat.add_assoc]

theorem length_prepend (text : List Char) {parts : List (List Char)} (h : parts ≠ []) :
    (prepend text parts).length = parts.length := by
  cases parts with
  | nil => exact absurd rfl h
  | cons part more => rfl

theorem length_splitArguments : (splitArguments depth cs).length = cuts depth cs + 1 := by
  induction cs generalizing depth with
  | nil => rfl
  | cons c cs ih =>
    rw [splitArguments_cons, cuts]
    split
    · rename_i h
      obtain ⟨rfl, rfl⟩ := h
      simp [ih, depthAfter, Nat.add_comm]
    · rw [length_prepend _ (splitArguments_ne_nil _ _), ih, Nat.zero_add]

end Cuts

variable {depth : Nat} {cs : List Char}

theorem splitArguments_append_of_cuts_eq_zero (h : cuts depth cs = 0) (rest : List Char) :
    splitArguments depth (cs ++ rest)
      = prepend cs (splitArguments (depthBehind depth cs) rest) := by
  induction cs generalizing depth with
  | nil =>
    obtain ⟨part, more, hparts⟩ := List.exists_cons_of_ne_nil (splitArguments_ne_nil depth rest)
    simp [prepend, hparts]
  | cons c cs ih =>
    simp only [cuts, Nat.add_eq_zero_iff] at h
    rw [List.cons_append, splitArguments_cons, if_neg (by simpa using h.1), ih h.2,
      depthBehind_cons, ← prepend_append, List.singleton_append]

/-- Behind a text that leaves no bracket open, a comma ends the part. -/
theorem splitArguments_append_comma (h : depthBehind depth cs = 0) (rest : List Char) :
    splitArguments depth (cs ++ ',' :: rest)
      = splitArguments depth cs ++ splitArguments 0 rest := by
  induction cs generalizing depth with
  | nil =>
    cases h
    rfl
  | cons c cs ih =>
    rw [List.cons_append, splitArguments_cons, splitArguments_cons]
    split
    · rename_i hc
      obtain ⟨rfl, rfl⟩ := hc
      have hcs : depthBehind 0 cs = 0 := h
      rw [ih hcs, List.cons_append]
    · obtain ⟨part, more, hparts⟩ :=
        List.exists_cons_of_ne_nil (splitArguments_ne_nil (depthAfter depth c) cs)
      rw [ih h, hparts]
      rfl

/-! ## Texts that are whole -/

theorem depthBehind_replicate (n : Nat) : depthBehind depth (List.replicate n ')') = depth - n := by
  induction n generalizing depth with
  | zero => rfl
  | succ n ih =>
    rw [List.replicate_succ, depthBehind_cons, ih]
    simp [depthAfter, Nat.sub_sub, Nat.add_comm]

theorem cuts_replicate (n : Nat) : cuts depth (List.replicate n ')') = 0 := by
  induction n generalizing depth with
  | zero => rfl
  | succ n ih => simp [List.replicate_succ, cuts, ih]

theorem cuts_replicate_comma (n : Nat) :
    cuts depth (List.replicate n ')' ++ [',']) = if depth ≤ n then 1 else 0 := by
  simp [cuts, cuts_replicate, depthBehind_replicate, Nat.sub_eq_zero_iff_le]

/-- Closing brackets and a comma tell depths apart. -/
theorem depth_le_of_cuts {depth' : Nat} (h : ∀ rest, cuts depth rest = cuts depth' rest) :
    depth' ≤ depth := by
  have hcuts := h (List.replicate depth ')' ++ [','])
  rw [cuts_replicate_comma, cuts_replicate_comma, if_pos (Nat.le_refl depth)] at hcuts
  split at hcuts
  · assumption
  · cases hcuts

theorem whole_iff : Whole depth cs ↔ cuts depth cs = 0 ∧ depthBehind depth cs = depth := by
  constructor
  · intro h
    have hsum : ∀ rest, cuts depth cs + cuts (depthBehind depth cs) rest = cuts depth rest := by
      intro rest
      have hlength := congrArg List.length (h rest)
      rw [length_prepend _ (splitArguments_ne_nil _ _), length_splitArguments,
        length_splitArguments, cuts_append] at hlength
      omega
    have hzero : cuts depth cs = 0 := hsum []
    have heq : ∀ rest, cuts (depthBehind depth cs) rest = cuts depth rest := by
      intro rest
      rw [← hsum rest, hzero, Nat.zero_add]
    exact ⟨hzero, Nat.le_antisymm (depth_le_of_cuts fun rest => (heq rest).symm)
      (depth_le_of_cuts heq)⟩
  · rintro ⟨hcuts, hdepth⟩ rest
    rw [splitArguments_append_of_cuts_eq_zero hcuts, hdepth]

namespace Whole

theorem cuts_eq (h : Whole depth cs) : cuts depth cs = 0 := (whole_iff.1 h).1

theorem depthBehind_eq (h : Whole depth cs) : depthBehind depth cs = depth := (whole_iff.1 h).2

end Whole

/-! ## Types that are cut -/

mutual

/-- The number of arrows in a type. -/
def ArgumentType.arrows : ArgumentType → Nat
  | .nominal _ => 0
  | .generic _ arguments => arguments.arrows
  | .tuple elements => elements.arrows
  | .array element => element.arrows
  | .function parameters result => parameters.arrows + 1 + result.arrows

def ArgumentTypes.arrows : ArgumentTypes → Nat
  | .nil => 0
  | .cons _ type more => type.arrows + more.arrows

end

/-- One if a comma stands in front of these types and lies open at this depth. -/
def ArgumentTypes.openComma : ArgumentTypes → Nat → Nat
  | .cons .., 0 => 1
  | _, _ => 0

mutual

/-- The number of commas that lie open in a type with a depth in front of it: brackets make it one
more for what is between them, an arrow makes it one less for what is behind it. -/
def ArgumentType.openCommas : ArgumentType → Nat → Nat
  | .nominal _, _ => 0
  | .generic _ arguments, depth => arguments.openCommas (depth + 1)
  | .tuple elements, depth => elements.openCommas (depth + 1)
  | .array element, depth => element.openCommas (depth + 1)
  | .function parameters result, depth =>
    parameters.openCommas (depth + 1) + result.openCommas (depth - (parameters.arrows + 1))

def ArgumentTypes.openCommas : ArgumentTypes → Nat → Nat
  | .nil, _ => 0
  | .cons _ type more, depth =>
    type.openCommas depth
      + (more.openComma (depth - type.arrows) + more.openCommas (depth - type.arrows))

end

theorem ArgumentTypes.depthBehind_comma (ts : ArgumentTypes) (depth : Nat) :
    depthBehind depth ts.comma = depth := by
  cases ts <;> rfl

theorem ArgumentTypes.cuts_comma (ts : ArgumentTypes) (depth : Nat) :
    cuts depth ts.comma = ts.openComma depth := by
  cases ts <;> cases depth <;> rfl

mutual

/-- Brackets close what they open, so only arrows change the depth. -/
theorem ArgumentType.depthBehind_text : ∀ (t : ArgumentType) (depth : Nat),
    depthBehind depth t.text = depth - t.arrows
  | .nominal name, depth => (Whole.dottedName name).depthBehind_eq
  | .generic name arguments, depth => by
    simp [ArgumentType.text, ArgumentType.arrows, (Whole.dottedName name).depthBehind_eq,
      depthAfter, arguments.depthBehind_text, Nat.sub_sub]
  | .tuple elements, depth => by
    simp [ArgumentType.text, ArgumentType.arrows, depthAfter, elements.depthBehind_text,
      Nat.sub_sub]
  | .array element, depth => by
    simp [ArgumentType.text, ArgumentType.arrows, depthAfter, element.depthBehind_text,
      Nat.sub_sub]
  | .function parameters result, depth => by
    simp [ArgumentType.text, ArgumentType.arrows, depthAfter, parameters.depthBehind_text,
      result.depthBehind_text, Nat.sub_sub, Nat.add_assoc]

theorem ArgumentTypes.depthBehind_text : ∀ (ts : ArgumentTypes) (depth : Nat),
    depthBehind depth ts.text = depth - ts.arrows
  | .nil, depth => rfl
  | .cons label type more, depth => by
    simp [ArgumentTypes.text, ArgumentTypes.arrows, (Whole.elementLabel label).depthBehind_eq,
      type.depthBehind_text, more.depthBehind_comma, more.depthBehind_text, Nat.sub_sub]

end

mutual

theorem ArgumentType.cuts_text : ∀ (t : ArgumentType) (depth : Nat),
    cuts depth t.text = t.openCommas depth
  | .nominal name, depth => (Whole.dottedName name).cuts_eq
  | .generic name arguments, depth => by
    simp [ArgumentType.text, ArgumentType.openCommas, cuts, (Whole.dottedName name).cuts_eq,
      (Whole.dottedName name).depthBehind_eq, depthAfter, arguments.cuts_text]
  | .tuple elements, depth => by
    simp [ArgumentType.text, ArgumentType.openCommas, cuts, depthAfter, elements.cuts_text]
  | .array element, depth => by
    simp [ArgumentType.text, ArgumentType.openCommas, cuts, depthAfter, element.cuts_text]
  | .function parameters result, depth => by
    simp [ArgumentType.text, ArgumentType.openCommas, cuts, depthAfter, parameters.cuts_text,
      parameters.depthBehind_text, result.cuts_text, Nat.sub_sub]

theorem ArgumentTypes.cuts_text : ∀ (ts : ArgumentTypes) (depth : Nat),
    cuts depth ts.text = ts.openCommas depth
  | .nil, depth => rfl
  | .cons label type more, depth => by
    simp [ArgumentTypes.text, ArgumentTypes.openCommas, (Whole.elementLabel label).cuts_eq,
      (Whole.elementLabel label).depthBehind_eq, type.cuts_text, type.depthBehind_text,
      more.cuts_comma, more.depthBehind_comma, more.cuts_text]

end

mutual

/-- No comma lies open in a type that has no more arrows than there are brackets around it. -/
theorem ArgumentType.openCommas_eq_zero : ∀ (t : ArgumentType) {depth : Nat}, t.arrows ≤ depth →
    t.openCommas depth = 0
  | .nominal _, _, _ => rfl
  | .generic _ arguments, _, h => arguments.openCommas_eq_zero (Nat.lt_succ_of_le h)
  | .tuple elements, _, h => elements.openCommas_eq_zero (Nat.lt_succ_of_le h)
  | .array element, _, h => element.openCommas_eq_zero (Nat.le_succ_of_le h)
  | .function parameters result, depth, h => by
    simp only [ArgumentType.arrows] at h
    rw [ArgumentType.openCommas, parameters.openCommas_eq_zero (by omega),
      result.openCommas_eq_zero (by omega)]

theorem ArgumentTypes.openCommas_eq_zero : ∀ (ts : ArgumentTypes) {depth : Nat},
    ts.arrows < depth → ts.openCommas depth = 0
  | .nil, _, _ => rfl
  | .cons _ type more, depth, h => by
    simp only [ArgumentTypes.arrows] at h
    obtain ⟨n, hn⟩ : ∃ n, depth - type.arrows = n + 1 := ⟨depth - type.arrows - 1, by omega⟩
    have hcomma : more.openComma (n + 1) = 0 := by cases more <;> rfl
    rw [ArgumentTypes.openCommas, type.openCommas_eq_zero (by omega), hn, hcomma,
      more.openCommas_eq_zero (by omega)]

end

theorem ArgumentType.tight : ∀ t : ArgumentType, Tight t.text
  | .nominal name => name.tight
  | .generic name arguments => by
    have hclose : Tight ['>'] := .of_all (by decide) (List.forall_mem_singleton.2 (by decide))
    have h := name.tight.append hclose ('<' :: arguments.text)
    simpa [ArgumentType.text] using h
  | .tuple elements => .enclosed (by decide) (by decide) elements.text
  | .array element => .enclosed (by decide) (by decide) element.text
  | .function parameters result => by
    have hopen : Tight ['('] := .of_all (by decide) (List.forall_mem_singleton.2 (by decide))
    have h := hopen.append result.tight (parameters.text ++ [')', ' ', '-', '>', ' '])
    simpa [ArgumentType.text] using h

/-! ## Arguments -/

theorem map_trim_splitArguments_space (cs : List Char) :
    (splitArguments 0 (' ' :: cs)).map trim = (splitArguments 0 cs).map trim := by
  obtain ⟨part, more, hparts⟩ := List.exists_cons_of_ne_nil (splitArguments_ne_nil 0 cs)
  have hspace : splitArguments 0 (' ' :: cs) = prepend [' '] (splitArguments 0 cs) :=
    splitArguments_cons 0 ' ' cs
  simp [hspace, hparts, prepend, trim_cons_space]

namespace Argument

variable (a : Argument)

theorem tight : Tight a.text :=
  (tight_parameterLabel a.label).append a.type.tight [':', ' ']

theorem depthBehind_text : depthBehind 0 a.text = 0 := by
  simp [text, (Whole.parameterLabel a.label).depthBehind_eq, depthAfter, a.type.depthBehind_text]

theorem cuts_text : cuts 0 a.text = a.type.openCommas 0 := by
  simp [text, cuts, (Whole.parameterLabel a.label).cuts_eq,
    (Whole.parameterLabel a.label).depthBehind_eq, depthAfter, a.type.cuts_text]

theorem argumentParts_text : argumentParts a.text = splitArguments 0 a.text := by
  simpa using argumentParts_append a.tight []

theorem length_argumentParts_text :
    (argumentParts a.text).length = a.type.openCommas 0 + 1 := by
  rw [a.argumentParts_text, length_splitArguments, a.cuts_text]

theorem argumentParts_text_of_openCommas (h : a.type.openCommas 0 = 0) :
    argumentParts a.text = [a.text] := by
  rw [← a.cuts_text] at h
  have hwhole := splitArguments_append_of_cuts_eq_zero h []
  rw [a.argumentParts_text, ← List.append_nil a.text, hwhole]
  rfl

theorem splitArguments_more (as : List Argument) {cs : List Char} (h : depthBehind 0 cs = 0) :
    splitArguments 0 (cs ++ as.flatMap fun a => ',' :: ' ' :: a.text)
      = splitArguments 0 cs ++ as.flatMap fun a => splitArguments 0 (' ' :: a.text) := by
  induction as generalizing cs with
  | nil => simp
  | cons a as ih =>
    have hspace : depthBehind 0 (' ' :: a.text) = 0 := a.depthBehind_text
    rw [List.flatMap_cons, List.cons_append, splitArguments_append_comma h, ih hspace,
      List.flatMap_cons]

/-- Arguments are cut one by one. -/
theorem map_trim_argumentParts_listText (args : List Argument) :
    (argumentParts (listText args)).map trim
      = args.flatMap fun a => (argumentParts a.text).map trim := by
  cases args with
  | nil => rfl
  | cons a as =>
    rw [listText, argumentParts_append a.tight, splitArguments_more as a.depthBehind_text]
    simp [List.map_flatMap, argumentParts_text, map_trim_splitArguments_space]

theorem map_trim_eq_of_openCommas {args : List Argument}
    (h : ∀ a ∈ args, a.type.openCommas 0 = 0) :
    (argumentParts (listText args)).map trim = args.map text := by
  rw [map_trim_argumentParts_listText, List.map_eq_flatMap, List.flatMap_def, List.flatMap_def]
  refine congrArg List.flatten (List.map_congr_left fun a ha => ?_)
  rw [a.argumentParts_text_of_openCommas (h a ha), List.map_singleton, a.tight.trim_eq]

/-- Arguments without function types come out as they were written. -/
theorem map_trim_eq_of_arrows {args : List Argument} (h : ∀ a ∈ args, a.type.arrows = 0) :
    (argumentParts (listText args)).map trim = args.map text :=
  map_trim_eq_of_openCommas fun a ha => a.type.openCommas_eq_zero (Nat.le_of_eq (h a ha))

theorem length_le_parts (args : List Argument) :
    args.length ≤ (args.flatMap fun a => (argumentParts a.text).map trim).length := by
  induction args with
  | nil => exact Nat.le_refl 0
  | cons a args ih =>
    rw [List.flatMap_cons, List.length_append, List.length_map, length_argumentParts_text,
      List.length_cons]
    omega

theorem openCommas_of_length_parts {args : List Argument}
    (h : (args.flatMap fun a => (argumentParts a.text).map trim).length = args.length) :
    ∀ a ∈ args, a.type.openCommas 0 = 0 := by
  induction args with
  | nil => exact fun _ ha => nomatch ha
  | cons a args ih =>
    rw [List.flatMap_cons, List.length_append, List.length_map, length_argumentParts_text,
      List.length_cons] at h
    have hle := length_le_parts args
    exact List.forall_mem_cons.2 ⟨by omega, ih (by omega)⟩

end Argument

/-- Arguments are cut one by one, each into one part more than it has commas that lie open. So they
come out as they were written exactly if there is no such comma, as where no type has an arrow. -/
theorem argumentParts_listText (args : List Argument) :
    (argumentParts (Argument.listText args)).map trim
        = args.flatMap (fun a => (argumentParts a.text).map trim) ∧
      (∀ a ∈ args, (argumentParts a.text).length = a.type.openCommas 0 + 1) ∧
      ((argumentParts (Argument.listText args)).map trim = args.map Argument.text
        ↔ ∀ a ∈ args, a.type.openCommas 0 = 0) ∧
      ((∀ a ∈ args, a.type.arrows = 0) →
        (argumentParts (Argument.listText args)).map trim = args.map Argument.text) := by
  have hparts := Argument.map_trim_argumentParts_listText args
  refine ⟨hparts, fun a _ => a.length_argumentParts_text, ?_, Argument.map_trim_eq_of_arrows⟩
  rw [hparts]
  constructor
  · intro h
    -- No argument has fewer than one part, so with as many parts as arguments each has just one.
    have hlength := congrArg List.length h
    rw [List.length_map] at hlength
    exact Argument.openCommas_of_length_parts hlength
  · intro h
    rw [← hparts, Argument.map_trim_eq_of_openCommas h]

/-- The name `Int`. -/
def DottedName.int : DottedName :=
  ⟨⟨"Int".toList, by decide, by decide, List.all_eq_true.1 (by decide)⟩, []⟩

/-- The argument `_: Int<(Int, [Int])>`. -/
def Argument.ofTuple : Argument where
  label := none
  type := .generic .int (.cons none
    (.tuple (.cons none (.nominal .int) (.cons none (.array (.nominal .int)) .nil))) .nil)

/-- Brackets of all three kinds keep their commas. -/
theorem argumentParts_listText_of_tuples :
    (argumentParts (Argument.listText [.ofTuple, .ofTuple])).map trim =
      ["_: Int<(Int, [Int])>".toList, "_: Int<(Int, [Int])>".toList] := by
  have harrows : ∀ a ∈ [Argument.ofTuple, Argument.ofTuple], a.type.arrows = 0 := by
    simp only [List.forall_mem_cons]
    decide
  exact (argumentParts_listText [.ofTuple, .ofTuple]).2.2.2 harrows

/-- The argument `f: ((Int) -> Int, Int) -> Int`. -/
def Argument.ofFunction : Argument :=
  let int : ArgumentType := .nominal .int
  { label := some ⟨['f'], by decide, by decide, List.all_eq_true.1 (by decide)⟩
    type := .function
      (.cons none (.function (.cons none int .nil) int) (.cons none int .nil)) int }

theorem not_argumentParts_listText : ¬∀ args : List Argument,
    (argumentParts (Argument.listText args)).map trim = args.map Argument.text := by
  intro h
  have hparts : argumentParts Argument.ofFunction.text
      = ["f: ((Int) -> Int".toList, " Int) -> Int".toList] := by
    decide
  have hone := congrArg List.length (h [Argument.ofFunction])
  rw [Argument.listText, List.flatMap_nil, List.append_nil, hparts] at hone
  cases hone

end TypeMetadata.Signature
