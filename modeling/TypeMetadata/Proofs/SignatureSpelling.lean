import TypeMetadata.Proofs.SignatureParts

/-!
# Reading what was spelled

A symbol is read as it was spelled, unless a dotted name in a parameter's type has a tuple for its
first type argument, or leading up to it: the parenthesis of the tuple then passes for the one
before the parameters, and the context reaches up to the point in that name (`parse?_text`).
-/

namespace TypeMetadata.Signature

open Text

/-! ## White space at the ends -/

/-- A text with no white space at its ends. -/
structure Tight (cs : List Char) : Prop where
  first : ∃ c rest, cs = c :: rest ∧ isBlank c = false
  last : ∃ init c, cs = init ++ [c] ∧ isBlank c = false

namespace Tight

variable {cs ds : List Char}

theorem append (h : Tight cs) (h' : Tight ds) (middle : List Char) :
    Tight (cs ++ (middle ++ ds)) := by
  obtain ⟨c, rest, rfl, hc⟩ := h.first
  obtain ⟨init, d, rfl, hd⟩ := h'.last
  exact ⟨⟨c, _, rfl, hc⟩, ⟨c :: rest ++ (middle ++ init), d, by simp, hd⟩⟩

theorem enclosed {c d : Char} (hc : isBlank c = false) (hd : isBlank d = false)
    (cs : List Char) : Tight (c :: (cs ++ [d])) :=
  ⟨⟨c, _, rfl, hc⟩, ⟨c :: cs, d, rfl, hd⟩⟩

theorem of_all (hne : cs ≠ []) (h : ∀ c ∈ cs, isBlank c = false) : Tight cs := by
  refine ⟨?_, ?_⟩
  · obtain ⟨c, rest, rfl⟩ := List.exists_cons_of_ne_nil hne
    exact ⟨c, rest, rfl, h c (by simp)⟩
  · obtain ⟨init, c, rfl⟩ := (List.eq_nil_or_concat cs).resolve_left hne
    exact ⟨init, c, by simp, h c (by simp)⟩

theorem dropBlanks_eq (h : Tight cs) : dropBlanks cs = cs := by
  obtain ⟨c, rest, rfl, hc⟩ := h.first
  rw [dropBlanks, List.dropWhile_cons_of_neg (by simp [hc])]

theorem trim_eq (h : Tight cs) : trim cs = cs := by
  obtain ⟨init, c, heq, hc⟩ := h.last
  rw [trim, h.dropBlanks_eq, heq, List.reverse_append, List.reverse_singleton,
    List.singleton_append, dropBlanks, List.dropWhile_cons_of_neg (by simp [hc])]
  simp

theorem trim_cons_space (h : Tight cs) : trim (' ' :: cs) = cs := by
  rw [Text.trim_cons_space, h.trim_eq]

theorem ne_nil (h : Tight cs) : cs ≠ [] := by
  obtain ⟨c, rest, rfl, -⟩ := h.first
  exact List.cons_ne_nil _ _

end Tight

/-! ## Characters -/

theorem isNameChar_of_isIdentifierChar {c : Char} (h : isIdentifierChar c = true) :
    isNameChar c = true := by
  simp only [isIdentifierChar, List.contains_cons, Bool.and_eq_true, Bool.not_eq_true',
    Bool.or_eq_false_iff, beq_eq_false_iff_ne] at h
  simp [isNameChar, h]

/-- Characters that types are written with. -/
def isTypeChar (c : Char) : Bool :=
  isIdentifierChar c || ['.', ',', ':', '(', ')', '<', '>', '[', ']', ' '].contains c

/-- Texts that types are written with. -/
def OfTypeChars (cs : List Char) : Prop := ∀ c ∈ cs, isTypeChar c = true

namespace OfTypeChars

variable {cs ds : List Char}

theorem append (h : OfTypeChars cs) (h' : OfTypeChars ds) : OfTypeChars (cs ++ ds) :=
  fun c hc => (List.mem_append.1 hc).elim (h c) (h' c)

theorem cons {c : Char} (hc : isTypeChar c = true) (h : OfTypeChars cs) : OfTypeChars (c :: cs) :=
  List.forall_mem_cons.2 ⟨hc, h⟩

theorem nil : OfTypeChars [] := fun _ hc => nomatch hc

theorem no_line (h : OfTypeChars cs) : '\n' ∉ cs := fun hc => absurd (h _ hc) (by decide)

theorem no_dash (h : OfTypeChars cs) : '-' ∉ cs := fun hc => absurd (h _ hc) (by decide)

end OfTypeChars

namespace Identifier

variable (i : Identifier)

theorem ofTypeChars : OfTypeChars i.text := fun c hc => by
  rw [isTypeChar, i.isIdentifierChar_of_mem c hc, Bool.true_or]

theorem isNameChar_of_mem : ∀ c ∈ i.text, isNameChar c = true := fun c hc =>
  isNameChar_of_isIdentifierChar (i.isIdentifierChar_of_mem c hc)

theorem not_mem {c : Char} (hc : isIdentifierChar c = false) : c ∉ i.text := fun hmem => by
  rw [i.isIdentifierChar_of_mem c hmem] at hc
  cases hc

theorem tight : Tight i.text :=
  .of_all i.ne_nil fun c hc => by
    have h := i.isIdentifierChar_of_mem c hc
    simp only [isIdentifierChar, Bool.and_eq_true, Bool.not_eq_true'] at h
    exact h.1

end Identifier

namespace DottedName

variable (n : DottedName)

theorem ofTypeChars : OfTypeChars n.text := by
  refine n.first.ofTypeChars.append fun c hc => ?_
  obtain ⟨i, -, hc⟩ := List.mem_flatMap.1 hc
  exact i.ofTypeChars.cons (by decide) c hc

theorem tight : Tight n.text := by
  unfold text
  rcases List.eq_nil_or_concat n.rest with h | ⟨init, i, h⟩
  · simpa [h] using n.first.tight
  · have := n.first.tight.append i.tight (init.flatMap (fun i => '.' :: i.text) ++ ['.'])
    simpa [h] using this

end DottedName

theorem ofTypeChars_elementLabel (label : Option Identifier) :
    OfTypeChars (elementLabel label) := by
  cases label with
  | none => exact .nil
  | some label => exact label.ofTypeChars.append (.cons (by decide) (.cons (by decide) .nil))

mutual

theorem TypeTerm.ofTypeChars : ∀ t : TypeTerm, OfTypeChars t.text
  | .nominal name => name.ofTypeChars
  | .generic name first more =>
    name.ofTypeChars.append (.cons (by decide)
      ((first.ofTypeChars.append more.ofTypeChars).append (.cons (by decide) .nil)))
  | .unit => .cons (by decide) (.cons (by decide) .nil)
  | .tuple label first more =>
    .cons (by decide) ((((ofTypeChars_elementLabel label).append first.ofTypeChars).append
      more.ofTypeChars).append (.cons (by decide) .nil))
  | .array element => .cons (by decide) (element.ofTypeChars.append (.cons (by decide) .nil))

theorem TypeArguments.ofTypeChars : ∀ ts : TypeArguments, OfTypeChars ts.text
  | .nil => .nil
  | .cons type more =>
    .cons (by decide) (.cons (by decide) (type.ofTypeChars.append more.ofTypeChars))

theorem TupleElements.ofTypeChars : ∀ es : TupleElements, OfTypeChars es.text
  | .nil => .nil
  | .cons label type more =>
    .cons (by decide) (.cons (by decide)
      (((ofTypeChars_elementLabel label).append type.ofTypeChars).append more.ofTypeChars))

end

theorem TypeTerm.tight (t : TypeTerm) : Tight t.text := by
  cases t with
  | nominal name => exact name.tight
  | generic name first more =>
    have hclose : Tight ['>'] := .of_all (by decide) (List.forall_mem_singleton.2 (by decide))
    have h := name.tight.append hclose ('<' :: (first.text ++ more.text))
    simpa [TypeTerm.text] using h
  | unit => exact .enclosed (by decide) (by decide) []
  | tuple label first more => exact .enclosed (by decide) (by decide) _
  | array element => exact .enclosed (by decide) (by decide) _

theorem TypeTerm.isReturnType (t : TypeTerm) : IsReturnType t.text where
  ne_nil := t.tight.ne_nil
  no_line := t.ofTypeChars.no_line
  no_dash := t.ofTypeChars.no_dash
  dropBlanks_eq := t.tight.dropBlanks_eq

/-! ## Points that a call follows -/

def DottedName.isDotted (n : DottedName) : Bool := !n.rest.isEmpty

/-- Whether the parenthesis of a tuple comes first in a type, behind names without points and
brackets. -/
def TypeTerm.leadsToTuple : TypeTerm → Bool
  | .nominal _ => false
  | .generic name first _ => !name.isDotted && first.leadsToTuple
  | .unit | .tuple .. => true
  | .array element => element.leadsToTuple

mutual

/-- Whether a type has a dotted name in it whose type arguments lead to a tuple. -/
def TypeTerm.isMisread : TypeTerm → Bool
  | .nominal _ | .unit => false
  | .generic name first more =>
    (name.isDotted && first.leadsToTuple) || first.isMisread || more.isMisread
  | .tuple _ first more => first.isMisread || more.isMisread
  | .array element => element.isMisread

def TypeArguments.isMisread : TypeArguments → Bool
  | .nil => false
  | .cons type more => type.isMisread || more.isMisread

def TupleElements.isMisread : TupleElements → Bool
  | .nil => false
  | .cons _ type more => type.isMisread || more.isMisread

end

/-- The end of a symbol, from somewhere in the parameters on. -/
def IsEnd (cs : List Char) : Prop :=
  ∃ front type, cs = front ++ arrow type ∧ '\n' ∉ front ∧ IsReturnType type

theorem IsEnd.append {cs ds : List Char} (hcs : OfTypeChars cs) (h : IsEnd ds) :
    IsEnd (cs ++ ds) := by
  obtain ⟨front, type, rfl, hfront, htype⟩ := h
  refine ⟨cs ++ front, type, by simp, ?_, htype⟩
  simp [hfront, hcs.no_line]

theorem IsEnd.cons {c : Char} {cs : List Char} (hc : isTypeChar c = true) (h : IsEnd cs) :
    IsEnd (c :: cs) :=
  h.append (.cons hc .nil)

theorem opens_cons_of_isNameChar {c : Char} (hc : isNameChar c = true) (cs : List Char) :
    opens (c :: cs) = opens cs := by
  rw [opens, List.dropWhile_cons_of_pos hc, opens]

theorem opens_comma (cs : List Char) : opens (',' :: ' ' :: cs) = false := by
  rw [opens_cons_of_isNameChar (by decide), opens, List.dropWhile_cons_of_neg (by decide)]
  rfl

theorem opens_arrow (type : List Char) : opens (arrow type) = false := by
  rw [arrow, opens_cons_of_isNameChar (by decide), opens, List.dropWhile_cons_of_neg (by decide)]
  rfl

theorem callFollows_cons_of_ne {c : Char} (hc : c ≠ '.') (cs rest : List Char) :
    callFollows (c :: cs) rest = callFollows cs rest := by
  simp [callFollows, hc]

theorem callFollows_identifier (i : Identifier) (rest : List Char) :
    callFollows i.text rest = false :=
  callFollows_of_no_point (i.not_mem (by decide)) rest

/-- A call follows the point in front of an identifier if a parenthesis opens behind it. -/
theorem callFollows_point (i : Identifier) {tail : List Char} (ht : IsEnd tail) :
    callFollows ('.' :: i.text) tail = opens tail := by
  obtain ⟨front, type, rfl, hfront, htype⟩ := ht
  rw [callFollows, callFollows_identifier,
    isSome_unqualified? i.isNameChar_of_mem i.ne_nil hfront htype]
  simp

section Tails

variable {tail : List Char}

theorem callFollows_names (names : List Identifier) (ht : IsEnd tail) :
    callFollows (names.flatMap fun i => '.' :: i.text) tail
      = (!names.isEmpty && opens tail) := by
  induction names with
  | nil => rfl
  | cons i names ih =>
    have hchars : OfTypeChars (names.flatMap fun i => '.' :: i.text) := fun c hc => by
      obtain ⟨j, -, hc⟩ := List.mem_flatMap.1 hc
      exact j.ofTypeChars.cons (by decide) c hc
    rw [List.flatMap_cons, callFollows_append, callFollows_point i (ht.append hchars), ih]
    cases names with
    | nil => simp
    | cons j names =>
      -- Between two names is a point, so only behind the last one can a parenthesis open.
      have hnot : opens ('.' :: (j.text ++ (names.flatMap (fun i => '.' :: i.text) ++ tail)))
          = false := by
        rw [opens, List.dropWhile_cons_of_neg (by decide)]
        rfl
      simp [hnot]

theorem callFollows_dottedName (n : DottedName) (ht : IsEnd tail) :
    callFollows n.text tail = (n.isDotted && opens tail) := by
  rw [DottedName.text, callFollows_append, callFollows_identifier, callFollows_names _ ht,
    Bool.false_or, DottedName.isDotted]

theorem opens_dottedName (n : DottedName) (tail : List Char) :
    opens (n.text ++ tail) = (!n.isDotted && opens tail) := by
  rw [DottedName.text, List.append_assoc, opens_append n.first.isNameChar_of_mem,
    DottedName.isDotted]
  cases n.rest with
  | nil => simp
  | cons i names =>
    rw [List.flatMap_cons, List.cons_append, List.cons_append, opens,
      List.dropWhile_cons_of_neg (by decide)]
    rfl

theorem opens_typeArguments (ts : TypeArguments) (ho : opens tail = false) :
    opens (ts.text ++ tail) = false := by
  cases ts with
  | nil => exact ho
  | cons type more => exact opens_comma _

theorem opens_tupleElements (es : TupleElements) (ho : opens tail = false) :
    opens (es.text ++ tail) = false := by
  cases es with
  | nil => exact ho
  | cons label type more => exact opens_comma _

theorem TypeTerm.opens_text : ∀ (t : TypeTerm) {tail : List Char}, opens tail = false →
    opens (t.text ++ tail) = t.leadsToTuple
  | .nominal name, tail, ho => by
    rw [TypeTerm.text, opens_dottedName, ho, Bool.and_false, leadsToTuple]
  | .generic name first more, tail, ho => by
    have hclose : opens (more.text ++ ('>' :: tail)) = false :=
      opens_typeArguments more (by rw [opens_cons_of_isNameChar (by decide), ho])
    have hfirst := first.opens_text hclose
    rw [TypeTerm.text, List.append_assoc, opens_dottedName, List.cons_append,
      opens_cons_of_isNameChar (by decide), leadsToTuple, ← hfirst]
    simp
  | .unit, tail, ho => rfl
  | .tuple label first more, tail, ho => rfl
  | .array element, tail, ho => by
    have hclose : opens (']' :: tail) = false := by rw [opens_cons_of_isNameChar (by decide), ho]
    rw [TypeTerm.text, List.cons_append, opens_cons_of_isNameChar (by decide), List.append_assoc,
      List.singleton_append, element.opens_text hclose, leadsToTuple]

theorem callFollows_elementLabel (label : Option Identifier) (tail : List Char) :
    callFollows (elementLabel label) tail = false := by
  refine callFollows_of_no_point ?_ tail
  cases label with
  | none => exact List.not_mem_nil
  | some label => simp [elementLabel, label.not_mem (c := '.') (by decide)]

mutual

theorem TypeTerm.callFollows_text : ∀ (t : TypeTerm) {tail : List Char}, IsEnd tail →
    opens tail = false → callFollows t.text tail = t.isMisread
  | .nominal name, tail, ht, ho => by
    rw [TypeTerm.text, callFollows_dottedName name ht, ho, Bool.and_false, TypeTerm.isMisread]
  | .generic name first more, tail, ht, ho => by
    have hend : IsEnd ('>' :: tail) := ht.cons (by decide)
    have hclose : opens ('>' :: tail) = false := by rw [opens_cons_of_isNameChar (by decide), ho]
    have hmore := more.callFollows_text hend hclose
    have hfirst := first.callFollows_text (hend.append more.ofTypeChars)
      (opens_typeArguments more hclose)
    have hopens := first.opens_text (opens_typeArguments more hclose)
    -- A point of the name is followed by a call if the type arguments lead to a parenthesis.
    have hname : callFollows name.text ('<' :: (first.text ++ (more.text ++ '>' :: tail)))
        = (name.isDotted && first.leadsToTuple) := by
      rw [callFollows_dottedName name
        (((hend.append more.ofTypeChars).append first.ofTypeChars).cons (by decide)),
        opens_cons_of_isNameChar (by decide), hopens]
    rw [TypeTerm.isMisread, ← hname, ← hfirst, ← hmore]
    simp [TypeTerm.text, callFollows_append, callFollows, Bool.or_assoc]
  | .unit, tail, ht, ho => by simp [TypeTerm.text, callFollows, TypeTerm.isMisread]
  | .tuple label first more, tail, ht, ho => by
    have hend : IsEnd (')' :: tail) := ht.cons (by decide)
    have hclose : opens (')' :: tail) = false := by rw [opens_cons_of_isNameChar (by decide), ho]
    have hmore := more.callFollows_text hend hclose
    have hfirst := first.callFollows_text (hend.append more.ofTypeChars)
      (opens_tupleElements more hclose)
    rw [TypeTerm.isMisread, ← hfirst, ← hmore]
    simp [TypeTerm.text, callFollows_append, callFollows, callFollows_elementLabel]
  | .array element, tail, ht, ho => by
    have hclose : opens (']' :: tail) = false := by rw [opens_cons_of_isNameChar (by decide), ho]
    rw [TypeTerm.isMisread, ← element.callFollows_text (ht.cons (by decide)) hclose]
    simp [TypeTerm.text, callFollows_append, callFollows]

theorem TypeArguments.callFollows_text : ∀ (ts : TypeArguments) {tail : List Char}, IsEnd tail →
    opens tail = false → callFollows ts.text tail = ts.isMisread
  | .nil, tail, ht, ho => rfl
  | .cons type more, tail, ht, ho => by
    rw [TypeArguments.isMisread, ← more.callFollows_text ht ho, ← type.callFollows_text
      (ht.append more.ofTypeChars) (opens_typeArguments more ho)]
    simp [TypeArguments.text, callFollows_append, callFollows]

theorem TupleElements.callFollows_text : ∀ (es : TupleElements) {tail : List Char}, IsEnd tail →
    opens tail = false → callFollows es.text tail = es.isMisread
  | .nil, tail, ht, ho => rfl
  | .cons label type more, tail, ht, ho => by
    rw [TupleElements.isMisread, ← more.callFollows_text ht ho, ← type.callFollows_text
      (ht.append more.ofTypeChars) (opens_tupleElements more ho)]
    simp [TupleElements.text, callFollows_append, callFollows, callFollows_elementLabel]

end

end Tails

/-! ## Types are not cut -/

theorem depthAfter_of_isIdentifierChar {c : Char} (h : isIdentifierChar c = true) (depth : Nat) :
    depthAfter depth c = depth := by
  simp only [isIdentifierChar, List.contains_cons, Bool.and_eq_true, Bool.not_eq_true',
    Bool.or_eq_false_iff, beq_eq_false_iff_ne] at h
  simp [depthAfter, h]

namespace Whole

variable {text : List Char} {depth : Nat}

theorem of_identifierChars (h : ∀ c ∈ text, isIdentifierChar c = true) : Whole depth text := by
  induction text with
  | nil => exact .nil depth
  | cons c text ih =>
    have hc := h c List.mem_cons_self
    refine .cons (depthAfter_of_isIdentifierChar hc depth) ?_
      (ih fun d hd => h d (List.mem_cons_of_mem _ hd))
    rintro ⟨rfl, -⟩
    cases hc

theorem identifier (i : Identifier) : Whole depth i.text :=
  .of_identifierChars i.isIdentifierChar_of_mem

/-- A character that is no punctuation of parameters. -/
theorem cons_plain {c : Char} (hc : c ∈ ['.', ':', ' ']) (h : Whole depth text) :
    Whole depth (c :: text) := by
  simp only [List.mem_cons, List.not_mem_nil, or_false] at hc
  rcases hc with rfl | rfl | rfl <;> exact .cons rfl (by simp) h

theorem dottedName (n : DottedName) : Whole depth n.text := by
  have hrest : ∀ names : List Identifier, Whole depth (names.flatMap fun i => '.' :: i.text) := by
    intro names
    induction names with
    | nil => exact .nil depth
    | cons i names ih => exact (cons_plain (by decide) (.identifier i)).append ih
  exact (identifier n.first).append (hrest n.rest)

theorem elementLabel (label : Option Identifier) : Whole depth (elementLabel label) := by
  cases label with
  | none => exact .nil depth
  | some label =>
    exact (identifier label).append (cons_plain (by decide) (cons_plain (by decide) (.nil depth)))

/-- A comma inside brackets. -/
theorem cons_comma (h : Whole (depth + 1) text) : Whole (depth + 1) (',' :: text) :=
  .cons rfl (by simp) h

end Whole

mutual

theorem TypeTerm.whole : ∀ (t : TypeTerm) {depth : Nat}, Whole depth t.text
  | .nominal name, _ => .dottedName name
  | .generic name first more, _ =>
    (Whole.dottedName name).append (.bracketed (fun _ => rfl) (fun _ => rfl)
      (first.whole.append more.whole))
  | .unit, depth => .bracketed (fun _ => rfl) (fun _ => rfl) (.nil (depth + 1))
  | .tuple label first more, _ =>
    .bracketed (fun _ => rfl) (fun _ => rfl)
      (((Whole.elementLabel label).append first.whole).append more.whole)
  | .array element, _ => .bracketed (fun _ => rfl) (fun _ => rfl) element.whole

theorem TypeArguments.whole : ∀ (ts : TypeArguments) {depth : Nat}, Whole (depth + 1) ts.text
  | .nil, depth => .nil (depth + 1)
  | .cons type more, _ =>
    .cons_comma (.cons_plain (by decide) (type.whole.append more.whole))

theorem TupleElements.whole : ∀ (es : TupleElements) {depth : Nat}, Whole (depth + 1) es.text
  | .nil, depth => .nil (depth + 1)
  | .cons label type more, _ =>
    .cons_comma (.cons_plain (by decide)
      (((Whole.elementLabel label).append type.whole).append more.whole))

end

/-! ## Parameters -/

theorem ofTypeChars_parameterLabel (label : Option Identifier) :
    OfTypeChars (parameterLabel label) := by
  cases label with
  | none => exact .cons (by decide) .nil
  | some label => exact label.ofTypeChars

theorem tight_parameterLabel (label : Option Identifier) : Tight (parameterLabel label) := by
  cases label with
  | none => exact .of_all (by decide) (List.forall_mem_singleton.2 (by decide))
  | some label => exact label.tight

theorem not_mem_parameterLabel (label : Option Identifier) {c : Char}
    (hc : isIdentifierChar c = false) : c ∉ parameterLabel label := by
  cases label with
  | none =>
    rintro hmem
    cases List.mem_singleton.1 hmem
    exact absurd hc (by decide)
  | some label => exact label.not_mem hc

theorem Whole.parameterLabel (label : Option Identifier) : Whole 0 (parameterLabel label) := by
  cases label with
  | none => exact .of_identifierChars (List.forall_mem_singleton.2 (by decide))
  | some label => exact .identifier label

/-- A text that is not blank holds as many arguments as it is cut into. -/
theorem argumentParts_append {cs : List Char} (h : Tight cs) (rest : List Char) :
    argumentParts (cs ++ rest) = splitArguments 0 (cs ++ rest) := by
  obtain ⟨c, more, hc, hblank⟩ := h.first
  refine if_neg fun htrim => ?_
  rw [trim_eq_nil_iff] at htrim
  have := htrim c (by simp [hc])
  rw [hblank] at this
  cases this

namespace SpelledParameter

variable (p : SpelledParameter)

theorem tight : Tight p.text :=
  (tight_parameterLabel p.label).append p.type.tight [':', ' ']

theorem ofTypeChars : OfTypeChars p.text :=
  (ofTypeChars_parameterLabel p.label).append
    (.cons (by decide) (.cons (by decide) p.type.ofTypeChars))

theorem whole : Whole 0 p.text :=
  (Whole.parameterLabel p.label).append
    (.cons_plain (by decide) (.cons_plain (by decide) p.type.whole))

theorem callFollows_text {tail : List Char} (ht : IsEnd tail) (ho : opens tail = false) :
    callFollows p.text tail = p.type.isMisread := by
  rw [← p.type.callFollows_text ht ho, text, callFollows_append,
    callFollows_of_no_point (not_mem_parameterLabel p.label (by decide)), Bool.false_or,
    callFollows_cons_of_ne (by decide), callFollows_cons_of_ne (by decide)]

/-- A parameter is read as it was spelled, with or without a space in front of it. -/
theorem parameter?_text {pad : List Char} (hpad : pad = [] ∨ pad = [' ']) :
    parameter? (pad ++ p.text) = some p.parameter := by
  have hcolon : ∀ c ∈ pad ++ parameterLabel p.label, decide (c ≠ ':') = true := by
    intro c hc
    rcases List.mem_append.1 hc with hc | hc
    · rcases hpad with rfl | rfl
      · cases hc
      · cases List.mem_singleton.1 hc
        decide
    · exact decide_eq_true fun heq => not_mem_parameterLabel p.label (by decide) (heq ▸ hc)
  have htrim : trim (pad ++ parameterLabel p.label) = parameterLabel p.label := by
    rcases hpad with rfl | rfl
    · exact (tight_parameterLabel p.label).trim_eq
    · exact (tight_parameterLabel p.label).trim_cons_space
  unfold parameter?
  rw [text, ← List.append_assoc, List.dropWhile_append_of_pos hcolon,
    List.takeWhile_append_of_pos hcolon, List.dropWhile_cons_of_neg (by decide),
    List.takeWhile_cons_of_neg (by decide), List.append_nil, htrim]
  simp only [p.type.tight.trim_cons_space]
  rw [if_neg (by simp [(tight_parameterLabel p.label).ne_nil, p.type.tight.ne_nil])]
  rcases p with ⟨_ | label, type⟩
  · rfl
  · simp [parameterLabel, parameter, label.ne_wildcard]

end SpelledParameter

namespace Spelling

theorem splitArguments_parametersText (ps : List SpelledParameter) {text : List Char}
    (h : Whole 0 text) :
    splitArguments 0 (text ++ ps.flatMap fun p => ',' :: ' ' :: p.text)
      = text :: ps.map fun p => ' ' :: p.text := by
  induction ps generalizing text with
  | nil =>
    rw [List.flatMap_nil, h]
    simp [splitArguments, prepend]
  | cons p ps ih =>
    have hcut := ih (.cons_plain (c := ' ') (by decide) p.whole)
    rw [List.cons_append] at hcut
    rw [List.flatMap_cons, h, List.cons_append, List.cons_append, splitArguments_cons,
      if_pos ⟨rfl, rfl⟩, hcut]
    simp [prepend]

theorem mapM_parameter? (ps : List SpelledParameter) :
    (argumentParts (parametersText ps)).mapM parameter?
      = some (ps.map SpelledParameter.parameter) := by
  cases ps with
  | nil => rfl
  | cons p ps =>
    have hrest : ∀ ps : List SpelledParameter,
        (ps.map fun p => ' ' :: p.text).mapM parameter?
          = some (ps.map SpelledParameter.parameter) := by
      intro ps
      induction ps with
      | nil => rfl
      | cons p ps ih =>
        rw [List.map_cons, List.mapM_cons, ih]
        have hp := p.parameter?_text (.inr rfl)
        rw [List.singleton_append] at hp
        rw [hp]
        rfl
    rw [parametersText, argumentParts_append p.tight, splitArguments_parametersText ps p.whole,
      List.mapM_cons, List.map_cons, hrest]
    have hfirst := p.parameter?_text (.inl rfl)
    rw [List.nil_append] at hfirst
    rw [hfirst]
    rfl

/-- The parameters after the first. -/
theorem ofTypeChars_more (ps : List SpelledParameter) :
    OfTypeChars (ps.flatMap fun p => ',' :: ' ' :: p.text) := fun c hc => by
  obtain ⟨p, -, hc⟩ := List.mem_flatMap.1 hc
  exact OfTypeChars.cons (by decide) (.cons (by decide) p.ofTypeChars) c hc

theorem ofTypeChars_parametersText (ps : List SpelledParameter) :
    OfTypeChars (parametersText ps) := by
  cases ps with
  | nil => exact .nil
  | cons p ps => exact p.ofTypeChars.append (ofTypeChars_more ps)

theorem opens_more (ps : List SpelledParameter) {tail : List Char} (ho : opens tail = false) :
    opens ((ps.flatMap fun p => ',' :: ' ' :: p.text) ++ tail) = false := by
  cases ps with
  | nil => exact ho
  | cons p ps => exact opens_comma _

theorem callFollows_parametersText (ps : List SpelledParameter) {tail : List Char}
    (ht : IsEnd tail) (ho : opens tail = false) :
    callFollows (parametersText ps) tail = ps.any fun p => p.type.isMisread := by
  have hmore : ∀ ps : List SpelledParameter,
      callFollows (ps.flatMap fun p => ',' :: ' ' :: p.text) tail
        = ps.any fun p => p.type.isMisread := by
    intro ps
    induction ps with
    | nil => rfl
    | cons p ps ih =>
      rw [List.flatMap_cons, callFollows_append, callFollows_cons_of_ne (by decide),
        callFollows_cons_of_ne (by decide),
        p.callFollows_text (ht.append (ofTypeChars_more ps)) (opens_more ps ho), ih, List.any_cons]
  cases ps with
  | nil => rfl
  | cons p ps =>
    rw [parametersText, callFollows_append,
      p.callFollows_text (ht.append (ofTypeChars_more ps)) (opens_more ps ho), hmore, List.any_cons]

variable (s : Spelling)

/-- The text behind the context and its point. -/
def callText : List Char :=
  s.name.text ++ '(' :: (parametersText s.parameters ++ arrow s.returnType.text)

theorem tight_text : Tight s.text := by
  have h := s.context.tight.append s.returnType.tight
    ('.' :: (s.name.text ++ '(' :: (parametersText s.parameters ++ [')', ' ', '-', '>', ' '])))
  simpa [text, arrow] using h

theorem unqualified?_callText : unqualified? s.callText
    = some ⟨none, s.name.text, parametersText s.parameters, s.returnType.text⟩ :=
  unqualified?_call s.name.isNameChar_of_mem s.name.ne_nil
    (ofTypeChars_parametersText s.parameters).no_line s.returnType.isReturnType

theorem callFollows_callText :
    callFollows s.callText [] = s.parameters.any fun p => p.type.isMisread := by
  have harrow : callFollows (arrow s.returnType.text) [] = false := by
    unfold arrow
    simp only [callFollows_cons_of_ne (by decide : ')' ≠ '.'),
      callFollows_cons_of_ne (by decide : ' ' ≠ '.'),
      callFollows_cons_of_ne (by decide : '-' ≠ '.'),
      callFollows_cons_of_ne (by decide : '>' ≠ '.')]
    exact callFollows_of_no_dash s.returnType.isReturnType.no_dash
  have hend : IsEnd (arrow s.returnType.text) :=
    ⟨[], _, rfl, List.not_mem_nil, s.returnType.isReturnType⟩
  rw [callText, callFollows_append, callFollows_identifier, Bool.false_or,
    callFollows_cons_of_ne (by decide), callFollows_append, List.append_nil, harrow, Bool.or_false,
    callFollows_parametersText _ hend (opens_arrow _)]

theorem isSome_qualified?_callText :
    (qualified? ('.' :: s.callText)).isSome = s.parameters.any fun p => p.type.isMisread := by
  rw [← callFollows_callText]
  refine isSome_qualified? ?_
  simp [callText, arrow, s.name.ofTypeChars.no_line,
    (ofTypeChars_parametersText s.parameters).no_line, s.returnType.isReturnType.no_line]

/-- The parts of a symbol none of whose parameters is misread. -/
theorem parts?_text (h : ∀ p ∈ s.parameters, p.type.isMisread = false) : parts? s.text
    = some ⟨some s.context.text, s.name.text, parametersText s.parameters, s.returnType.text⟩ := by
  have hnone : qualified? ('.' :: s.callText) = none := by
    rw [← Option.isNone_iff_eq_none, ← Option.not_isSome, isSome_qualified?_callText]
    simpa using h
  have hpoint := qualified?_at_point s.context.ofTypeChars.no_line s.context.tight.ne_nil hnone
    s.unqualified?_callText
  rw [parts?, text, ← callText, hpoint]

/-- The context of any other symbol is longer than the one that was spelled. -/
theorem parts?_text_of_misread (h : ∃ p ∈ s.parameters, p.type.isMisread = true) :
    ∃ parts context, parts? s.text = some parts ∧ context ≠ [] ∧
      parts.context = some (s.context.text ++ context) := by
  have hsome : (qualified? ('.' :: s.callText)).isSome = true := by
    rw [isSome_qualified?_callText]
    simpa using h
  obtain ⟨parts, hparts⟩ := Option.isSome_iff_exists.1 hsome
  obtain ⟨context, hcontext, hne⟩ := context_of_qualified? hparts
  refine ⟨{ parts with context := parts.context.map (s.context.text ++ ·) }, context, ?_, hne, ?_⟩
  · rw [parts?, text, ← callText, qualified?_append s.context.ofTypeChars.no_line hparts]
  · simp [hcontext]

/-- A symbol is read as it was spelled exactly if none of its parameters is misread. -/
theorem parse?_text :
    parse? (String.ofList s.text) = some s.signature
      ↔ ∀ p ∈ s.parameters, p.type.isMisread = false := by
  unfold parse?
  rw [String.toList_ofList, s.tight_text.trim_eq]
  constructor
  · intro h p hp
    rcases hmis : p.type.isMisread with _ | _
    · rfl
    -- What is read as the context goes on behind the context that was spelled.
    obtain ⟨parts, context, hparts, hne, hcontext⟩ := s.parts?_text_of_misread ⟨p, hp, hmis⟩
    obtain ⟨_, hread, h⟩ := Option.bind_eq_some_iff.1 h
    cases hparts.symm.trans hread
    obtain ⟨parameters, -, h⟩ := Option.bind_eq_some_iff.1 h
    have hsome := congrArg Signature.context (Option.some.inj h)
    rw [hcontext] at hsome
    have hequal := String.ofList_injective (Option.some.inj hsome)
    exact absurd (List.append_right_eq_self.1 hequal) hne
  · intro h
    rw [s.parts?_text h]
    simp [mapM_parameter?, signature, s.returnType.tight.trim_eq]

/-- The symbol `m.C.init(a: Swift.Array<(A, B)>) -> R`. -/
def arrayOfPairs : Spelling :=
  let simple (c : Char) (h : isIdentifierChar c = true) (h' : c ≠ '_') : Identifier :=
    ⟨[c], by simp, by simpa using h', by simpa using h⟩
  let plain (i : Identifier) : TypeTerm := .nominal ⟨i, []⟩
  { context := ⟨simple 'm' (by decide) (by decide), [simple 'C' (by decide) (by decide)]⟩
    name := ⟨"init".toList, by decide, by decide, List.all_eq_true.1 (by decide)⟩
    parameters := [⟨some (simple 'a' (by decide) (by decide)),
      .generic ⟨⟨"Swift".toList, by decide, by decide, List.all_eq_true.1 (by decide)⟩,
          [⟨"Array".toList, by decide, by decide, List.all_eq_true.1 (by decide)⟩]⟩
        (.tuple none (plain (simple 'A' (by decide) (by decide)))
          (.cons none (plain (simple 'B' (by decide) (by decide))) .nil)) .nil⟩]
    returnType := plain (simple 'R' (by decide) (by decide)) }

theorem not_parse?_text : ¬∀ s : Spelling, parse? (String.ofList s.text) = some s.signature := by
  intro h
  have htext : arrayOfPairs.text = "m.C.init(a: Swift.Array<(A, B)>) -> R".toList := by
    decide +kernel
  have hnone : parse? "m.C.init(a: Swift.Array<(A, B)>) -> R" = none := by decide +kernel
  have hread := h arrayOfPairs
  rw [htext, String.ofList_toList, hnone] at hread
  cases hread

end Spelling

end TypeMetadata.Signature
