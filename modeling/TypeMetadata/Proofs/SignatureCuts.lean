import Mathlib.Data.List.Forall2
import Mathlib.Data.List.TakeWhile
import TypeMetadata.Proofs.SignatureParts

/-!
# The ways to cut a symbol

A symbol can often be cut into context, name, arguments and return type in several ways, of which
the longest context counts and with it the longest arguments (`Parts.Preferred`). Each step of the
reading looks for the longest piece first and falls back to shorter ones, so it finds the preferred
way whenever there is one (`parts?_eq_some_iff`). There is no such way back once the arguments are
looked at: a part of them that declares no parameter makes the symbol unreadable
(`parse?_by_cuts`).
-/

namespace TypeMetadata.Signature

open Text

/-! ## Cuts -/

/-- What stands in front of a name: a context has a point after it. -/
def contextText : Option (List Char) → List Char
  | none => []
  | some context => context ++ ['.']

theorem contextText_injective : Function.Injective contextText := by
  rintro (_ | context) (_ | context') h <;> simp_all [contextText]

/-- A text of the form `context.name(args) -> type` with these parts, where white space may stand
around the arrow. -/
structure Parts.Cuts (p : Parts) (t : List Char) : Prop where
  context : ∀ context ∈ p.context, context ≠ [] ∧ '\n' ∉ context
  name : p.name ≠ [] ∧ ∀ c ∈ p.name, c ≠ '.' ∧ c ≠ '(' ∧ isBlank c = false
  args : '\n' ∉ p.args
  returnType : (∃ c ∈ p.returnType.head?, isBlank c = false) ∧ '\n' ∉ p.returnType
  text : ∃ gap gap', (∀ c ∈ gap, isBlank c = true) ∧ (∀ c ∈ gap', isBlank c = true) ∧
    t = contextText p.context ++
      (p.name ++ '(' :: (p.args ++ ')' :: (gap ++ '-' :: '>' :: (gap' ++ p.returnType))))

/-- How long the context is; none is shorter than any. -/
def Parts.contextLength (p : Parts) : Nat := p.context.elim 0 List.length

/-- Of all ways to cut the text, the one with the longest context, and with this the longest
arguments. -/
structure Parts.Preferred (p : Parts) (t : List Char) : Prop where
  cuts : p.Cuts t
  context_le : ∀ q : Parts, q.Cuts t → q.contextLength ≤ p.contextLength
  args_le : ∀ q : Parts, q.Cuts t → q.context = p.context → q.args.length ≤ p.args.length

/-! ## The return type -/

/-- White space is dropped up to the first character that is none. -/
theorem dropBlanks_eq_iff {cs ds : List Char} : dropBlanks cs = ds ↔
    (∃ gap, (∀ c ∈ gap, isBlank c = true) ∧ cs = gap ++ ds) ∧
      ∀ c ∈ ds.head?, isBlank c = false := by
  constructor
  · rintro rfl
    refine ⟨⟨cs.takeWhile isBlank, fun c hc => List.mem_takeWhile_imp hc,
      List.takeWhile_append_dropWhile.symm⟩, fun c hc => ?_⟩
    have hhead := List.head?_dropWhile_not isBlank cs
    have hc : (cs.dropWhile isBlank).head? = some c := hc
    rwa [hc] at hhead
  · rintro ⟨⟨gap, hgap, rfl⟩, hhead⟩
    rw [dropBlanks, List.dropWhile_append_of_pos hgap]
    cases ds with
    | nil => rfl
    | cons d ds => exact List.dropWhile_cons_of_neg (by simp [hhead d rfl])

/-- In the text there is an arrow first, and then this type. -/
def Returns (type cs : List Char) : Prop :=
  ((∃ c ∈ type.head?, isBlank c = false) ∧ '\n' ∉ type) ∧
    ∃ gap gap', (∀ c ∈ gap, isBlank c = true) ∧ (∀ c ∈ gap', isBlank c = true) ∧
      cs = gap ++ '-' :: '>' :: (gap' ++ type)

theorem returnType?_eq_some_iff {cs type : List Char} :
    returnType? cs = some type ↔ Returns type cs := by
  unfold returnType? Returns
  constructor
  · intro h
    split at h
    · rename_i rest hrest
      simp only [Option.ite_none_right_eq_some, Option.some.injEq] at h
      obtain ⟨⟨hne, hline⟩, rfl⟩ := h
      obtain ⟨⟨gap, hgap, rfl⟩, -⟩ := dropBlanks_eq_iff.1 hrest
      obtain ⟨⟨gap', hgap', hrest'⟩, hhead⟩ :=
        dropBlanks_eq_iff.1 (rfl : dropBlanks rest = dropBlanks rest)
      obtain ⟨c, type, hc⟩ := List.exists_cons_of_ne_nil hne
      refine ⟨⟨⟨c, by simp [hc], hhead c (by simp [hc])⟩, hline⟩, gap, gap', hgap, hgap', ?_⟩
      rw [← hrest']
    · cases h
  · rintro ⟨⟨⟨c, hc, hblank⟩, hline⟩, gap, gap', hgap, hgap', rfl⟩
    have harrow : dropBlanks (gap ++ '-' :: '>' :: (gap' ++ type)) = '-' :: '>' :: (gap' ++ type) :=
      dropBlanks_eq_iff.2 ⟨⟨gap, hgap, rfl⟩, by rintro _ ⟨⟩; decide⟩
    have htype : dropBlanks (gap' ++ type) = type := by
      refine dropBlanks_eq_iff.2 ⟨⟨gap', hgap', rfl⟩, fun d hd => ?_⟩
      rwa [Option.mem_unique hd hc]
    have hne : type ≠ [] := by
      rintro rfl
      cases hc
    rw [harrow]
    simp only [htype]
    exact if_pos ⟨hne, hline⟩

theorem Returns.unique {cs type type' : List Char} (h : Returns type cs) (h' : Returns type' cs) :
    type = type' :=
  Option.some.inj ((returnType?_eq_some_iff.2 h).symm.trans (returnType?_eq_some_iff.2 h'))

theorem returnType?_eq_none_iff {cs : List Char} :
    returnType? cs = none ↔ ∀ type, ¬Returns type cs := by
  simp only [← returnType?_eq_some_iff, Option.eq_none_iff_forall_ne_some, ne_eq]

/-! ## The arguments -/

/-- In the text there are these arguments first, and then a parenthesis and this type. -/
def Takes (args type cs : List Char) : Prop :=
  '\n' ∉ args ∧ ∃ rest, cs = args ++ ')' :: rest ∧ Returns type rest

theorem takes_nil_iff {cs type : List Char} :
    Takes [] type cs ↔ ∃ rest, cs = ')' :: rest ∧ Returns type rest := by
  simp [Takes]

theorem takes_cons_iff {c : Char} {args type cs : List Char} :
    Takes (c :: args) type cs ↔ c ≠ '\n' ∧ ∃ rest, cs = c :: rest ∧ Takes args type rest := by
  unfold Takes
  simp only [List.mem_cons, not_or, List.cons_append]
  constructor
  · rintro ⟨⟨hc, hargs⟩, rest, rfl, hrest⟩
    exact ⟨Ne.symm hc, _, rfl, hargs, rest, rfl, hrest⟩
  · rintro ⟨hc, _, rfl, hargs, rest, rfl, hrest⟩
    exact ⟨⟨Ne.symm hc, hargs⟩, rest, rfl, hrest⟩

/-- Where nothing is found there is nothing to be found. -/
theorem not_takes_of_none {cs : List Char} (h : arguments? cs = none) (args type : List Char) :
    ¬Takes args type cs := by
  induction cs generalizing args with
  | nil => simp [Takes]
  | cons c rest ih =>
    unfold arguments? at h
    split at h
    · cases h
    · rename_i hrest
      cases args with
      | nil =>
        rw [takes_nil_iff]
        rintro ⟨_, heq, hreturns⟩
        cases heq
        rw [if_pos rfl, Option.map_eq_none_iff] at h
        exact returnType?_eq_none_iff.1 h type hreturns
      | cons d args =>
        rw [takes_cons_iff]
        rintro ⟨hline, _, heq, htakes⟩
        cases heq
        rw [if_neg hline] at hrest
        exact ih hrest args htakes

/-- What is found is there, and no other arguments are longer. -/
theorem takes_of_some {cs args type : List Char} (h : arguments? cs = some (args, type)) :
    Takes args type cs ∧ ∀ args' type', Takes args' type' cs → args'.length ≤ args.length := by
  induction cs generalizing args with
  | nil => cases h
  | cons c rest ih =>
    unfold arguments? at h
    split at h
    · rename_i args₁ type₁ hrest
      cases h
      rw [Option.ite_none_left_eq_some] at hrest
      obtain ⟨hline, hrest⟩ := hrest
      obtain ⟨htakes, hmax⟩ := ih hrest
      refine ⟨takes_cons_iff.2 ⟨hline, rest, rfl, htakes⟩, fun args' type' h' => ?_⟩
      cases args' with
      | nil => exact Nat.zero_le _
      | cons d args' =>
        obtain ⟨-, _, heq, h'⟩ := takes_cons_iff.1 h'
        cases heq
        exact Nat.succ_le_succ (hmax args' type' h')
    · rename_i hrest
      rw [Option.ite_none_right_eq_some] at h
      obtain ⟨rfl, h⟩ := h
      obtain ⟨_, htype, heq⟩ := Option.map_eq_some_iff.1 h
      cases heq
      refine ⟨takes_nil_iff.2 ⟨rest, rfl, returnType?_eq_some_iff.1 htype⟩,
        fun args' type' h' => ?_⟩
      cases args' with
      | nil => exact Nat.le_refl _
      | cons d args' =>
        obtain ⟨-, _, heq, h'⟩ := takes_cons_iff.1 h'
        cases heq
        exact absurd h' (not_takes_of_none hrest args' type')

/-! ## Name and context -/

/-- In the text there are this name first, and then arguments and a return type between
parentheses and behind an arrow. -/
def Calls (name args type cs : List Char) : Prop :=
  (name ≠ [] ∧ ∀ c ∈ name, isNameChar c = true) ∧
    ∃ rest, cs = name ++ '(' :: rest ∧ Takes args type rest

theorem isNameChar_iff {c : Char} :
    isNameChar c = true ↔ c ≠ '.' ∧ c ≠ '(' ∧ isBlank c = false := by
  simp [isNameChar, and_assoc]

/-- A name is all that comes before the parenthesis. -/
theorem Calls.name_eq {name args type cs : List Char} (h : Calls name args type cs) :
    name = cs.takeWhile isNameChar ∧
      ∃ rest, cs.dropWhile isNameChar = '(' :: rest ∧ Takes args type rest := by
  obtain ⟨⟨-, hname⟩, rest, rfl, htakes⟩ := h
  refine ⟨?_, rest, ?_, htakes⟩
  · rw [List.takeWhile_append_of_pos hname, List.takeWhile_cons_of_neg (by decide),
      List.append_nil]
  · rw [List.dropWhile_append_of_pos hname, List.dropWhile_cons_of_neg (by decide)]

theorem Calls.unqualified? {name args type cs : List Char} (h : Calls name args type cs) :
    ∃ rest, Takes args type rest ∧ unqualified? cs =
      (arguments? rest).map fun (args, type) => ⟨none, name, args, type⟩ := by
  obtain ⟨htake, rest, hdrop, htakes⟩ := h.name_eq
  refine ⟨rest, htakes, ?_⟩
  rw [unqualified?_of_open (htake ▸ h.1.1) hdrop, htake]

theorem Calls.unique {name name' args args' type type' cs : List Char}
    (h : Calls name args type cs) (h' : Calls name' args' type' cs)
    (hlength : args.length = args'.length) : name = name' ∧ args = args' ∧ type = type' := by
  obtain ⟨hname, rest, hdrop, -, _, rfl, htype⟩ := h.name_eq
  obtain ⟨hname', rest', hdrop', -, _, rfl, htype'⟩ := h'.name_eq
  obtain ⟨-, hrest⟩ := List.cons.inj (hdrop.symm.trans hdrop')
  obtain ⟨hargs, hbehind⟩ := List.append_inj hrest hlength
  obtain ⟨-, rfl⟩ := List.cons.inj hbehind
  exact ⟨hname.trans hname'.symm, hargs, htype.unique htype'⟩

theorem not_calls_of_none {cs : List Char} (h : Signature.unqualified? cs = none)
    (name args type : List Char) : ¬Calls name args type cs := by
  intro hcalls
  obtain ⟨rest, htakes, hread⟩ := hcalls.unqualified?
  rw [h, eq_comm, Option.map_eq_none_iff] at hread
  exact not_takes_of_none hread args type htakes

theorem calls_of_some {cs : List Char} {p : Parts} (h : Signature.unqualified? cs = some p) :
    p.context = none ∧ Calls p.name p.args p.returnType cs ∧
      ∀ name args type, Calls name args type cs →
        name = p.name ∧ args.length ≤ p.args.length := by
  have hcalls : p.context = none ∧ Calls p.name p.args p.returnType cs := by
    unfold Signature.unqualified? at h
    simp only at h
    split at h
    · cases h
    · rename_i rest hdrop hne
      obtain ⟨⟨args, type⟩, hargs, rfl⟩ := Option.map_eq_some_iff.1 h
      refine ⟨rfl, ⟨hne, fun c hc => List.mem_takeWhile_imp hc⟩, rest, ?_, (takes_of_some hargs).1⟩
      rw [← hdrop, List.takeWhile_append_dropWhile]
    · cases h
  refine ⟨hcalls.1, hcalls.2, fun name args type hother => ?_⟩
  obtain ⟨rest, htakes, hread⟩ := hother.unqualified?
  rw [h, eq_comm] at hread
  obtain ⟨⟨args', type'⟩, hargs, rfl⟩ := Option.map_eq_some_iff.1 hread
  exact ⟨rfl, (takes_of_some hargs).2 args type htakes⟩

/-- In the text there are this context first, and then a call behind a point. -/
def Qualifies (context name args type cs : List Char) : Prop :=
  context ≠ [] ∧ '\n' ∉ context ∧ ∃ rest, cs = context ++ '.' :: rest ∧ Calls name args type rest

theorem qualifies_singleton_iff {c : Char} {name args type cs : List Char} :
    Qualifies [c] name args type cs ↔
      c ≠ '\n' ∧ ∃ rest, cs = c :: '.' :: rest ∧ Calls name args type rest := by
  simp [Qualifies, eq_comm]

theorem qualifies_cons_iff {c : Char} {context name args type cs : List Char}
    (hne : context ≠ []) : Qualifies (c :: context) name args type cs ↔
      c ≠ '\n' ∧ ∃ rest, cs = c :: rest ∧ Qualifies context name args type rest := by
  unfold Qualifies
  simp only [List.mem_cons, not_or, List.cons_append, ne_eq, reduceCtorEq, not_false_eq_true,
    true_and, hne]
  constructor
  · rintro ⟨⟨hc, hcontext⟩, rest, rfl, hcalls⟩
    exact ⟨Ne.symm hc, _, rfl, hcontext, rest, rfl, hcalls⟩
  · rintro ⟨hc, _, rfl, hcontext, rest, rfl, hcalls⟩
    exact ⟨⟨Ne.symm hc, hcontext⟩, rest, rfl, hcalls⟩

theorem not_qualifies_of_none {cs : List Char} (h : qualified? cs = none)
    (context name args type : List Char) : ¬Qualifies context name args type cs := by
  induction cs generalizing context with
  | nil => simp [Qualifies]
  | cons c rest ih =>
    rintro hq
    obtain ⟨d, context, rfl⟩ := List.exists_cons_of_ne_nil hq.1
    by_cases hcontext : context = []
    · subst hcontext
      obtain ⟨hline, more, heq, hcalls⟩ := qualifies_singleton_iff.1 hq
      cases heq
      rcases hrest : qualified? ('.' :: more) with _ | parts
      · rw [qualified?_cons_point hline hrest, Option.map_eq_none_iff] at h
        exact not_calls_of_none h name args type hcalls
      · rw [qualified?_cons_of_some hline hrest] at h
        cases h
    · obtain ⟨hline, _, heq, hq⟩ := (qualifies_cons_iff hcontext).1 hq
      cases heq
      rcases hrest : qualified? rest with _ | parts
      · exact ih hrest context hq
      · rw [qualified?_cons_of_some hline hrest] at h
        cases h

/-- The context that is found is there. No other is longer, and with it no arguments are. -/
theorem qualifies_of_some {cs : List Char} {p : Parts} (h : qualified? cs = some p) :
    ∃ context, p.context = some context ∧ Qualifies context p.name p.args p.returnType cs ∧
      ∀ context' name args type, Qualifies context' name args type cs →
        context'.length < context.length ∨
          context' = context ∧ args.length ≤ p.args.length := by
  induction cs generalizing p with
  | nil => cases h
  | cons c rest ih =>
    have hline : c ≠ '\n' := by
      rintro rfl
      unfold qualified? at h
      cases h
    rcases hrest : qualified? rest with _ | inner
    · -- the point comes right behind the first character, or there is no context
      obtain ⟨more, rfl⟩ : ∃ more, rest = '.' :: more := by
        unfold qualified? at h
        rw [if_neg hline, hrest] at h
        simp only at h
        split at h
        · exact ⟨_, rfl⟩
        · cases h
      rw [qualified?_cons_point hline hrest] at h
      obtain ⟨call, hcall, rfl⟩ := Option.map_eq_some_iff.1 h
      obtain ⟨-, hcalls, hmax⟩ := calls_of_some hcall
      refine ⟨[c], rfl, qualifies_singleton_iff.2 ⟨hline, more, rfl, hcalls⟩,
        fun context' name args type hother => .inr ?_⟩
      obtain ⟨d, context', rfl⟩ := List.exists_cons_of_ne_nil hother.1
      by_cases hcontext : context' = []
      · subst hcontext
        obtain ⟨-, _, heq, hother⟩ := qualifies_singleton_iff.1 hother
        cases heq
        exact ⟨rfl, (hmax name args type hother).2⟩
      · obtain ⟨-, _, heq, hother⟩ := (qualifies_cons_iff hcontext).1 hother
        cases heq
        exact absurd hother (not_qualifies_of_none hrest _ _ _ _)
    · rw [qualified?_cons_of_some hline hrest] at h
      cases h
      obtain ⟨context, hcontext, hq, hmax⟩ := ih hrest
      refine ⟨c :: context, by rw [hcontext]; rfl,
        (qualifies_cons_iff hq.1).2 ⟨hline, rest, rfl, hq⟩,
        fun context' name args type hother => ?_⟩
      obtain ⟨d, context', rfl⟩ := List.exists_cons_of_ne_nil hother.1
      by_cases hcontext' : context' = []
      · subst hcontext'
        exact .inl (Nat.succ_lt_succ (List.length_pos_iff.2 hq.1))
      · obtain ⟨-, _, heq, hother⟩ := (qualifies_cons_iff hcontext').1 hother
        cases heq
        refine (hmax context' name args type hother).imp Nat.succ_lt_succ ?_
        rintro ⟨rfl, hle⟩
        exact ⟨rfl, hle⟩

/-! ## The preferred cut -/

namespace Parts

variable {p q : Parts} {t : List Char}

theorem cuts_iff : p.Cuts t ↔ (∀ context ∈ p.context, context ≠ [] ∧ '\n' ∉ context) ∧
    ∃ rest, t = contextText p.context ++ rest ∧ Calls p.name p.args p.returnType rest := by
  constructor
  · intro h
    obtain ⟨gap, gap', hgap, hgap', rfl⟩ := h.text
    exact ⟨h.context, _, rfl, ⟨h.name.1, fun c hc => isNameChar_iff.2 (h.name.2 c hc)⟩, _, rfl,
      h.args, _, rfl, h.returnType, gap, gap', hgap, hgap', rfl⟩
  · rintro ⟨hcontext, _, rfl, ⟨hne, hname⟩, _, rfl, hargs, _, rfl, htype, gap, gap', hgap, hgap',
      rfl⟩
    exact ⟨hcontext, ⟨hne, fun c hc => isNameChar_iff.1 (hname c hc)⟩, hargs, htype,
      gap, gap', hgap, hgap', rfl⟩

theorem cuts_of_no_context (h : p.context = none) :
    p.Cuts t ↔ Calls p.name p.args p.returnType t := by
  simp [cuts_iff, h, contextText]

theorem cuts_of_context {context : List Char} (h : p.context = some context) :
    p.Cuts t ↔ Qualifies context p.name p.args p.returnType t := by
  simp [cuts_iff, h, contextText, Qualifies, and_assoc]

theorem length_contextText (h : p.Cuts t) :
    (contextText p.context).length = if p.contextLength = 0 then 0 else p.contextLength + 1 := by
  rcases hp : p.context with _ | context
  · simp [contextText, contextLength, hp]
  · simp [contextText, contextLength, hp, (h.context context hp).1]

/-- A text is cut in one preferred way at most. -/
theorem Preferred.unique (hp : p.Preferred t) (hq : q.Preferred t) : p = q := by
  have hlength : p.contextLength = q.contextLength :=
    Nat.le_antisymm (hq.context_le p hp.cuts) (hp.context_le q hq.cuts)
  obtain ⟨-, rest, hrest, hcalls⟩ := cuts_iff.1 hp.cuts
  obtain ⟨-, rest', hrest', hcalls'⟩ := cuts_iff.1 hq.cuts
  obtain ⟨htext, rfl⟩ := List.append_inj (hrest.symm.trans hrest')
    (by rw [length_contextText hp.cuts, length_contextText hq.cuts, hlength])
  have hcontext := contextText_injective htext
  obtain ⟨hname, hargs, htype⟩ := hcalls.unique hcalls'
    (Nat.le_antisymm (hq.args_le p hp.cuts hcontext) (hp.args_le q hq.cuts hcontext.symm))
  cases p
  cases q
  simp_all

end Parts

/-- What is read of a text is the preferred way to cut it. -/
theorem preferred_of_parts? {t : List Char} {p : Parts} (h : parts? t = some p) :
    p.Preferred t := by
  unfold parts? at h
  split at h
  · rename_i parts hq
    cases h
    obtain ⟨context, hcontext, hqualifies, hmax⟩ := qualifies_of_some hq
    have hother : ∀ q : Parts, q.Cuts t → ∀ context', q.context = some context' →
        context'.length < context.length ∨
          context' = context ∧ q.args.length ≤ p.args.length := fun q hcuts context' hq =>
      hmax context' _ _ _ ((Parts.cuts_of_context hq).1 hcuts)
    refine ⟨(Parts.cuts_of_context hcontext).2 hqualifies, fun q hcuts => ?_, fun q hcuts heq => ?_⟩
    · rw [Parts.contextLength, Parts.contextLength, hcontext]
      rcases hq : q.context with _ | context'
      · exact Nat.zero_le _
      · rcases hother q hcuts context' hq with hlt | ⟨rfl, -⟩
        · exact Nat.le_of_lt hlt
        · exact Nat.le_refl _
    · rcases hother q hcuts context (heq.trans hcontext) with hlt | ⟨-, hle⟩
      · exact absurd hlt (Nat.lt_irrefl _)
      · exact hle
  · rename_i hq
    obtain ⟨hcontext, hcalls, hmax⟩ := calls_of_some h
    have hother : ∀ q : Parts, q.Cuts t → q.context = none := fun q hcuts =>
      Option.eq_none_iff_forall_ne_some.2 fun context' hq' =>
        not_qualifies_of_none hq _ _ _ _ ((Parts.cuts_of_context hq').1 hcuts)
    refine ⟨(Parts.cuts_of_no_context hcontext).2 hcalls, fun q hcuts => ?_, fun q hcuts _ => ?_⟩
    · rw [Parts.contextLength, hother q hcuts]
      exact Nat.zero_le _
    · exact (hmax _ _ _ ((Parts.cuts_of_no_context (hother q hcuts)).1 hcuts)).2

theorem parts?_eq_none_iff {t : List Char} : parts? t = none ↔ ∀ p : Parts, ¬p.Cuts t := by
  constructor
  · intro h p hp
    unfold parts? at h
    split at h
    · cases h
    · rename_i hq
      rcases hcontext : p.context with _ | context
      · exact not_calls_of_none h _ _ _ ((Parts.cuts_of_no_context hcontext).1 hp)
      · exact not_qualifies_of_none hq _ _ _ _ ((Parts.cuts_of_context hcontext).1 hp)
  · intro h
    rcases hp : parts? t with _ | p
    · rfl
    · exact absurd (preferred_of_parts? hp).cuts (h p)

theorem parts?_eq_some_iff {t : List Char} {p : Parts} : parts? t = some p ↔ p.Preferred t := by
  refine ⟨preferred_of_parts?, fun hp => ?_⟩
  rcases hq : parts? t with _ | q
  · exact absurd hp.cuts (parts?_eq_none_iff.1 hq p)
  · exact congrArg some ((preferred_of_parts? hq).unique hp)

/-! ## Parameters -/

/-- The text declares this parameter: behind the label there is a colon, which is the first one,
and then the type. -/
def Declares (part : List Char) (p : Parameter) : Prop :=
  ∃ label type, part = label ++ ':' :: type ∧ ':' ∉ label ∧ trim label ≠ [] ∧ trim type ≠ [] ∧
    p.label = (if trim label = ['_'] then none else some (String.ofList (trim label))) ∧
    p.typeName = String.ofList (trim type)

/-- The text has no colon, or nothing but white space on one side of the first. -/
def DeclaresNothing (part : List Char) : Prop :=
  ':' ∉ part ∨ ∃ label type, part = label ++ ':' :: type ∧ ':' ∉ label ∧
    (trim label = [] ∨ trim type = [])

theorem ne_colon_of_mem {cs : List Char} (h : ':' ∉ cs) : ∀ c ∈ cs, decide (c ≠ ':') = true := by
  intro c hc
  rw [decide_eq_true_iff]
  rintro rfl
  exact h hc

theorem parameter?_of_no_colon {part : List Char} (h : ':' ∉ part) : parameter? part = none := by
  have hdrop : part.dropWhile (· ≠ ':') = [] := List.dropWhile_eq_nil_iff.2 (ne_colon_of_mem h)
  unfold parameter?
  rw [hdrop]

theorem parameter?_of_colon {label type : List Char} (h : ':' ∉ label) :
    parameter? (label ++ ':' :: type) =
      if trim label = [] ∨ trim type = [] then none
      else some ⟨if trim label = ['_'] then none else some (String.ofList (trim label)),
        String.ofList (trim type)⟩ := by
  have htake : (label ++ ':' :: type).takeWhile (· ≠ ':') = label := by
    rw [List.takeWhile_append_of_pos (ne_colon_of_mem h), List.takeWhile_cons_of_neg (by simp),
      List.append_nil]
  have hdrop : (label ++ ':' :: type).dropWhile (· ≠ ':') = ':' :: type := by
    rw [List.dropWhile_append_of_pos (ne_colon_of_mem h), List.dropWhile_cons_of_neg (by simp)]
  unfold parameter?
  rw [hdrop, htake]

theorem parameter?_eq_none_iff {part : List Char} :
    parameter? part = none ↔ DeclaresNothing part := by
  constructor
  · intro h
    by_cases hcolon : ':' ∈ part
    · obtain ⟨label, type, rfl, hlabel⟩ := List.eq_append_cons_of_mem hcolon
      rw [parameter?_of_colon hlabel] at h
      refine .inr ⟨label, type, rfl, hlabel, ?_⟩
      by_contra hne
      rw [if_neg hne] at h
      cases h
    · exact .inl hcolon
  · rintro (hcolon | ⟨label, type, rfl, hlabel, hempty⟩)
    · exact parameter?_of_no_colon hcolon
    · rw [parameter?_of_colon hlabel, if_pos hempty]

theorem parameter?_eq_some_iff {part : List Char} {p : Parameter} :
    parameter? part = some p ↔ Declares part p := by
  constructor
  · intro h
    by_cases hcolon : ':' ∈ part
    · obtain ⟨label, type, rfl, hlabel⟩ := List.eq_append_cons_of_mem hcolon
      rw [parameter?_of_colon hlabel, Option.ite_none_left_eq_some, not_or] at h
      obtain ⟨⟨hne, htype⟩, h⟩ := h
      cases h
      exact ⟨label, type, rfl, hlabel, hne, htype, rfl, rfl⟩
    · rw [parameter?_of_no_colon hcolon] at h
      cases h
  · rintro ⟨label, type, rfl, hlabel, hne, htype, hp, hp'⟩
    rw [parameter?_of_colon hlabel, if_neg (not_or.2 ⟨hne, htype⟩), ← hp, ← hp']

theorem mapM_parameter?_eq_none_iff {parts : List (List Char)} :
    parts.mapM parameter? = none ↔ ∃ part ∈ parts, DeclaresNothing part := by
  induction parts with
  | nil => simp
  | cons part parts ih =>
    rw [List.mapM_cons, List.exists_mem_cons_iff, ← parameter?_eq_none_iff, ← ih]
    rcases parameter? part with _ | p <;> rcases parts.mapM parameter? with _ | ps <;> simp

theorem mapM_parameter?_eq_some_iff {parts : List (List Char)} {ps : List Parameter} :
    parts.mapM parameter? = some ps ↔ List.Forall₂ Declares parts ps := by
  induction parts generalizing ps with
  | nil => simp [eq_comm]
  | cons part parts ih =>
    rw [List.mapM_cons, List.forall₂_cons_left_iff]
    simp only [← parameter?_eq_some_iff, ← ih]
    rcases parameter? part with _ | p <;> rcases parts.mapM parameter? with _ | ps' <;>
      simp [eq_comm]

/-! ## Symbols -/

/-- The signature says what these parts of a symbol do. -/
structure Says (s : Signature) (p : Parts) : Prop where
  context : s.context = p.context.map String.ofList
  baseName : s.baseName = String.ofList (unmarkedName p.name)
  parameters : List.Forall₂ Declares (argumentParts p.args) s.parameters
  returnTypeName : s.returnTypeName = String.ofList (trim p.returnType)

theorem parse?_of_parts? {symbol : String} {p : Parts}
    (h : parts? (trim symbol.toList) = some p) :
    parse? symbol = ((argumentParts p.args).mapM parameter?).map fun parameters =>
      ⟨p.context.map String.ofList, String.ofList (unmarkedName p.name), parameters,
        String.ofList (trim p.returnType)⟩ := by
  unfold parse?
  rw [h, Option.map_eq_bind]
  rfl

theorem parse?_of_no_parts {symbol : String} (h : parts? (trim symbol.toList) = none) :
    parse? symbol = none := by
  unfold parse?
  rw [h]
  rfl

theorem parse?_eq_none_iff {symbol : String} : parse? symbol = none ↔
    (∀ p : Parts, ¬p.Cuts (trim symbol.toList)) ∨ ∃ p : Parts,
      p.Preferred (trim symbol.toList) ∧ ∃ part ∈ argumentParts p.args, DeclaresNothing part := by
  simp only [← parts?_eq_none_iff, ← parts?_eq_some_iff, ← mapM_parameter?_eq_none_iff]
  rcases h : parts? (trim symbol.toList) with _ | p
  · simp [parse?_of_no_parts h]
  · simp [parse?_of_parts? h]

theorem parse?_eq_some_iff {symbol : String} {s : Signature} : parse? symbol = some s ↔
    ∃ p : Parts, p.Preferred (trim symbol.toList) ∧ s.Says p := by
  simp only [← parts?_eq_some_iff]
  rcases h : parts? (trim symbol.toList) with _ | p
  · simp [parse?_of_no_parts h]
  · rw [parse?_of_parts? h, Option.map_eq_some_iff]
    constructor
    · rintro ⟨parameters, hparameters, rfl⟩
      exact ⟨p, rfl, rfl, rfl, mapM_parameter?_eq_some_iff.1 hparameters, rfl⟩
    · rintro ⟨q, heq, hcontext, hname, hparameters, htype⟩
      cases heq
      refine ⟨s.parameters, mapM_parameter?_eq_some_iff.2 hparameters, ?_⟩
      rw [← hcontext, ← hname, ← htype]

theorem Says.length_parameters {s : Signature} {p : Parts} (h : s.Says p) :
    s.parameters.length = (argumentParts p.args).length :=
  h.parameters.length_eq.symm

theorem Says.labels {s : Signature} {p : Parts} (h : s.Says p) {i : Nat} {part : List Char}
    (hpart : (argumentParts p.args)[i]? = some part) :
    ∃ label type, part = label ++ ':' :: type ∧ ':' ∉ label ∧
      (s.labels[i]? = some none ↔ trim label = ['_']) := by
  obtain ⟨hi, rfl⟩ := List.getElem?_eq_some_iff.1 hpart
  have hi' : i < s.parameters.length := h.length_parameters ▸ hi
  obtain ⟨label, type, hpart, hcolon, -, -, hlabel, -⟩ := h.parameters.get hi hi'
  refine ⟨label, type, hpart, hcolon, ?_⟩
  simp only [List.get_eq_getElem] at hlabel
  rw [Signature.labels, List.getElem?_map, List.getElem?_eq_getElem hi', Option.map_some,
    Option.some.injEq, hlabel]
  simp

/-- A symbol is read as the preferred way to cut it without the white space at its ends says, of
which there is one if the text can be cut at all. It cannot be read if there is no way to cut it,
or if the arguments are not blank and one of the parts that they consist of declares no parameter.
There is a label and a type for each part; the label `_` is none. -/
theorem parse?_by_cuts (symbol : String) :
    (parse? symbol = none ↔ (∀ p : Parts, ¬p.Cuts (trim symbol.toList)) ∨
      ∃ p : Parts, p.Preferred (trim symbol.toList) ∧ trim p.args ≠ [] ∧
        ∃ part ∈ argumentParts p.args, DeclaresNothing part) ∧
    (∀ s : Signature, parse? symbol = some s ↔
      ∃ p : Parts, p.Preferred (trim symbol.toList) ∧ s.Says p) ∧
    ((∃ p : Parts, p.Cuts (trim symbol.toList)) →
      ∃! p : Parts, p.Preferred (trim symbol.toList)) ∧
    ∀ (s : Signature) (p : Parts), p.Preferred (trim symbol.toList) → parse? symbol = some s →
      s.labels.length = (argumentParts p.args).length ∧
      s.argTypeNames.length = (argumentParts p.args).length ∧
      ∀ (i : Nat) part, (argumentParts p.args)[i]? = some part → ∃ label type,
        part = label ++ ':' :: type ∧ ':' ∉ label ∧
          (s.labels[i]? = some none ↔ trim label = ['_']) := by
  refine ⟨?_, fun s => parse?_eq_some_iff, fun ⟨p, hp⟩ => ?_, fun s p hp hs => ?_⟩
  · rw [parse?_eq_none_iff]
    refine or_congr_right (exists_congr fun p => and_congr_right fun _ => ?_)
    -- blank arguments have no parts
    refine ⟨fun h => ⟨fun hblank => ?_, h⟩, And.right⟩
    obtain ⟨part, hpart, -⟩ := h
    rw [argumentParts, if_pos hblank] at hpart
    cases hpart
  · rcases hq : parts? (trim symbol.toList) with _ | q
    · exact absurd hp (parts?_eq_none_iff.1 hq p)
    · exact ⟨q, preferred_of_parts? hq, fun q' hq' => hq'.unique (preferred_of_parts? hq)⟩
  · obtain ⟨q, hq, hsays⟩ := parse?_eq_some_iff.1 hs
    cases hp.unique hq
    exact ⟨(List.length_map _).trans hsays.length_parameters,
      (List.length_map _).trans hsays.length_parameters, fun i part hpart => hsays.labels hpart⟩

end TypeMetadata.Signature
