import Mathlib.Data.List.Zip
import TypeMetadata.Proofs.FirstAnswers
import TypeMetadata.Proofs.SignatureCuts

/-!
# What a selector tells of a method

A selector is the name of a method, a parenthesis, and the labels with a colon behind each. It can
be taken apart again if no parenthesis opens in the name and no label has a colon in it or is
written like none at all (`Signature.Separable`). Every signature that is read of a symbol is of
this kind (`Signature.separable_of_parse?`), so two that share a selector have name and labels in
common (`Signature.Separable.selector_eq_iff`), and only overloads meet under one selector of a
class (`selectors_tell`).
-/

namespace TypeMetadata

namespace Text

/-- There is one way to cut a text where a character first comes. -/
theorem eq_of_cut_at_first {c : Char} {cs cs' rest rest' : List Char} (h : c ∉ cs) (h' : c ∉ cs')
    (heq : cs ++ c :: rest = cs' ++ c :: rest') : cs = cs' ∧ rest = rest' := by
  induction cs generalizing cs' with
  | nil =>
    cases cs' with
    | nil => exact ⟨rfl, (List.cons.inj heq).2⟩
    | cons d cs' => exact absurd ((List.cons.inj heq).1 ▸ List.mem_cons_self) h'
  | cons d cs ih =>
    cases cs' with
    | nil => exact absurd ((List.cons.inj heq).1 ▸ List.mem_cons_self) h
    | cons d' cs' =>
      obtain ⟨rfl, hbehind⟩ := List.cons.inj heq
      obtain ⟨rfl, rfl⟩ :=
        ih (mt (List.mem_cons_of_mem d) h) (mt (List.mem_cons_of_mem d) h') hbehind
      exact ⟨rfl, rfl⟩

end Text

namespace Signature

open Text

variable {s s' : Signature}

/-! ## Selectors that can be taken apart -/

/-- A label, if there is one, has no colon in it and is not written as none is. -/
def IsLabel (label : Option String) : Prop := ∀ text ∈ label, text ≠ "_" ∧ ':' ∉ text.toList

/-- In the name no parenthesis opens, and the labels are told apart from each other and from none. -/
structure Separable (s : Signature) : Prop where
  baseName : '(' ∉ s.baseName.toList
  labels : ∀ label ∈ s.labels, IsLabel label

theorem mem_of_mem_unmarkedName {c : Char} {name : List Char} (h : c ∈ unmarkedName name) :
    c ∈ name := by
  unfold unmarkedName at h
  split at h
  · exact List.mem_of_mem_drop h
  · exact h

theorem isLabel_of_declares {part : List Char} {p : Parameter} (h : Declares part p) :
    IsLabel p.label := by
  intro text htext
  obtain ⟨label, type, -, hcolon, -, -, hread, -⟩ := h
  rw [Option.mem_def.1 htext, eq_comm, Option.ite_none_left_eq_some] at hread
  obtain ⟨hne, hread⟩ := hread
  cases hread
  refine ⟨fun heq => hne ?_, ?_⟩
  · rw [← String.toList_ofList (l := trim label), heq]
    rfl
  · rw [String.toList_ofList]
    exact mt mem_of_mem_trim hcolon

/-- So it is in what is read of a symbol. -/
theorem separable_of_parse? {symbol : String} (h : parse? symbol = some s) : s.Separable := by
  obtain ⟨p, hp, hread⟩ := parse?_eq_some_iff.1 h
  refine ⟨?_, fun label hlabel => ?_⟩
  · rw [hread.baseName, String.toList_ofList]
    intro hmem
    exact (hp.cuts.name.2 '(' (mem_of_mem_unmarkedName hmem)).2.1 rfl
  · obtain ⟨parameter, hparameter, rfl⟩ := List.mem_map.1 hlabel
    obtain ⟨i, hi, rfl⟩ := List.getElem_of_mem hparameter
    exact isLabel_of_declares (hread.parameters.get (hread.length_parameters ▸ hi) hi)

/-- The labels as they stand in a selector. -/
def labelsText (labels : List (Option String)) : List Char :=
  labels.flatMap fun label => (labelText label).toList ++ [':']

theorem toList_selector (s : Signature) :
    s.selector.toList = s.baseName.toList ++ '(' :: (labelsText s.labels ++ [')']) := by
  have hlabels : (String.join (s.parameters.map fun p => labelText p.label ++ ":")).toList =
      labelsText s.labels := by
    rw [String.toList_join, List.flatMap_map, labelsText, labels, List.flatMap_map]
    exact List.flatMap_congr fun p _ => String.toList_append
  rw [selector, String.toList_append, String.toList_append, String.toList_append, hlabels]
  simp

theorem labelText_inj {label label' : Option String} (h : IsLabel label) (h' : IsLabel label')
    (heq : labelText label = labelText label') : label = label' := by
  rcases label with _ | text <;> rcases label' with _ | text'
  · rfl
  · exact absurd heq.symm (h' text' rfl).1
  · exact absurd heq (h text rfl).1
  · exact congrArg some heq

theorem colon_notMem_labelText {label : Option String} (h : IsLabel label) :
    ':' ∉ (labelText label).toList := by
  rcases label with _ | text
  · decide
  · exact (h text rfl).2

theorem labelsText_inj {labels labels' : List (Option String)} (h : ∀ label ∈ labels, IsLabel label)
    (h' : ∀ label ∈ labels', IsLabel label) (heq : labelsText labels = labelsText labels') :
    labels = labels' := by
  induction labels generalizing labels' with
  | nil =>
    cases labels' with
    | nil => rfl
    | cons label labels' => simp [labelsText] at heq
  | cons label labels ih =>
    cases labels' with
    | nil => simp [labelsText] at heq
    | cons label' labels' =>
      obtain ⟨hlabel, hlabels⟩ := List.forall_mem_cons.1 h
      obtain ⟨hlabel', hlabels'⟩ := List.forall_mem_cons.1 h'
      simp only [labelsText, List.flatMap_cons, List.append_assoc, List.singleton_append] at heq
      -- the first colon ends the first label
      obtain ⟨hfirst, hrest⟩ := eq_of_cut_at_first (colon_notMem_labelText hlabel)
        (colon_notMem_labelText hlabel') heq
      rw [labelText_inj hlabel hlabel' (String.toList_injective hfirst),
        ih hlabels hlabels' hrest]

theorem Separable.selector_eq_iff (h : s.Separable) (h' : s'.Separable) :
    s.selector = s'.selector ↔ s.baseName = s'.baseName ∧ s.labels = s'.labels := by
  constructor
  · intro heq
    have htext := congrArg String.toList heq
    rw [toList_selector, toList_selector] at htext
    obtain ⟨hname, hbehind⟩ := eq_of_cut_at_first h.baseName h'.baseName htext
    exact ⟨String.toList_injective hname,
      labelsText_inj h.labels h'.labels (List.append_cancel_right hbehind)⟩
  · rintro ⟨hname, hlabels⟩
    apply String.toList_injective
    rw [toList_selector, toList_selector, hname, hlabels]

/-! ## Overloads -/

/-- Two methods that are called by one name and with the same labels. If they are not spelled alike,
what they differ in is the type they belong to, the types of their arguments, or what they return. -/
structure Overloads (s s' : Signature) : Prop where
  baseName : s.baseName = s'.baseName
  labels : s.labels = s'.labels
  arity : s.arity = s'.arity
  differ : s ≠ s' → s.context ≠ s'.context ∨ s.argTypeNames ≠ s'.argTypeNames ∨
    s.returnTypeName ≠ s'.returnTypeName

theorem parameters_eq (hlabels : s.labels = s'.labels) (htypes : s.argTypeNames = s'.argTypeNames) :
    s.parameters = s'.parameters := by
  have hzip (s : Signature) : s.labels.zip s.argTypeNames =
      s.parameters.map fun p => (p.label, p.typeName) := List.zip_map'
  refine List.map_injective_iff.2 ?_ ((hzip s).symm.trans (hlabels ▸ htypes ▸ hzip s'))
  rintro ⟨label, typeName⟩ ⟨label', typeName'⟩ heq
  cases heq
  rfl

theorem overloads_of_eq (hname : s.baseName = s'.baseName) (hlabels : s.labels = s'.labels) :
    s.Overloads s' where
  baseName := hname
  labels := hlabels
  arity := by simpa [Signature.labels, arity] using congrArg List.length hlabels
  differ hne := by
    by_contra hsame
    simp only [not_or, not_not] at hsame
    obtain ⟨hcontext, htypes, hreturn⟩ := hsame
    have hparameters := parameters_eq hlabels htypes
    cases s
    cases s'
    simp_all

theorem selector_eq_iff_overloads {symbol symbol' : String} (h : parse? symbol = some s)
    (h' : parse? symbol' = some s') : s.selector = s'.selector ↔ s.Overloads s' := by
  rw [(separable_of_parse? h).selector_eq_iff (separable_of_parse? h')]
  exact ⟨fun ⟨hname, hlabels⟩ => overloads_of_eq hname hlabels,
    fun hoverloads => ⟨hoverloads.baseName, hoverloads.labels⟩⟩

end Signature

/-- Two methods whose symbols spell signatures with one selector. -/
theorem Method.Spells.overloads {m m' : Method} {s s' : Signature} (h : m.Spells s)
    (h' : m'.Spells s') (heq : s.selector = s'.selector) : s.Overloads s' := by
  obtain ⟨-, symbol, -, hparse⟩ := h
  obtain ⟨-, symbol', -, hparse'⟩ := h'
  exact (Signature.selector_eq_iff_overloads hparse hparse').1 heq

namespace ClassType

/-- The initializers that a class answers with are methods that it answers with. -/
theorem AnswersBy.spelled {s : Settings} {d : ClassDescriptor} {c : ClassType}
    {summary : List (String × Json)} {t t₁ t₂ : NominalType}
    {fixed : World → Except Error (List Method)} (h : AnswersBy s d c summary t fixed) {w : World}
    {ms : List Method} {l : List Initializer}
    (hms : (NominalType.onClass ClassType.methods).runOn t w = ((.ok (some ms), t₁), w))
    (hl : (NominalType.onClass ClassType.initializers).runOn t w = ((.ok (some l), t₂), w)) :
    ∀ i ∈ l, ∃ m ∈ ms, m.Spells i.signature ∧ m.address = i.address := by
  intro i hi
  obtain ⟨_, hmethods⟩ := h.methods w
  by_cases hbound : d.isGeneric = false ∧ s.bindInitializers = true
  · obtain ⟨metadata, -, hinitializers⟩ := h.initializers hbound.1 hbound.2
    obtain ⟨_, hinitializers⟩ := hinitializers w
    rw [hms] at hmethods
    rw [hl] at hinitializers
    rcases hfixed : fixed w with e | ms' <;> rw [hfixed] at hmethods hinitializers
    · cases hmethods
    · cases hmethods
      cases hinitializers
      rw [initializersOf_eq_bindAll] at hi
      obtain ⟨front, m, back, rfl, hspells, hsame, -⟩ :=
        (Initializer.binds_bindAll metadata c.info.qualifiedName _).only i hi
      exact ⟨m, List.mem_append_right _ List.mem_cons_self, hspells,
        (congrArg Initializer.address hsame).symm⟩
  · have hoff : d.isGeneric = true ∨ s.bindInitializers = false := by
      rw [not_and_or, Bool.not_eq_false, Bool.not_eq_true] at hbound
      exact hbound
    obtain ⟨_, hnone⟩ := h.noInitializers hoff w
    rw [hl] at hnone
    cases hnone
    cases hi

end ClassType

/-- Signatures that are read of symbols share a selector exactly if one overloads the other. So
whatever a class has been asked for, under the selector of an initializer that it answers with there
meet none of its methods but that initializer itself and its overloads. -/
theorem selectors_tell :
    (∀ (symbol symbol' : String) (s s' : Signature), Signature.parse? symbol = some s →
      Signature.parse? symbol' = some s' → (s.selector = s'.selector ↔ s.Overloads s')) ∧
    ∀ (settings : Settings) (d : ClassDescriptor) (c : ClassType) (w₀ w₁ : World),
      (ClassType.read settings d).run w₀ = (.ok c, w₁) →
      ∀ (conformances : List Conformance) (asked : List (World × TypeAsk)) (w : World)
        (ms : List Method) (l : List Initializer) (t t₁ t₂ : NominalType),
        t = afterAll NominalType.asked ⟨.classType c, conformances⟩ asked →
        (NominalType.onClass ClassType.methods).runOn t w = ((.ok (some ms), t₁), w) →
        (NominalType.onClass ClassType.initializers).runOn t w = ((.ok (some l), t₂), w) →
        ∀ i ∈ l, (∃ m ∈ ms, m.Spells i.signature ∧ m.address = i.address) ∧
          ∀ m ∈ ms, ∀ s, m.Spells s → s.selector = i.selector → s.Overloads i.signature := by
  refine ⟨fun _ _ _ _ => Signature.selector_eq_iff_overloads, ?_⟩
  rintro settings d c w₀ w₁ hread conformances asked w ms l _ t₁ t₂ rfl hms hl i hi
  obtain ⟨m', hm', hbound, haddress⟩ :=
    (ClassType.answersBy_afterAll hread conformances asked).spelled hms hl i hi
  exact ⟨⟨m', hm', hbound, haddress⟩, fun m _ s hspells => hspells.overloads hbound⟩

namespace ClassType

/-- The methods that a class answers with and its initializers, each where it is and with its
selector. -/
def selectorsIn (c : ClassType) (w : World) :
    Option (List (Address × Option String)) × Option (List (Address × String)) :=
  ((methods.runOn c w).1.1.toOption.map fun ms =>
      ms.map fun m => (m.address, m.initializerSignature?.map Signature.selector),
    (initializers.runOn c w).1.1.toOption.map fun l => l.map fun i => (i.address, i.selector))

/-- Of two initializers of a class the one that is not bound is an overload of the other. -/
theorem selectors_tell_bound :
    ∃ c w ms l t₁ t₂, (ClassType.read {} descriptorOfTwo).run withOverloads = (.ok c, w) ∧
      (NominalType.onClass methods).runOn ⟨.classType c, []⟩ w = ((.ok (some ms), t₁), w) ∧
      (NominalType.onClass initializers).runOn ⟨.classType c, []⟩ w = ((.ok (some l), t₂), w) ∧
      ∃ m ∈ ms, ∃ s, ∃ i ∈ l, m.address = ⟨0x8010⟩ ∧ i.address = ⟨0x8020⟩ ∧ m.Spells s ∧
        s.selector = i.selector ∧ s.Overloads i.signature := by
  obtain ⟨c, w, hread, hshown⟩ := Inspect.exists_of_any
    (x := ClassType.read {} descriptorOfTwo) (w := withOverloads)
    (p := fun r => decide (r.1.selectorsIn r.2 =
      (some [(⟨0x8010⟩, some "init(x:)"), (⟨0x8020⟩, some "init(x:)")],
        some [(⟨0x8020⟩, "init(x:)")])))
    (by decide +kernel)
  obtain ⟨metadata, horder⟩ := inOrder_of_read hread rfl rfl
  have hselectors : c.selectorsIn w = _ := of_decide_eq_true hshown
  rw [selectorsIn, runOn_methods_eq, horder.runOn_initializers_eq] at hselectors
  obtain ⟨hmethods, hinitializers⟩ := Prod.mk.inj hselectors
  rcases hin : c.methodsIn w with e | ms <;> rw [hin] at hmethods hinitializers
  · cases hmethods
  obtain ⟨-, htell⟩ := selectors_tell
  have hms := NominalType.runOn_onClass methods c [] w
  have hl := NominalType.runOn_onClass initializers c [] w
  rw [runOn_methods_eq, hin] at hms
  rw [horder.runOn_initializers_eq, hin] at hl
  obtain ⟨m, hm, hfirst⟩ := List.mem_map.1
    ((Option.some.inj hmethods).symm ▸ List.mem_cons_self : (_, _) ∈ ms.map _)
  obtain ⟨i, hi, hbound⟩ := List.mem_map.1
    ((Option.some.inj hinitializers).symm ▸ List.mem_cons_self : (_, _) ∈ List.map _ _)
  obtain ⟨haddress, hselector⟩ := Prod.mk.inj hfirst
  obtain ⟨hboundAt, hkey⟩ := Prod.mk.inj hbound
  obtain ⟨s, hs, hspelled⟩ := Option.map_eq_some_iff.1 hselector
  have hspells : m.Spells s := Method.initializerSignature?_eq_some_iff.1 hs
  have hsame : s.selector = i.selector := hspelled.trans hkey.symm
  exact ⟨c, w, ms, _, _, _, hread, hms, hl, m, hm, s, i, hi, haddress, hboundAt, hspells, hsame,
    (htell {} descriptorOfTwo c _ w hread [] [] w ms _ _ _ _ rfl hms hl i hi).2 m hm s hspells
      hsame⟩

end ClassType

end TypeMetadata
