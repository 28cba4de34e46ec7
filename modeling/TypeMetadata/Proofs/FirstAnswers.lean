import TypeMetadata.Proofs.BoundInitializers
import TypeMetadata.Proofs.GenericUses
import TypeMetadata.Proofs.KeptAnswers

/-!
# First answers

The methods of a class, its initializers, and the tag, place and buffer of an enum value are each
looked for until there is an answer, and that is the answer from then on
(`first_answers_stay`). What a class answers is so a matter of the first world in which its methods
could be read: the initializers and the summary are made of those and of no others
(`ClassType.answersBy_afterAll`).
-/

namespace TypeMetadata

open InspectOn (Memoizes AnswersOnce)

/-! ## Values of cases -/

namespace EnumType

variable {t t' : EnumType} {name : String} {entry : CaseEntry} {α : Type}

/-- What is known of the values of an enum's cases is known of them later, too. -/
structure KnownIn (t t' : EnumType) : Prop where
  core : t'.core = t.core
  entries : ∀ name entry, t.entry? name = some entry →
    ∃ state, t'.entry? name = some { entry with state } ∧ entry.state.KnownIn state

theorem KnownIn.refl (t : EnumType) : t.KnownIn t :=
  ⟨rfl, fun _ entry h => ⟨entry.state, h, .refl _⟩⟩

theorem entry?_keep (h : t.entry? name = some entry) (type : ValueType) (state : EnumState)
    (payload : Option Value) :
    entry? (t.keep entry (.enum type state payload)) name = some { entry with state } := by
  rw [← name_of_found h]
  exact Keyed.find?_put_self (fun e : CaseEntry => e.case.name) { entry with state } _

theorem entry?_keep_of_ne {name' : String} (h : entry.case.name ≠ name') (type : ValueType)
    (state : EnumState) (payload : Option Value) :
    entry? (t.keep entry (.enum type state payload)) name' = t.entry? name' :=
  Keyed.find?_put_of_ne (fun e : CaseEntry => e.case.name) (x := { entry with state }) h _

theorem knownIn_keep (h : t.entry? name = some entry) {state : EnumState}
    (hstate : entry.state.KnownIn state) (type : ValueType) (payload : Option Value) :
    t.KnownIn (t.keep entry (.enum type state payload)) where
  core := rfl
  entries name' entry' h' := by
    by_cases hname : name' = name
    · subst hname
      cases Option.some.inj (h.symm.trans h')
      exact ⟨state, entry?_keep h type state payload, hstate⟩
    · refine ⟨entry'.state, ?_, .refl _⟩
      rw [entry?_keep_of_ne (fun he => hname (he.symm.trans (name_of_found h))), h']

/-- An inspection that forgets nothing of the value of a case forgets nothing of the enum. -/
theorem knownIn_onCaseValue {x : InspectOn Value α}
    (hx : ∀ (v : Value) (w : World), v.KnownIn (x.runOn v w).1.2) (name : String) (t : EnumType)
    (w : World) :
    t.KnownIn ((onCaseValue name x).runOn t w).1.2 := by
  rcases h : t.requireEmptyCase name with e | entry
  · rw [runOn_onCaseValue_of_error h]
    exact .refl t
  · have hv := hx (.enum t.core entry.state none) w
    rw [runOn_onCaseValue_of_ok h]
    generalize (x.runOn (.enum t.core entry.state none) w).1.2 = v at hv
    cases hv with
    | bare _ hstate => exact knownIn_keep (entry?_of_requireEmptyCase h) hstate t.core none

/-- A cell of the value of this case. -/
def caseCell (name : String) (cell : Value → Option α) (t : EnumType) : Option α :=
  (t.caseValue name).toOption.bind cell

theorem caseCell_of_ok (h : t.requireEmptyCase name = .ok entry) (cell : Value → Option α) :
    caseCell name cell t = cell (.enum t.core entry.state none) := by
  unfold caseCell caseValue
  rw [h]
  rfl

theorem caseCell_of_error {e : Error} (h : t.requireEmptyCase name = .error e)
    (cell : Value → Option α) : caseCell name cell t = none := by
  unfold caseCell caseValue
  rw [h]
  rfl

theorem KnownIn.caseCell (h : t.KnownIn t') {cell : Value → Option α} (hcell : Value.Lasting cell)
    {a : α} (ha : caseCell name cell t = some a) : caseCell name cell t' = some a := by
  rcases hentry : t.requireEmptyCase name with e | entry
  · rw [caseCell_of_error hentry] at ha
    cases ha
  · rw [caseCell_of_ok hentry] at ha
    obtain ⟨hfound, hempty⟩ := requireEmptyCase_eq_ok_iff.1 hentry
    obtain ⟨state, hfound', hstate⟩ := h.entries name entry hfound
    rw [caseCell_of_ok (requireEmptyCase_eq_ok_iff.2 ⟨hfound', hempty⟩), h.core]
    exact hcell _ _ a (.bare t.core hstate) ha

theorem memoizes_onCaseValue {x : InspectOn Value α} {cell : Value → Option α}
    (h : Memoizes x cell) (hx : ∀ (v : Value) (w : World), v.KnownIn (x.runOn v w).1.2)
    (name : String) :
    Memoizes (onCaseValue name x) (caseCell name cell) where
  filled {t a} ha w := by
    rcases hentry : t.requireEmptyCase name with e | entry
    · rw [caseCell_of_error hentry] at ha
      cases ha
    · rw [caseCell_of_ok hentry] at ha
      rw [runOn_onCaseValue_of_ok hentry, h.filled ha]
      simp only
      rw [keep_state (entry?_of_requireEmptyCase hentry)]
  fills t w := by
    rcases hentry : t.requireEmptyCase name with e | entry
    · rw [runOn_onCaseValue_of_error hentry]
      exact caseCell_of_error hentry cell
    · obtain ⟨hfound, hempty⟩ := requireEmptyCase_eq_ok_iff.1 hentry
      have hv := hx (.enum t.core entry.state none) w
      have hfills := h.fills (.enum t.core entry.state none) w
      rw [runOn_onCaseValue_of_ok hentry]
      generalize (x.runOn (.enum t.core entry.state none) w).1.2 = v at hv hfills
      cases hv with
      | @bare _ _ state hstate =>
        have hkept := requireEmptyCase_eq_ok_iff.2
          ⟨entry?_keep hfound t.core state none, hempty⟩
        exact (caseCell_of_ok hkept cell).trans hfills

end EnumType

/-! ## Methods and initializers -/

namespace ClassType

variable {c c' : ClassType} {w : World} {metadata : Address}

/-- What is known of a class is known of it later, too. -/
structure KnownIn (c c' : ClassType) : Prop where
  info : c'.info = c.info
  methods : ∀ ms, c.knownMethods = some ms → c'.knownMethods = some ms
  initializers : ∀ l, c.knownInitializers = some l → c'.knownInitializers = some l

theorem KnownIn.refl (c : ClassType) : c.KnownIn c := ⟨rfl, fun _ h => h, fun _ h => h⟩

/-- The methods as they are known, or else as memory and symbols have them now. -/
def methodsIn (c : ClassType) (w : World) : Except Error (List Method) :=
  c.knownMethods.elim (c.readMethods w) .ok

theorem toOption_methodsIn (c : ClassType) (w : World) :
    (c.methodsIn w).toOption = c.knownMethods.or (c.readMethods w).toOption := by
  unfold methodsIn
  cases c.knownMethods <;> rfl

theorem toOption_methodsIn_of_known {ms : List Method} (h : c.knownMethods = some ms) (w : World) :
    (c.methodsIn w).toOption = some ms := by
  rw [toOption_methodsIn, h]
  rfl

theorem runOn_methods_eq (c : ClassType) (w : World) : methods.runOn c w =
    ((c.methodsIn w, { c with knownMethods := (c.methodsIn w).toOption }), w) := by
  obtain ⟨info, _ | ms, l?⟩ := c
  · have hin : methodsIn ⟨info, none, l?⟩ w = readMethods ⟨info, none, l?⟩ w := rfl
    rw [hin]
    rcases hread : readMethods ⟨info, none, l?⟩ w with e | ms
    · exact runOn_methods_of_error rfl hread
    · exact runOn_methods_of_read rfl hread
  · exact runOn_methods_of_known rfl w

theorem memoizes_methods : Memoizes methods knownMethods where
  filled := runOn_methods_of_known
  fills c w := by rw [runOn_methods_eq]

theorem knownIn_methods (c : ClassType) (w : World) : c.KnownIn (methods.runOn c w).1.2 := by
  rw [runOn_methods_eq]
  exact ⟨rfl, fun ms h => toOption_methodsIn_of_known h w, fun _ h => h⟩

/-- Of the class no initializers are to be bound, or none can be. -/
structure Unbound (c : ClassType) : Prop where
  off : c.info.metadata = none ∨ c.info.settings.bindInitializers = false
  known : ∀ l, c.knownInitializers = some l → l = []

theorem Unbound.runOn_initializers (h : c.Unbound) (w : World) : initializers.runOn c w =
    ((.ok [], { c with knownInitializers := some [] }), w) := by
  have hoff := h.off
  obtain ⟨info, ms?, _ | l⟩ := c
  · have hread : readInitializers.runOn ⟨info, ms?, none⟩ w = ((.ok [], ⟨info, ms?, none⟩), w) := by
      unfold readInitializers
      rw [InspectOn.runOn_bind, InspectOn.runOn_current]
      rcases hmetadata : info.metadata with _ | metadata
      · simp only [hmetadata]
        rfl
      · rcases hoff with hnone | hbind
        · cases hmetadata.symm.trans hnone
        · simp only at hbind
          simp only [hmetadata, hbind]
          rfl
    unfold initializers
    rw [InspectOn.runOn_bind, InspectOn.runOn_current]
    simp only
    rw [InspectOn.runOn_bind, hread]
    rfl
  · cases h.known l rfl
    exact runOn_initializers_of_known rfl w

theorem InOrder.runOn_initializers_eq (h : c.InOrder metadata) (w : World) :
    initializers.runOn c w =
      (((c.methodsIn w).map (c.initializersOf metadata),
        { c with
          knownMethods := (c.methodsIn w).toOption
          knownInitializers := (c.methodsIn w).toOption.map (c.initializersOf metadata) }), w) := by
  have hmethods := c.runOn_methods_eq w
  rcases h.runOn_initializers w with ⟨ms, hms, hl⟩ | ⟨e, he, hl⟩
  · rw [hms] at hmethods
    rw [hl, ← (Prod.mk.inj (Prod.mk.inj hmethods).1).1]
    rfl
  · rw [he] at hmethods
    obtain ⟨hin, hc⟩ := Prod.mk.inj (Prod.mk.inj hmethods).1
    rw [← hin] at hc ⊢
    rw [hl]
    have hnone : c.knownMethods = none := congrArg knownMethods hc
    rcases hknown : c.knownInitializers with _ | l
    · obtain ⟨info, ms?, l?⟩ := c
      cases hnone
      cases hknown
      rfl
    · obtain ⟨ms, hms, -⟩ := h.known l hknown
      cases hnone.symm.trans hms

/-- As long as the initializers have not been asked for, they are to be bound or they are not. -/
theorem unbound_or_inOrder (h : c.knownInitializers = none) :
    c.Unbound ∨ ∃ metadata, c.InOrder metadata := by
  have hknown (l : List Initializer) : c.knownInitializers ≠ some l := by
    rw [h]
    exact nofun
  rcases hmetadata : c.info.metadata with _ | metadata
  · exact .inl ⟨.inl hmetadata, fun l hl => absurd hl (hknown l)⟩
  · rcases hbind : c.info.settings.bindInitializers with _ | _
    · exact .inl ⟨.inr hbind, fun l hl => absurd hl (hknown l)⟩
    · exact .inr ⟨metadata, hmetadata, hbind, fun l hl => absurd hl (hknown l)⟩

theorem memoizes_initializers : Memoizes initializers knownInitializers where
  filled := runOn_initializers_of_known
  fills c w := by
    rcases hknown : c.knownInitializers with _ | l
    · rcases unbound_or_inOrder hknown with h | ⟨metadata, h⟩
      · rw [h.runOn_initializers]
        rfl
      · rw [h.runOn_initializers_eq]
        cases c.methodsIn w <;> rfl
    · rw [runOn_initializers_of_known hknown]
      exact hknown

theorem knownIn_initializers (c : ClassType) (w : World) :
    c.KnownIn (initializers.runOn c w).1.2 := by
  rcases hknown : c.knownInitializers with _ | l
  · have hnone (l : List Initializer) (h : c.knownInitializers = some l) : False := by
      cases hknown.symm.trans h
    rcases unbound_or_inOrder hknown with h | ⟨metadata, h⟩
    · rw [h.runOn_initializers]
      exact ⟨rfl, fun _ h => h, fun l h => (hnone l h).elim⟩
    · rw [h.runOn_initializers_eq]
      exact ⟨rfl, fun ms h => toOption_methodsIn_of_known h w, fun l h => (hnone l h).elim⟩
  · rw [runOn_initializers_of_known hknown]
    exact .refl c

theorem runOn_initializer? (selector : String) (c : ClassType) (w : World) :
    (initializer? selector).runOn c w =
      (((initializers.runOn c w).1.1.map (Keyed.find? Initializer.selector selector),
        (initializers.runOn c w).1.2), (initializers.runOn c w).2) :=
  InspectOn.runOn_map _ _ c w

theorem knownIn_initializer? (selector : String) (c : ClassType) (w : World) :
    c.KnownIn ((initializer? selector).runOn c w).1.2 := by
  rw [runOn_initializer?]
  exact c.knownIn_initializers w

theorem memoizes_initializer? (selector : String) : Memoizes (initializer? selector)
    fun c => c.knownInitializers.map (Keyed.find? Initializer.selector selector) :=
  memoizes_initializers.map _

end ClassType

/-! ## Types -/

namespace TypeShape

/-- What is known of what a type is is known of it later, too. -/
inductive KnownIn : TypeShape → TypeShape → Prop
  | classType {c c' : ClassType} (h : c.KnownIn c') : KnownIn (.classType c) (.classType c')
  | structType (s : StructType) : KnownIn (.structType s) (.structType s)
  | enumType {e e' : EnumType} (h : e.KnownIn e') : KnownIn (.enumType e) (.enumType e')

theorem KnownIn.refl : ∀ shape : TypeShape, shape.KnownIn shape
  | .classType c => .classType (.refl c)
  | .structType s => .structType s
  | .enumType e => .enumType (.refl e)

end TypeShape

namespace NominalType

variable {α : Type} {t t' : NominalType}

/-- What is known of a type is known of it later, too, and it has the same conformances. -/
structure KnownIn (t t' : NominalType) : Prop where
  shape : t.shape.KnownIn t'.shape
  conformances : t'.conformances = t.conformances

theorem KnownIn.refl (t : NominalType) : t.KnownIn t := ⟨.refl t.shape, rfl⟩

theorem summary_congr (hinfo : t'.info = t.info) (h : t'.conformances = t.conformances) :
    t'.summary = t.summary := by
  rw [NominalType.summary, NominalType.summary, hinfo, h]

theorem KnownIn.summary (h : t.KnownIn t') : t'.summary = t.summary := by
  refine summary_congr ?_ h.conformances
  obtain ⟨shape, conformances⟩ := t
  obtain ⟨shape', conformances'⟩ := t'
  cases h.shape with
  | classType hc => exact hc.info
  | structType s => rfl
  | enumType he => exact congrArg ValueType.info he.core

/-- A cell of the class that a type is; what is no class is known to have nothing for it. -/
def classCell (cell : ClassType → Option α) (t : NominalType) : Option (Option α) :=
  match t.shape with
  | .classType c => (cell c).map some
  | _ => some none

/-- A cell of the enum that a type is; what is no enum is known to have nothing for it. -/
def enumCell (cell : EnumType → Option α) (t : NominalType) : Option (Option α) :=
  match t.shape with
  | .enumType e => (cell e).map some
  | _ => some none

theorem runOn_onClass (x : InspectOn ClassType α) (c : ClassType) (conformances : List Conformance)
    (w : World) : (onClass x).runOn ⟨.classType c, conformances⟩ w =
      (((x.runOn c w).1.1.map some, ⟨.classType (x.runOn c w).1.2, conformances⟩),
        (x.runOn c w).2) := by
  have hmap := InspectOn.runOn_map some x c w
  change ((((some <$> x).runOn c w).1.1, NominalType.mk (.classType ((some <$> x).runOn c w).1.2)
    conformances), ((some <$> x).runOn c w).2) = _
  rw [hmap]

theorem runOn_onEnum (x : InspectOn EnumType α) (e : EnumType) (conformances : List Conformance)
    (w : World) : (onEnum x).runOn ⟨.enumType e, conformances⟩ w =
      (((x.runOn e w).1.1.map some, ⟨.enumType (x.runOn e w).1.2, conformances⟩),
        (x.runOn e w).2) := by
  have hmap := InspectOn.runOn_map some x e w
  change ((((some <$> x).runOn e w).1.1, NominalType.mk (.enumType ((some <$> x).runOn e w).1.2)
    conformances), ((some <$> x).runOn e w).2) = _
  rw [hmap]

theorem memoizes_onClass {x : InspectOn ClassType α} {cell : ClassType → Option α}
    (h : Memoizes x cell) : Memoizes (onClass x) (classCell cell) := by
  refine h.part some fun t => ?_
  obtain ⟨shape, conformances⟩ := t
  cases shape with
  | classType c =>
    exact .inl ⟨c, fun c => ⟨.classType c, conformances⟩, rfl, fun _ => rfl,
      runOn_onClass x c conformances⟩
  | structType s => exact .inr ⟨none, rfl, fun _ => rfl⟩
  | enumType e => exact .inr ⟨none, rfl, fun _ => rfl⟩

theorem memoizes_onEnum {x : InspectOn EnumType α} {cell : EnumType → Option α}
    (h : Memoizes x cell) : Memoizes (onEnum x) (enumCell cell) := by
  refine h.part some fun t => ?_
  obtain ⟨shape, conformances⟩ := t
  cases shape with
  | classType c => exact .inr ⟨none, rfl, fun _ => rfl⟩
  | structType s => exact .inr ⟨none, rfl, fun _ => rfl⟩
  | enumType e =>
    exact .inl ⟨e, fun e => ⟨.enumType e, conformances⟩, rfl, fun _ => rfl,
      runOn_onEnum x e conformances⟩

/-- The summary of the type with these methods, if it is a class. -/
def json (t : NominalType) : Option (List Method) → Json
  | some methods => .object (t.summary ++ [("methods", .list (methods.map Method.toJson))])
  | none => .object t.summary

/-- The summary as far as it is known. -/
def jsonCell (t : NominalType) : Option Json := (classCell ClassType.knownMethods t).map t.json

theorem knownIn_onClass {x : InspectOn ClassType α}
    (hx : ∀ (c : ClassType) (w : World), c.KnownIn (x.runOn c w).1.2) (t : NominalType)
    (w : World) : t.KnownIn ((onClass x).runOn t w).1.2 := by
  obtain ⟨shape, conformances⟩ := t
  cases shape with
  | classType c =>
    rw [runOn_onClass]
    exact ⟨.classType (hx c w), rfl⟩
  | structType s => exact .refl _
  | enumType e => exact .refl _

theorem knownIn_onEnum {x : InspectOn EnumType α}
    (hx : ∀ (e : EnumType) (w : World), e.KnownIn (x.runOn e w).1.2) (t : NominalType)
    (w : World) : t.KnownIn ((onEnum x).runOn t w).1.2 := by
  obtain ⟨shape, conformances⟩ := t
  cases shape with
  | classType c => exact .refl _
  | structType s => exact .refl _
  | enumType e =>
    rw [runOn_onEnum]
    exact ⟨.enumType (hx e w), rfl⟩

theorem runOn_toJson (t : NominalType) (w : World) : toJson.runOn t w =
    ((((onClass ClassType.methods).runOn t w).1.1.map t.json,
      ((onClass ClassType.methods).runOn t w).1.2),
      ((onClass ClassType.methods).runOn t w).2) := by
  unfold toJson
  rw [InspectOn.runOn_bind, InspectOn.runOn_current]
  simp only
  rw [InspectOn.runOn_bind]
  rcases (onClass ClassType.methods).runOn t w with ⟨⟨e | _ | ms, t'⟩, w'⟩ <;> rfl

theorem memoizes_toJson : Memoizes toJson jsonCell where
  filled {t j} hj w := by
    obtain ⟨ms?, hms, rfl⟩ := Option.map_eq_some_iff.1 hj
    rw [runOn_toJson, (memoizes_onClass ClassType.memoizes_methods).filled hms]
    rfl
  fills t w := by
    have hknown := knownIn_onClass ClassType.knownIn_methods t w
    have hjson : ((onClass ClassType.methods).runOn t w).1.2.json = t.json := by
      funext ms?
      cases ms? <;> simp only [json, hknown.summary]
    rw [runOn_toJson, jsonCell, hjson, (memoizes_onClass ClassType.memoizes_methods).fills]
    cases ((onClass ClassType.methods).runOn t w).1.1 <;> rfl

theorem KnownIn.classCell (h : t.KnownIn t') {cell : ClassType → Option α}
    (hcell : ∀ {c c' : ClassType} {a}, c.KnownIn c' → cell c = some a → cell c' = some a)
    {a : Option α} (ha : classCell cell t = some a) : classCell cell t' = some a := by
  obtain ⟨shape, conformances⟩ := t
  obtain ⟨shape', conformances'⟩ := t'
  obtain ⟨hshape, -⟩ := h
  cases hshape with
  | classType h =>
    obtain ⟨b, hb, rfl⟩ := Option.map_eq_some_iff.1 ha
    exact Option.map_eq_some_iff.2 ⟨b, hcell h hb, rfl⟩
  | structType s => exact ha
  | enumType h => exact ha

theorem KnownIn.enumCell (h : t.KnownIn t') {cell : EnumType → Option α}
    (hcell : ∀ {e e' : EnumType} {a}, e.KnownIn e' → cell e = some a → cell e' = some a)
    {a : Option α} (ha : enumCell cell t = some a) : enumCell cell t' = some a := by
  obtain ⟨shape, conformances⟩ := t
  obtain ⟨shape', conformances'⟩ := t'
  obtain ⟨hshape, -⟩ := h
  cases hshape with
  | classType h => exact ha
  | structType s => exact ha
  | enumType h =>
    obtain ⟨b, hb, rfl⟩ := Option.map_eq_some_iff.1 ha
    exact Option.map_eq_some_iff.2 ⟨b, hcell h hb, rfl⟩

theorem KnownIn.jsonCell (h : t.KnownIn t') {j : Json} (hj : jsonCell t = some j) :
    NominalType.jsonCell t' = some j := by
  obtain ⟨ms?, hms, rfl⟩ := Option.map_eq_some_iff.1 hj
  refine Option.map_eq_some_iff.2 ⟨ms?, h.classCell (fun h => h.methods _) hms, ?_⟩
  cases ms? <;> simp only [json, h.summary]

end NominalType

/-- What can be asked of a type that makes nothing known to it from outside. -/
abbrev TypeAsk := { q : TypeQuery // ∀ c, q ≠ .attach c }

namespace NominalType

/-- The type after it was asked. -/
def asked (q : TypeAsk) (w : World) (t : NominalType) : NominalType := (q.1.inspect.runOn t w).1.2

/-- No request to a type empties a cell. -/
theorem knownIn_asked (q : TypeAsk) (w : World) (t : NominalType) : t.KnownIn (asked q w t) := by
  obtain ⟨q, hq⟩ := q
  unfold asked
  cases q with
  | summary =>
    rw [TypeQuery.inspect, InspectOn.runOn_leave, runOn_toJson]
    exact knownIn_onClass ClassType.knownIn_methods t w
  | methods =>
    rw [TypeQuery.inspect, InspectOn.runOn_leave]
    exact knownIn_onClass ClassType.knownIn_methods t w
  | initializers =>
    rw [TypeQuery.inspect, InspectOn.runOn_leave]
    exact knownIn_onClass ClassType.knownIn_initializers t w
  | initializer selector =>
    rw [TypeQuery.inspect, InspectOn.runOn_leave]
    exact knownIn_onClass (ClassType.knownIn_initializer? selector) t w
  | numFields | fieldOffsets =>
    rw [TypeQuery.inspect, InspectOn.runOn_bind, InspectOn.runOn_current]
    rcases hs : t.structType? with _ | s
    · simp only [hs]
      exact .refl t
    · simp only [hs]
      rw [InspectOn.runOn_leave]
      exact .refl t
  | caseValue name q =>
    rw [TypeQuery.inspect, InspectOn.runOn_leave]
    exact knownIn_onEnum (EnumType.knownIn_onCaseValue (Value.knownIn_inspect q) name) t w
  | attach c => exact absurd rfl (hq c)

/-- Each answer of a type stays from the first time it is given. -/
structure FirstAnswersStay : Prop where
  methods : AnswersOnce asked (onClass ClassType.methods) (classCell ClassType.knownMethods)
  initializers :
    AnswersOnce asked (onClass ClassType.initializers) (classCell ClassType.knownInitializers)
  initializer : ∀ selector, AnswersOnce asked (onClass (ClassType.initializer? selector))
    (classCell fun c => c.knownInitializers.map (Keyed.find? Initializer.selector selector))
  summary : AnswersOnce asked toJson jsonCell
  caseTag : ∀ name, AnswersOnce asked (onEnum (EnumType.onCaseValue name Value.tag))
    (enumCell (EnumType.caseCell name Value.tagCell))
  casePlace : ∀ name, AnswersOnce asked (onEnum (EnumType.onCaseValue name Value.address))
    (enumCell (EnumType.caseCell name Value.placeCell))
  caseBuffer : ∀ name, AnswersOnce asked (onEnum (EnumType.onCaseValue name Value.buffer))
    (enumCell (EnumType.caseCell name Value.bufferCell))

theorem answersOnce_onClass {x : InspectOn ClassType α} {cell : ClassType → Option α}
    (h : Memoizes x cell)
    (hcell : ∀ {c c' : ClassType} {a}, c.KnownIn c' → cell c = some a → cell c' = some a) :
    AnswersOnce asked (onClass x) (classCell cell) :=
  (memoizes_onClass h).answersOnce fun q w t _ => (knownIn_asked q w t).classCell hcell

theorem answersOnce_onCaseValue {x : InspectOn Value α} {cell : Value → Option α}
    (h : Memoizes x cell) (hx : ∀ (v : Value) (w : World), v.KnownIn (x.runOn v w).1.2)
    (hcell : Value.Lasting cell) (name : String) :
    AnswersOnce asked (onEnum (EnumType.onCaseValue name x))
      (enumCell (EnumType.caseCell name cell)) :=
  (memoizes_onEnum (EnumType.memoizes_onCaseValue h hx name)).answersOnce fun q w t _ =>
    (knownIn_asked q w t).enumCell fun he => he.caseCell hcell

theorem firstAnswersStay : FirstAnswersStay where
  methods := answersOnce_onClass ClassType.memoizes_methods fun h => h.methods _
  initializers := answersOnce_onClass ClassType.memoizes_initializers fun h => h.initializers _
  initializer selector := by
    refine answersOnce_onClass (ClassType.memoizes_initializer? selector) fun h ha => ?_
    obtain ⟨l, hl, rfl⟩ := Option.map_eq_some_iff.1 ha
    exact Option.map_eq_some_iff.2 ⟨l, h.initializers l hl, rfl⟩
  summary := memoizes_toJson.answersOnce fun q w t _ => (knownIn_asked q w t).jsonCell
  caseTag := answersOnce_onCaseValue Value.memoizes_tag Value.knownIn_tag Value.lasting_tagCell
  casePlace :=
    answersOnce_onCaseValue Value.memoizes_address Value.knownIn_settle Value.lasting_placeCell
  caseBuffer :=
    answersOnce_onCaseValue Value.memoizes_buffer Value.knownIn_buffer Value.lasting_bufferCell

end NominalType

/-! ## What a class answers after requests -/

/-- The request makes a class read its methods, unless they are known; `binds` says whether its
initializers are made of them. -/
def TypeQuery.readsMethods (binds : Bool) : TypeQuery → Bool
  | summary | methods => true
  | initializers | initializer _ => binds
  | _ => false

namespace ClassType

variable {c c' : ClassType} {w : World} {metadata : Address} {binds : Bool}

/-- The methods as they could first be read when they were asked for. -/
def firstMethods (c : ClassType) (binds : Bool) (asked : List (World × TypeAsk)) :
    Option (List Method) :=
  asked.findSome? fun wq =>
    if wq.2.1.readsMethods binds then (c.readMethods wq.1).toOption else none

/-- The methods as they could first be read, or else as memory and symbols have them now. -/
def methodsAfter (c : ClassType) (binds : Bool) (asked : List (World × TypeAsk)) (w : World) :
    Except Error (List Method) :=
  (c.firstMethods binds asked).elim (c.readMethods w) .ok

/-- If `binds` the initializers are to be made of the methods, and otherwise there are none. -/
structure BoundIf (binds : Bool) (c : ClassType) : Prop where
  inOrder : binds = true → ∃ metadata, c.InOrder metadata
  unbound : binds = false → c.Unbound

theorem InOrder.after_methods (h : c.InOrder metadata) (w : World) :
    ({ c with knownMethods := (c.methodsIn w).toOption } : ClassType).InOrder metadata where
  hasMetadata := h.hasMetadata
  bound := h.bound
  known l hl := by
    obtain ⟨ms, hms, rfl⟩ := h.known l hl
    exact ⟨ms, toOption_methodsIn_of_known hms w, rfl⟩

theorem InOrder.after_initializers (h : c.InOrder metadata) (w : World) :
    ({ c with
        knownMethods := (c.methodsIn w).toOption
        knownInitializers := (c.methodsIn w).toOption.map (c.initializersOf metadata) }
      : ClassType).InOrder metadata where
  hasMetadata := h.hasMetadata
  bound := h.bound
  known l hl := by
    obtain ⟨ms, hms, rfl⟩ := Option.map_eq_some_iff.1 hl
    exact ⟨ms, hms, rfl⟩

/-- A request lets a class be what it was but for its cells, of which that of its methods is filled
if they are asked for and can be read. -/
structure Follows (binds : Bool) (c c' : ClassType) (found : Option (List Method)) : Prop where
  info : c'.info = c.info
  methods : c'.knownMethods = c.knownMethods.or found
  boundIf : c'.BoundIf binds

theorem follows_methods (h : c.BoundIf binds) (w : World) :
    Follows binds c (methods.runOn c w).1.2 (c.readMethods w).toOption := by
  rw [runOn_methods_eq]
  refine ⟨rfl, toOption_methodsIn c w, fun hbinds => ?_, fun hbinds => ?_⟩
  · obtain ⟨metadata, h⟩ := h.inOrder hbinds
    exact ⟨metadata, h.after_methods w⟩
  · exact ⟨(h.unbound hbinds).off, (h.unbound hbinds).known⟩

theorem follows_initializers (h : c.BoundIf binds) (w : World) :
    Follows binds c (initializers.runOn c w).1.2
      (if binds then (c.readMethods w).toOption else none) := by
  cases binds with
  | true =>
    obtain ⟨metadata, h⟩ := h.inOrder rfl
    rw [h.runOn_initializers_eq]
    exact ⟨rfl, toOption_methodsIn c w, fun _ => ⟨metadata, h.after_initializers w⟩, nofun⟩
  | false =>
    have h := h.unbound rfl
    rw [h.runOn_initializers]
    refine ⟨rfl, Option.or_none.symm, nofun, fun _ => ⟨h.off, fun l hl => ?_⟩⟩
    exact (Option.some.inj hl).symm

theorem follows_asked (h : c.BoundIf binds) (conformances : List Conformance) (q : TypeAsk)
    (w : World) : ∃ c', NominalType.asked q w ⟨.classType c, conformances⟩
        = ⟨.classType c', conformances⟩ ∧
      Follows binds c c' (if q.1.readsMethods binds then (c.readMethods w).toOption else none) := by
  obtain ⟨q, hq⟩ := q
  unfold NominalType.asked
  have hidle : Follows binds c c none := ⟨rfl, Option.or_none.symm, h⟩
  cases q with
  | summary =>
    rw [TypeQuery.inspect, InspectOn.runOn_leave, NominalType.runOn_toJson,
      NominalType.runOn_onClass]
    exact ⟨_, rfl, follows_methods h w⟩
  | methods =>
    rw [TypeQuery.inspect, InspectOn.runOn_leave, NominalType.runOn_onClass]
    exact ⟨_, rfl, follows_methods h w⟩
  | initializers =>
    rw [TypeQuery.inspect, InspectOn.runOn_leave, NominalType.runOn_onClass]
    exact ⟨_, rfl, follows_initializers h w⟩
  | initializer selector =>
    rw [TypeQuery.inspect, InspectOn.runOn_leave, NominalType.runOn_onClass, runOn_initializer?]
    exact ⟨_, rfl, follows_initializers h w⟩
  | numFields => exact ⟨c, rfl, hidle⟩
  | fieldOffsets => exact ⟨c, rfl, hidle⟩
  | caseValue name q => exact ⟨c, rfl, hidle⟩
  | attach a => exact absurd rfl (hq a)

theorem readMethods_congr (h : c'.info = c.info) (w : World) :
    c'.readMethods w = c.readMethods w := by
  unfold readMethods descriptor
  rw [h]

theorem initializersOf_congr (h : c'.info = c.info) (metadata : Address) :
    c'.initializersOf metadata = c.initializersOf metadata := by
  funext ms
  rw [initializersOf_eq_bindAll, initializersOf_eq_bindAll, h]

/-- Whatever a class is asked for, its methods are those that could first be read. -/
theorem follows_afterAll (h : c.BoundIf binds) (conformances : List Conformance)
    (asked : List (World × TypeAsk)) :
    ∃ c', afterAll NominalType.asked ⟨.classType c, conformances⟩ asked
        = ⟨.classType c', conformances⟩ ∧ Follows binds c c' (c.firstMethods binds asked) := by
  induction asked generalizing c with
  | nil => exact ⟨c, rfl, rfl, Option.or_none.symm, h⟩
  | cons wq asked ih =>
    obtain ⟨c₁, hstep, hfirst⟩ := follows_asked h conformances wq.2 wq.1
    obtain ⟨c', hafter, hrest⟩ := ih hfirst.boundIf
    refine ⟨c', ?_, hrest.info.trans hfirst.info, ?_, hrest.boundIf⟩
    · rw [← hafter, ← hstep]
      rfl
    · have hcongr : c₁.firstMethods binds asked = c.firstMethods binds asked := by
        unfold firstMethods
        simp only [readMethods_congr hfirst.info]
      rw [hrest.methods, hfirst.methods, hcongr, Option.or_assoc]
      congr 1
      rw [firstMethods, firstMethods, List.findSome?_cons]
      rcases (if wq.2.1.readsMethods binds then (c.readMethods wq.1).toOption else none) with _ | ms
        <;> rfl

theorem boundIf_of_read {s : Settings} {d : ClassDescriptor} {w₀ w₁ : World}
    (hread : (ClassType.read s d).run w₀ = (.ok c, w₁)) :
    c.knownMethods = none ∧ c.BoundIf (s.bindInitializers && !d.isGeneric) := by
  obtain ⟨info, w₂, hinfo, hc⟩ := Inspect.run_bind_ok hread
  have hsettings := TypeInfo.settings_of_read hinfo
  have hgeneric : info.metadata = none ↔ d.isGeneric = true := by
    rw [TypeInfo.metadata_of_read hinfo, TypeInfo.isGeneric, TypeInfo.descriptor_of_read hinfo]
  cases hc
  refine ⟨rfl, fun hbinds => ?_, fun hbinds => ⟨?_, fun l hl => by cases hl⟩⟩
  · rw [Bool.and_eq_true, Bool.not_eq_true'] at hbinds
    exact inOrder_of_read hread hbinds.2 hbinds.1
  · rw [Bool.and_eq_false_iff, Bool.not_eq_false'] at hbinds
    rw [hsettings]
    exact hbinds.symm.imp_left hgeneric.2

/-- What `t` answers as a class, of which `fixed` are the methods, or else why there are none: the
class `c` was read from `d`, and `summary` are the members that its summary has as a type. -/
structure AnswersBy (s : Settings) (d : ClassDescriptor) (c : ClassType)
    (summary : List (String × Json)) (t : NominalType)
    (fixed : World → Except Error (List Method)) : Prop where
  methods : ∀ w, ∃ t', (NominalType.onClass ClassType.methods).runOn t w =
    (((fixed w).map some, t'), w)
  initializers : d.isGeneric = false → s.bindInitializers = true →
    ∃ metadata, c.info.metadata = some metadata ∧
      ∀ w, ∃ t', (NominalType.onClass ClassType.initializers).runOn t w =
        (((fixed w).map fun ms => some (c.initializersOf metadata ms), t'), w)
  noInitializers : d.isGeneric = true ∨ s.bindInitializers = false →
    ∀ w, ∃ t', (NominalType.onClass ClassType.initializers).runOn t w = ((.ok (some []), t'), w)
  initializer : ∀ selector w, (NominalType.onClass (ClassType.initializer? selector)).runOn t w =
    let ((r, t'), w') := (NominalType.onClass ClassType.initializers).runOn t w
    ((r.map (Option.map (Keyed.find? Initializer.selector selector)), t'), w')
  json : ∀ w, ∃ t', NominalType.toJson.runOn t w =
    (((fixed w).map fun ms =>
      .object (summary ++ [("methods", .list (ms.map Method.toJson))]), t'), w)

theorem answersBy_afterAll {s : Settings} {d : ClassDescriptor} {w₀ w₁ : World}
    (hread : (ClassType.read s d).run w₀ = (.ok c, w₁)) (conformances : List Conformance)
    (asked : List (World × TypeAsk)) :
    AnswersBy s d c (NominalType.summary ⟨.classType c, conformances⟩)
      (afterAll NominalType.asked ⟨.classType c, conformances⟩ asked)
      (c.methodsAfter (s.bindInitializers && !d.isGeneric) asked) := by
  obtain ⟨hfresh, hbound⟩ := boundIf_of_read hread
  obtain ⟨c', hafter, hfollows⟩ := follows_afterAll hbound conformances asked
  have hin (w : World) :
      c'.methodsIn w = c.methodsAfter (s.bindInitializers && !d.isGeneric) asked w := by
    rw [methodsIn, methodsAfter, hfollows.methods, hfresh, Option.none_or,
      readMethods_congr hfollows.info]
  rw [hafter]
  refine ⟨fun w => ?_, fun hgeneric hbinds => ?_, fun hoff w => ?_, fun selector w => ?_,
    fun w => ?_⟩
  · rw [NominalType.runOn_onClass, runOn_methods_eq, hin]
    exact ⟨_, rfl⟩
  · obtain ⟨metadata, h⟩ := hfollows.boundIf.inOrder (by rw [hgeneric, hbinds]; rfl)
    refine ⟨metadata, hfollows.info ▸ h.hasMetadata, fun w => ?_⟩
    rw [NominalType.runOn_onClass, h.runOn_initializers_eq, hin, initializersOf_congr hfollows.info]
    refine ⟨_, Prod.ext (Prod.ext ?_ rfl) rfl⟩
    cases c.methodsAfter (s.bindInitializers && !d.isGeneric) asked w <;> rfl
  · have hbinds : (s.bindInitializers && !d.isGeneric) = false := by
      rcases hoff with h | h <;> rw [h]
      · exact Bool.and_false _
      · rfl
    rw [NominalType.runOn_onClass, (hfollows.boundIf.unbound hbinds).runOn_initializers]
    exact ⟨_, rfl⟩
  · rw [NominalType.runOn_onClass, NominalType.runOn_onClass, runOn_initializer?]
    refine Prod.ext (Prod.ext ?_ rfl) rfl
    cases (ClassType.initializers.runOn c' w).1.1 <;> rfl
  · have hsummary : NominalType.summary ⟨.classType c', conformances⟩
        = NominalType.summary ⟨.classType c, conformances⟩ :=
      NominalType.summary_congr hfollows.info rfl
    rw [NominalType.runOn_toJson, NominalType.runOn_onClass, runOn_methods_eq, hin]
    refine ⟨_, Prod.ext (Prod.ext ?_ rfl) rfl⟩
    rcases c.methodsAfter (s.bindInitializers && !d.isGeneric) asked w with e | ms
    · rfl
    · rw [← hsummary]
      rfl

end ClassType

/-- What a type, and a value with the payloads in it, answers once it answers from then on,
whatever is asked in between and in whatever worlds, without another look at memory or symbols and
without a call; and a request without an answer leaves none. A class answers by the methods as they
could first be read for a request that needs them, and until then as they are: these are the
methods that its summary lists and that its initializers are made of, unless there are to be none.
The tag of a value in memory is the one that could first be read, and the place of a case is the
first that it could be given. -/
theorem first_answers_stay :
    NominalType.FirstAnswersStay ∧ Value.FirstAnswersStay ∧
    (∀ (s : Settings) (d : ClassDescriptor) (c : ClassType) (w₀ w₁ : World),
      (ClassType.read s d).run w₀ = (.ok c, w₁) →
      ∀ (conformances : List Conformance) (asked : List (World × TypeAsk)),
        ClassType.AnswersBy s d c (NominalType.summary ⟨.classType c, conformances⟩)
          (afterAll NominalType.asked ⟨.classType c, conformances⟩ asked)
          (c.methodsAfter (s.bindInitializers && !d.isGeneric) asked)) ∧
    (∀ (type : ValueType) (b : Buffer) (asks : List (World × Nat × Query)),
      Value.AnswersInMemory type b (Value.firstTag type b asks)
        (afterAll Value.asked (.ofBuffer type b) asks)) ∧
    ∀ (type : ValueType) (n : UInt32) (payload : Option Value) (asks : List (World × Nat × Query)),
      Value.AnswersAsCase type n (.ofCase type n payload) asks :=
  ⟨NominalType.firstAnswersStay, Value.firstAnswersStay,
    fun _ _ _ _ _ hread => ClassType.answersBy_afterAll hread, Value.answersInMemory_afterAll,
    Value.answersAsCase_afterAll⟩

/-- Of a class whose methods were asked for, the initializers are those of that time in whatever
world they are asked for. -/
theorem first_answers_stay_overloads :
    ∃ c w, (ClassType.read {} ClassType.descriptorOfTwo).run ClassType.withOverloads = (.ok c, w) ∧
      ∀ u, ∃ l t', (NominalType.onClass ClassType.initializers).runOn
          (afterAll NominalType.asked ⟨.classType c, []⟩ [(w, ⟨.methods, nofun⟩)]) u =
          ((.ok (some l), t'), u) ∧ l.map Initializer.address = [⟨0x8020⟩] := by
  obtain ⟨c, w, hread, -, haddresses⟩ := ClassType.exists_read_overloads
  obtain ⟨metadata, horder⟩ := ClassType.inOrder_of_read hread rfl rfl
  have hknown := (ClassType.boundIf_of_read hread).1
  have hin : c.methodsIn w = c.readMethods w := by
    rw [ClassType.methodsIn, hknown]
    rfl
  rw [ClassType.addressesIn, ClassType.runOn_methods_eq, horder.runOn_initializers_eq, hin]
    at haddresses
  obtain ⟨-, -, hclass, -, -⟩ := first_answers_stay
  obtain ⟨metadata', hmetadata, hanswers⟩ :=
    (hclass {} ClassType.descriptorOfTwo c _ w hread [] [(w, ⟨.methods, nofun⟩)]).initializers
      rfl rfl
  cases Option.some.inj (horder.hasMetadata.symm.trans hmetadata)
  rcases hms : c.readMethods w with e | ms <;> rw [hms] at haddresses
  · cases haddresses
  have hfirst (u : World) : c.methodsAfter true [(w, ⟨.methods, nofun⟩)] u = .ok ms := by
    have hread : c.firstMethods true [(w, ⟨.methods, nofun⟩)] = some ms := by
      rw [ClassType.firstMethods, List.findSome?_cons]
      simp only [TypeQuery.readsMethods, hms]
      rfl
    rw [ClassType.methodsAfter, hread]
    rfl
  refine ⟨c, w, hread, fun u => ?_⟩
  obtain ⟨t', ht⟩ := hanswers u
  have hu := hfirst u
  refine ⟨_, t', ht.trans ?_, Option.some.inj (Prod.mk.inj haddresses).2⟩
  change (((c.methodsAfter true [(w, ⟨.methods, nofun⟩)] u).map _, t'), u) = _
  rw [hu]
  rfl

end TypeMetadata
