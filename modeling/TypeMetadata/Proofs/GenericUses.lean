import TypeMetadata.Proofs.GenericValues
import TypeMetadata.Proofs.LoadedImage

/-!
# What can be done with a generic type

A generic type and the values of its cases can be used in any order and in any world, and no use of
them changes the process: nothing is called, allocated or freed. `Using.perform_idle` is the step
and `Using.after_idle` the run. What the type answers at any time is `Using.Inert`.
-/

namespace TypeMetadata

open InspectOn (Idles)

/-! ## What can be asked of a type -/

/-- What can be asked of a type, or made known to it. Its names, fields, cases and conformances are
there already, and to look at them is no inspection. -/
inductive TypeQuery where
  | summary
  | methods
  | initializers
  | initializer (selector : String)
  | numFields
  | fieldOffsets
  | caseValue (name : String) (q : Query)
  | attach (c : Conformance)

namespace TypeQuery

/-- Ask a type, and leave the answer. -/
def inspect : TypeQuery → InspectOn NominalType Unit
  | summary => do let _ ← NominalType.toJson
  | methods => do let _ ← NominalType.onClass ClassType.methods
  | initializers => do let _ ← NominalType.onClass ClassType.initializers
  | initializer selector => do let _ ← NominalType.onClass (ClassType.initializer? selector)
  | numFields => do
    match (← InspectOn.current).structType? with
    | some s => let _ ← InspectOn.lift (Inspect.decode s.numFields)
    | none => return ()
  | fieldOffsets => do
    match (← InspectOn.current).structType? with
    | some s => let _ ← InspectOn.lift (Inspect.decode s.fieldOffsets)
    | none => return ()
  | caseValue name q => do let _ ← NominalType.onEnum (EnumType.onCaseValue name q.inspect)
  | attach c => do InspectOn.replace ((← InspectOn.current).attach c)

end TypeQuery

theorem ClassType.idles_methods : Idles ClassType.Uninstantiated ClassType.methods := by
  intro c w h
  rw [h.runOn_methods]
  exact ⟨h.keep_methods, rfl⟩

theorem ClassType.idles_initializers : Idles ClassType.Uninstantiated ClassType.initializers := by
  intro c w h
  rw [h.runOn_initializers]
  exact ⟨h.keep_initializers, rfl⟩

namespace EnumType

variable {t : EnumType}

/-- What was known of the value of a case is kept as it was. -/
theorem keep_state {name : String} {entry : CaseEntry} (h : t.entry? name = some entry)
    (type : ValueType) (payload : Option Value) :
    t.keep entry (.enum type entry.state payload) = t := by
  have hname := name_of_found h
  obtain ⟨front, back, hl, hput⟩ := Keyed.put_split _ h
  rw [keep, hput _ hname, ← hl]

theorem state_of_requireEmptyCase (ht : t.Uninstantiated) {name : String} {entry : CaseEntry}
    (h : t.requireEmptyCase name = .ok entry) : entry.state = .tagged entry.case.tag :=
  ht.entries entry (List.mem_of_find?_eq_some (entry?_of_requireEmptyCase h))

/-- The value of a case is found as it was left. -/
theorem runOn_onCaseValue {α : Type} (ht : t.Uninstantiated) {name : String} {entry : CaseEntry}
    (h : t.requireEmptyCase name = .ok entry) {x : InspectOn Value α} {r : Except Error α}
    {w w' : World} (hx : x.runOn (.ofCase t.core entry.case.tag none) w =
      ((r, .ofCase t.core entry.case.tag none), w')) :
    (onCaseValue name x).runOn t w = ((r, t), w') := by
  have hstate := state_of_requireEmptyCase ht h
  have hkeep := keep_state (entry?_of_requireEmptyCase h) t.core none
  unfold Value.ofCase at hx
  rw [← hstate] at hx
  rw [runOn_onCaseValue_of_ok h, hx, hkeep]

theorem idles_onCaseValue {α : Type} (ht : t.Uninstantiated) (name : String)
    {x : InspectOn Value α} (hx : ∀ tag, Idles (· = .ofCase t.core tag none) x) :
    Idles (· = t) (onCaseValue name x) := by
  intro s w hs
  rw [hs]
  rcases h : t.requireEmptyCase name with e | entry
  · rw [runOn_onCaseValue_of_error h]
    exact ⟨rfl, rfl⟩
  · obtain ⟨hv, hw⟩ := hx entry.case.tag _ w rfl
    rw [runOn_onCaseValue ht h (Prod.ext (Prod.ext rfl hv) hw)]
    exact ⟨rfl, rfl⟩

/-- None of the cases has got a buffer. -/
theorem Uninstantiated.release (ht : t.Uninstantiated) (w : World) : t.release w = w := by
  have hentries := ht.entries
  unfold EnumType.release
  generalize t.entries = entries at hentries ⊢
  induction entries with
  | nil => rfl
  | cons x entries ih =>
    obtain ⟨hx, hentries⟩ := List.forall_mem_cons.1 hentries
    rw [List.foldl_cons, hx]
    exact ih hentries

end EnumType

theorem NominalType.Uninstantiated.release {t : NominalType} (h : t.Uninstantiated) (w : World) :
    t.release w = w := by
  obtain ⟨shape, conformances⟩ := t
  cases shape with
  | classType c => rfl
  | structType s => rfl
  | enumType e => exact EnumType.Uninstantiated.release h w

namespace NominalType

/-- The type is never instantiated; if it is an enum it is this one. -/
def Remains (e? : Option EnumType) (t : NominalType) : Prop :=
  t.Uninstantiated ∧ t.enumType? = e?

variable {α : Type} {e? : Option EnumType}

theorem idles_onClass {x : InspectOn ClassType α} (hx : Idles ClassType.Uninstantiated x) :
    Idles (Remains e?) (onClass x) := by
  rintro ⟨shape, conformances⟩ w h
  unfold onClass
  rw [InspectOn.runOn_bind, InspectOn.runOn_current]
  cases shape with
  | classType c =>
    obtain ⟨hc, hw⟩ := hx.map some c w h.1
    exact ⟨⟨hc, h.2⟩, hw⟩
  | structType s => exact ⟨h, rfl⟩
  | enumType e => exact ⟨h, rfl⟩

theorem idles_onEnum {x : InspectOn EnumType α}
    (hx : ∀ e : EnumType, e.Uninstantiated → Idles (· = e) x) :
    Idles (Remains e?) (onEnum x) := by
  rintro ⟨shape, conformances⟩ w h
  unfold onEnum
  rw [InspectOn.runOn_bind, InspectOn.runOn_current]
  cases shape with
  | classType c => exact ⟨h, rfl⟩
  | structType s => exact ⟨h, rfl⟩
  | enumType e =>
    obtain ⟨he, hw⟩ := (hx e h.1).map some e w rfl
    refine ⟨?_, hw⟩
    change Remains e? ⟨.enumType ((some <$> x).runOn e w).1.2, conformances⟩
    rw [he]
    exact h

end NominalType

/-- Whatever is asked of a type that is never instantiated, nothing happens. -/
theorem TypeQuery.idles_inspect (e? : Option EnumType) (q : TypeQuery) :
    Idles (NominalType.Remains e?) q.inspect := by
  cases q with
  | summary =>
    refine Idles.discard (Idles.bind (fun t w h => ⟨h, rfl⟩) fun t => ?_)
    refine (NominalType.idles_onClass ClassType.idles_methods).bind fun methods? => ?_
    cases methods? with
    | none => exact .pure _
    | some methods => exact .pure _
  | methods => exact (NominalType.idles_onClass ClassType.idles_methods).discard
  | initializers => exact (NominalType.idles_onClass ClassType.idles_initializers).discard
  | initializer selector =>
    exact (NominalType.idles_onClass (ClassType.idles_initializers.bind fun _ => .pure _)).discard
  | numFields | fieldOffsets =>
    refine Idles.bind (fun t w h => ⟨h, rfl⟩) fun t => ?_
    cases t.structType? with
    | none => exact .pure _
    | some s => exact (Idles.decode _).discard
  | caseValue name q =>
    refine (NominalType.idles_onEnum fun e he => ?_).discard
    exact EnumType.idles_onCaseValue he name fun tag => q.idles_inspect he.core tag none
  | attach c => exact fun t w h => ⟨h, rfl⟩

/-! ## Uses of a type and its values -/

/-- A way to come by a value of a type. -/
inductive Way where
  | zeros
  | view (a : Address)
  | copyOf (source : Address)

/-- To come by a value in this way, if there is one of that kind of type. -/
def Way.making? : Way → TypeShape → Option Making
  | zeros, .structType s => some (.emptyStruct s)
  | view a, .structType s => some (.structAt s a)
  | copyOf source, .structType s => some (.copyOfStruct s source)
  | zeros, .enumType e => some (.emptyEnum e)
  | view a, .enumType e => some (.enumAt e a)
  | copyOf source, .enumType e => some (.copyOfEnum e source)
  | _, .classType _ => none

/-- A use of a type or of one of its values, which it names by their places. What that kind of type
does not have is not done. -/
inductive TypeUse where
  | ask (q : TypeQuery)
  | make (way : Way)
  | copyRaw (dest source : Address)
  | makeCase (name : String)
  | makeCaseWith (name : String) (payload : Nat)
  | askValue (place depth : Nat) (q : Query)
  | drop (place : Nat)
  | release

/-- A type in use, with the values that were made of it. -/
structure Using where
  type : NominalType
  values : List Value := []

namespace Using

/-- What is in use after an attempt to come by a value. -/
def keep (u : Using) : Except Error Value × World → Using × World
  | (.ok v, w) => ({ u with values := v :: u.values }, w)
  | (.error _, w) => (u, w)

/-- What is in use after one more use, and the world then. A payload is given away with the request
for the value that it is to be built into. -/
def perform (u : Using) (w : World) : TypeUse → Using × World
  | .ask q =>
    let ((_, type), w) := q.inspect.runOn u.type w
    ({ u with type }, w)
  | .make way =>
    match way.making? u.type.shape with
    | some m => u.keep (m.inspect.run w)
    | none => (u, w)
  | .copyRaw dest source =>
    match u.type.valueType? with
    | some t => (u, ((t.copy dest source).run w).2)
    | none => (u, w)
  | .makeCase name =>
    match u.type.enumType? with
    | some e => u.keep ((e.makeCase name none).run w)
    | none => (u, w)
  | .makeCaseWith name payload =>
    match u.type.enumType?, u.values[payload]? with
    | some e, some v =>
      keep { u with values := u.values.eraseIdx payload } ((e.makeCase name (some v)).run w)
    | _, _ => (u, w)
  | .askValue place depth q =>
    match u.values[place]? with
    | some v =>
      let (v, w) := q.within depth v w
      ({ u with values := u.values.set place v }, w)
    | none => (u, w)
  | .drop place =>
    match u.values[place]? with
    | some v => ({ u with values := u.values.eraseIdx place }, v.release w)
    | none => (u, w)
  | .release => (u, u.type.release w)

/-- What is in use after uses one after another, each in a world of its own. -/
def after (u : Using) : List (World × TypeUse) → Using
  | [] => u
  | (w, use) :: uses => (u.perform w use).1.after uses

/-- A type that is never instantiated, with values of it that have no place. -/
structure Idle (e? : Option EnumType) (u : Using) : Prop where
  type : u.type.Remains e?
  values : ∀ v ∈ u.values, ∃ e ∈ e?, v.Own e.core

variable {u : Using} {e? : Option EnumType} {place : Nat} {v : Value}

theorem Idle.enumType (h : u.Idle e?) {e : EnumType} (he : e ∈ e?) : e.Uninstantiated :=
  h.type.1.enumType (h.type.2.trans he)

theorem Idle.own (h : u.Idle e?) (hv : u.values[place]? = some v) : ∃ e ∈ e?, v.Own e.core :=
  h.values v (List.mem_of_getElem? hv)

theorem Idle.erase (h : u.Idle e?) (place : Nat) :
    Idle e? { u with values := u.values.eraseIdx place } :=
  ⟨h.type, fun v hv => h.values v (List.mem_of_mem_eraseIdx hv)⟩

theorem Idle.refuses_making (h : u.Idle e?) {way : Way} {m : Making}
    (hm : way.making? u.type.shape = some m) (w : World) :
    ∃ e, m.inspect.run w = (.error e, w) := by
  obtain ⟨⟨shape, conformances⟩, values⟩ := u
  cases shape with
  | classType c => cases way <;> cases hm
  | structType s =>
    have hs : s.Refuses := StructType.refuses h.type.1
    cases way with
    | zeros => cases hm; exact ⟨_, hs.zeros w⟩
    | view a =>
      cases hm
      refine ⟨s.core.noLayout, ?_⟩
      rw [Making.inspect, hs.view]
      rfl
    | copyOf source => cases hm; exact ⟨_, hs.copyOf source w⟩
  | enumType e =>
    have he : e.Refuses := EnumType.refuses (EnumType.Uninstantiated.core h.type.1)
    cases way with
    | zeros => cases hm; exact ⟨_, rfl⟩
    | view a =>
      cases hm
      refine ⟨e.core.noLayout, ?_⟩
      rw [Making.inspect, he.view]
      rfl
    | copyOf source => cases hm; exact ⟨_, he.copyOf source w⟩

/-- A case is made of the tag and the payload, and nothing is called for that. -/
theorem Idle.keep_makeCase (h : u.Idle e?) {e : EnumType} (he : e ∈ e?) {payload : Option Value}
    (hpayload : ∀ v ∈ payload, v.Own e.core) (name : String) (w : World) :
    (u.keep ((e.makeCase name payload).run w)).1.Idle e? ∧
      (u.keep ((e.makeCase name payload).run w)).2 = w := by
  unfold EnumType.makeCase
  rcases hv : e.caseOf name payload with err | v
  · cases payload with
    | none => exact ⟨h, rfl⟩
    | some v => exact ⟨h, (hpayload v rfl).release w⟩
  · refine ⟨⟨h.type, List.forall_mem_cons.2 ⟨⟨e, he, ?_⟩, h.values⟩⟩, rfl⟩
    obtain ⟨tag, rfl⟩ := EnumType.eq_ofCase_of_caseOf hv
    cases payload with
    | none => exact .bare tag
    | some v => exact .around tag (hpayload v rfl)

/-- One use of a type that is never instantiated leaves it that, and the process as it is. -/
theorem perform_idle (h : u.Idle e?) (w : World) (use : TypeUse) :
    (u.perform w use).1.Idle e? ∧ (u.perform w use).2 = w := by
  cases use with
  | ask q =>
    obtain ⟨htype, hw⟩ := q.idles_inspect e? u.type w h.type
    exact ⟨⟨htype, h.values⟩, hw⟩
  | make way =>
    simp only [perform]
    split
    · rename_i m hm
      obtain ⟨e, he⟩ := h.refuses_making hm w
      rw [he]
      exact ⟨h, rfl⟩
    · exact ⟨h, rfl⟩
  | copyRaw dest source =>
    simp only [perform]
    split
    · rename_i t ht
      rw [(h.type.1.valueType ht).run_copy]
      exact ⟨h, rfl⟩
    · exact ⟨h, rfl⟩
  | makeCase name =>
    simp only [perform]
    split
    · rename_i e he
      exact h.keep_makeCase (h.type.2.symm.trans he) (fun v hv => by cases hv) name w
    · exact ⟨h, rfl⟩
  | makeCaseWith name payload =>
    simp only [perform]
    split
    · rename_i e v he hv
      have he : e? = some e := h.type.2.symm.trans he
      obtain ⟨e', he', hown⟩ := h.own hv
      obtain rfl : e = e' := Option.some.inj (he.symm.trans he')
      exact (h.erase payload).keep_makeCase he (by rintro _ ⟨rfl⟩; exact hown) name w
    · exact ⟨h, rfl⟩
  | askValue place depth q =>
    simp only [perform]
    split
    · rename_i v hv
      obtain ⟨e, he, hown⟩ := h.own hv
      rw [hown.within (h.enumType he).core]
      refine ⟨⟨h.type, fun v' hv' => ?_⟩, rfl⟩
      rcases List.mem_or_eq_of_mem_set hv' with hv' | rfl
      · exact h.values v' hv'
      · exact ⟨e, he, hown⟩
    · exact ⟨h, rfl⟩
  | drop place =>
    simp only [perform]
    split
    · rename_i v hv
      obtain ⟨e, he, hown⟩ := h.own hv
      exact ⟨h.erase place, hown.release w⟩
    · exact ⟨h, rfl⟩
  | release => exact ⟨h, h.type.1.release w⟩

theorem after_idle (h : u.Idle e?) (uses : List (World × TypeUse)) : (u.after uses).Idle e? := by
  induction uses generalizing u with
  | nil => exact h
  | cons x uses ih => exact ih (perform_idle h x.1 x.2).1

end Using

/-! ## What is so at any time -/

/-- The class has no methods and no initializers. -/
structure ClassType.HasNothing (c : ClassType) : Prop where
  methods : ∀ w, (ClassType.methods.runOn c w).1.1 = .ok []
  initializers : ∀ w, (ClassType.initializers.runOn c w).1.1 = .ok []
  initializer : ∀ selector w, ((ClassType.initializer? selector).runOn c w).1.1 = .ok none

theorem ClassType.hasNothing {c : ClassType} (h : c.Uninstantiated) : c.HasNothing where
  methods w := by rw [h.runOn_methods]
  initializers w := by rw [h.runOn_initializers]
  initializer selector w := by rw [h.runOn_initializer?]

namespace EnumType

/-- Of a case without a payload there is nothing but the tag, in the value that is kept with the
enum as well as in those that are made. -/
structure CaseWithoutPlace (t : EnumType) (name : String) (tag : UInt32) : Prop where
  value : t.caseValue name = .ok (.ofCase t.core tag none)
  make : ∀ w, (t.makeCase name none).run w = (.ok (.ofCase t.core tag none), w)
  tag : ∀ w, (onCaseValue name Value.tag).runOn t w = ((.ok (some tag), t), w)
  address : ∀ w, (onCaseValue name Value.address).runOn t w = ((.error t.core.noLayout, t), w)
  buffer : ∀ w, (onCaseValue name Value.buffer).runOn t w = ((.error t.core.noLayout, t), w)

theorem caseWithoutPlace {t : EnumType} (ht : t.Uninstantiated) {name : String} {c : EnumCase}
    (hc : t.case? name = some c) (hempty : c.kind = .empty) : t.CaseWithoutPlace name c.tag := by
  obtain ⟨entry, hentry, rfl⟩ := Option.map_eq_some_iff.1 hc
  have hrequire : t.requireEmptyCase name = .ok entry := by
    have hpayload : entry.case.hasPayload = false := by
      rw [EnumCase.hasPayload, hempty]
      rfl
    rw [requireEmptyCase, requireEntry, hentry]
    simp only [ValueType.require, bind, Except.bind, hpayload]
    rfl
  have hplace := Value.withoutPlace_ofCase ht.core entry.case.tag none
  constructor
  · rw [caseValue, hrequire]
    exact congrArg (fun state => Except.ok (Value.enum t.core state none))
      (state_of_requireEmptyCase ht hrequire)
  · intro w
    have hcase : t.caseOf name none = .ok (.ofCase t.core entry.case.tag none) := by
      rw [caseOf, requireEntry, hentry]
      simp only [ValueType.require, bind, Except.bind, hempty]
      rfl
    rw [makeCase, hcase]
    rfl
  · exact fun w => runOn_onCaseValue ht hrequire (Value.runOn_tag_ofCase _ _ w)
  · exact fun w => runOn_onCaseValue ht hrequire (hplace.address w)
  · exact fun w => runOn_onCaseValue ht hrequire (hplace.buffer w)

end EnumType

/-- A type in use that never runs code of the target, whatever is done with it and with its
values. -/
structure Using.Inert (u : Using) : Prop where
  perform : ∀ use w, (u.perform w use).2 = w
  metadata : u.type.info.metadata = none
  layout : u.type.layout = none
  ofClass : ∀ c, u.type.shape = .classType c → c.HasNothing
  ofStruct : ∀ s, u.type.shape = .structType s → s.Refuses
  ofEnum : ∀ e, u.type.shape = .enumType e → e.Refuses
  cases : ∀ e, u.type.shape = .enumType e → ∀ name c, e.case? name = some c → c.kind = .empty →
    e.CaseWithoutPlace name c.tag
  values : ∀ v ∈ u.values, ∃ e, u.type.shape = .enumType e ∧ v.WithoutPlace e.core
  /-- As an argument such a value keeps every initializer from being called. -/
  passed : ∀ (n : Nat) (vs : Vector Value n), (∀ v ∈ vs, v ∈ u.values) →
    ∀ (i : Initializer) (lookup : String → Option NominalType) (args : List (Argument n))
      (slot : Fin n) (w : World), .value slot ∈ args →
      ∃ e, (i.invoke lookup args).runOn vs w = ((.error e, vs), w)
  /-- As a payload it takes the buffer of the value around it away again. -/
  payload : ∀ e, u.type.shape = .enumType e → ∀ v ∈ u.values, ∀ (type : ValueType) (tag : UInt32)
    (b : Buffer) (w w' : World), type.allocateEnum.run w = (.ok b, w') →
      Value.address.runOn (.ofCase type tag (some v)) w =
        ((.error e.core.noLayout, .ofCase type tag (some v)), b.release w') ∧
      b.address ∈ w'.memory.live ∧ (b.release w').memory.live = w.memory.live
  /-- And so it does to those of all values around that one. -/
  inside : ∀ e, u.type.shape = .enumType e → ∀ v : Value, e.core ∈ v.pending →
    ∀ w, v.ComesToNothing w

theorem Using.Idle.inert {u : Using} {e? : Option EnumType} (h : u.Idle e?) : u.Inert := by
  have henum : ∀ e, u.type.shape = .enumType e → e.Uninstantiated := by
    intro e he
    have htype : u.type.enumType? = some e := by
      rw [NominalType.enumType?, he]
    exact h.type.1.enumType htype
  have hvalues : ∀ v ∈ u.values, ∃ e, u.type.shape = .enumType e ∧ v.WithoutPlace e.core := by
    intro v hv
    obtain ⟨e, he, hown⟩ := h.values v hv
    obtain ⟨tag, payload, rfl⟩ := hown.eq_ofCase
    exact ⟨e, NominalType.shape_of_enumType? (h.type.2.trans he),
      Value.withoutPlace_ofCase (h.enumType he).core tag payload⟩
  constructor
  · exact fun use w => (Using.perform_idle h w use).2
  · exact h.type.1.metadata
  · exact h.type.1.layout
  · intro c hc
    have hclass := h.type.1
    rw [NominalType.Uninstantiated, hc] at hclass
    exact ClassType.hasNothing hclass
  · intro s hs
    have hstruct := h.type.1
    rw [NominalType.Uninstantiated, hs] at hstruct
    exact StructType.refuses hstruct
  · exact fun e he => EnumType.refuses (henum e he).core
  · exact fun e he name c hc hempty => EnumType.caseWithoutPlace (henum e he) hc hempty
  · exact hvalues
  · intro n vs hvs i lookup args slot w hslot
    obtain ⟨e, he, -⟩ := hvalues _ (hvs _ (Vector.getElem_mem slot.isLt))
    refine Initializer.runOn_invoke (t := e.core) (fun v hv => ?_) i lookup hslot w
    obtain ⟨e', he', hplace⟩ := hvalues v (hvs v hv)
    cases he.symm.trans he'
    exact hplace
  · intro e he v hv type tag b w w' hb
    obtain ⟨e', he', hplace⟩ := hvalues v hv
    cases he.symm.trans he'
    obtain ⟨⟨inner, payload, rfl, -⟩, -⟩ := hplace
    exact ⟨Value.settle_of_payload (henum e he).core tag inner payload hb,
      ValueType.live_of_allocateEnum hb⟩
  · exact fun e he v hv w => Value.settle_of_pending_uninstantiated (henum e he).core hv w

/-- A generic type is read without a call, whether or not it has an access function, and from then
on neither the type nor its values make one, whatever is done with them and in whatever worlds. -/
theorem NominalType.inert_of_generic (s : Settings) (a : Address) (w : World)
    (d : ContextDescriptor) (n : NominalDescriptor)
    (hd : w.decode (ContextDescriptor.decode a) = .ok d) (hn : d.nominal? = some n)
    (hgeneric : n.isGeneric = true) :
    (NominalType.read s a).run w = (NominalType.ofGeneric s w d, w) ∧
    ∀ t, NominalType.ofGeneric s w d = .ok t →
      ∀ uses : List (World × TypeUse), (Using.after ⟨t, []⟩ uses).Inert := by
  refine ⟨run_read_generic hd hn hgeneric, fun t ht uses => ?_⟩
  have hidle : Using.Idle t.enumType? ⟨t, []⟩ :=
    ⟨⟨uninstantiated_of_ofGeneric hn hgeneric ht, rfl⟩, List.forall_mem_nil _⟩
  exact (Using.after_idle hidle uses).inert

/-- An enum without an access function, the value of its empty case, and what comes of it when that
is used as a payload. -/
theorem NominalType.inert_of_generic_enum :
    let w := World.showing (Emit.genericEnum [{ name := "a", mangledType := some "Si" },
      { name := "b" }] 1 1)
    let d : EnumDescriptor := ⟨⟨⟨⟨0x1040⟩, ⟨0xD2⟩, .enumType⟩⟩⟩
    let outer := Value.enumOf ⟨0x100⟩ ⟨0x110⟩ ⟨0x500⟩ 16
    w.decode d.accessFunction = .error (.decode (.nullPointer ⟨0x104C⟩)) ∧
    ∃ t e, (NominalType.read {} ⟨0x1040⟩).run w = (.ok t, w) ∧ t.shape = .enumType e ∧
      e.CaseWithoutPlace "b" 1 ∧
      let u := Using.after ⟨t, []⟩ [(w, .makeCase "b"), (w, .askValue 0 0 .bytes)]
      u.values = [.ofCase e.core 1 none] ∧ u.Inert ∧
      ((Value.ofCase outer 1 (some (.ofCase e.core 1 none))).settle w).1.1 =
        .error e.core.noLayout := by
  intro w d outer
  have hd : w.decode d.accessFunction = .error (.decode (.nullPointer ⟨0x104C⟩)) ∧
      w.decode (ContextDescriptor.decode ⟨0x1040⟩) = .ok (.enumType d) ∧
      (ofGeneric {} w (.enumType d)).toOption.any (fun t => t.enumType?.any fun e =>
        e.case? "b" = some ⟨"b", 1, .empty, none⟩) = true := by decide +kernel
  obtain ⟨haccess, hd, hcases⟩ := hd
  obtain ⟨hread, hinert⟩ := inert_of_generic {} ⟨0x1040⟩ w (.enumType d) _ hd rfl (by decide)
  obtain ⟨b, w', hb, -⟩ := Inspect.exists_of_any (x := outer.allocateEnum) (w := w)
    (p := fun _ => true) (by decide +kernel)
  rcases ht : ofGeneric {} w (.enumType d) with err | t <;> rw [ht] at hread hcases
  · cases hcases
  change t.enumType?.any _ = true at hcases
  obtain ⟨e, he, hcase⟩ := (Option.any_eq_true _ _).1 hcases
  have hshape := shape_of_enumType? he
  have hplace := (hinert t ht []).cases e hshape "b" _ (of_decide_eq_true hcase) rfl
  have hcore := ((uninstantiated_of_ofGeneric rfl (by decide) ht).enumType he).core
  refine ⟨haccess, t, e, hread, hshape, hplace, ?_⟩
  have hmade : (Using.perform ⟨t, []⟩ w (.makeCase "b")).1 = ⟨t, [.ofCase e.core 1 none]⟩ := by
    simp only [Using.perform, he, hplace.make, Using.keep]
  have hasked : (Using.perform ⟨t, [.ofCase e.core 1 none]⟩ w (.askValue 0 0 .bytes)).1
      = ⟨t, [.ofCase e.core 1 none]⟩ := by
    simp only [Using.perform, List.getElem?_cons_zero, (Value.Own.bare 1).within hcore,
      List.set_cons_zero]
  have hafter : Using.after ⟨t, []⟩ [(w, .makeCase "b"), (w, .askValue 0 0 .bytes)]
      = ⟨t, [.ofCase e.core 1 none]⟩ := by
    rw [Using.after, hmade, Using.after, hasked, Using.after]
  have hu := hinert t ht [(w, .makeCase "b"), (w, .askValue 0 0 .bytes)]
  rw [hafter] at hu ⊢
  refine ⟨rfl, hu, ?_⟩
  have hpayload := (hu.payload e hshape _ List.mem_cons_self outer 1 b w w' hb).1
  rw [← Value.runOn_address, hpayload]

end TypeMetadata
