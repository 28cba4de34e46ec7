import TypeMetadata.Emit.Metadata
import TypeMetadata.Emit.Nominal
import TypeMetadata.Proofs.InitializerCalls
import TypeMetadata.Proofs.LoadedImage
import TypeMetadata.Proofs.VtableWalk

/-!
# Which methods are bound as initializers

The initializers of a class are made of its methods, one after another, and stand under their
selectors. A selector has the labels of an initializer but not the types of its arguments, so two
initializers can have one selector, and then the later is bound in the place of the earlier
(`Initializer.binds_bindAll`). Methods and initializers are both read when they are first asked
for, whichever comes first, and from then on they belong together (`ClassType.initializers_after`).
-/

namespace TypeMetadata

/-- In a table in which no key comes twice, what is there is what stands under its key. -/
theorem Keyed.find?_eq_some_of_mem {κ α : Type} [DecidableEq κ] {key : α → κ} {l : List α}
    (h : (l.map key).Nodup) {x : α} (hx : x ∈ l) : Keyed.find? key (key x) l = some x := by
  induction l with
  | nil => cases hx
  | cons y l ih =>
    obtain ⟨hy, hl⟩ := List.nodup_cons.1 h
    rw [find?, List.find?_cons]
    rcases List.mem_cons.1 hx with rfl | hx
    · simp
    · have hne : key y ≠ key x := fun e => hy (e ▸ List.mem_map_of_mem hx)
      simpa [hne, find?] using ih hl hx

theorem TypeInfo.settings_of_read {s : Settings} {d : NominalDescriptor} {w w' : World}
    {i : TypeInfo} (h : (TypeInfo.read s d).run w = (.ok i, w')) : i.settings = s := by
  obtain ⟨name, w₁, -, h⟩ := Inspect.run_bind_ok h
  obtain ⟨moduleName, w₂, -, h⟩ := Inspect.run_bind_ok h
  obtain ⟨metadata, w₃, -, h⟩ := Inspect.run_bind_ok h
  obtain ⟨fields?, w₄, -, h⟩ := Inspect.run_bind_ok h
  obtain ⟨w', w₅, -, h⟩ := Inspect.run_bind_ok h
  cases h
  rfl

namespace Method

variable {m : Method} {signature : Signature}

/-- The method is an initializer, and its symbol spells this signature. -/
def Spells (m : Method) (signature : Signature) : Prop :=
  m.kind = .init ∧ ∃ symbol, m.name = some symbol ∧ Signature.parse? symbol = some signature

theorem initializerSignature?_eq_some_iff :
    m.initializerSignature? = some signature ↔ m.Spells signature := by
  unfold initializerSignature? Spells
  by_cases h : m.kind = .init
  · simp [h, Option.bind_eq_some_iff]
  · simp [h]

end Method

namespace Initializer

/-- `l` are the initializers that `methods` are bound as: of those with one selector the last. -/
structure Binds (metadata : Address) (className : String) (methods : List Method)
    (l : List Initializer) : Prop where
  /-- What no later initializer shares its selector with is found under it. -/
  last : ∀ front m back signature, methods = front ++ m :: back → m.Spells signature →
    (∀ m' ∈ back, ∀ signature', m'.Spells signature' →
      signature'.selector ≠ signature.selector) →
    Keyed.find? Initializer.selector signature.selector l =
      some ⟨signature, m.address, metadata, className⟩
  /-- There is nothing else. -/
  only : ∀ i ∈ l, ∃ front m back, methods = front ++ m :: back ∧ m.Spells i.signature ∧
    i = ⟨i.signature, m.address, metadata, className⟩ ∧
    ∀ m' ∈ back, ∀ signature', m'.Spells signature' → signature'.selector ≠ i.selector
  /-- No selector comes twice. -/
  selectors : (l.map Initializer.selector).Nodup

/-- What a method is bound as. -/
def ofMethod? (metadata : Address) (className : String) (m : Method) : Option Initializer :=
  m.initializerSignature?.map fun signature => ⟨signature, m.address, metadata, className⟩

variable {metadata : Address} {className : String} {methods : List Method} {m : Method}
  {i : Initializer}

theorem ofMethod?_eq_some_iff : ofMethod? metadata className m = some i ↔
    m.Spells i.signature ∧ i = ⟨i.signature, m.address, metadata, className⟩ := by
  unfold ofMethod?
  rw [Option.map_eq_some_iff]
  constructor
  · rintro ⟨signature, hsignature, rfl⟩
    exact ⟨Method.initializerSignature?_eq_some_iff.1 hsignature, rfl⟩
  · rintro ⟨hspells, hi⟩
    exact ⟨i.signature, Method.initializerSignature?_eq_some_iff.2 hspells, hi.symm⟩

/-- The methods bound one after another, each in the place of the one with its selector. -/
def bindAll (metadata : Address) (className : String) (methods : List Method) :
    List Initializer :=
  (methods.filterMap (ofMethod? metadata className)).foldl
    (fun known i => Keyed.put Initializer.selector i known) []

theorem find?_bindAll (selector : String) :
    Keyed.find? Initializer.selector selector (bindAll metadata className methods) =
      Keyed.find? Initializer.selector selector
        (methods.filterMap (ofMethod? metadata className)).reverse := by
  unfold bindAll
  rw [Keyed.find?_foldl_put]
  simp [Keyed.find?]

theorem nodup_bindAll :
    ((bindAll metadata className methods).map Initializer.selector).Nodup :=
  Keyed.nodup_foldl_put _ _ List.nodup_nil

theorem binds_bindAll (metadata : Address) (className : String) (methods : List Method) :
    Binds metadata className methods (bindAll metadata className methods) where
  last front m back signature hmethods hspells hlast := by
    have hm : ofMethod? metadata className m =
        some ⟨signature, m.address, metadata, className⟩ :=
      ofMethod?_eq_some_iff.2 ⟨hspells, rfl⟩
    have hback : ∀ i ∈ (back.filterMap (ofMethod? metadata className)).reverse,
        ¬decide (i.selector = signature.selector) = true := by
      intro i hi
      obtain ⟨m', hm', hi⟩ := List.mem_filterMap.1 (List.mem_reverse.1 hi)
      rw [decide_eq_true_iff]
      exact hlast m' hm' _ (ofMethod?_eq_some_iff.1 hi).1
    rw [find?_bindAll, hmethods, List.filterMap_append, List.filterMap_cons, hm,
      List.reverse_append, List.reverse_cons, List.append_assoc, Keyed.find?, List.find?_append,
      List.find?_eq_none.2 hback]
    simp [selector]
  only i hi := by
    have hfind := Keyed.find?_eq_some_of_mem nodup_bindAll hi
    rw [find?_bindAll, Keyed.find?] at hfind
    obtain ⟨-, later, earlier, hsplit, hlater⟩ := List.find?_eq_some_iff_append.1 hfind
    rw [List.reverse_eq_iff, List.reverse_append, List.reverse_cons, List.append_assoc,
      List.singleton_append] at hsplit
    obtain ⟨front, rest, rfl, -, hrest⟩ := List.filterMap_eq_append_iff.1 hsplit
    obtain ⟨skipped, m, back, rfl, -, hm, hback⟩ := List.filterMap_eq_cons_iff.1 hrest
    obtain ⟨hspells, hbound⟩ := ofMethod?_eq_some_iff.1 hm
    refine ⟨front ++ skipped, m, back, by simp, hspells, hbound, fun m' hm' signature' hs => ?_⟩
    have hmem : (⟨signature', m'.address, metadata, className⟩ : Initializer) ∈ later := by
      rw [← List.mem_reverse, ← hback, List.mem_filterMap]
      exact ⟨m', hm', ofMethod?_eq_some_iff.2 ⟨hs, rfl⟩⟩
    have hother := hlater _ hmem
    rwa [Bool.not_eq_true', decide_eq_false_iff_not] at hother
  selectors := nodup_bindAll

end Initializer

namespace ClassType

variable {c : ClassType} {metadata : Address} {w : World} {s : Settings}

theorem initializersOf_eq_bindAll (c : ClassType) (metadata : Address) (methods : List Method) :
    c.initializersOf metadata methods =
      Initializer.bindAll metadata c.info.qualifiedName methods := by
  unfold initializersOf Initializer.bindAll
  generalize ([] : List Initializer) = known
  induction methods generalizing known with
  | nil => rfl
  | cons m methods ih =>
    rw [List.foldl_cons, List.filterMap_cons, Initializer.ofMethod?]
    cases m.initializerSignature? with
    | none => exact ih known
    | some signature => exact ih _

/-! ## Asking a class -/

theorem runOn_methods_of_known {ms : List Method} (hknown : c.knownMethods = some ms) (w : World) :
    methods.runOn c w = ((.ok ms, c), w) := by
  unfold methods
  rw [InspectOn.runOn_bind, InspectOn.runOn_current]
  simp only [hknown]
  rfl

theorem runOn_methods_of_error {e : Error} (hknown : c.knownMethods = none)
    (hread : c.readMethods w = .error e) : methods.runOn c w = ((.error e, c), w) := by
  unfold methods
  rw [InspectOn.runOn_bind, InspectOn.runOn_current]
  simp only [hknown]
  rw [InspectOn.runOn_bind, InspectOn.runOn_lift, Inspect.run_get]
  simp only [hread]
  rfl

/-- Only that its methods become known can come of asking a class for them. -/
theorem runOn_methods (c : ClassType) (w : World) :
    (∃ ms, methods.runOn c w = ((.ok ms, { c with knownMethods := some ms }), w)) ∨
      ∃ e, c.knownMethods = none ∧ methods.runOn c w = ((.error e, c), w) := by
  rcases hknown : c.knownMethods with _ | ms
  · rcases hread : c.readMethods w with e | ms
    · exact .inr ⟨e, rfl, runOn_methods_of_error hknown hread⟩
    · exact .inl ⟨ms, runOn_methods_of_read hknown hread⟩
  · refine .inl ⟨ms, ?_⟩
    rw [runOn_methods_of_known hknown, ← hknown]

theorem runOn_initializers_of_known {l : List Initializer} (hknown : c.knownInitializers = some l)
    (w : World) : initializers.runOn c w = ((.ok l, c), w) := by
  unfold initializers
  rw [InspectOn.runOn_bind, InspectOn.runOn_current]
  simp only [hknown]
  rfl

/-- The class is one with this metadata whose initializers are to be bound, and those that are known
are the ones that its methods are bound as. -/
structure InOrder (metadata : Address) (c : ClassType) : Prop where
  hasMetadata : c.info.metadata = some metadata
  bound : c.info.settings.bindInitializers = true
  known : ∀ l, c.knownInitializers = some l →
    ∃ ms, c.knownMethods = some ms ∧ l = c.initializersOf metadata ms

/-- What is known of the class when it has methods `ms` and their initializers. -/
def withInitializers (c : ClassType) (metadata : Address) (ms : List Method) : ClassType :=
  { c with knownMethods := some ms, knownInitializers := some (c.initializersOf metadata ms) }

theorem InOrder.runOn_readInitializers (h : c.InOrder metadata) (w : World) :
    readInitializers.runOn c w =
      (c.initializersOf metadata <$> methods :
        InspectOn ClassType (List Initializer)).runOn c w := by
  unfold readInitializers
  rw [InspectOn.runOn_bind, InspectOn.runOn_current]
  simp only [h.hasMetadata, h.bound]
  rw [map_eq_pure_bind]

/-- The initializers are those of the methods that the class answers with, and if it has no answer
to one there is none to the other. -/
theorem InOrder.runOn_initializers (h : c.InOrder metadata) (w : World) :
    (∃ ms, methods.runOn c w = ((.ok ms, { c with knownMethods := some ms }), w) ∧
      initializers.runOn c w =
        ((.ok (c.initializersOf metadata ms), c.withInitializers metadata ms), w)) ∨
      ∃ e, methods.runOn c w = ((.error e, c), w) ∧
        initializers.runOn c w = ((.error e, c), w) := by
  obtain hknown | ⟨l, hknown⟩ := Option.eq_none_or_eq_some c.knownInitializers
  · have hrun : initializers.runOn c w = (do
        let found ← readInitializers
        let c ← InspectOn.current
        InspectOn.replace { c with knownInitializers := some found }
        return found : InspectOn ClassType (List Initializer)).runOn c w := by
      unfold initializers
      rw [InspectOn.runOn_bind, InspectOn.runOn_current]
      simp only [hknown]
    rw [hrun, InspectOn.runOn_bind, h.runOn_readInitializers, map_eq_pure_bind,
      InspectOn.runOn_bind]
    rcases c.runOn_methods w with ⟨ms, hms⟩ | ⟨e, -, he⟩
    · rw [hms]
      exact .inl ⟨ms, rfl, rfl⟩
    · rw [he]
      exact .inr ⟨e, rfl, rfl⟩
  · obtain ⟨ms, hms, rfl⟩ := h.known l hknown
    refine .inl ⟨ms, ?_, ?_⟩
    · rw [runOn_methods_of_known hms, ← hms]
    · rw [runOn_initializers_of_known hknown, withInitializers, ← hms, ← hknown]

theorem InOrder.withMethods (h : c.InOrder metadata) {ms : List Method}
    (hms : methods.runOn c w = ((.ok ms, { c with knownMethods := some ms }), w)) :
    ({ c with knownMethods := some ms } : ClassType).InOrder metadata where
  hasMetadata := h.hasMetadata
  bound := h.bound
  known l hl := by
    obtain ⟨ms', hms', rfl⟩ := h.known l hl
    rw [runOn_methods_of_known hms'] at hms
    cases (Prod.mk.inj (Prod.mk.inj hms).1).1
    exact ⟨_, rfl, rfl⟩

theorem InOrder.withInitializers (h : c.InOrder metadata) (ms : List Method) :
    (c.withInitializers metadata ms).InOrder metadata where
  hasMetadata := h.hasMetadata
  bound := h.bound
  known l hl := by
    cases hl
    exact ⟨ms, rfl, rfl⟩

/-- What a class can be asked for. -/
inductive Request where
  | methods
  | initializers
  | initializer (selector : String)

def perform : Request → InspectOn ClassType Unit
  | .methods => do let _ ← methods
  | .initializers => do let _ ← initializers
  | .initializer selector => do let _ ← initializer? selector

/-- The class after requests, each in a world of its own. -/
def after (c : ClassType) (requests : List (World × Request)) : ClassType :=
  requests.foldl (fun c wq => ((perform wq.2).runOn c wq.1).1.2) c

theorem InOrder.perform (h : c.InOrder metadata) (q : Request) (w : World) :
    ((ClassType.perform q).runOn c w).1.2.InOrder metadata ∧
      ((ClassType.perform q).runOn c w).1.2.info = c.info := by
  cases q with
  | methods =>
    unfold ClassType.perform
    rw [InspectOn.runOn_bind]
    rcases c.runOn_methods w with ⟨ms, hms⟩ | ⟨e, -, he⟩
    · rw [hms]
      exact ⟨h.withMethods hms, rfl⟩
    · rw [he]
      exact ⟨h, rfl⟩
  | initializers =>
    unfold ClassType.perform
    rw [InspectOn.runOn_bind]
    rcases h.runOn_initializers w with ⟨ms, -, hl⟩ | ⟨e, -, he⟩
    · rw [hl]
      exact ⟨h.withInitializers ms, rfl⟩
    · rw [he]
      exact ⟨h, rfl⟩
  | initializer selector =>
    unfold ClassType.perform initializer?
    rw [InspectOn.runOn_bind, InspectOn.runOn_bind]
    rcases h.runOn_initializers w with ⟨ms, -, hl⟩ | ⟨e, -, he⟩
    · rw [hl]
      exact ⟨h.withInitializers ms, rfl⟩
    · rw [he]
      exact ⟨h, rfl⟩

theorem InOrder.after (h : c.InOrder metadata) (requests : List (World × Request)) :
    (c.after requests).InOrder metadata ∧ (c.after requests).info = c.info := by
  induction requests generalizing c with
  | nil => exact ⟨h, rfl⟩
  | cons wq requests ih =>
    obtain ⟨hnext, hinfo⟩ := h.perform wq.2 wq.1
    obtain ⟨hafter, hinfo'⟩ := ih hnext
    exact ⟨hafter, hinfo'.trans hinfo⟩

/-- A class that was just read knows nothing of its methods. -/
theorem inOrder_of_read {d : ClassDescriptor} {w₀ w₁ : World}
    (hread : (ClassType.read s d).run w₀ = (.ok c, w₁)) (generic : d.isGeneric = false)
    (binds : s.bindInitializers = true) : ∃ metadata, c.InOrder metadata := by
  obtain ⟨info, w₂, hinfo, hread⟩ := Inspect.run_bind_ok hread
  cases hread
  have hdescriptor := TypeInfo.descriptor_of_read hinfo
  rcases hmetadata : info.metadata with _ | metadata
  · have hgeneric := (TypeInfo.metadata_of_read hinfo).1 hmetadata
    rw [TypeInfo.isGeneric, hdescriptor, generic] at hgeneric
    cases hgeneric
  · refine ⟨metadata, hmetadata, ?_, nofun⟩
    rw [TypeInfo.settings_of_read hinfo, binds]

/-- Whatever a class that is not generic has been asked for before: either there is no answer to
what its methods are, and then for the same reason none to what its initializers are, or it has
methods `ms` and the initializers that these are bound as. So of the methods with one selector it is
the last one that counts. Both answers stay. -/
theorem initializers_after (s : Settings) (d : ClassDescriptor) (c : ClassType) (w₀ w₁ : World)
    (hread : (ClassType.read s d).run w₀ = (.ok c, w₁)) (generic : d.isGeneric = false)
    (binds : s.bindInitializers = true) (requests : List (World × Request)) (w : World) :
    ∃ metadata, c.info.metadata = some metadata ∧
      ((∃ ms l c₁ c₂, methods.runOn (c.after requests) w = ((.ok ms, c₁), w) ∧
          initializers.runOn (c.after requests) w = ((.ok l, c₂), w) ∧
          Initializer.Binds metadata c.info.qualifiedName ms l ∧
          ∀ w', methods.runOn c₂ w' = ((.ok ms, c₂), w') ∧
            initializers.runOn c₂ w' = ((.ok l, c₂), w')) ∨
        ∃ e, methods.runOn (c.after requests) w = ((.error e, c.after requests), w) ∧
          initializers.runOn (c.after requests) w = ((.error e, c.after requests), w)) := by
  obtain ⟨metadata, horder⟩ := inOrder_of_read hread generic binds
  obtain ⟨hafter, hinfo⟩ := horder.after requests
  refine ⟨metadata, horder.hasMetadata, ?_⟩
  rcases hafter.runOn_initializers w with ⟨ms, hms, hl⟩ | herror
  · refine .inl ⟨ms, _, _, _, hms, hl, ?_, fun w' => ⟨?_, ?_⟩⟩
    · rw [initializersOf_eq_bindAll, hinfo]
      exact Initializer.binds_bindAll _ _ _
    · exact runOn_methods_of_known rfl w'
    · exact runOn_initializers_of_known rfl w'
  · exact .inr herror

end ClassType

/-- A class with two initializers. -/
def Emit.classOfTwo : Build Unit := do
  let parent ← moduleContext "m"
  let _ ← classMetadata .null
  let methods := some [{ kind := .init, implementation := some ⟨0x8010⟩ },
    { kind := .init, implementation := some ⟨0x8020⟩ }]
  let _ ← classType { name := "C", parent, accessFunction := some ⟨0x8000⟩, methods }

/-- A process in which these are the symbols of the two initializers. -/
def World.withTwo (first second : String) : World :=
  { World.showing Emit.classOfTwo with
    functions := ⟨⟨0x8000⟩, #[StandIn.const 0x1010]⟩
    symbols := ⟨[(⟨0x8010⟩, first), (⟨0x8020⟩, second)]⟩ }

namespace ClassType

/-- The descriptor of that class. -/
def descriptorOfTwo : ClassDescriptor :=
  ⟨⟨⟨⟨0x1020⟩, .pack .classType false 0x8000, .classType⟩⟩⟩

/-- A process with two initializers that differ in the type of their argument. -/
def withOverloads : World :=
  .withTwo "m.C.init(x: Swift.Int) -> m.C" "m.C.init(x: Swift.Bool) -> m.C"

/-- Where the methods are whose symbols spell signatures of initializers. -/
def candidates (ms : List Method) : List Address :=
  (ms.filter fun m => m.initializerSignature?.isSome).map Method.address

/-- The candidates that the class answers with, and where the initializers are that it does. -/
def addressesIn (c : ClassType) (w : World) : Option (List Address) × Option (List Address) :=
  ((methods.runOn c w).1.1.toOption.map candidates,
    (initializers.runOn c w).1.1.toOption.map fun l => l.map Initializer.address)

theorem exists_read_overloads : ∃ c w, (ClassType.read {} descriptorOfTwo).run withOverloads
      = (.ok c, w) ∧
    (c.after [(w, .initializers)]).addressesIn w
      = (some [⟨0x8010⟩, ⟨0x8020⟩], some [⟨0x8020⟩]) ∧
    c.addressesIn w = (some [⟨0x8010⟩, ⟨0x8020⟩], some [⟨0x8020⟩]) := by
  obtain ⟨c, w, hread, hshown⟩ := Inspect.exists_of_any
    (x := ClassType.read {} descriptorOfTwo) (w := withOverloads)
    (p := fun r => decide ((r.1.after [(r.2, .initializers)]).addressesIn r.2
        = (some [⟨0x8010⟩, ⟨0x8020⟩], some [⟨0x8020⟩]) ∧
      r.1.addressesIn r.2 = (some [⟨0x8010⟩, ⟨0x8020⟩], some [⟨0x8020⟩])))
    (by decide +kernel)
  exact ⟨c, w, hread, of_decide_eq_true hshown⟩

/-- Of two initializers with one selector the second is bound. -/
theorem initializers_after_overloads :
    ∃ c w metadata ms l c₁ c₂, (ClassType.read {} descriptorOfTwo).run withOverloads = (.ok c, w) ∧
      methods.runOn (c.after [(w, .initializers)]) w = ((.ok ms, c₁), w) ∧
      initializers.runOn (c.after [(w, .initializers)]) w = ((.ok l, c₂), w) ∧
      Initializer.Binds metadata c.info.qualifiedName ms l ∧
      candidates ms = [⟨0x8010⟩, ⟨0x8020⟩] ∧ l.map Initializer.address = [⟨0x8020⟩] := by
  obtain ⟨c, w, hread, haddresses, -⟩ := exists_read_overloads
  obtain ⟨metadata, -, ⟨ms, l, c₁, c₂, hms, hl, hbinds, -⟩ | ⟨e, he, -⟩⟩ :=
    initializers_after {} descriptorOfTwo c _ w hread rfl rfl [(w, .initializers)] w
  · rw [addressesIn, hms, hl] at haddresses
    simp only [Except.toOption, Option.map_some, Prod.mk.injEq, Option.some.injEq] at haddresses
    exact ⟨c, w, metadata, ms, l, c₁, c₂, hread, hms, hl, hbinds, haddresses⟩
  · rw [addressesIn, he] at haddresses
    cases haddresses

/-- So not every method that is an initializer by its symbol is bound as one. -/
theorem not_initializers_complete :
    ¬∀ (s : Settings) (d : ClassDescriptor) (c : ClassType) (w₀ w₁ : World),
      (ClassType.read s d).run w₀ = (.ok c, w₁) → d.isGeneric = false →
      s.bindInitializers = true → s.resolveMethodNames = true →
      ∀ (w : World) (ms : List Method) (l : List Initializer),
        (methods.runOn c w).1.1 = .ok ms → (initializers.runOn c w).1.1 = .ok l →
        ∀ m ∈ ms, ∀ signature, m.Spells signature →
          ∃ i ∈ l, i.address = m.address ∧ i.signature = signature := by
  intro h
  obtain ⟨c, w, hread, -, haddresses⟩ := exists_read_overloads
  rw [addressesIn] at haddresses
  obtain ⟨hcandidates, hbound⟩ := Prod.mk.inj haddresses
  rcases hms : (methods.runOn c w).1.1 with e | ms <;> rw [hms] at hcandidates
  · cases hcandidates
  rcases hl : (initializers.runOn c w).1.1 with e | l <;> rw [hl] at hbound
  · cases hbound
  have hfirst : (⟨0x8010⟩ : Address) ∈ candidates ms := by
    rw [Option.some.inj hcandidates]
    exact List.mem_cons_self
  obtain ⟨m, hm, haddress⟩ := List.mem_map.1 hfirst
  obtain ⟨hm, hspells⟩ := List.mem_filter.1 hm
  obtain ⟨signature, hsignature⟩ := Option.isSome_iff_exists.1 hspells
  obtain ⟨i, hi, hsame, -⟩ := h {} descriptorOfTwo c _ w hread rfl rfl rfl w ms l hms hl m hm
    signature (Method.initializerSignature?_eq_some_iff.1 hsignature)
  have hmem : (⟨0x8010⟩ : Address) ∈ l.map Initializer.address :=
    List.mem_map.2 ⟨i, hi, hsame.trans haddress⟩
  have hone : l.map Initializer.address = [⟨0x8020⟩] := Option.some.inj hbound
  rw [hone, List.mem_singleton] at hmem
  exact absurd hmem (by decide)

end ClassType

end TypeMetadata
