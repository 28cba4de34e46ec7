import TypeMetadata.Emit.Section
import TypeMetadata.Native.StandIn
import TypeMetadata.Proofs.QuietLoads

/-!
# Loading a section again

What a record of a loaded section asks for is registered by then, or its name is taken, so a second
load of the section finds nothing new (`Repeats`): it reads shadowed types again and passes them
over again. Types are given their conformances again, the same under the same names and in the same
order, which leaves them as they are (`loads_twice`).
-/

namespace TypeMetadata

open InspectOn (Passes)

namespace Registry

variable {r r₁ r₂ r' : Registry} {w w₁ w₂ w₃ : World} {asked : List Request}

/-! ## The same index -/

/-- `r'` is in order and has the index of `r`; its types may have other conformances. -/
structure SameIndex (r r' : Registry) : Prop where
  consistent : r'.Consistent
  settings : r'.settings = r.settings
  types : r'.typeEntries.map (Prod.map id NominalType.shape)
    = r.typeEntries.map (Prod.map id NominalType.shape)
  protocols : r'.protocolEntries = r.protocolEntries
  typeNames : r'.typeNames = r.typeNames
  protocolNames : r'.protocolNames = r.protocolNames

namespace SameIndex

theorem refl (h : r.Consistent) : r.SameIndex r := ⟨h, rfl, rfl, rfl, rfl, rfl⟩

theorem trans (h : r.SameIndex r₁) (h' : r₁.SameIndex r₂) : r.SameIndex r₂ :=
  ⟨h'.consistent, h'.settings.trans h.settings, h'.types.trans h.types,
    h'.protocols.trans h.protocols, h'.typeNames.trans h.typeNames,
    h'.protocolNames.trans h.protocolNames⟩

theorem attach {t : NominalType} (h : r.Consistent) (ht : r.typeNamed? t.qualifiedName = some t)
    (c : Conformance) : r.SameIndex (r.putType (t.attach c)) :=
  ⟨h.attach ht c, rfl, Keyed.map_put_of_find? _ (Keyed.lookup?_eq_some ht) rfl, rfl, rfl, rfl⟩

theorem grows (h : r.SameIndex r') : r.Grows r' where
  follows := ⟨h.consistent, h.types ▸ List.prefix_refl _, h.protocols ▸ List.prefix_refl _⟩
  settings := h.settings
  protocolName? a n hn := by
    rw [Registry.protocolName?, h.protocolNames]
    exact hn

theorem map_shape (h : r.SameIndex r') (n : String) :
    (r'.typeNamed? n).map NominalType.shape = (r.typeNamed? n).map NominalType.shape := by
  rw [typeNamed?, typeNamed?, ← Keyed.lookup?_map, ← Keyed.lookup?_map, h.types]

/-- If the types have the same conformances, too, nothing is different. -/
theorem eq_of_conformances (h : r.SameIndex r')
    (hsame : ∀ n t t', r.typeNamed? n = some t → r'.typeNamed? n = some t' →
      t'.conformances = t.conformances) : r' = r := by
  have hnamed : ∀ n, r'.typeNamed? n = r.typeNamed? n := by
    intro n
    have hshape := h.map_shape n
    rcases ht : r.typeNamed? n with _ | t <;> rcases ht' : r'.typeNamed? n with _ | t' <;>
      rw [ht, ht'] at hshape
    · cases hshape
    · cases hshape
    · rw [NominalType.eq_of_shape (Option.some.inj hshape) (hsame n t t' ht ht')]
  have hkeys : r'.typeEntries.map Prod.fst = r.typeEntries.map Prod.fst := by
    have := congrArg (List.map Prod.fst) h.types
    simpa [Function.comp_def] using this
  have htypes : r'.typeEntries = r.typeEntries :=
    Keyed.eq_of_find? Prod.fst hkeys h.consistent.types_nodup fun n =>
      Keyed.find?_eq_of_lookup? (hnamed n)
  obtain ⟨-, hsettings, -, hprotocols, htypeNames, hprotocolNames⟩ := h
  cases r
  cases r'
  simp only at htypes hsettings hprotocols htypeNames hprotocolNames
  subst htypes hsettings hprotocols htypeNames hprotocolNames
  rfl

end SameIndex

/-! ## Inspections that can be made again -/

variable {α β γ : Type}

/-- Once this was answered, it is answered again by what the registry has become since, whose index
is left as it is. -/
def Repeats (w : World) (x : InspectOn Registry α) : Prop :=
  ∀ r w₁ a r₁ w₂, r.Consistent → w.SameImage w₁ → x.runOn r w₁ = ((.ok a, r₁), w₂) →
    ∀ r₂ w₃, r₁.Grows r₂ → w.SameImage w₃ → ∃ a' r₃ w₄,
      x.runOn r₂ w₃ = ((.ok a', r₃), w₄) ∧ w.SameImage w₄ ∧ r₂.SameIndex r₃

namespace Repeats

theorem pure (w : World) (a : α) : Repeats w (pure a : InspectOn Registry α) :=
  fun _ _ _ _ _ _ _ _ r₂ w₃ hgrows hw => ⟨a, r₂, w₃, rfl, hw, .refl hgrows.consistent⟩

theorem decode_bind {d : Decoder α} {f : α → InspectOn Registry β}
    (hf : ∀ a, w.decode d = .ok a → Repeats w (f a)) :
    Repeats w (InspectOn.lift (Inspect.decode d) >>= f) := by
  intro r w₁ b r₁ w₂ hr hw h r₂ w₃ hgrows hw₃
  rw [InspectOn.runOn_decode_bind, hw.decode] at h
  rw [InspectOn.runOn_decode_bind, hw₃.decode]
  rcases hd : w.decode d with e | a <;> rw [hd] at h
  · cases h
  · exact hf a hd r w₁ b r₁ w₂ hr hw h r₂ w₃ hgrows hw₃

theorem discard {x : InspectOn Registry α} (hx : Repeats w x) : Repeats w (discard x) := by
  intro r w₁ b r₁ w₂ hr hw h r₂ w₃ hgrows hw₃
  rw [Functor.discard, LawfulFunctor.map_const, Function.comp_apply, map_eq_pure_bind,
    InspectOn.runOn_bind] at h ⊢
  rcases ha : x.runOn r w₁ with ⟨⟨e | a, r₁'⟩, w₂'⟩ <;> rw [ha] at h <;> cases h
  obtain ⟨a', r₃, w₄, hagain, hw₄, hindex⟩ := hx r w₁ a r₁ w₂ hr hw ha r₂ w₃ hgrows hw₃
  rw [hagain]
  exact ⟨_, r₃, w₄, rfl, hw₄, hindex⟩

end Repeats

section Repeats

variable (quiet : w.Quiet)
include quiet

/-- Where a type is registered, or its name is taken, to register it changes nothing. -/
theorem runOn_registerType_of_known {a : Address} (hw : w.SameImage w₁) (h : r.TypeKnown w a) :
    ∃ t w₂, (registerType a).runOn r w₁ = ((.ok t, r), w₂) ∧ w.SameImage w₂ := by
  rcases ha : r.typeAt? a with _ | t
  · obtain ⟨t, ht⟩ | ⟨t, first, ht, hfirst⟩ := h
    · rw [ha] at ht
      cases ht
    obtain ⟨hshown, himage⟩ := NominalType.steady_read quiet r.settings a w₁ hw
    have hread : ((NominalType.read r.settings a).run w₁).1 = .ok t := hshown.trans ht
    rw [runOn_registerType_of_none ha]
    rcases hx : (NominalType.read r.settings a).run w₁ with ⟨e | u, w₂⟩ <;>
      rw [hx] at hread himage <;> cases hread
    have hadd : r.addType a t = (first, r) := by
      unfold addType
      rw [hfirst]
    simp only [hadd]
    exact ⟨first, w₂, rfl, himage⟩
  · exact ⟨t, w₁, runOn_registerType ha w₁, hw⟩

theorem repeats_registerType (a : Address) : Repeats w (registerType a) := by
  intro r w₁ t r₁ w₂ hr hw h r₂ w₃ hgrows hw₃
  obtain ⟨hmet, -⟩ := meets_registerType quiet a r w₁ t r₁ w₂ hr hw h
  have hknown := hmet.known.of_grows hmet.grows.consistent hgrows
  obtain ⟨t', w₄, hagain, hw₄⟩ :=
    runOn_registerType_of_known quiet hw₃ (hknown.type a (List.mem_singleton_self _))
  exact ⟨t', r₂, w₄, hagain, hw₄, .refl hgrows.consistent⟩

omit quiet in
theorem repeats_registerProtocol (w : World) (a : Address) : Repeats w (registerProtocol a) := by
  intro r w₁ p r₁ w₂ hr hw h r₂ w₃ hgrows hw₃
  have hp := hgrows.protocolAt? (of_registerProtocol_ok h).2
  exact ⟨p, r₂, w₃, runOn_registerProtocol hp w₃, hw₃, .refl hgrows.consistent⟩

theorem repeats_loadTypeRecord (record : TypeRecord) : Repeats w (loadTypeRecord record) := by
  unfold loadTypeRecord
  rcases record.reference.bind TypeReference.descriptor? with _ | a
  · exact .pure w _
  · refine .decode_bind fun d _ => ?_
    cases d with
    | protocolType d => exact (repeats_registerProtocol w a).discard
    | classType d | structType d | enumType d => exact (repeats_registerType quiet a).discard
    | moduleContext d | other c => exact .pure w _

theorem repeats_loadConformance (record : ConformanceRecord) :
    Repeats w (loadConformance record) := by
  intro r w₁ b r₁ w₂ hr hw h r₂ w₃ hgrows hw₃
  obtain ⟨hmet, -⟩ := meets_loadConformance quiet record r w₁ b r₁ w₂ hr hw h
  have hknown := hmet.known.of_grows hmet.grows.consistent hgrows
  have hr₂ := hgrows.consistent
  unfold conformanceAsks at hknown
  rcases hp : record.protocol with _ | p
  · exact ⟨_, r₂, w₃, runOn_loadConformance_of_missing (by simp [hp]) r₂ w₃, hw₃, .refl hr₂⟩
  rcases ha : record.conformingType.bind TypeReference.descriptor? with _ | a
  · exact ⟨_, r₂, w₃, runOn_loadConformance_of_missing (by simp [ha]) r₂ w₃, hw₃, .refl hr₂⟩
  rw [hp, ha] at hknown
  obtain ⟨q, hq⟩ := hknown.protocol p (by simp)
  obtain ⟨t, w₄, ht, hw₄⟩ := runOn_registerType_of_known quiet hw₃ (hknown.type a (by simp))
  rw [runOn_loadConformance hp ha, runOn_registerProtocol hq]
  simp only [ht]
  split
  · exact ⟨_, r₂, w₄, rfl, hw₄, .refl hr₂⟩
  · exact ⟨_, _, w₄, rfl, hw₄, .attach hr₂ (typeNamed?_of_registerType hr₂ ht) _⟩

end Repeats

/-- Records that have passed pass again, one after another. -/
theorem passes_again {step : γ → InspectOn Registry α} {asksOf : γ → List Request}
    (hmeets : ∀ c, Meets w (asksOf c) (step c)) (hrepeats : ∀ c, Repeats w (step c))
    {l : List γ} {as : List α} (hr : r.Consistent) (hw : w.SameImage w₁)
    (h : Passes step l r w₁ as r₁ w₂) (hgrows : r₁.Grows r₂) (hw₃ : w.SameImage w₃) :
    ∃ as' r₃ w₄, Passes step l r₂ w₃ as' r₃ w₄ ∧ w.SameImage w₄ ∧ r₂.SameIndex r₃ := by
  induction h generalizing r₂ w₃ with
  | nil => exact ⟨[], r₂, w₃, .nil r₂ w₃, hw₃, .refl hgrows.consistent⟩
  | @cons c l r r' r₁ w₁ w' w₂ a as first rest ih =>
    obtain ⟨hmet, hw'⟩ := hmeets c r w₁ a r' w' hr hw first
    obtain ⟨hmet', -⟩ :=
      Meets.mapM hmeets l r' w' as r₁ w₂ hmet.grows.consistent hw' rest.runOn_mapM
    obtain ⟨a', r₃, w₄, hfirst, hw₄, hindex⟩ :=
      hrepeats c r w₁ a r' w' hr hw first r₂ w₃ (hmet'.grows.trans hgrows) hw₃
    obtain ⟨as', r₄, w₅, hrest, hw₅, hindex'⟩ :=
      ih hmet.grows.consistent hw' (hgrows.trans hindex.grows) hw₄
    exact ⟨a' :: as', r₄, w₅, .cons hfirst hrest, hw₅, hindex.trans hindex'⟩

theorem SectionKind.InOrder.again {k : SectionKind γ α} (hk : k.InOrder)
    {asksOf : γ → List Request} (hmeets : ∀ c, Meets w (asksOf c) (k.step c))
    (hrepeats : ∀ c, Repeats w (k.step c)) (hr : r.Consistent) (hw : w.SameImage w₁)
    {start : Address} {count n : Nat}
    (h : (k.load start count).runOn r w₁ = ((.ok n, r₁), w₂)) (hw₃ : w.SameImage w₃) :
    ∃ answers r₂ w₄, (k.load start count).runOn r₁ w₃ = ((.ok (k.answer r₁ r₂ answers), r₂), w₄) ∧
      r₁.SameIndex r₂ := by
  obtain ⟨records, answers, hreads, hpasses, -⟩ := hk.of_answer hr h
  have hgrows : r.Grows r₁ :=
    (Meets.mapM hmeets records r w₁ answers r₁ w₂ hr hw hpasses.runOn_mapM).1.grows
  obtain ⟨answers', r₂, w₄, hagain, -, hindex⟩ :=
    passes_again hmeets hrepeats hr hw hpasses (.refl hgrows.consistent) hw₃
  rw [hw.decode, ← hw₃.decode] at hreads
  exact ⟨answers', r₂, w₄, hk.run_of_passes hgrows.consistent hreads hagain, hindex⟩

/-! ## Conformances that are attached again -/

/-- What is attached a second time was there. -/
theorem Recorded.eq_of_sameIndex {h k : List Attachment} (hr : Recorded (h ++ k) r)
    (hr' : Recorded (h ++ k ++ k) r') (hindex : r.SameIndex r') : r' = r := by
  refine hindex.eq_of_conformances fun n t t' ht ht' => ?_
  have hshape := hindex.map_shape n
  rw [ht, ht', Option.map_some, Option.map_some] at hshape
  have haddress := NominalType.descriptorAddress_of_shape (Option.some.inj hshape)
  rw [hr.conformances_eq n t ht, hr'.conformances_eq n t' ht', haddress, attachedTo_append,
    List.foldl_append, attachedTo_append, List.foldl_append]
  exact Keyed.foldl_put_twice Conformance.key _
    (Keyed.nodup_foldl_put Conformance.key _ List.nodup_nil)

/-- Whatever has been asked of a registry: a section of a quiet image that was loaded leaves the
image as it is, and to load the section again, wherever the image is shown, changes nothing about
the registry. A section of types then has no new names, and one of conformances attaches as many as
before. -/
theorem loads_twice (s : Settings) (requests : List (World × Request)) (w : World)
    (quiet : w.Quiet) (start : Address) (count n : Nat) (r : Registry) (w₁ : World) :
    ((loadTypes start count).runOn (after s requests) w = ((.ok n, r), w₁) →
      w.SameImage w₁ ∧ ∀ w₂, w.SameImage w₂ →
        ∃ w₃, (loadTypes start count).runOn r w₂ = ((.ok 0, r), w₃)) ∧
    ((loadConformances start count).runOn (after s requests) w = ((.ok n, r), w₁) →
      w.SameImage w₁ ∧ ∀ w₂, w.SameImage w₂ →
        ∃ w₃, (loadConformances start count).runOn r w₂ = ((.ok n, r), w₃)) := by
  have hrecorded := recorded_after s requests
  have hr := hrecorded.consistent
  refine ⟨fun h => ⟨(meets_loadTypes quiet start count _ _ _ _ _ hr (.refl w) h).2,
      fun w₂ hw => ?_⟩,
    fun h => ⟨(meets_loadConformances quiet start count _ _ _ _ _ hr (.refl w) h).2,
      fun w₂ hw => ?_⟩⟩
  · obtain ⟨answers, r₂, w₃, hagain, hindex⟩ := SectionKind.inOrder_types.again
      (meets_loadTypeRecord quiet) (repeats_loadTypeRecord quiet) hr (.refl w) h hw
    have hagain : (loadTypes start count).runOn r w₂ = _ := hagain
    have hkeeps := keeps_loadTypes (stable_recorded (history s requests)) start count
    have hrecorded₁ := hkeeps.run w hrecorded
    rw [h] at hrecorded₁
    have hrecorded₂ := hkeeps.run w₂ hrecorded₁
    rw [hagain] at hrecorded₂
    have hsame : r₂ = r :=
      Recorded.eq_of_sameIndex (k := []) (by simpa using hrecorded₁)
        (by simpa using hrecorded₂) hindex
    have hnone : SectionKind.types.answer r r answers = 0 := by
      have hlength := length_newNames ⟨hrecorded₁.consistent, Extends.refl r⟩
      rw [Nat.sub_self] at hlength
      exact hlength
    rw [hsame, hnone] at hagain
    exact ⟨w₃, hagain⟩
  · obtain ⟨answers, r₂, w₃, hagain, hindex⟩ := SectionKind.inOrder_conformances.again
      (meets_loadConformance quiet) (repeats_loadConformance quiet) hr (.refl w) h hw
    have hagain : (loadConformances start count).runOn r w₂ = _ := hagain
    have hload := recorded_loadConformances start count hrecorded w
    rw [h] at hload
    have hload' := recorded_loadConformances start count hload.1 w₂
    rw [hagain] at hload'
    have hmet := (meets_loadConformances quiet start count _ _ _ _ _ hload.1.consistent hw hagain).1
    -- Both loads attach what the records say, as the index has it at the end.
    have hattached := attached_eq quiet hr (.refl w) h hmet
    have hattached' := attached_eq quiet hload.1.consistent hw hagain (.refl w hindex.consistent)
    rw [hattached'.trans hattached.symm, hload.2] at hload'
    have hsame : r₂ = r := hload.1.eq_of_sameIndex hload'.1 hindex
    rw [hsame] at hload' hagain
    rw [← hload'.2] at hagain
    exact ⟨w₃, hagain⟩

end Registry

/-- A section of types with two classes and two protocols of one name each, a module, and the first
class again, and behind it a section of conformances of the classes to the protocols. -/
def Emit.twiceNamed : Build Address := do
  let m ← moduleContext "M"
  let t ← classType { name := "T", parent := m, accessFunction := some ⟨0x800⟩ }
  let u ← classType { name := "T", parent := m, accessFunction := some ⟨0x800⟩ }
  let p ← protocolType "P" m 0 false
  let q ← protocolType "P" m 0 false
  let _ ← typeRecords [t, u, p, q, m, t]
  conformanceRecords [← conformance p t none, ← conformance q t (some m), ← conformance p u none]

namespace Registry

/-- A process with these sections, whose classes have an access function that returns a constant. -/
def showingTwiceNamed : World :=
  { World.showing Emit.twiceNamed with functions := ⟨⟨0x800⟩, #[StandIn.const 7]⟩ }

theorem quiet_showingTwiceNamed : showingTwiceNamed.Quiet := by
  refine World.quiet_of_functions fun f hf c m => ?_
  obtain rfl : f = StandIn.const 7 := by simpa [showingTwiceNamed] using hf
  rfl

/-- The second class and the second protocol stay without an entry, and two conformances are put
under one name. -/
theorem loads_twice_named :
    ∃ r w r' w', (loadTypes ⟨0x10B8⟩ 6).runOn (after {} []) showingTwiceNamed = ((.ok 2, r), w) ∧
      (∃ w₂, (loadTypes ⟨0x10B8⟩ 6).runOn r w = ((.ok 0, r), w₂)) ∧
      (loadConformances ⟨0x1100⟩ 3).runOn
        (after {} [(showingTwiceNamed, .typeSection ⟨0x10B8⟩ 6)]) showingTwiceNamed
          = ((.ok 2, r'), w') ∧
      ∃ w₂, (loadConformances ⟨0x1100⟩ 3).runOn r' w' = ((.ok 2, r'), w₂) := by
  have hruns : ((loadTypes ⟨0x10B8⟩ 6).runOn (after {} []) showingTwiceNamed).1.1 = .ok 2 ∧
      ((loadConformances ⟨0x1100⟩ 3).runOn
        (after {} [(showingTwiceNamed, .typeSection ⟨0x10B8⟩ 6)]) showingTwiceNamed).1.1
          = .ok 2 := by
    decide +kernel
  obtain ⟨htypes, hconformances⟩ := hruns
  have htypes := InspectOn.runOn_of_answer htypes
  have hconformances := InspectOn.runOn_of_answer hconformances
  obtain ⟨hw, hagain⟩ :=
    (loads_twice {} [] showingTwiceNamed quiet_showingTwiceNamed _ _ _ _ _).1 htypes
  obtain ⟨hw', hagain'⟩ :=
    (loads_twice {} _ showingTwiceNamed quiet_showingTwiceNamed _ _ _ _ _).2 hconformances
  exact ⟨_, _, _, _, htypes, hagain _ hw, hconformances, hagain' _ hw'⟩

end Registry

end TypeMetadata
