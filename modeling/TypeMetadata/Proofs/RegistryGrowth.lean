import TypeMetadata.Proofs.SectionLoading

/-!
# How a registry grows

Requests only add to a registry: what an address is registered for stays, and what stands under a
name stays, up to the conformances of a type (`Grows`). `ConformanceLoads` says how a conformance
record is passed when it is passed, as `ConformanceFails` does for one that is not.
-/

namespace TypeMetadata

namespace NominalType

variable {t u : NominalType}

theorem info_of_shape (h : t.shape = u.shape) : t.info = u.info := by
  unfold info
  rw [h]

theorem descriptorAddress_of_shape (h : t.shape = u.shape) :
    t.descriptorAddress = u.descriptorAddress :=
  congrArg (fun i : TypeInfo => i.descriptor.address) (info_of_shape h)

theorem eq_of_shape (h : t.shape = u.shape) (hc : t.conformances = u.conformances) : t = u := by
  cases t
  cases u
  cases h
  cases hc
  rfl

theorem qualifiedName_of_shape (h : t.shape = u.shape) : t.qualifiedName = u.qualifiedName :=
  congrArg TypeInfo.qualifiedName (info_of_shape h)

end NominalType

namespace Registry

variable {r r₀ r₁ r₂ r' : Registry} {w w' : World} {record : ConformanceRecord} {a : Address}
  {n : String} {t : NominalType} {p : Protocol}

theorem Consistent.of_typeAt? (h : r.Consistent) (ht : r.typeAt? a = some t) :
    r.typeNamed? t.qualifiedName = some t ∧ t.descriptorAddress = a := by
  obtain ⟨n, hn, ht⟩ := Option.bind_eq_some_iff.1 ht
  obtain ⟨t', ht', ha⟩ := (h.typeName?_iff a n).1 hn
  obtain rfl : t = t' := Option.some.inj (ht.symm.trans ht')
  exact ⟨h.qualifiedName_eq ht ▸ ht, ha⟩

/-! ## What stays -/

/-- `r` is in order and has what `r₀` had, for the same settings, and the descriptors of protocols
stand for the same names. -/
structure Grows (r₀ r : Registry) : Prop where
  follows : Follows r₀ r
  settings : r.settings = r₀.settings
  protocolName? : ∀ a n, r₀.protocolName? a = some n → r.protocolName? a = some n

namespace Grows

theorem refl (h : r.Consistent) : r.Grows r := ⟨⟨h, .refl r⟩, rfl, fun _ _ h => h⟩

theorem trans (h : r₀.Grows r₁) (h' : r₁.Grows r₂) : r₀.Grows r₂ :=
  ⟨h.follows.trans h'.follows, h'.settings.trans h.settings, fun a n hn =>
    h'.protocolName? a n (h.protocolName? a n hn)⟩

theorem consistent (h : r₀.Grows r) : r.Consistent := h.follows.1

theorem protocolNamed? (h : r₀.Grows r) (hp : r₀.protocolNamed? n = some p) :
    r.protocolNamed? n = some p :=
  Keyed.lookup?_of_prefix h.follows.2.protocols hp

theorem protocolAt? (h : r₀.Grows r) (hp : r₀.protocolAt? a = some p) :
    r.protocolAt? a = some p := by
  obtain ⟨n, hn, hp⟩ := Option.bind_eq_some_iff.1 hp
  exact Option.bind_eq_some_iff.2 ⟨n, h.protocolName? a n hn, h.protocolNamed? hp⟩

/-- Of a type only the conformances change. -/
theorem typeNamed? (h : r₀.Grows r) (ht : r₀.typeNamed? n = some t) :
    ∃ t', r.typeNamed? n = some t' ∧ t'.shape = t.shape := by
  have hshape : Keyed.lookup? n (r.typeEntries.map (Prod.map id NominalType.shape))
      = some t.shape :=
    Keyed.lookup?_of_prefix h.follows.2.types <| by
      rw [Keyed.lookup?_map]
      exact congrArg (Option.map NominalType.shape) ht
  rw [Keyed.lookup?_map] at hshape
  exact Option.map_eq_some_iff.1 hshape

theorem typeName? (h : r₀.Grows r) (hc : r₀.Consistent) (hn : r₀.typeName? a = some n) :
    r.typeName? a = some n := by
  obtain ⟨t, ht, rfl⟩ := (hc.typeName?_iff a n).1 hn
  obtain ⟨t', ht', hshape⟩ := h.typeNamed? ht
  exact (h.consistent.typeName?_iff _ n).2 ⟨t', ht', NominalType.descriptorAddress_of_shape hshape⟩

/-- A type that an address is registered for stays, too. -/
theorem typeAt? (h : r₀.Grows r) (hc : r₀.Consistent) (ht : r₀.typeAt? a = some t) :
    ∃ t', r.typeAt? a = some t' ∧ t'.shape = t.shape := by
  obtain ⟨n, hn, ht⟩ := Option.bind_eq_some_iff.1 ht
  obtain ⟨t', ht', hshape⟩ := h.typeNamed? ht
  exact ⟨t', Option.bind_eq_some_iff.2 ⟨n, h.typeName? hc hn, ht'⟩, hshape⟩

end Grows

@[simp] theorem settings_addType (r : Registry) (a : Address) (t : NominalType) :
    (r.addType a t).2.settings = r.settings := by
  unfold addType
  split <;> rfl

@[simp] theorem protocolName?_addType (r : Registry) (a b : Address) (t : NominalType) :
    (r.addType a t).2.protocolName? b = r.protocolName? b := by
  unfold addType
  split <;> rfl

@[simp] theorem settings_addProtocol (r : Registry) (a : Address) (p : Protocol) :
    (r.addProtocol a p).2.settings = r.settings := by
  unfold addProtocol
  simp only
  split <;> rfl

theorem protocolName?_addProtocol (r : Registry) (a b : Address) (p : Protocol) :
    (r.addProtocol a p).2.protocolName? b
      = if a = b then some p.qualifiedName else r.protocolName? b := by
  unfold addProtocol
  simp only
  split <;> exact Keyed.lookup?_put b _ _

theorem Grows.attach (h : r₀.Grows r) (ht : r.typeNamed? t.qualifiedName = some t)
    (c : Conformance) : r₀.Grows (r.putType (t.attach c)) where
  follows := h.follows.attach r₀ ht c
  settings := h.settings
  protocolName? := h.protocolName?

/-- Afterwards the descriptor of the type leads to the type with its new conformance. -/
theorem typeAt?_attach (h : r.Consistent) (ht : r.typeNamed? t.qualifiedName = some t)
    (c : Conformance) :
    (r.putType (t.attach c)).typeAt? t.descriptorAddress = some (t.attach c) := by
  have hnamed : (r.putType (t.attach c)).typeNamed? t.qualifiedName = some (t.attach c) := by
    rw [typeNamed?_putType, NominalType.qualifiedName_attach, if_pos rfl]
  have hname := ((h.attach ht c).typeName?_iff t.descriptorAddress _).2 ⟨_, hnamed, rfl⟩
  exact Option.bind_eq_some_iff.2 ⟨_, hname, hnamed⟩

theorem stable_grows (r₀ : Registry) : Stable (Grows r₀) where
  consistent _ h := h.consistent
  addType r a t h ha ht hnew := by
    refine ⟨(stable_follows r₀).addType r a t h.follows ha ht hnew, ?_, fun b n hn => ?_⟩
    · rw [settings_addType, h.settings]
    · rw [protocolName?_addType, h.protocolName? b n hn]
  addProtocol r a p h ha hp := by
    refine ⟨(stable_follows r₀).addProtocol r a p h.follows ha hp, ?_, fun b n hn => ?_⟩
    · rw [settings_addProtocol, h.settings]
    · have hb := h.protocolName? b n hn
      rw [protocolName?_addProtocol, if_neg, hb]
      rintro rfl
      rw [h.consistent.protocolName?_of_protocolAt? ha] at hb
      cases hb

theorem grows_registerType (hr : r.Consistent) {x : Except Error NominalType}
    (h : (registerType a).runOn r w = ((x, r'), w')) : r.Grows r' := by
  have hkeeps := (keeps_registerType (stable_grows r) a).run w (.refl hr)
  rwa [h] at hkeeps

theorem grows_registerProtocol (hr : r.Consistent) {x : Except Error Protocol}
    (h : (registerProtocol a).runOn r w = ((x, r'), w')) : r.Grows r' := by
  have hkeeps := (keeps_registerProtocol (stable_grows r) a).run w (.refl hr)
  rwa [h] at hkeeps

theorem keeps_loadConformance_grows (r₀ : Registry) (record : ConformanceRecord) :
    InspectOn.Keeps (Grows r₀) (loadConformance record) :=
  keeps_loadConformance_of_attach (stable_grows r₀) (fun _ _ c h ht => h.attach ht c) record

theorem grows_next (hr : r.Consistent) (w : World) (q : Request) : r.Grows (r.next w q) :=
  (keeps_perform_of_attach (stable_grows r) (fun _ _ c h ht => h.attach ht c) q).run w (.refl hr)

/-- The settings are those of the start. -/
theorem settings_after (s : Settings) (requests : List (World × Request)) :
    (after s requests).settings = s := by
  have key : ∀ (requests : List (World × Request)) (r : Registry), r.Consistent →
      (requests.foldl (fun r wq => r.next wq.1 wq.2) r).settings = r.settings := by
    intro requests
    induction requests with
    | nil => exact fun r _ => rfl
    | cons wq requests ih =>
      intro r hr
      have hgrows := grows_next hr wq.1 wq.2
      exact (ih _ hgrows.consistent).trans hgrows.settings
  exact key requests _ (.empty s)

theorem grows_of_passes {γ α : Type} {step : γ → InspectOn Registry α} {l : List γ} {as : List α}
    (hstep : ∀ c, InspectOn.Keeps (Grows r) (step c)) (hr : r.Consistent)
    (h : InspectOn.Passes step l r w as r' w') : r.Grows r' := by
  have hkeeps := (InspectOn.Keeps.mapM hstep l).run w (.refl hr)
  rwa [h.runOn_mapM] at hkeeps

/-- A type that is registered stands under its name. -/
theorem typeNamed?_of_registerType (hr : r.Consistent)
    (h : (registerType a).runOn r w = ((.ok t, r'), w')) :
    r'.typeNamed? t.qualifiedName = some t := by
  have hensures := ensures_registerType (stable_follows r) a r w ⟨hr, .refl r⟩
  rw [h] at hensures
  exact hensures.2

/-! ## Conformance records that are passed -/

/-- How a conformance record is passed: it refers to no protocol or to no type with a descriptor,
another type has its type's name, or it is attached. -/
inductive ConformanceLoads (record : ConformanceRecord) (r : Registry) (w : World) :
    Bool → Registry → World → Prop where
  | skipped (missing : ∀ p a, record.protocol = some p →
      record.conformingType.bind TypeReference.descriptor? ≠ some a) :
    ConformanceLoads record r w false r w
  | shadowed {p a : Address} {q : Protocol} {t : NominalType} {r₁ r₂ : Registry} {w₁ w₂ : World}
    (named : record.protocol = some p)
    (conforming : record.conformingType.bind TypeReference.descriptor? = some a)
    (protocol : (registerProtocol p).runOn r w = ((.ok q, r₁), w₁))
    (type : (registerType a).runOn r₁ w₁ = ((.ok t, r₂), w₂)) (other : t.descriptorAddress ≠ a) :
    ConformanceLoads record r w false r₂ w₂
  | attached {p a : Address} {q : Protocol} {t : NominalType} {r₁ r₂ : Registry} {w₁ w₂ : World}
    (named : record.protocol = some p)
    (conforming : record.conformingType.bind TypeReference.descriptor? = some a)
    (protocol : (registerProtocol p).runOn r w = ((.ok q, r₁), w₁))
    (type : (registerType a).runOn r₁ w₁ = ((.ok t, r₂), w₂)) (own : t.descriptorAddress = a) :
    ConformanceLoads record r w true (r₂.putType (t.attach ⟨q, record.witnessTable⟩)) w₂

theorem conformanceLoads {b : Bool}
    (h : (loadConformance record).runOn r w = ((.ok b, r'), w')) :
    ConformanceLoads record r w b r' w' := by
  rcases hp : record.protocol with _ | p
  · rw [runOn_loadConformance_of_missing (by simp [hp])] at h
    cases h
    exact .skipped (by simp [hp])
  rcases ha : record.conformingType.bind TypeReference.descriptor? with _ | a
  · rw [runOn_loadConformance_of_missing (by simp [ha])] at h
    cases h
    exact .skipped (by simp [ha])
  rw [runOn_loadConformance hp ha] at h
  rcases hq : (registerProtocol p).runOn r w with ⟨⟨e | q, r₁⟩, w₁⟩ <;> rw [hq] at h
  · cases h
  rcases ht : (registerType a).runOn r₁ w₁ with ⟨⟨e | t, r₂⟩, w₂⟩ <;> simp only [ht] at h
  · cases h
  split at h
  · rename_i hother
    cases h
    exact .shadowed hp ha hq ht hother
  · rename_i hown
    cases h
    exact .attached hp ha hq ht (Decidable.not_not.1 hown)

end Registry

end TypeMetadata
