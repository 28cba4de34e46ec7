import TypeMetadata.Proofs.SteadyImage

/-!
# What loading a quiet image registers

`asks` lists the types and protocols that a request asks for. Where the image is quiet, a registry
that was asked for them has each of them afterwards, or the one that had its name before (`Met`),
and what it has is what it had before or what the image shows. `Meets` says of an inspection that
it ends so if it answers, and is carried through the loads step by step.
-/

namespace TypeMetadata

namespace World

/-- The type that the image shows at `a`. -/
def typeShown (w : World) (s : Settings) (a : Address) : Except Error NominalType :=
  ((NominalType.read s a).run w).1

/-- The protocol that the image shows at `a`. -/
def protocolShown (w : World) (s : Settings) (a : Address) : Except Error Protocol :=
  w.decode (Protocol.read s.limits a)

end World

namespace Registry

variable {r r₀ r₁ r₂ r' : Registry} {w w' w'' : World} {asked asked' : List Request}

/-! ## What is asked for -/

deriving instance DecidableEq for Request

/-- What a type record asks for. -/
def typeAsks (w : World) (record : TypeRecord) : List Request :=
  match request? w record with
  | .ok q => q.toList
  | .error _ => []

/-- What a conformance record asks for. -/
def conformanceAsks (record : ConformanceRecord) : List Request :=
  match record.protocol, record.conformingType.bind TypeReference.descriptor? with
  | some p, some a => [.protocol p, .type a]
  | _, _ => []

/-- The records of a conformance section. -/
def conformancesRead (w : World) (start : Address) (count : Nat) : List ConformanceRecord :=
  match w.decode (ConformanceRecord.readSection start count) with
  | .ok records => records
  | .error _ => []

/-- The types and protocols that a request asks for. -/
def asks (w : World) : Request → List Request
  | .type a => [.type a]
  | .protocol a => [.protocol a]
  | .typeSection start count =>
    match w.decode (TypeRecord.readSection start count) with
    | .ok records => records.flatMap (typeAsks w)
    | .error _ => []
  | .conformanceSection start count => (conformancesRead w start count).flatMap conformanceAsks

/-- The type with its descriptor at `a` is registered, or another one has the name that it shows. -/
def TypeKnown (r : Registry) (w : World) (a : Address) : Prop :=
  (∃ t, r.typeAt? a = some t) ∨
    ∃ t first, w.typeShown r.settings a = .ok t ∧ r.typeNamed? t.qualifiedName = some first

theorem TypeKnown.of_grows {a : Address} (h : r.TypeKnown w a) (hr : r.Consistent)
    (hgrows : r.Grows r') : r'.TypeKnown w a := by
  rcases h with ⟨t, ht⟩ | ⟨t, first, ht, hfirst⟩
  · obtain ⟨t', ht', -⟩ := hgrows.typeAt? hr ht
    exact .inl ⟨t', ht'⟩
  · obtain ⟨first', hfirst', -⟩ := hgrows.typeNamed? hfirst
    exact .inr ⟨t, first', hgrows.settings ▸ ht, hfirst'⟩

/-- What was asked for is there, or another type has its name. -/
structure Known (w : World) (asked : List Request) (r : Registry) : Prop where
  type : ∀ a, .type a ∈ asked → r.TypeKnown w a
  protocol : ∀ a, .protocol a ∈ asked → ∃ p, r.protocolAt? a = some p

namespace Known

theorem of_grows (h : Known w asked r) (hr : r.Consistent) (hgrows : r.Grows r') :
    Known w asked r' :=
  ⟨fun a ha => (h.type a ha).of_grows hr hgrows, fun a ha =>
    (h.protocol a ha).imp fun _ => hgrows.protocolAt?⟩

theorem append (h : Known w asked r) (h' : Known w asked' r) : Known w (asked ++ asked') r :=
  ⟨fun a ha => (List.mem_append.1 ha).elim (h.type a) (h'.type a), fun a ha =>
    (List.mem_append.1 ha).elim (h.protocol a) (h'.protocol a)⟩

theorem nil (w : World) (r : Registry) : Known w [] r := ⟨nofun, nofun⟩

theorem ofType {a : Address} (h : r.TypeKnown w a) : Known w [.type a] r :=
  ⟨fun b hb => by cases List.mem_singleton.1 hb; exact h, nofun⟩

theorem ofProtocol {a : Address} {p : Protocol} (h : r.protocolAt? a = some p) :
    Known w [.protocol a] r :=
  ⟨nofun, fun b hb => by cases List.mem_singleton.1 hb; exact ⟨p, h⟩⟩

end Known

/-- `r` comes of `r₀` by registering what was asked for, each as the image `w` shows it. -/
structure Met (w : World) (asked : List Request) (r₀ r : Registry) : Prop where
  grows : r₀.Grows r
  known : Known w asked r
  type_shown : ∀ n t, r.typeNamed? n = some t → (∃ t₀, r₀.typeNamed? n = some t₀) ∨
    .type t.descriptorAddress ∈ asked ∧
      ∃ u, w.typeShown r₀.settings t.descriptorAddress = .ok u ∧ u.shape = t.shape
  protocol_shown : ∀ n p, r.protocolNamed? n = some p → (∃ p₀, r₀.protocolNamed? n = some p₀) ∨
    .protocol p.descriptor.address ∈ asked ∧
      w.protocolShown r₀.settings p.descriptor.address = .ok p
  name_shown : ∀ a n, r.protocolName? a = some n → r₀.protocolName? a = some n ∨
    .protocol a ∈ asked ∧ ∃ p, w.protocolShown r₀.settings a = .ok p ∧ p.qualifiedName = n

namespace Met

theorem of_known (hr : r.Consistent) (h : Known w asked r) : Met w asked r r where
  grows := .refl hr
  known := h
  type_shown _ t ht := .inl ⟨t, ht⟩
  protocol_shown _ p hp := .inl ⟨p, hp⟩
  name_shown _ _ hn := .inl hn

theorem refl (w : World) (hr : r.Consistent) : Met w [] r r := of_known hr (.nil w r)

theorem trans (h : Met w asked r₀ r₁) (h' : Met w asked' r₁ r₂) :
    Met w (asked ++ asked') r₀ r₂ where
  grows := h.grows.trans h'.grows
  known := (h.known.of_grows h.grows.consistent h'.grows).append h'.known
  type_shown n t ht := by
    rcases h'.type_shown n t ht with ⟨t₁, ht₁⟩ | ⟨ha, u, hu, hshape⟩
    · obtain ⟨t', ht', hshape⟩ := h'.grows.typeNamed? ht₁
      obtain rfl : t = t' := Option.some.inj (ht.symm.trans ht')
      refine (h.type_shown n t₁ ht₁).imp id ?_
      rintro ⟨ha, u, hu, hshape'⟩
      have haddress := NominalType.descriptorAddress_of_shape hshape
      exact ⟨List.mem_append_left _ (haddress ▸ ha), u, haddress ▸ hu, hshape'.trans hshape.symm⟩
    · exact .inr ⟨List.mem_append_right _ ha, u, h.grows.settings ▸ hu, hshape⟩
  protocol_shown n p hp := by
    rcases h'.protocol_shown n p hp with ⟨p₁, hp₁⟩ | ⟨ha, hshown⟩
    · obtain rfl : p = p₁ := Option.some.inj (hp.symm.trans (h'.grows.protocolNamed? hp₁))
      exact (h.protocol_shown n p hp₁).imp id fun ⟨ha, hshown⟩ =>
        ⟨List.mem_append_left _ ha, hshown⟩
    · exact .inr ⟨List.mem_append_right _ ha, h.grows.settings ▸ hshown⟩
  name_shown a n hn := by
    rcases h'.name_shown a n hn with hn | ⟨ha, hshown⟩
    · exact (h.name_shown a n hn).imp id fun ⟨ha, hshown⟩ => ⟨List.mem_append_left _ ha, hshown⟩
    · exact .inr ⟨List.mem_append_right _ ha, h.grows.settings ▸ hshown⟩

/-- A conformance registers nothing. -/
theorem attach {t : NominalType} (hr : r.Consistent)
    (ht : r.typeNamed? t.qualifiedName = some t) (c : Conformance) :
    Met w [] r (r.putType (t.attach c)) where
  grows := (Grows.refl hr).attach ht c
  known := .nil w _
  type_shown n u hu := by
    rw [typeNamed?_putType] at hu
    split at hu
    · rename_i hn
      exact .inl ⟨t, hn ▸ ht⟩
    · exact .inl ⟨u, hu⟩
  protocol_shown _ p hp := .inl ⟨p, hp⟩
  name_shown _ _ hn := .inl hn

theorem addType {a : Address} {t : NominalType} (hr : r.Consistent) (ha : r.typeAt? a = none)
    (hshown : w.typeShown r.settings a = .ok t) : Met w [.type a] r (r.addType a t).2 := by
  have haddress : t.descriptorAddress = a :=
    NominalType.descriptorAddress_of_read (Prod.ext hshown rfl)
  have hnew : t.conformances = [] := NominalType.conformances_of_read (Prod.ext hshown rfl)
  have hgrows := (stable_grows r).addType r a t (.refl hr) ha haddress hnew
  unfold Registry.addType at hgrows ⊢
  rcases hn : r.typeNamed? t.qualifiedName with _ | first <;> rw [hn] at hgrows
  · have hnamed : ∀ n, Registry.typeNamed?
        { r.putType t with typeNames := Keyed.put Prod.fst (a, t.qualifiedName) r.typeNames } n
        = if t.qualifiedName = n then some t else r.typeNamed? n := typeNamed?_putType t
    have hself := hnamed t.qualifiedName
    rw [if_pos rfl] at hself
    refine ⟨hgrows, .ofType (.inr ⟨t, t, hshown, hself⟩), fun n u hu => ?_,
      fun _ p hp => .inl ⟨p, hp⟩, fun _ _ hb => .inl hb⟩
    rw [hnamed] at hu
    split at hu
    · cases hu
      exact .inr ⟨by rw [haddress]; exact List.mem_singleton_self _, t, haddress ▸ hshown, rfl⟩
    · exact .inl ⟨u, hu⟩
  · exact of_known hr (.ofType (.inr ⟨t, first, hshown, hn⟩))

theorem addProtocol {a : Address} {p : Protocol} (hr : r.Consistent)
    (ha : r.protocolAt? a = none) (hshown : w.protocolShown r.settings a = .ok p) :
    Met w [.protocol a] r (r.addProtocol a p).2 := by
  have haddress : p.descriptor.address = a := Protocol.address_of_read hshown
  have htypes : (r.addProtocol a p).2.typeEntries = r.typeEntries := by
    unfold Registry.addProtocol
    simp only
    split <;> rfl
  refine ⟨(stable_grows r).addProtocol r a p (.refl hr) ha haddress,
    .ofProtocol (protocolAt?_addProtocol r a p), fun n t ht => ?_, fun n q hq => ?_,
    fun b n hn => ?_⟩
  · rw [typeNamed?, htypes] at ht
    exact .inl ⟨t, ht⟩
  · unfold Registry.addProtocol at hq
    simp only at hq
    split at hq
    · exact .inl ⟨q, hq⟩
    · simp only [protocolNamed?, Keyed.lookup?_put] at hq
      split at hq
      · cases hq
        exact .inr ⟨by rw [haddress]; exact List.mem_singleton_self _, haddress ▸ hshown⟩
      · exact .inl ⟨q, hq⟩
  · rw [protocolName?_addProtocol] at hn
    split at hn
    · rename_i hab
      cases hn
      exact .inr ⟨hab ▸ List.mem_singleton_self _, p, hab ▸ hshown, rfl⟩
    · exact .inl hn

end Met

/-- What a record attaches where its protocol and its type are registered as in `r`. -/
def attachmentIn (r : Registry) (record : ConformanceRecord) : Option Attachment :=
  (r.attachment? record).filter fun e => (r.typeName? e.descriptor).isSome

/-! ## Inspections that meet what is asked for -/

variable {α β γ : Type}

/-- Where this image is shown, an answer means that what was asked for is met, and the image is left
as it is. -/
def Meets (w : World) (asked : List Request) (x : InspectOn Registry α) : Prop :=
  ∀ r w' b r' w'', r.Consistent → w.SameImage w' → x.runOn r w' = ((.ok b, r'), w'') →
    Met w asked r r' ∧ w.SameImage w''

namespace Meets

theorem pure (w : World) (a : α) : Meets w [] (pure a : InspectOn Registry α) := by
  intro r w' b r' w'' hr hw h
  cases h
  exact ⟨.refl w hr, hw⟩

theorem current (w : World) : Meets w [] (InspectOn.current : InspectOn Registry Registry) := by
  intro r w' b r' w'' hr hw h
  cases h
  exact ⟨.refl w hr, hw⟩

theorem bind {x : InspectOn Registry α} {f : α → InspectOn Registry β} (hx : Meets w asked x)
    (hf : ∀ a, Meets w asked' (f a)) : Meets w (asked ++ asked') (x >>= f) := by
  intro r w₀ b r' w'' hr hw h
  rw [InspectOn.runOn_bind] at h
  rcases ha : x.runOn r w₀ with ⟨⟨e | a, r₁⟩, w₁⟩ <;> rw [ha] at h
  · cases h
  · obtain ⟨hmet, himage⟩ := hx r w₀ a r₁ w₁ hr hw ha
    obtain ⟨hmet', himage'⟩ := hf a r₁ w₁ b r' w'' hmet.grows.consistent himage h
    exact ⟨hmet.trans hmet', himage'⟩

theorem decode_bind {d : Decoder α} {f : α → InspectOn Registry β}
    (hf : ∀ a, w.decode d = .ok a → Meets w asked (f a)) :
    Meets w asked (InspectOn.lift (Inspect.decode d) >>= f) := by
  intro r w' b r' w'' hr hw h
  rw [InspectOn.runOn_decode_bind, hw.decode] at h
  rcases hd : w.decode d with e | a <;> rw [hd] at h
  · cases h
  · exact hf a hd r w' b r' w'' hr hw h

theorem discard {x : InspectOn Registry α} (hx : Meets w asked x) :
    Meets w asked (discard x) := by
  rw [Functor.discard, LawfulFunctor.map_const, Function.comp_apply, map_eq_pure_bind,
    ← List.append_nil asked]
  exact hx.bind fun _ => .pure w _

variable {asksOf : γ → List Request}

theorem forM {step : γ → InspectOn Registry PUnit} (h : ∀ c, Meets w (asksOf c) (step c)) :
    ∀ l : List γ, Meets w (l.flatMap asksOf) (l.forM step)
  | [] => .pure w _
  | c :: l => (h c).bind fun _ => forM h l

theorem mapM {step : γ → InspectOn Registry α} (h : ∀ c, Meets w (asksOf c) (step c)) :
    ∀ l : List γ, Meets w (l.flatMap asksOf) (l.mapM step)
  | [] => .pure w _
  | c :: l => by
    rw [List.mapM_cons, List.flatMap_cons, ← List.append_nil (l.flatMap asksOf)]
    exact (h c).bind fun _ => (mapM h l).bind fun _ => .pure w _

end Meets

/-! ## Loads -/

section Loads

variable (quiet : w.Quiet)
include quiet

theorem meets_registerType (a : Address) : Meets w [.type a] (registerType a) := by
  intro r w' t r' w'' hr hw h
  rcases ha : r.typeAt? a with _ | t₀
  · obtain ⟨hshown, himage⟩ := NominalType.steady_read quiet r.settings a w' hw
    rw [runOn_registerType_of_none ha] at h
    rcases hx : (NominalType.read r.settings a).run w' with ⟨e | u, w₁⟩ <;>
      rw [hx] at h hshown himage <;> cases h
    exact ⟨.addType hr ha hshown.symm, himage⟩
  · rw [runOn_registerType ha] at h
    cases h
    exact ⟨.of_known hr (.ofType (.inl ⟨t, ha⟩)), hw⟩

omit quiet in
theorem meets_registerProtocol (w : World) (a : Address) :
    Meets w [.protocol a] (registerProtocol a) := by
  intro r w' p r' w'' hr hw h
  rcases ha : r.protocolAt? a with _ | p₀
  · rw [runOn_registerProtocol_of_none ha, hw.decode] at h
    rcases hx : w.decode (Protocol.read r.settings.limits a) with e | q <;> rw [hx] at h <;> cases h
    exact ⟨.addProtocol hr ha hx, hw⟩
  · rw [runOn_registerProtocol ha] at h
    cases h
    exact ⟨.of_known hr (.ofProtocol ha), hw⟩

theorem meets_loadTypeRecord (record : TypeRecord) :
    Meets w (typeAsks w record) (loadTypeRecord record) := by
  unfold loadTypeRecord typeAsks request?
  rcases record.reference.bind TypeReference.descriptor? with _ | a
  · exact .pure w _
  · refine .decode_bind fun d hd => ?_
    simp only [hd]
    cases d with
    | protocolType d => exact (meets_registerProtocol w a).discard
    | classType d | structType d | enumType d => exact (meets_registerType quiet a).discard
    | moduleContext d | other c => exact .pure w _

theorem meets_loadConformance (record : ConformanceRecord) :
    Meets w (conformanceAsks record) (loadConformance record) := by
  intro r w' b r' w'' hr hw h
  unfold conformanceAsks
  cases conformanceLoads h with
  | skipped missing =>
    rcases hp : record.protocol with _ | p <;>
      rcases ha : record.conformingType.bind TypeReference.descriptor? with _ | a
    · exact ⟨.refl w hr, hw⟩
    · exact ⟨.refl w hr, hw⟩
    · exact ⟨.refl w hr, hw⟩
    · exact absurd ha (missing p a hp)
  | shadowed named conforming protocol type other =>
    rw [named, conforming]
    obtain ⟨hmet, himage⟩ := meets_registerProtocol w _ _ _ _ _ _ hr hw protocol
    obtain ⟨hmet', himage'⟩ :=
      meets_registerType quiet _ _ _ _ _ _ hmet.grows.consistent himage type
    exact ⟨hmet.trans hmet', himage'⟩
  | attached named conforming protocol type own =>
    rw [named, conforming]
    obtain ⟨hmet, himage⟩ := meets_registerProtocol w _ _ _ _ _ _ hr hw protocol
    obtain ⟨hmet', himage'⟩ :=
      meets_registerType quiet _ _ _ _ _ _ hmet.grows.consistent himage type
    have hnamed := typeNamed?_of_registerType hmet.grows.consistent type
    exact ⟨hmet.trans (hmet'.trans (.attach hmet'.grows.consistent hnamed _)), himage'⟩

theorem meets_loadTypes (start : Address) (count : Nat) :
    Meets w (asks w (.typeSection start count)) (loadTypes start count) := by
  refine .decode_bind fun records hrecords => ?_
  simp only [asks, hrecords]
  rw [← List.append_nil (records.flatMap _)]
  refine (Meets.current w).bind fun _ => (Meets.forM (meets_loadTypeRecord quiet) records).bind ?_
  exact fun _ => (Meets.current w).bind fun _ => .pure w _

theorem meets_loadConformances (start : Address) (count : Nat) :
    Meets w (asks w (.conformanceSection start count)) (loadConformances start count) := by
  refine .decode_bind fun records hrecords => ?_
  simp only [asks, conformancesRead, hrecords]
  rw [← List.append_nil (records.flatMap _)]
  exact (Meets.mapM (meets_loadConformance quiet) records).bind fun _ => .pure w _

/-- A request that is answered is met. -/
theorem meets_perform (q : Request) : Meets w (asks w q) (perform q) := by
  cases q with
  | type a => exact (meets_registerType quiet a).discard
  | protocol a => exact (meets_registerProtocol w a).discard
  | typeSection start count => exact (meets_loadTypes quiet start count).discard
  | conformanceSection start count => exact (meets_loadConformances quiet start count).discard

/-! ## What is attached -/

/-- A type that was passed over for another one with its name is not registered later. -/
theorem typeName?_of_other {a : Address} {t : NominalType} (hr : r.Consistent)
    (hw : w.SameImage w') (h : (registerType a).runOn r w' = ((.ok t, r₁), w''))
    (other : t.descriptorAddress ≠ a) (hmet : Met w asked r₁ r') : r'.typeName? a = none := by
  rcases ha : r.typeAt? a with _ | t₀
  · obtain ⟨hshown, -⟩ := NominalType.steady_read quiet r.settings a w' hw
    rw [runOn_registerType_of_none ha] at h
    rcases hx : (NominalType.read r.settings a).run w' with ⟨e | u, w₁⟩ <;>
      rw [hx] at h hshown <;> cases h
    have haddress : u.descriptorAddress = a := NominalType.descriptorAddress_of_read hx
    unfold addType at other hmet
    rcases hn : r.typeNamed? u.qualifiedName with _ | first <;> rw [hn] at other hmet
    · exact absurd haddress other
    · simp only at other hmet
      obtain ⟨first', hfirst, hshape⟩ := hmet.grows.typeNamed? hn
      have hother : first'.descriptorAddress ≠ a :=
        NominalType.descriptorAddress_of_shape hshape ▸ other
      rcases hname : r'.typeName? a with _ | n
      · rfl
      obtain ⟨v, hv, rfl⟩ := (hmet.grows.consistent.typeName?_iff _ n).1 hname
      rcases hmet.type_shown n v hv with ⟨v₀, hv₀⟩ | ⟨-, u', hu', hshape'⟩
      · obtain ⟨v', hv', hshape'⟩ := hmet.grows.typeNamed? hv₀
        obtain rfl : v = v' := Option.some.inj (hv.symm.trans hv')
        have hname₀ := (hr.typeName?_iff _ n).2
          ⟨v₀, hv₀, (NominalType.descriptorAddress_of_shape hshape').symm⟩
        rw [hr.typeName?_of_typeAt? ha] at hname₀
        cases hname₀
      · -- It would be what the image shows, under the name that is taken.
        obtain rfl : u' = u := Except.ok.inj (hu'.symm.trans hshown.symm)
        have hnamed : n = u'.qualifiedName :=
          (hmet.grows.consistent.qualifiedName_eq hv).symm.trans
            (NominalType.qualifiedName_of_shape hshape').symm
        rw [hnamed, hfirst] at hv
        cases hv
        exact absurd rfl hother
  · rw [runOn_registerType ha] at h
    cases h
    exact absurd (hr.of_typeAt? ha).2 other

/-- What a record attaches shows in the index: it is what the record says, unless another type has
its type's name. -/
theorem attachmentIn_of_answer {record : ConformanceRecord} {b : Bool} (hr : r.Consistent)
    (hw : w.SameImage w') (h : (loadConformance record).runOn r w' = ((.ok b, r₁), w''))
    (hmet : Met w asked r₁ r') :
    if b then ∃ e, r₁.attachment? record = some e ∧ r'.attachmentIn record = some e
    else r'.attachmentIn record = none := by
  cases conformanceLoads h with
  | skipped missing =>
    rw [if_neg Bool.false_ne_true, attachmentIn, attachment?]
    rcases hp : record.protocol with _ | p
    · rfl
    rcases ha : record.conformingType.bind TypeReference.descriptor? with _ | a
    · rfl
    · exact absurd ha (missing p a hp)
  | @shadowed p a q t r₃ _ w₃ _ named conforming protocol type other =>
    obtain ⟨hmet₃, hw₃⟩ := meets_registerProtocol w p _ _ _ _ _ hr hw protocol
    obtain ⟨hmet₁, -⟩ := meets_registerType quiet a _ _ _ _ _ hmet₃.grows.consistent hw₃ type
    have hq : r'.protocolAt? p = some q :=
      hmet.grows.protocolAt? (hmet₁.grows.protocolAt? (of_registerProtocol_ok protocol).2)
    have hnone := typeName?_of_other quiet hmet₃.grows.consistent hw₃ type other hmet
    rw [if_neg Bool.false_ne_true, attachmentIn, attachment?_of_protocolAt? named conforming hq,
      Option.filter_some, hnone]
    rfl
  | @attached p a q t r₃ r₂ w₃ _ named conforming protocol type own =>
    obtain ⟨hmet₃, hw₃⟩ := meets_registerProtocol w p _ _ _ _ _ hr hw protocol
    obtain ⟨hmet₂, -⟩ := meets_registerType quiet a _ _ _ _ _ hmet₃.grows.consistent hw₃ type
    have hnamed := typeNamed?_of_registerType hmet₃.grows.consistent type
    have hq : r₂.protocolAt? p = some q :=
      hmet₂.grows.protocolAt? (of_registerProtocol_ok protocol).2
    obtain ⟨t', ht', -⟩ := hmet.grows.typeAt? (hmet₂.grows.consistent.attach hnamed _)
      (own ▸ typeAt?_attach hmet₂.grows.consistent hnamed _)
    obtain ⟨n, hn, -⟩ := Option.bind_eq_some_iff.1 ht'
    rw [if_pos rfl]
    refine ⟨_, attachment?_of_protocolAt? named conforming hq, ?_⟩
    rw [attachmentIn, attachment?_of_protocolAt? named conforming (hmet.grows.protocolAt? hq),
      Option.filter_some, hn]
    rfl

/-- The same of all records of a section, whatever is registered from the image after them. -/
theorem attachments_eq {records : List ConformanceRecord} {answers : List Bool} (hr : r.Consistent)
    (hw : w.SameImage w') (h : InspectOn.Passes loadConformance records r w' answers r₁ w'')
    (hmet : Met w asked r₁ r') :
    attachments records r w' = records.filterMap r'.attachmentIn := by
  induction h with
  | nil => rfl
  | @cons record records r r₂ r₁ w' w₂ w'' b answers first rest ih =>
    obtain ⟨hmet₂, hw₂⟩ := meets_loadConformance quiet record _ _ _ _ _ hr hw first
    obtain ⟨hmet₁, -⟩ := Meets.mapM (meets_loadConformance quiet) records _ _ _ _ _
      hmet₂.grows.consistent hw₂ rest.runOn_mapM
    have hrecord := attachmentIn_of_answer quiet hr hw first (hmet₁.trans hmet)
    have hrest := ih hmet₂.grows.consistent hw₂ hmet
    unfold attachments
    rw [first]
    cases b with
    | false =>
      rw [List.filterMap_cons_none hrecord]
      exact hrest
    | true =>
      obtain ⟨e, he, hlater⟩ := hrecord
      rw [List.filterMap_cons_some hlater]
      simp only [he, hrest]
      rfl

theorem attached_eq {start : Address} {count n : Nat} (hr : r.Consistent) (hw : w.SameImage w')
    (h : (loadConformances start count).runOn r w' = ((.ok n, r₁), w''))
    (hmet : Met w asked r₁ r') :
    r.attached w' (.conformanceSection start count)
      = (conformancesRead w start count).filterMap r'.attachmentIn := by
  obtain ⟨records, answers, hreads, hpasses, -⟩ :=
    SectionKind.inOrder_conformances.of_answer hr h
  have hreads : w'.decode (ConformanceRecord.readSection start count) = .ok records := hreads
  unfold attached conformancesRead
  rw [← hw.decode]
  simp only [hreads]
  exact attachments_eq quiet hr hw hpasses hmet

end Loads

end Registry

end TypeMetadata
