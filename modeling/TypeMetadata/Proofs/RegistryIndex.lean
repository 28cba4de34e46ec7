import TypeMetadata.Proofs.Inspection
import TypeMetadata.Reflection.Registry

/-!
# The registry's index

A registry finds a type by name, and by the address of its descriptor through the name that this
address is registered under. `Consistent` says that the two ways agree. Whatever is asked of a
registry, in whatever state the inspected process is by then, keeps it consistent and only adds to
it (`keeps_perform`), also when the request fails on the way.
-/

namespace TypeMetadata

/-! ## What is read comes from where it was asked for -/

theorem Context.address_of_read {m : Memory} {a : Address} {c : Context}
    (h : Context.read a m = .ok c) : c.address = a := by
  obtain ⟨bits, -, h⟩ := Decoder.of_bind_ok h
  obtain ⟨kind, -, h⟩ := Decoder.of_bind_ok h
  cases h
  rfl

theorem ContextDescriptor.address_of_decode {m : Memory} {a : Address} {d : ContextDescriptor}
    (h : ContextDescriptor.decode a m = .ok d) : d.context.address = a := by
  obtain ⟨c, hc, h⟩ := Decoder.of_bind_ok h
  cases h
  rw [context_ofContext]
  exact Context.address_of_read hc

theorem TypeInfo.descriptor_of_read {s : Settings} {d : NominalDescriptor} {w w' : World}
    {i : TypeInfo} (h : (TypeInfo.read s d).run w = (.ok i, w')) : i.descriptor = d := by
  obtain ⟨name, w₁, -, h⟩ := Inspect.run_bind_ok h
  obtain ⟨moduleName, w₂, -, h⟩ := Inspect.run_bind_ok h
  obtain ⟨metadata, w₃, -, h⟩ := Inspect.run_bind_ok h
  obtain ⟨fields?, w₄, -, h⟩ := Inspect.run_bind_ok h
  obtain ⟨w', w₅, -, h⟩ := Inspect.run_bind_ok h
  cases h
  rfl

theorem ValueType.descriptor_of_read {s : Settings} {d : NominalDescriptor} {w w' : World}
    {t : ValueType} (h : (ValueType.read s d).run w = (.ok t, w')) : t.info.descriptor = d := by
  obtain ⟨info, w₁, hi, h⟩ := Inspect.run_bind_ok h
  rw [← TypeInfo.descriptor_of_read hi]
  split at h
  · cases h
    rfl
  · obtain ⟨metadata, w₂, -, h⟩ := Inspect.run_bind_ok h
    obtain ⟨witnesses, w₃, -, h⟩ := Inspect.run_bind_ok h
    cases h
    rfl

namespace NominalType

theorem descriptorAddress_of_read {s : Settings} {a : Address} {w w' : World} {t : NominalType}
    (h : (NominalType.read s a).run w = (.ok t, w')) : t.descriptorAddress = a := by
  obtain ⟨d, w₁, hd, h⟩ := Inspect.run_bind_ok h
  have ha : d.context.address = a := by
    rw [Inspect.run_decode] at hd
    exact ContextDescriptor.address_of_decode (Prod.mk.inj hd).1
  rw [← ha]
  cases d with
  | classType d =>
    obtain ⟨c, w₂, hc, h⟩ := Inspect.run_bind_ok h
    obtain ⟨info, w₃, hi, hc⟩ := Inspect.run_bind_ok hc
    cases hc
    cases h
    exact congrArg (·.address) (TypeInfo.descriptor_of_read hi)
  | structType d =>
    obtain ⟨t, w₂, hs, h⟩ := Inspect.run_bind_ok h
    obtain ⟨core, w₃, hc, hs⟩ := Inspect.run_bind_ok hs
    cases hs
    cases h
    exact congrArg (·.address) (ValueType.descriptor_of_read hc)
  | enumType d =>
    obtain ⟨t, w₂, he, h⟩ := Inspect.run_bind_ok h
    obtain ⟨core, w₃, hc, he⟩ := Inspect.run_bind_ok he
    obtain ⟨entries, w₄, -, he⟩ := Inspect.run_bind_ok he
    cases he
    cases h
    exact congrArg (·.address) (ValueType.descriptor_of_read hc)
  | moduleContext _ | protocolType _ | other _ => cases h

theorem conformances_of_read {s : Settings} {a : Address} {w w' : World} {t : NominalType}
    (h : (NominalType.read s a).run w = (.ok t, w')) : t.conformances = [] := by
  obtain ⟨d, w₁, -, h⟩ := Inspect.run_bind_ok h
  cases d with
  | classType _ | structType _ | enumType _ =>
    obtain ⟨shape, w₂, -, h⟩ := Inspect.run_bind_ok h
    cases h
    rfl
  | moduleContext _ | protocolType _ | other _ => cases h

@[simp] theorem qualifiedName_attach (t : NominalType) (c : Conformance) :
    (t.attach c).qualifiedName = t.qualifiedName := rfl

end NominalType

theorem Protocol.address_of_read {limits : Limits} {a : Address} {m : Memory} {p : Protocol}
    (h : Protocol.read limits a m = .ok p) : p.descriptor.address = a := by
  obtain ⟨d, hd, h⟩ := Decoder.of_bind_ok h
  obtain ⟨descriptor, hp, h⟩ := Decoder.of_bind_ok h
  obtain ⟨name, -, h⟩ := Decoder.of_bind_ok h
  obtain ⟨moduleName, -, h⟩ := Decoder.of_bind_ok h
  obtain ⟨numRequirements, -, h⟩ := Decoder.of_bind_ok h
  cases h
  rw [← ContextDescriptor.address_of_decode hd]
  cases d with
  | protocolType d =>
    cases hp
    rfl
  | _ => cases hp

namespace Registry

/-! ## The invariant -/

/-- The index of a registry is in order: entries stand under their own names, each key is there
once, a type and the address of its descriptor lead to each other, and the address of a protocol's
descriptor leads to some protocol, that of a registered one to itself. -/
structure Consistent (r : Registry) : Prop where
  type_named : ∀ n t, (n, t) ∈ r.typeEntries → t.qualifiedName = n
  protocol_named : ∀ n p, (n, p) ∈ r.protocolEntries → p.qualifiedName = n
  types_nodup : (r.typeEntries.map Prod.fst).Nodup
  protocols_nodup : (r.protocolEntries.map Prod.fst).Nodup
  typeNames_nodup : (r.typeNames.map Prod.fst).Nodup
  protocolNames_nodup : (r.protocolNames.map Prod.fst).Nodup
  typeName?_iff : ∀ a n,
    r.typeName? a = some n ↔ ∃ t, r.typeNamed? n = some t ∧ t.descriptorAddress = a
  protocolName?_registered : ∀ a n, r.protocolName? a = some n → ∃ p, r.protocolNamed? n = some p
  protocolName?_own : ∀ n p,
    r.protocolNamed? n = some p → r.protocolName? p.descriptor.address = some n

/-- `r'` has the entries of `r` where they were, and new ones after them. A type may have been
given conformances since. -/
structure Extends (r r' : Registry) : Prop where
  types : r.typeEntries.map (Prod.map id NominalType.shape)
    <+: r'.typeEntries.map (Prod.map id NominalType.shape)
  protocols : r.protocolEntries <+: r'.protocolEntries

theorem Extends.refl (r : Registry) : r.Extends r := ⟨List.prefix_refl _, List.prefix_refl _⟩

theorem Extends.trans {r₁ r₂ r₃ : Registry} (h : r₁.Extends r₂) (h' : r₂.Extends r₃) :
    r₁.Extends r₃ :=
  ⟨h.types.trans h'.types, h.protocols.trans h'.protocols⟩

variable {r : Registry}

theorem Consistent.empty (s : Settings) : Consistent { settings := s } where
  type_named _ _ h := by simp at h
  protocol_named _ _ h := by simp at h
  types_nodup := List.nodup_nil
  protocols_nodup := List.nodup_nil
  typeNames_nodup := List.nodup_nil
  protocolNames_nodup := List.nodup_nil
  typeName?_iff _ _ := by simp [typeName?, typeNamed?, Keyed.lookup?, Keyed.find?]
  protocolName?_registered _ _ h := by simp [protocolName?, Keyed.lookup?, Keyed.find?] at h
  protocolName?_own _ _ h := by simp [protocolNamed?, Keyed.lookup?, Keyed.find?] at h

/-- The type that an address is registered for is found. -/
theorem Consistent.typeAt?_eq {a : Address} {n : String} (h : r.Consistent)
    (hn : r.typeName? a = some n) : ∃ t, r.typeNamed? n = some t ∧ r.typeAt? a = some t := by
  obtain ⟨t, ht, -⟩ := (h.typeName?_iff a n).1 hn
  exact ⟨t, ht, by simp [typeAt?, hn, ht]⟩

theorem Consistent.protocolAt?_eq {a : Address} {n : String} (h : r.Consistent)
    (hn : r.protocolName? a = some n) :
    ∃ p, r.protocolNamed? n = some p ∧ r.protocolAt? a = some p := by
  obtain ⟨p, hp⟩ := h.protocolName?_registered a n hn
  exact ⟨p, hp, by simp [protocolAt?, hn, hp]⟩

theorem Consistent.typeName?_of_typeAt? {a : Address} (h : r.Consistent)
    (ha : r.typeAt? a = none) : r.typeName? a = none := by
  rcases hn : r.typeName? a with _ | n
  · rfl
  · obtain ⟨t, -, ht⟩ := h.typeAt?_eq hn
    rw [ha] at ht
    cases ht

theorem Consistent.protocolName?_of_protocolAt? {a : Address} (h : r.Consistent)
    (ha : r.protocolAt? a = none) : r.protocolName? a = none := by
  rcases hn : r.protocolName? a with _ | n
  · rfl
  · obtain ⟨p, -, hp⟩ := h.protocolAt?_eq hn
    rw [ha] at hp
    cases hp

theorem Consistent.qualifiedName_eq {n : String} {t : NominalType} (h : r.Consistent)
    (ht : r.typeNamed? n = some t) : t.qualifiedName = n :=
  h.type_named n t (Keyed.mem_of_lookup? ht)

/-! ## New entries -/

theorem typeNamed?_putType (t : NominalType) (n : String) :
    (r.putType t).typeNamed? n = if t.qualifiedName = n then some t else r.typeNamed? n :=
  Keyed.lookup?_put n _ _

/-- A new type, read from a descriptor that is not registered, keeps the index in order. -/
theorem Consistent.addType {a : Address} {t : NominalType} (h : r.Consistent)
    (ha : r.typeAt? a = none) (ht : t.descriptorAddress = a) : (r.addType a t).2.Consistent := by
  have hnone := h.typeName?_of_typeAt? ha
  have hname : ∀ b, Keyed.lookup? b (Keyed.put Prod.fst (a, t.qualifiedName) r.typeNames)
      = if a = b then some t.qualifiedName else r.typeName? b := fun b => Keyed.lookup?_put b _ _
  unfold Registry.addType
  rcases hn : r.typeNamed? t.qualifiedName with _ | first
  · refine { h with
      type_named := fun n u hu => ?_
      types_nodup := Keyed.nodup_put _ h.types_nodup _
      typeNames_nodup := Keyed.nodup_put _ h.typeNames_nodup _
      typeName?_iff := fun b n => ?_ }
    · rcases Keyed.mem_put _ hu with hu | hu
      · cases hu
        rfl
      · exact h.type_named n u hu
    · change _ = _ ↔ ∃ u, (r.putType t).typeNamed? n = some u ∧ _
      rw [typeName?, hname, typeNamed?_putType]
      constructor
      · intro hb
        split at hb
        · rename_i hab
          cases hb
          exact ⟨t, if_pos rfl, hab ▸ ht⟩
        · obtain ⟨u, hu, hua⟩ := (h.typeName?_iff b n).1 hb
          refine ⟨u, ?_, hua⟩
          rw [if_neg, hu]
          rintro rfl
          rw [hn] at hu
          cases hu
      · rintro ⟨u, hu, hua⟩
        split at hu
        · rename_i hq
          cases hu
          rw [if_pos (ht ▸ hua), hq]
        · have hb := (h.typeName?_iff b n).2 ⟨u, hu, hua⟩
          rw [if_neg, hb]
          rintro rfl
          rw [hnone] at hb
          cases hb
  · exact h

theorem extends_addType (a : Address) (t : NominalType) : r.Extends (r.addType a t).2 := by
  unfold Registry.addType
  rcases hn : r.typeNamed? t.qualifiedName with _ | first
  · refine ⟨?_, List.prefix_refl _⟩
    have hput : Keyed.put Prod.fst (t.qualifiedName, t) r.typeEntries
        = r.typeEntries ++ [(t.qualifiedName, t)] :=
      Keyed.put_of_lookup?_none hn
    change _ <+: (Keyed.put _ _ _).map _
    rw [hput, List.map_append]
    exact List.prefix_append _ _
  · exact Extends.refl r

/-- A protocol from a descriptor that is not registered keeps the index in order, whether or not
its name was taken. -/
theorem Consistent.addProtocol {a : Address} {p : Protocol} (h : r.Consistent)
    (ha : r.protocolAt? a = none) (hp : p.descriptor.address = a) :
    (r.addProtocol a p).2.Consistent := by
  have hnone := h.protocolName?_of_protocolAt? ha
  have hname : ∀ b, Keyed.lookup? b (Keyed.put Prod.fst (a, p.qualifiedName) r.protocolNames)
      = if a = b then some p.qualifiedName else r.protocolName? b := fun b =>
    Keyed.lookup?_put b _ _
  -- A protocol that was there has another descriptor, so its own name stays what it was.
  have hown : ∀ n q, r.protocolNamed? n = some q → a ≠ q.descriptor.address := by
    rintro n q hq rfl
    rw [h.protocolName?_own n q hq] at hnone
    cases hnone
  unfold Registry.addProtocol
  rcases hn : r.protocolNamed? p.qualifiedName with _ | first
  · have hentry : ∀ n, Keyed.lookup? n (Keyed.put Prod.fst (p.qualifiedName, p) r.protocolEntries)
        = if p.qualifiedName = n then some p else r.protocolNamed? n := fun n =>
      Keyed.lookup?_put n _ _
    simp only [protocolNamed?] at hn
    simp only [protocolNamed?, hn]
    refine { h with
      protocol_named := fun n q hq => ?_
      protocols_nodup := Keyed.nodup_put _ h.protocols_nodup _
      protocolNames_nodup := Keyed.nodup_put _ h.protocolNames_nodup _
      protocolName?_registered := fun b n hb => ?_
      protocolName?_own := fun n q hq => ?_ }
    · rcases Keyed.mem_put _ hq with hq | hq
      · cases hq
        rfl
      · exact h.protocol_named n q hq
    · simp only [protocolName?, protocolNamed?, hname, hentry] at hb ⊢
      split at hb
      · cases hb
        exact ⟨p, if_pos rfl⟩
      · obtain ⟨q, hq⟩ := h.protocolName?_registered b n hb
        split
        · exact ⟨p, rfl⟩
        · exact ⟨q, hq⟩
    · simp only [protocolName?, protocolNamed?, hname, hentry] at hq ⊢
      split at hq
      · rename_i hpn
        cases hq
        rw [if_pos hp.symm, hpn]
      · rw [if_neg (hown n q hq)]
        exact h.protocolName?_own n q hq
  · simp only [protocolNamed?] at hn
    simp only [protocolNamed?, hn]
    refine { h with
      protocolNames_nodup := Keyed.nodup_put _ h.protocolNames_nodup _
      protocolName?_registered := fun b n hb => ?_
      protocolName?_own := fun n q hq => ?_ }
    · simp only [protocolName?, hname] at hb
      split at hb
      · cases hb
        exact ⟨first, hn⟩
      · exact h.protocolName?_registered b n hb
    · simp only [protocolName?, hname]
      rw [if_neg (hown n q hq)]
      exact h.protocolName?_own n q hq

theorem protocolAt?_addProtocol (r : Registry) (a : Address) (p : Protocol) :
    (r.addProtocol a p).2.protocolAt? a = some (r.addProtocol a p).1 := by
  have hname : Keyed.lookup? a (Keyed.put Prod.fst (a, p.qualifiedName) r.protocolNames)
      = some p.qualifiedName := by
    rw [Keyed.lookup?_put, if_pos rfl]
  unfold Registry.addProtocol
  rcases hn : r.protocolNamed? p.qualifiedName with _ | first
  · simp only [protocolNamed?] at hn
    simp only [protocolAt?, protocolName?, protocolNamed?, hn, hname, Keyed.lookup?_put]
    simp
  · simp only [protocolNamed?] at hn
    simp only [protocolAt?, protocolName?, protocolNamed?, hn, hname]
    exact hn

theorem extends_addProtocol (a : Address) (p : Protocol) : r.Extends (r.addProtocol a p).2 := by
  unfold Registry.addProtocol
  rcases hn : r.protocolNamed? p.qualifiedName with _ | first
  · simp only [protocolNamed?] at hn
    simp only [protocolNamed?, hn]
    refine ⟨List.prefix_refl _, ?_⟩
    rw [Keyed.put_of_lookup?_none hn]
    exact List.prefix_append _ _
  · simp only [protocolNamed?] at hn
    simp only [protocolNamed?, hn]
    exact ⟨List.prefix_refl _, List.prefix_refl _⟩

/-- A conformance attached to a registered type leaves the index as it is. -/
theorem Consistent.attach {t : NominalType} (h : r.Consistent)
    (ht : r.typeNamed? t.qualifiedName = some t) (c : Conformance) :
    (r.putType (t.attach c)).Consistent := by
  have hkeys : (r.putType (t.attach c)).typeEntries.map Prod.fst = r.typeEntries.map Prod.fst :=
    Keyed.map_put_of_find? _ (Keyed.lookup?_eq_some ht) rfl
  refine { h with
    type_named := fun n u hu => ?_
    types_nodup := hkeys ▸ h.types_nodup
    typeName?_iff := fun a n => ?_ }
  · rcases Keyed.mem_put _ hu with hu | hu
    · cases hu
      rfl
    · exact h.type_named n u hu
  · rw [show (r.putType (t.attach c)).typeName? a = r.typeName? a from rfl, h.typeName?_iff,
      typeNamed?_putType]
    constructor
    · rintro ⟨u, hu, hua⟩
      split
      · rename_i hq
        rw [← hq, NominalType.qualifiedName_attach, ht] at hu
        cases hu
        exact ⟨_, rfl, hua⟩
      · exact ⟨u, hu, hua⟩
    · rintro ⟨u, hu, hua⟩
      split at hu
      · rename_i hq
        cases hu
        exact ⟨t, hq ▸ ht, hua⟩
      · exact ⟨u, hu, hua⟩

theorem extends_attach {t : NominalType} (ht : r.typeNamed? t.qualifiedName = some t)
    (c : Conformance) : r.Extends (r.putType (t.attach c)) := by
  refine ⟨?_, List.prefix_refl _⟩
  have hput : (r.putType (t.attach c)).typeEntries.map (Prod.map id NominalType.shape)
      = r.typeEntries.map (Prod.map id NominalType.shape) :=
    Keyed.map_put_of_find? _ (Keyed.lookup?_eq_some ht) rfl
  exact hput ▸ List.prefix_refl _

/-! ## Requests -/

/-- What a registry can be asked to do. -/
inductive Request where
  | type (a : Address)
  | protocol (a : Address)
  | typeSection (start : Address) (count : Nat)
  | conformanceSection (start : Address) (count : Nat)

/-- Meet a request. -/
def perform : Request → InspectOn Registry Unit
  | .type a => discard (registerType a)
  | .protocol a => discard (registerProtocol a)
  | .typeSection start count => discard (loadTypes start count)
  | .conformanceSection start count => discard (loadConformances start count)

/-- What only holds of a registry in order, and is kept by a new type, without conformances as yet,
and by a new protocol. -/
structure Stable (P : Registry → Prop) : Prop where
  consistent : ∀ r, P r → r.Consistent
  addType : ∀ r a t, P r → r.typeAt? a = none → t.descriptorAddress = a → t.conformances = [] →
    P (r.addType a t).2
  addProtocol : ∀ r a p, P r → r.protocolAt? a = none → p.descriptor.address = a →
    P (r.addProtocol a p).2

section Stable

variable {P : Registry → Prop} (hP : Stable P)
include hP

/-- After its registration a type is found under its name. -/
theorem ensures_registerType (a : Address) :
    InspectOn.Ensures P (registerType a)
      (fun t r => P r ∧ r.typeNamed? t.qualifiedName = some t) P := by
  refine InspectOn.Ensures.bind (Q := fun r' r => r' = r ∧ P r)
    (InspectOn.Ensures.current fun r hr => ⟨rfl, hr⟩) fun r => ?_
  rcases ha : r.typeAt? a with _ | t
  · refine InspectOn.Ensures.bind
      (Q := fun t r' => (r = r' ∧ P r') ∧ t.descriptorAddress = a ∧ t.conformances = [])
      (InspectOn.Ensures.lift (fun _ hr => hr.2) fun r' w t hr ht =>
        ⟨hr, NominalType.descriptorAddress_of_read (Prod.ext ht rfl),
          NominalType.conformances_of_read (Prod.ext ht rfl)⟩) fun t => ?_
    rintro r' w ⟨⟨rfl, hr⟩, ht, hnew⟩
    have hfound : (r.addType a t).2.typeNamed? (r.addType a t).1.qualifiedName
        = some (r.addType a t).1 := by
      unfold Registry.addType
      rcases hn : r.typeNamed? t.qualifiedName with _ | first
      · change (r.putType t).typeNamed? _ = _
        rw [typeNamed?_putType, if_pos rfl]
      · change r.typeNamed? first.qualifiedName = some first
        rw [(hP.consistent r hr).qualifiedName_eq hn, hn]
    exact ⟨hP.addType r a t hr ha ht hnew, hfound⟩
  · refine InspectOn.Ensures.pure ?_
    rintro r' ⟨rfl, hr⟩
    refine ⟨hr, ?_⟩
    obtain ⟨n, -, hn⟩ := Option.bind_eq_some_iff.1 ha
    rw [(hP.consistent r hr).qualifiedName_eq hn, hn]

/-- After its registration a protocol is what its descriptor is registered as. -/
theorem ensures_registerProtocol (a : Address) :
    InspectOn.Ensures P (registerProtocol a) (fun p r => P r ∧ r.protocolAt? a = some p) P := by
  refine InspectOn.Ensures.bind (Q := fun r' r => r' = r ∧ P r)
    (InspectOn.Ensures.current fun r hr => ⟨rfl, hr⟩) fun r => ?_
  rcases ha : r.protocolAt? a with _ | p
  · refine InspectOn.Ensures.bind
      (Q := fun p r' => (r = r' ∧ P r') ∧ p.descriptor.address = a)
      (InspectOn.Ensures.lift (fun _ hr => hr.2) fun r' w p hr hp =>
        ⟨hr, ?_⟩) fun p => ?_
    · change ((Inspect.decode (Protocol.read r.settings.limits a)).run w).1 = _ at hp
      rw [Inspect.run_decode] at hp
      exact Protocol.address_of_read hp
    · rintro r' w ⟨⟨rfl, hr⟩, hp⟩
      exact ⟨hP.addProtocol r a p hr ha hp, protocolAt?_addProtocol r a p⟩
  · refine InspectOn.Ensures.pure ?_
    rintro r' ⟨rfl, hr⟩
    exact ⟨hr, ha⟩

theorem keeps_registerType (a : Address) : InspectOn.Keeps P (registerType a) :=
  (ensures_registerType hP a).mono fun _ _ h => h.1

theorem keeps_registerProtocol (a : Address) : InspectOn.Keeps P (registerProtocol a) :=
  (ensures_registerProtocol hP a).mono fun _ _ h => h.1

theorem keeps_loadTypeRecord (record : TypeRecord) :
    InspectOn.Keeps P (loadTypeRecord record) := by
  unfold loadTypeRecord
  split
  · refine InspectOn.Keeps.bind (InspectOn.Keeps.lift _) fun d => ?_
    split
    · exact (keeps_registerProtocol hP _).discard
    · exact (keeps_registerType hP _).discard
    · exact (keeps_registerType hP _).discard
    · exact (keeps_registerType hP _).discard
    · exact InspectOn.Keeps.pure _
    · exact InspectOn.Keeps.pure _
  · exact InspectOn.Keeps.pure _

theorem keeps_loadTypes (start : Address) (count : Nat) :
    InspectOn.Keeps P (loadTypes start count) := by
  refine InspectOn.Keeps.bind (InspectOn.Keeps.lift _) fun records => ?_
  refine InspectOn.Keeps.bind (InspectOn.Ensures.current fun _ h => h) fun before => ?_
  refine InspectOn.Keeps.bind (InspectOn.Keeps.forM (keeps_loadTypeRecord hP) records) fun _ => ?_
  exact InspectOn.Keeps.bind (InspectOn.Ensures.current fun _ h => h) fun _ =>
    InspectOn.Keeps.pure _

section Attach

variable (hattach : ∀ r t c,
  P r → r.typeNamed? t.qualifiedName = some t → P (r.putType (t.attach c)))
include hattach

/-- A conformance record keeps what an attached conformance keeps, too. -/
theorem keeps_loadConformance_of_attach (record : ConformanceRecord) :
    InspectOn.Keeps P (loadConformance record) := by
  unfold loadConformance
  split
  · split
    · refine InspectOn.Keeps.bind (keeps_registerProtocol hP _) fun p => ?_
      refine InspectOn.Ensures.bind (ensures_registerType hP _) fun t => ?_
      split
      · exact InspectOn.Ensures.pure fun _ h => h.1
      · rintro r w ⟨hr, ht⟩
        exact hattach r t _ hr ht
    · exact InspectOn.Keeps.pure _
  · exact InspectOn.Keeps.pure _

/-- So does whatever a registry is asked to do. -/
theorem keeps_perform_of_attach (q : Request) : InspectOn.Keeps P (perform q) := by
  cases q with
  | type a => exact (keeps_registerType hP a).discard
  | protocol a => exact (keeps_registerProtocol hP a).discard
  | typeSection start count => exact (keeps_loadTypes hP start count).discard
  | conformanceSection start count =>
    refine (InspectOn.Keeps.bind (InspectOn.Keeps.lift _) fun records => ?_).discard
    exact InspectOn.Keeps.bind
      (InspectOn.Keeps.mapM (keeps_loadConformance_of_attach hP hattach) records)
      fun _ => InspectOn.Keeps.pure _

end Attach

end Stable

/-- `r` is in order and has what `r₀` had. -/
def Follows (r₀ r : Registry) : Prop := r.Consistent ∧ r₀.Extends r

variable (r₀ : Registry)

theorem stable_follows : Stable (Follows r₀) where
  consistent _ h := h.1
  addType _ a t h ha ht _ := ⟨h.1.addType ha ht, h.2.trans (extends_addType a t)⟩
  addProtocol _ a p h ha hp := ⟨h.1.addProtocol ha hp, h.2.trans (extends_addProtocol a p)⟩

theorem Follows.attach {t : NominalType} (h : Follows r₀ r)
    (ht : r.typeNamed? t.qualifiedName = some t) (c : Conformance) :
    Follows r₀ (r.putType (t.attach c)) :=
  ⟨h.1.attach ht c, h.2.trans (extends_attach ht c)⟩

theorem keeps_loadConformance (record : ConformanceRecord) :
    InspectOn.Keeps (Follows r₀) (loadConformance record) :=
  keeps_loadConformance_of_attach (stable_follows r₀) (fun _ _ c h ht => h.attach r₀ ht c) record

/-- The registry after a request in the world `w`, met or not. -/
def next (r : Registry) (w : World) (q : Request) : Registry := ((perform q).runOn r w).1.2

/-- A new registry after requests, each in a world of its own. -/
def after (s : Settings) (requests : List (World × Request)) : Registry :=
  requests.foldl (fun r wq => r.next wq.1 wq.2) { settings := s }

theorem keeps_perform (q : Request) : InspectOn.Keeps (Follows r₀) (perform q) :=
  keeps_perform_of_attach (stable_follows r₀) (fun _ _ c h ht => h.attach r₀ ht c) q

theorem follows_next (h : r.Consistent) (w : World) (q : Request) : Follows r (r.next w q) :=
  (keeps_perform r q).run w ⟨h, Extends.refl r⟩

theorem consistent_after (s : Settings) (requests : List (World × Request)) :
    (after s requests).Consistent := by
  have key : ∀ (requests : List (World × Request)) (r : Registry), r.Consistent →
      (requests.foldl (fun r wq => r.next wq.1 wq.2) r).Consistent := by
    intro requests
    induction requests with
    | nil => exact fun r h => h
    | cons wq requests ih => exact fun r h => ih _ (follows_next h wq.1 wq.2).1
  exact key requests _ (Consistent.empty s)

/-- A descriptor that is registered is not read again. -/
theorem runOn_registerType {a : Address} {t : NominalType} (h : r.typeAt? a = some t) (w : World) :
    (registerType a).runOn r w = ((.ok t, r), w) := by
  unfold registerType
  rw [InspectOn.runOn_bind, InspectOn.runOn_current]
  simp only [h]
  rfl

theorem runOn_registerProtocol {a : Address} {p : Protocol} (h : r.protocolAt? a = some p)
    (w : World) : (registerProtocol a).runOn r w = ((.ok p, r), w) := by
  unfold registerProtocol
  rw [InspectOn.runOn_bind, InspectOn.runOn_current]
  simp only [h]
  rfl

/-- Whatever has been asked of a registry, its index is in order, and another request only adds to
it. So an address that is registered leads to an entry, and to register it again changes nothing
and returns that entry. -/
theorem index_after (s : Settings) (requests : List (World × Request)) :
    (after s requests).Consistent
    ∧ (∀ w q, (after s requests).Extends ((after s requests).next w q))
    ∧ (∀ a n, (after s requests).typeName? a = some n →
        ∃ t, (after s requests).typeNamed? n = some t
          ∧ ∀ w, (registerType a).runOn (after s requests) w = ((.ok t, after s requests), w))
    ∧ (∀ a n, (after s requests).protocolName? a = some n →
        ∃ p, (after s requests).protocolNamed? n = some p
          ∧ ∀ w, (registerProtocol a).runOn (after s requests) w
            = ((.ok p, after s requests), w)) := by
  have h := consistent_after s requests
  refine ⟨h, fun w q => (follows_next h w q).2, fun a n hn => ?_, fun a n hn => ?_⟩
  · obtain ⟨t, ht, ha⟩ := h.typeAt?_eq hn
    exact ⟨t, ht, runOn_registerType ha⟩
  · obtain ⟨p, hp, ha⟩ := h.protocolAt?_eq hn
    exact ⟨p, hp, runOn_registerProtocol ha⟩

end Registry

end TypeMetadata
