import TypeMetadata.Proofs.RegistryGrowth

/-!
# The protocol that an attached conformance names

A conformance record refers to a protocol by its descriptor, and what is attached is the protocol
that the registry has for that descriptor. That is the one with the descriptor itself, unless
another protocol had taken its qualified name before: then it is that other one
(`attached_protocol`). Types are treated differently, a conformance of a shadowed type is never
attached to the type that has its name.
-/

namespace TypeMetadata

open InspectOn (Passes)

namespace Registry

variable {r r' : Registry} {w w' : World} {record : ConformanceRecord}

/-- A protocol that is registered is the first of its name, and if there was none its descriptor is
the one that was asked for. -/
theorem named_of_registerProtocol {p : Address} {q : Protocol} (hr : r.Consistent)
    (h : (registerProtocol p).runOn r w = ((.ok q, r'), w')) :
    r.protocolNamed? q.qualifiedName = some q ∨
      r.protocolNamed? q.qualifiedName = none ∧ q.descriptor.address = p := by
  rcases ha : r.protocolAt? p with _ | known
  · rw [runOn_registerProtocol_of_none ha] at h
    rcases hx : w.decode (Protocol.read r.settings.limits p) with e | new <;> rw [hx] at h <;>
      cases h
    have hnew : new.descriptor.address = p := Protocol.address_of_read hx
    unfold addProtocol
    rcases hn : r.protocolNamed? new.qualifiedName with _ | first
    · simp only [protocolNamed?] at hn ⊢
      simp only [hn]
      exact .inr ⟨trivial, hnew⟩
    · have hfirst : first.qualifiedName = new.qualifiedName :=
        hr.protocol_named _ _ (Keyed.mem_of_lookup? hn)
      simp only [protocolNamed?] at hn ⊢
      simp only [hn]
      exact .inl (by rw [hfirst, hn])
  · rw [runOn_registerProtocol ha] at h
    cases h
    obtain ⟨n, -, hn⟩ := Option.bind_eq_some_iff.1 ha
    rw [hr.protocol_named n _ (Keyed.mem_of_lookup? hn)]
    exact .inl hn

/-- A record of a section that is attached when its turn comes: `r` is what the records before it
have made of the registry `r₀`, and `r'` what it makes of `r`. -/
inductive Attaches (r₀ : Registry) (w : World) (start : Address) (count : Nat) :
    ConformanceRecord → Registry → Registry → Prop where
  | intro {before rest : List ConformanceRecord} {record : ConformanceRecord} {answers : List Bool}
    {r r' : Registry} {w₁ w₂ : World}
    (reads : w.decode (ConformanceRecord.readSection start count) = .ok (before ++ record :: rest))
    (passes : Passes loadConformance before r₀ w answers r w₁)
    (attaches : (loadConformance record).runOn r w₁ = ((.ok true, r'), w₂)) :
    Attaches r₀ w start count record r r'

/-- Whatever has been asked of a registry: a record that is attached gives the type with the
descriptor that it refers to a conformance with its own witness table, under the name of the
protocol that its protocol's descriptor is registered as. This is the first protocol with its
qualified name, so it has the descriptor that the record refers to exactly if no protocol with
another descriptor had that qualified name before. -/
theorem attached_protocol (s : Settings) (requests : List (World × Request)) (w : World)
    (start : Address) (count : Nat) (record : ConformanceRecord) (r r' : Registry)
    (attaches : (after s requests).Attaches w start count record r r') :
    ∃ p a q t, record.protocol = some p ∧
      record.conformingType.bind TypeReference.descriptor? = some a ∧
      r'.typeAt? a = some t ∧ t.descriptorAddress = a ∧
      Keyed.find? Conformance.key q.name t.conformances = some ⟨q, record.witnessTable⟩ ∧
      r'.protocolName? p = some q.qualifiedName ∧
      r'.protocolNamed? q.qualifiedName = some q ∧
      (∀ first, r.protocolNamed? q.qualifiedName = some first → q = first) ∧
      (q.descriptor.address = p ↔ ∀ first,
        r.protocolNamed? q.qualifiedName = some first → first.descriptor.address = p) := by
  obtain ⟨-, hpasses, hattaches⟩ := attaches
  have hr := (grows_of_passes (keeps_loadConformance_grows _) (consistent_after s requests)
    hpasses).consistent
  cases conformanceLoads hattaches with
  | @attached p a q t r₁ r₂ _ _ hp ha hprotocol htype hown =>
    have hnamed := named_of_registerProtocol hr hprotocol
    have hgrows₁ := grows_registerProtocol hr hprotocol
    have hgrows := grows_registerType hgrows₁.consistent htype
    have ht := typeNamed?_of_registerType hgrows₁.consistent htype
    have hat : r₂.protocolAt? p = some q := hgrows.protocolAt? (of_registerProtocol_ok hprotocol).2
    obtain ⟨n, hn, hq⟩ := Option.bind_eq_some_iff.1 hat
    obtain rfl : q.qualifiedName = n :=
      hgrows.consistent.protocol_named n q (Keyed.mem_of_lookup? hq)
    refine ⟨p, a, q, t.attach ⟨q, record.witnessTable⟩, hp, ha,
      hown ▸ typeAt?_attach hgrows.consistent ht _, hown,
      Keyed.find?_put_self Conformance.key (⟨q, record.witnessTable⟩ : Conformance) t.conformances,
      hn, hq, ?_⟩
    rcases hnamed with hnamed | ⟨hnone, haddress⟩
    · rw [hnamed]
      exact ⟨fun _ => Option.some.inj, fun h _ hfirst => Option.some.inj hfirst ▸ h,
        fun h => h q rfl⟩
    · rw [hnone]
      exact ⟨nofun, fun _ => nofun, fun _ => haddress⟩

/-- A process with a section of two conformances of one type, to two protocols that have one
qualified name. -/
def showingTwins : World := .showing (Emit.conformancesToBoth ("A", "Shape") ("A", "Shape"))

/-- The first of the two conformances. -/
def firstRecord : ConformanceRecord :=
  ⟨⟨0x10A0⟩, some ⟨0x1040⟩, some (.descriptor ⟨0x1010⟩), none, ⟨0⟩⟩

/-- The second of the two conformances. -/
def twinRecord : ConformanceRecord :=
  ⟨⟨0x10B0⟩, some ⟨0x1078⟩, some (.descriptor ⟨0x1010⟩), none, ⟨0⟩⟩

/-- It is attached, and its type then has one conformance, to the first of the two protocols. -/
theorem exists_attaches_twin :
    ∃ r r', (after {} []).Attaches showingTwins ⟨0x10C0⟩ 2 twinRecord r r' ∧
      (r'.typeAt? ⟨0x1010⟩).map (fun t => t.conformances.map fun c => c.protocol.descriptor.address)
        = some [⟨0x1040⟩] := by
  -- the run for the second conformance goes on from the one for the first
  have hruns : showingTwins.decode (ConformanceRecord.readSection ⟨0x10C0⟩ 2)
        = .ok [firstRecord, twinRecord] ∧
      ((loadConformance firstRecord).runOn (after {} []) showingTwins).1.1 = .ok true ∧
      ((loadConformance twinRecord).runOn
        ((loadConformance firstRecord).runOn (after {} []) showingTwins).1.2
        ((loadConformance firstRecord).runOn (after {} []) showingTwins).2).1.1 = .ok true ∧
      (((loadConformance twinRecord).runOn
        ((loadConformance firstRecord).runOn (after {} []) showingTwins).1.2
        ((loadConformance firstRecord).runOn (after {} []) showingTwins).2).1.2.typeAt?
          ⟨0x1010⟩).map (fun t => t.conformances.map fun c => c.protocol.descriptor.address)
        = some [⟨0x1040⟩] := by
    decide +kernel
  obtain ⟨hreads, hfirst, htwin, haddresses⟩ := hruns
  exact ⟨_, _, .intro hreads (.cons (InspectOn.runOn_of_answer hfirst) (.nil _ _))
    (InspectOn.runOn_of_answer htwin), haddresses⟩

/-- The second of two protocols with one qualified name stands for the first, which is what the
attached conformance names. -/
theorem attached_protocol_twin :
    ∃ r r', (after {} []).Attaches showingTwins ⟨0x10C0⟩ 2 twinRecord r r' ∧
      ∃ q t, r'.typeAt? ⟨0x1010⟩ = some t ∧
        Keyed.find? Conformance.key q.name t.conformances = some ⟨q, none⟩ ∧
        q.descriptor.address = ⟨0x1040⟩ ∧
        ∃ first, r.protocolNamed? q.qualifiedName = some first ∧
          first.descriptor.address ≠ ⟨0x1078⟩ := by
  obtain ⟨r, r', hattaches, haddresses⟩ := exists_attaches_twin
  obtain ⟨p, a, q, t, hp, ha, ht, -, hfind, -, -, -, hiff⟩ :=
    attached_protocol {} [] _ _ _ _ _ _ hattaches
  cases hp
  cases ha
  rw [ht, Option.map_some] at haddresses
  have hq : q.descriptor.address ∈ t.conformances.map fun c => c.protocol.descriptor.address :=
    List.mem_map_of_mem (List.mem_of_find?_eq_some hfind)
  rw [Option.some.inj haddresses, List.mem_singleton] at hq
  have hother : ¬∀ first, r.protocolNamed? q.qualifiedName = some first →
      first.descriptor.address = ⟨0x1078⟩ := by
    rw [← hiff, hq]
    decide
  refine ⟨r, r', hattaches, q, t, ht, hfind, hq, ?_⟩
  simpa using hother

/-- So a conformance need not name the protocol that its record refers to. -/
theorem not_attached_protocol :
    ¬∀ (s : Settings) (requests : List (World × Request)) (w : World) (start : Address)
      (count : Nat) (record : ConformanceRecord) (r r' : Registry),
      (after s requests).Attaches w start count record r r' →
      ∃ p a t, record.protocol = some p ∧
        record.conformingType.bind TypeReference.descriptor? = some a ∧
        r'.typeAt? a = some t ∧ ∃ c ∈ t.conformances, c.witnessTable = record.witnessTable ∧
          c.protocol.descriptor.address = p := by
  intro h
  obtain ⟨r, r', hattaches, haddresses⟩ := exists_attaches_twin
  obtain ⟨p, a, t, hp, ha, ht, c, hc, -, hown⟩ := h {} [] _ _ _ _ _ _ hattaches
  cases hp
  cases ha
  rw [ht, Option.map_some] at haddresses
  have hmem : c.protocol.descriptor.address
      ∈ t.conformances.map fun c => c.protocol.descriptor.address :=
    List.mem_map_of_mem hc
  rw [Option.some.inj haddresses, List.mem_singleton, hown] at hmem
  exact absurd hmem (by decide)

end Registry

end TypeMetadata
