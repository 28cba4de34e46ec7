import TypeMetadata.Proofs.AttachedConformances

/-!
# Loading a section record by record

A section is decoded as a whole before anything is registered, and then its records are met in
order. `SectionKind.Ends` says how that ends: with nothing done, with every record met, or at the
first record that fails, where the registry is what the records before it have made of it
(`loads_in_order`). Only a conformance can leave something of a failing record behind: the protocol
that was registered before the type failed.
-/

namespace TypeMetadata

open InspectOn (Passes)

namespace Registry

/-! ## New names -/

/-- The names that `r'` has and `r` has not, of types and then of protocols. -/
def newNames (r r' : Registry) : List String :=
  (r'.typeEntries.map Prod.fst).filter (· ∉ r.typeEntries.map Prod.fst) ++
    (r'.protocolEntries.map Prod.fst).filter (· ∉ r.protocolEntries.map Prod.fst)

theorem length_filter_notMem {l l' : List String} (h : l <+: l') (hnodup : l'.Nodup) :
    (l'.filter (· ∉ l)).length = l'.length - l.length := by
  obtain ⟨more, rfl⟩ := h
  have hdisjoint := (List.nodup_append.1 hnodup).2.2
  have hold : l.filter (· ∉ l) = [] := by simp
  have hnew : more.filter (· ∉ l) = more := by
    rw [List.filter_eq_self]
    intro n hn
    have : n ∉ l := fun hl => hdisjoint n hl n hn rfl
    simpa using this
  rw [List.filter_append, hold, hnew, List.nil_append, List.length_append, Nat.add_sub_cancel_left]

/-- A registry that has only been added to has as many new names as entries. -/
theorem length_newNames {r r' : Registry} (h : Follows r r') :
    (r.newNames r').length = r'.count - r.count := by
  obtain ⟨hconsistent, hextends⟩ := h
  have htypes : r.typeEntries.map Prod.fst <+: r'.typeEntries.map Prod.fst := by
    have := hextends.types.map Prod.fst
    simpa [Function.comp_def] using this
  have hprotocols := hextends.protocols.map Prod.fst
  have htypes' := htypes.length_le
  have hprotocols' := hprotocols.length_le
  rw [newNames, List.length_append, length_filter_notMem htypes hconsistent.types_nodup,
    length_filter_notMem hprotocols hconsistent.protocols_nodup]
  simp only [List.length_map, count] at *
  omega

theorem Follows.trans {r₁ r₂ r₃ : Registry} (h : Follows r₁ r₂) (h' : Follows r₂ r₃) :
    Follows r₁ r₃ :=
  ⟨h'.1, h.2.trans h'.2⟩

theorem count_le {r r' : Registry} (h : Follows r r') : r.count ≤ r'.count := by
  have htypes := h.2.types.length_le
  have hprotocols := h.2.protocols.length_le
  simp only [List.length_map, count] at *
  omega

/-! ## Single descriptors -/

section Descriptors

variable {r r' : Registry} {w w' : World} {a : Address} {e : Error}

/-- A descriptor that is not registered is read, and nothing changes if it cannot be. -/
theorem runOn_registerType_of_none (h : r.typeAt? a = none) (w : World) :
    (registerType a).runOn r w =
      match (NominalType.read r.settings a).run w with
      | (.ok t, w') => ((.ok (r.addType a t).1, (r.addType a t).2), w')
      | (.error e, w') => ((.error e, r), w') := by
  unfold registerType
  rw [InspectOn.runOn_bind, InspectOn.runOn_current]
  simp only [h]
  rw [InspectOn.runOn_bind, InspectOn.runOn_lift]
  rcases (NominalType.read r.settings a).run w with ⟨e | t, w'⟩ <;> rfl

theorem runOn_registerProtocol_of_none (h : r.protocolAt? a = none) (w : World) :
    (registerProtocol a).runOn r w =
      match w.decode (Protocol.read r.settings.limits a) with
      | .ok p => ((.ok (r.addProtocol a p).1, (r.addProtocol a p).2), w)
      | .error e => ((.error e, r), w) := by
  unfold registerProtocol
  rw [InspectOn.runOn_bind, InspectOn.runOn_current]
  simp only [h]
  refine (InspectOn.runOn_decode_bind (Protocol.read r.settings.limits a) _ r w).trans ?_
  rcases w.decode (Protocol.read r.settings.limits a) with e | p <;> rfl

theorem eq_of_registerType_error (h : (registerType a).runOn r w = ((.error e, r'), w')) :
    r' = r := by
  rcases ha : r.typeAt? a with _ | t
  · rw [runOn_registerType_of_none ha] at h
    rcases hx : (NominalType.read r.settings a).run w with ⟨e | t, w₁⟩ <;> rw [hx] at h <;> cases h
    rfl
  · rw [runOn_registerType ha] at h
    cases h

theorem eq_of_registerProtocol_error (h : (registerProtocol a).runOn r w = ((.error e, r'), w')) :
    r' = r := by
  rcases ha : r.protocolAt? a with _ | p
  · rw [runOn_registerProtocol_of_none ha] at h
    rcases hx : w.decode (Protocol.read r.settings.limits a) with e | p <;> rw [hx] at h <;> cases h
    rfl
  · rw [runOn_registerProtocol ha] at h
    cases h

/-- To register a protocol changes no type. -/
theorem of_registerProtocol_ok {p : Protocol}
    (h : (registerProtocol a).runOn r w = ((.ok p, r'), w')) :
    r'.typeEntries = r.typeEntries ∧ r'.protocolAt? a = some p := by
  rcases ha : r.protocolAt? a with _ | q
  · rw [runOn_registerProtocol_of_none ha] at h
    rcases hx : w.decode (Protocol.read r.settings.limits a) with e | q <;> rw [hx] at h <;> cases h
    refine ⟨?_, protocolAt?_addProtocol r a q⟩
    unfold addProtocol
    simp only
    split <;> rfl
  · rw [runOn_registerProtocol ha] at h
    cases h
    exact ⟨rfl, ha⟩

end Descriptors

/-! ## Single records -/

section Records

variable {r r' : Registry} {w w' : World} {e : Error}

/-- What a type record asks for: its protocol or its type to be registered, or nothing. -/
def request? (w : World) (record : TypeRecord) : Except Error (Option Request) :=
  match record.reference.bind TypeReference.descriptor? with
  | none => .ok none
  | some a =>
    (w.decode (ContextDescriptor.decode a)).map fun
      | .protocolType _ => some (.protocol a)
      | .classType _ | .structType _ | .enumType _ => some (.type a)
      | .moduleContext _ | .other _ => none

/-- Meet what is asked for, if anything is. -/
def meet : Except Error (Option Request) → InspectOn Registry Unit
  | .error e => throw e
  | .ok none => pure ()
  | .ok (some q) => perform q

theorem runOn_loadTypeRecord (record : TypeRecord) (r : Registry) (w : World) :
    (loadTypeRecord record).runOn r w = (meet (request? w record)).runOn r w := by
  unfold loadTypeRecord request?
  rcases record.reference.bind TypeReference.descriptor? with _ | a
  · rfl
  · refine (InspectOn.runOn_decode_bind (ContextDescriptor.decode a) _ r w).trans ?_
    simp only
    rcases w.decode (ContextDescriptor.decode a) with e | d
    · rfl
    · cases d <;> rfl

/-- A type record that fails leaves the registry as it was. -/
theorem eq_of_loadTypeRecord_error {record : TypeRecord}
    (h : (loadTypeRecord record).runOn r w = ((.error e, r'), w')) : r' = r := by
  unfold loadTypeRecord at h
  rcases ha : record.reference.bind TypeReference.descriptor? with _ | a <;> rw [ha] at h
  · cases h
  have h := (InspectOn.runOn_decode_bind (ContextDescriptor.decode a) _ r w).symm.trans h
  rcases hd : w.decode (ContextDescriptor.decode a) with e | d <;> rw [hd] at h
  · cases h
    rfl
  simp only at h
  split at h
  · exact eq_of_registerProtocol_error (InspectOn.runOn_of_discard_error h)
  · exact eq_of_registerType_error (InspectOn.runOn_of_discard_error h)
  · exact eq_of_registerType_error (InspectOn.runOn_of_discard_error h)
  · exact eq_of_registerType_error (InspectOn.runOn_of_discard_error h)
  · cases h
  · cases h

/-- A conformance that refers to no protocol or to no type with a descriptor is skipped. -/
theorem runOn_loadConformance_of_missing {record : ConformanceRecord}
    (missing : ∀ p a, record.protocol = some p →
      record.conformingType.bind TypeReference.descriptor? ≠ some a) (r : Registry) (w : World) :
    (loadConformance record).runOn r w = ((.ok false, r), w) := by
  unfold loadConformance
  rcases hp : record.protocol with _ | p
  · rfl
  rcases ha : record.conformingType.bind TypeReference.descriptor? with _ | a
  · rfl
  · exact absurd ha (missing p a hp)

/-- Another one has its protocol registered, then its type, and is attached if the type is its
own. -/
theorem runOn_loadConformance {record : ConformanceRecord} {p a : Address}
    (hp : record.protocol = some p)
    (ha : record.conformingType.bind TypeReference.descriptor? = some a) (r : Registry)
    (w : World) :
    (loadConformance record).runOn r w =
      match (registerProtocol p).runOn r w with
      | ((.error e, r₁), w₁) => ((.error e, r₁), w₁)
      | ((.ok q, r₁), w₁) =>
        match (registerType a).runOn r₁ w₁ with
        | ((.error e, r₂), w₂) => ((.error e, r₂), w₂)
        | ((.ok t, r₂), w₂) =>
          if t.descriptorAddress ≠ a then ((.ok false, r₂), w₂)
          else ((.ok true, r₂.putType (t.attach ⟨q, record.witnessTable⟩)), w₂) := by
  unfold loadConformance
  rw [hp, ha]
  simp only
  rw [InspectOn.runOn_bind]
  rcases (registerProtocol p).runOn r w with ⟨⟨e | q, r₁⟩, w₁⟩
  · rfl
  simp only
  rw [InspectOn.runOn_bind]
  rcases (registerType a).runOn r₁ w₁ with ⟨⟨e | t, r₂⟩, w₂⟩
  · rfl
  simp only
  split <;> rfl

/-- What a conformance that fails leaves behind: nothing, or the protocol that it names, with the
types as they were. -/
inductive ConformanceFails (record : ConformanceRecord) (r : Registry) (w : World) (e : Error)
    (r' : Registry) (w' : World) : Prop where
  | protocol (p : Address) (named : record.protocol = some p)
    (fails : (registerProtocol p).runOn r w = ((.error e, r'), w')) (same : r' = r)
  | type (p a : Address) (q : Protocol) (w₁ : World) (named : record.protocol = some p)
    (conforming : record.conformingType.bind TypeReference.descriptor? = some a)
    (registers : (registerProtocol p).runOn r w = ((.ok q, r'), w₁))
    (fails : (registerType a).runOn r' w₁ = ((.error e, r'), w'))
    (registered : r'.protocolAt? p = some q) (types : r'.typeEntries = r.typeEntries)

theorem conformanceFails {record : ConformanceRecord}
    (h : (loadConformance record).runOn r w = ((.error e, r'), w')) :
    ConformanceFails record r w e r' w' := by
  rcases hp : record.protocol with _ | p
  · rw [runOn_loadConformance_of_missing (by simp [hp])] at h
    cases h
  rcases ha : record.conformingType.bind TypeReference.descriptor? with _ | a
  · rw [runOn_loadConformance_of_missing (by simp [ha])] at h
    cases h
  rw [runOn_loadConformance hp ha] at h
  rcases hq : (registerProtocol p).runOn r w with ⟨⟨e₁ | q, r₁⟩, w₁⟩ <;> rw [hq] at h
  · cases h
    exact .protocol p hp hq (eq_of_registerProtocol_error hq)
  obtain ⟨htypes, hregistered⟩ := of_registerProtocol_ok hq
  rcases ht : (registerType a).runOn r₁ w₁ with ⟨⟨e₂ | t, r₂⟩, w₂⟩ <;> simp only [ht] at h
  · cases h
    obtain rfl := eq_of_registerType_error ht
    exact .type p a q w₁ hp ha hq ht hregistered htypes
  · split at h <;> cases h

theorem ConformanceFails.typeEntries_eq {record : ConformanceRecord}
    (h : ConformanceFails record r w e r' w') : r'.typeEntries = r.typeEntries := by
  cases h with
  | protocol p named fails same => rw [same]
  | type p a q w₁ named conforming registers fails registered types => exact types

end Records

/-! ## Whole sections -/

/-- A kind of section: how its records are read, what is done about one of them, what the whole
answers, from the registry before and after it and from what the records answered, and what a
record that fails may leave behind. -/
structure SectionKind (γ α : Type) where
  read : Address → Nat → Decoder (List γ)
  load : Address → Nat → InspectOn Registry Nat
  step : γ → InspectOn Registry α
  answer : Registry → Registry → List α → Nat
  Leaves : γ → Registry → World → Error → Registry → World → Prop

namespace SectionKind

/-- The answer counts the new names; a record that fails leaves nothing behind. -/
def types : SectionKind TypeRecord Unit where
  read := TypeRecord.readSection
  load := loadTypes
  step := loadTypeRecord
  answer r r' _ := (r.newNames r').length
  Leaves _ r _ _ r' _ := r' = r

/-- The answer counts the records that were attached. -/
def conformances : SectionKind ConformanceRecord Bool where
  read := ConformanceRecord.readSection
  load := loadConformances
  step := loadConformance
  answer _ _ answers := answers.count true
  Leaves := ConformanceFails

variable {γ α : Type}

/-- How it ends to load `count` entries at `start` into `r`. -/
inductive Ends (k : SectionKind γ α) (r : Registry) (w : World) (start : Address) (count : Nat) :
    Prop where
  /-- Nothing is done about a section that cannot be read. -/
  | unread (e : Error) (fails : w.decode (k.read start count) = .error e)
    (run : (k.load start count).runOn r w = ((.error e, r), w))
  | loaded (records : List γ) (answers : List α) (r' : Registry) (w' : World)
    (reads : w.decode (k.read start count) = .ok records)
    (passes : Passes k.step records r w answers r' w')
    (run : (k.load start count).runOn r w = ((.ok (k.answer r r' answers), r'), w'))
  /-- The first record that fails is met where a load of the entries before it ends. -/
  | stopped (before : List γ) (record : γ) (rest : List γ) (n : Nat) (answers : List α)
    (r₁ r₂ : Registry) (w₁ w₂ : World) (e : Error)
    (reads : w.decode (k.read start count) = .ok (before ++ record :: rest))
    (fewer : n ≤ count) (readsBefore : w.decode (k.read start n) = .ok before)
    (passes : Passes k.step before r w answers r₁ w₁)
    (runBefore : (k.load start n).runOn r w = ((.ok (k.answer r r₁ answers), r₁), w₁))
    (fails : (k.step record).runOn r₁ w₁ = ((.error e, r₂), w₂))
    (leaves : k.Leaves record r₁ w₁ e r₂ w₂)
    (run : (k.load start count).runOn r w = ((.error e, r₂), w₂))

/-- A section that can be read but not loaded stops at a record that fails. -/
theorem Ends.exists_stopped {k : SectionKind γ α} {r : Registry} {w : World} {start : Address}
    {count : Nat} (h : k.Ends r w start count)
    (reads : (w.decode (k.read start count)).toOption.isSome = true)
    (fails : ((k.load start count).runOn r w).1.1.toOption = none) :
    ∃ n a record e r₁ r₂ w₁ w₂, n ≤ count ∧
      (k.load start n).runOn r w = ((.ok a, r₁), w₁) ∧ k.Leaves record r₁ w₁ e r₂ w₂ ∧
      (k.load start count).runOn r w = ((.error e, r₂), w₂) := by
  cases h with
  | unread e unread run =>
    rw [unread] at reads
    cases reads
  | loaded records answers r' w' read passes run =>
    rw [run] at fails
    cases fails
  | stopped before record rest n answers r₁ r₂ w₁ w₂ e read fewer readBefore passes runBefore last
      leaves run =>
    exact ⟨n, _, record, e, r₁, r₂, w₁, w₂, fewer, runBefore, leaves, run⟩

/-- Where the first entries were loaded and have left the memory as it was, a load of the rest ends
as one of the whole does, and the answers add up. -/
def Resumes (k : SectionKind γ α) (r : Registry) (w : World) (start : Address) : Prop :=
  ∀ n l records a r₁ w₁, w.decode (k.read start (n + l)) = .ok records →
    (k.load start n).runOn r w = ((.ok a, r₁), w₁) → w₁.memory = w.memory →
    (k.load start (n + l)).runOn r w =
      (do return a + (← k.load (start + sectionEntrySize * UInt64.ofNat n) l)).runOn r₁ w₁

/-- A section is read before it is loaded, record by record and each from a whole number of its
entries, and it can be loaded in two parts. -/
structure InOrder (k : SectionKind γ α) : Prop where
  run : ∀ {r : Registry}, r.Consistent → ∀ w start n,
    (k.load start n).runOn r w =
      match w.decode (k.read start n) with
      | .error e => ((.error e, r), w)
      | .ok records =>
        match (records.mapM k.step).runOn r w with
        | ((.error e, r'), w') => ((.error e, r'), w')
        | ((.ok answers, r'), w') => ((.ok (k.answer r r' answers), r'), w')
  keeps : ∀ r₀ record, InspectOn.Keeps (Follows r₀) (k.step record)
  leaves : ∀ {record r w e r' w'}, (k.step record).runOn r w = ((.error e, r'), w') →
    k.Leaves record r w e r' w'
  read_of_append : ∀ {m start n before rest}, k.read start n m = .ok (before ++ rest) →
    ∃ l ≤ n, k.read start l m = .ok before
  read_add : ∀ start n l, k.read start (n + l) = do
    let xs ← k.read start n
    let ys ← k.read (start + sectionEntrySize * UInt64.ofNat n) l
    return xs ++ ys
  answer_append : ∀ {r r₁ r₂}, Follows r r₁ → Follows r₁ r₂ → ∀ as bs,
    k.answer r r₂ (as ++ bs) = k.answer r r₁ as + k.answer r₁ r₂ bs

namespace InOrder

variable {k : SectionKind γ α} (hk : k.InOrder) {r : Registry} (hr : r.Consistent)
include hk hr

/-- A section of which every record passes is answered for. -/
theorem run_of_passes {w w' : World} {start : Address} {count : Nat} {records : List γ}
    {answers : List α} {r' : Registry} (hreads : w.decode (k.read start count) = .ok records)
    (hpasses : Passes k.step records r w answers r' w') :
    (k.load start count).runOn r w = ((.ok (k.answer r r' answers), r'), w') := by
  rw [hk.run hr, hreads]
  simp only [hpasses.runOn_mapM]

theorem ends (w : World) (start : Address) (count : Nat) : k.Ends r w start count := by
  have hrun := hk.run hr w start count
  rcases hreads : w.decode (k.read start count) with e | records <;> rw [hreads] at hrun
  · exact .unread e hreads hrun
  rcases InspectOn.passes_or_fails k.step records r w with ⟨answers, r', w', hpasses⟩ |
    ⟨before, record, rest, answers, r₁, w₁, e, r₂, w₂, rfl, hpasses, hfails⟩
  · exact .loaded records answers r' w' hreads hpasses (hk.run_of_passes hr hreads hpasses)
  · simp only [hpasses.runOn_mapM_error hfails] at hrun
    obtain ⟨n, hn, hbefore⟩ := hk.read_of_append hreads
    exact .stopped before record rest n answers r₁ r₂ w₁ w₂ e hreads hn hbefore hpasses
      (hk.run_of_passes hr hbefore hpasses) hfails (hk.leaves hfails) hrun

/-- A section that is answered for was read, and every record of it passed. -/
theorem of_answer {w w' : World} {start : Address} {count n : Nat} {r' : Registry}
    (h : (k.load start count).runOn r w = ((.ok n, r'), w')) :
    ∃ records answers, w.decode (k.read start count) = .ok records ∧
      Passes k.step records r w answers r' w' ∧ n = k.answer r r' answers := by
  cases hk.ends hr w start count with
  | unread e fails run =>
    rw [run] at h
    cases h
  | loaded records answers r₁ w₁ reads passes run =>
    rw [run] at h
    cases h
    exact ⟨records, answers, reads, passes, rfl⟩
  | stopped _ _ _ _ _ _ _ _ _ _ _ _ _ _ _ _ _ run =>
    rw [run] at h
    cases h

theorem resumes (w : World) (start : Address) : k.Resumes r w start := by
  intro n l records a r₁ w₁ hreads hfirst hmemory
  have hrun := hk.run hr w start (n + l)
  rw [hreads] at hrun
  rw [World.decode, hk.read_add] at hreads
  obtain ⟨xs, hxs, hreads⟩ := Decoder.of_bind_ok hreads
  obtain ⟨ys, hys, hreads⟩ := Decoder.of_bind_ok hreads
  cases hreads
  have hkeeps := InspectOn.Keeps.mapM (hk.keeps r) xs
  rw [hk.run hr, World.decode, hxs] at hfirst
  simp only at hfirst
  rcases hx : (xs.mapM k.step).runOn r w with ⟨⟨e | as, r₁'⟩, w₁'⟩ <;> rw [hx] at hfirst <;>
    cases hfirst
  have hfollows : Follows r r₁ := by
    have := hkeeps.run w ⟨hr, Extends.refl r⟩
    rwa [hx] at this
  have hsecond := hk.run hfollows.1 w₁ (start + sectionEntrySize * UInt64.ofNat n) l
  rw [World.decode, hmemory, hys] at hsecond
  simp only at hsecond
  rw [hrun, InspectOn.runOn_bind, hsecond]
  simp only [List.mapM_append, InspectOn.runOn_bind, hx]
  have hkeeps' := (InspectOn.Keeps.mapM (hk.keeps r₁) ys).run w₁ ⟨hfollows.1, Extends.refl r₁⟩
  rcases hy : (ys.mapM k.step).runOn r₁ w₁ with ⟨⟨e | bs, r₂⟩, w₂⟩
  · rfl
  · rw [hy] at hkeeps'
    have hanswer := hk.answer_append hfollows hkeeps' as bs
    change ((Except.ok (k.answer r r₂ (as ++ bs)), r₂), w₂) = _
    rw [hanswer]
    rfl

end InOrder

theorem inOrder_types : types.InOrder where
  run {r} hr w start n := by
    have hrun : (loadTypes start n).runOn r w = _ :=
      InspectOn.runOn_decode_bind (TypeRecord.readSection start n) _ r w
    refine hrun.trans ?_
    simp only [types]
    rcases w.decode (TypeRecord.readSection start n) with e | records
    · rfl
    have hkeeps := (InspectOn.Keeps.mapM (keeps_loadTypeRecord (stable_follows r)) records).run w
      ⟨hr, Extends.refl r⟩
    simp only [InspectOn.runOn_bind, InspectOn.runOn_current, InspectOn.runOn_forM]
    rcases hx : (records.mapM loadTypeRecord).runOn r w with ⟨⟨e | answers, r'⟩, w'⟩
    · rfl
    · rw [hx] at hkeeps
      have hnew : (r.newNames r').length = r'.count - r.count := length_newNames hkeeps
      simp only [hnew]
      rfl
  keeps r₀ record := keeps_loadTypeRecord (stable_follows r₀) record
  leaves h := eq_of_loadTypeRecord_error h
  read_of_append h := ⟨_, Decoder.series_of_append h⟩
  read_add start n l := Decoder.series_add n l start
  answer_append {r r₁ r₂} h h' as bs := by
    have hcount := count_le h
    have hcount' := count_le h'
    simp only [types, length_newNames h, length_newNames h', length_newNames (h.trans h')]
    omega

theorem inOrder_conformances : conformances.InOrder where
  run {r} _ w start n := by
    have hrun : (loadConformances start n).runOn r w = _ :=
      InspectOn.runOn_decode_bind (ConformanceRecord.readSection start n) _ r w
    refine hrun.trans ?_
    simp only [conformances]
    rcases w.decode (ConformanceRecord.readSection start n) with e | records
    · rfl
    simp only [InspectOn.runOn_bind]
    rcases (records.mapM loadConformance).runOn r w with ⟨⟨e | answers, r'⟩, w'⟩ <;> rfl
  keeps := keeps_loadConformance
  leaves h := conformanceFails h
  read_of_append h := by
    obtain ⟨entries, hentries, h⟩ := Decoder.of_bind_ok h
    obtain ⟨before, rest, rfl, rfl, -⟩ := List.filterMap_eq_append_iff.1 (Except.ok.inj h)
    obtain ⟨hfewer, hbefore⟩ := Decoder.series_of_append hentries
    exact ⟨_, hfewer, Decoder.bind_of_ok hbefore⟩
  read_add start n l := by
    simp only [conformances, ConformanceRecord.readSection, Decoder.series_add]
    simp
  answer_append _ _ as bs := List.count_append

end SectionKind

/-- Whatever has been asked of a registry, a section is loaded in order of its records and stops at
the first that fails, where only a conformance leaves something behind: the protocol registered
before its type failed. What is asked for by a type record goes by the descriptor it refers to, and
the answer to conformances counts what was attached. A descriptor that cannot be registered changes
nothing, and a section may be loaded in parts. -/
theorem loads_in_order (s : Settings) (requests : List (World × Request)) (w : World)
    (start : Address) (count : Nat) :
    (SectionKind.types.Ends (after s requests) w start count ∧
      SectionKind.conformances.Ends (after s requests) w start count) ∧
    (∀ record r w, (loadTypeRecord record).runOn r w = (meet (request? w record)).runOn r w) ∧
    (∀ n, ((loadConformances start count).runOn (after s requests) w).1.1 = .ok n →
      ((after s requests).attached w (.conformanceSection start count)).length = n) ∧
    (∀ a e r' w', (registerType a).runOn (after s requests) w = ((.error e, r'), w') →
      r' = after s requests) ∧
    (∀ a e r' w', (registerProtocol a).runOn (after s requests) w = ((.error e, r'), w') →
      r' = after s requests) ∧
    SectionKind.types.Resumes (after s requests) w start ∧
    SectionKind.conformances.Resumes (after s requests) w start := by
  have hr := consistent_after s requests
  refine ⟨⟨SectionKind.inOrder_types.ends hr w start count,
    SectionKind.inOrder_conformances.ends hr w start count⟩, runOn_loadTypeRecord, fun n hn => ?_,
    fun a e r' w' => eq_of_registerType_error, fun a e r' w' => eq_of_registerProtocol_error,
    SectionKind.inOrder_types.resumes hr w start,
    SectionKind.inOrder_conformances.resumes hr w start⟩
  have hload := recorded_loadConformances start count (recorded_after s requests) w
  rcases hx : (loadConformances start count).runOn (after s requests) w with ⟨⟨e | n', r'⟩, w'⟩ <;>
    rw [hx] at hload hn <;> cases hn
  exact hload.2

end Registry

/-- A section of two structs, an address where nothing is, and a protocol; and one of a conformance
of the first struct, and of another from that address. -/
def Emit.cutShort : Build Address := do
  let m ← moduleContext "M"
  let t ← structType { name := "T", parent := m, generic := true } 0 0
  let u ← structType { name := "U", parent := m, generic := true } 0 0
  let p ← protocolType "P" m 0 false
  let q ← protocolType "Q" m 0 false
  let _ ← typeRecords [t, u, ⟨0x800⟩, p]
  conformanceRecords [← conformance p t none, ← conformance q ⟨0x800⟩ none]

namespace Registry

/-- A process with these two sections. -/
def showingCutShort : World := .showing Emit.cutShort

/-- The types in front of the record that fails are registered, and are what a load of their records
alone leaves. Of the conformances the first is attached; the second leaves its protocol behind. -/
theorem loads_in_order_cut_short :
    (∃ n a e r w w', n ≤ 4 ∧
      (loadTypes ⟨0x1098⟩ n).runOn (after {} []) showingCutShort = ((.ok a, r), w) ∧
      (loadTypes ⟨0x1098⟩ 4).runOn (after {} []) showingCutShort = ((.error e, r), w') ∧
      r.types.map NominalType.qualifiedName = ["M.T", "M.U"]) ∧
    (∃ n a e r₁ r₂ w₁ w₂, n ≤ 2 ∧
      (loadConformances ⟨0x10C8⟩ n).runOn (after {} []) showingCutShort = ((.ok a, r₁), w₁) ∧
      (loadConformances ⟨0x10C8⟩ 2).runOn (after {} []) showingCutShort = ((.error e, r₂), w₂) ∧
      r₂.typeEntries = r₁.typeEntries ∧ r₂.protocols.map Protocol.name = ["P", "Q"]) ∧
    ((after {} []).attached showingCutShort (.conformanceSection ⟨0x10C8⟩ 1)).length = 1 ∧
    (∃ e w, (registerType ⟨0x800⟩).runOn (after {} []) showingCutShort =
      ((.error e, after {} []), w)) ∧
    (∃ e w, (registerProtocol ⟨0x800⟩).runOn (after {} []) showingCutShort =
      ((.error e, after {} []), w)) ∧
    ∃ r w, (loadTypes ⟨0x1098⟩ 1).runOn (after {} []) showingCutShort = ((.ok 1, r), w) ∧
      (loadTypes ⟨0x1098⟩ 2).runOn (after {} []) showingCutShort =
        (do return 1 + (← loadTypes ⟨0x109C⟩ 1)).runOn r w := by
  obtain ⟨htypes, hconformances, hattached, hnothing, hparts⟩ :
      ((showingCutShort.decode (TypeRecord.readSection ⟨0x1098⟩ 4)).toOption.isSome ∧
        ((loadTypes ⟨0x1098⟩ 4).runOn (after {} []) showingCutShort).1.1.toOption = none ∧
        ((loadTypes ⟨0x1098⟩ 4).runOn (after {} []) showingCutShort).1.2.types.map
          NominalType.qualifiedName = ["M.T", "M.U"]) ∧
      ((showingCutShort.decode (ConformanceRecord.readSection ⟨0x10C8⟩ 2)).toOption.isSome ∧
        ((loadConformances ⟨0x10C8⟩ 2).runOn (after {} []) showingCutShort).1.1.toOption = none ∧
        ((loadConformances ⟨0x10C8⟩ 2).runOn (after {} []) showingCutShort).1.2.protocols.map
          Protocol.name = ["P", "Q"]) ∧
      ((loadConformances ⟨0x10C8⟩ 1).runOn (after {} []) showingCutShort).1.1 = .ok 1 ∧
      (((registerType ⟨0x800⟩).runOn (after {} []) showingCutShort).1.1.toOption = none ∧
        ((registerProtocol ⟨0x800⟩).runOn (after {} []) showingCutShort).1.1.toOption = none) ∧
      (showingCutShort.decode (TypeRecord.readSection ⟨0x1098⟩ 2)).toOption.isSome ∧
        ((loadTypes ⟨0x1098⟩ 1).runOn (after {} []) showingCutShort).1.1 = .ok 1 ∧
        ((loadTypes ⟨0x1098⟩ 1).runOn (after {} []) showingCutShort).2.memory =
          showingCutShort.memory := by
    decide +kernel
  -- From here on the process is any with these runs, which keeps it from being run again.
  generalize showingCutShort = w at *
  refine ⟨?types, ?conformances, ?attached, ?type, ?protocol, ?parts⟩
  case types =>
    obtain ⟨hreads, hfails, hnames⟩ := htypes
    obtain ⟨n, a, record, e, r, r', w₁, w₂, hn, hbefore, hsame, hall⟩ :=
      (loads_in_order {} [] w ⟨0x1098⟩ 4).1.1.exists_stopped hreads hfails
    obtain rfl : r' = r := hsame
    have hall : (loadTypes ⟨0x1098⟩ 4).runOn (after {} []) w = _ := hall
    rw [hall] at hnames
    exact ⟨n, a, e, r', w₁, w₂, hn, hbefore, hall, hnames⟩
  case conformances =>
    obtain ⟨hreads, hfails, hnames⟩ := hconformances
    obtain ⟨n, a, record, e, r₁, r₂, w₁, w₂, hn, hbefore, hleaves, hall⟩ :=
      (loads_in_order {} [] w ⟨0x10C8⟩ 2).1.2.exists_stopped hreads hfails
    have hall : (loadConformances ⟨0x10C8⟩ 2).runOn (after {} []) w = _ := hall
    rw [hall] at hnames
    exact ⟨n, a, e, r₁, r₂, w₁, w₂, hn, hbefore, hall, hleaves.typeEntries_eq, hnames⟩
  case attached =>
    exact (loads_in_order {} [] w ⟨0x10C8⟩ 1).2.2.1 1 hattached
  case type =>
    obtain ⟨e, r, w', herror⟩ := InspectOn.runOn_of_no_answer hnothing.1
    obtain rfl := (loads_in_order {} [] w ⟨0⟩ 0).2.2.2.1 _ _ _ _ herror
    exact ⟨e, w', herror⟩
  case protocol =>
    obtain ⟨e, r, w', herror⟩ := InspectOn.runOn_of_no_answer hnothing.2
    obtain rfl := (loads_in_order {} [] w ⟨0⟩ 0).2.2.2.2.1 _ _ _ _ herror
    exact ⟨e, w', herror⟩
  case parts =>
    obtain ⟨hreads, hone, hmemory⟩ := hparts
    have hone := InspectOn.runOn_of_answer hone
    rcases hrecords : w.decode (TypeRecord.readSection ⟨0x1098⟩ 2) with e | records
    · rw [hrecords] at hreads
      cases hreads
    · exact ⟨_, _, hone, (loads_in_order {} [] w ⟨0x1098⟩ 2).2.2.2.2.2.1 1 1 records _ _ _
        hrecords hone hmemory⟩

end Registry

end TypeMetadata
