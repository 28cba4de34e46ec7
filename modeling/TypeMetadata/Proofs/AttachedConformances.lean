import TypeMetadata.Emit.Nominal
import TypeMetadata.Emit.Section
import TypeMetadata.Proofs.LoadedImage
import TypeMetadata.Proofs.RegistryIndex

/-!
# Conformances that stay attached

`history` lists what the conformance records of a run attach, in order and with the addresses of the
types' descriptors. At any time the conformances of a registered type are those attached to it, put
one after another under their protocols' names (`recorded_after`). So none is lost but to a later
one whose protocol has the same name in another module.
-/

namespace TypeMetadata

namespace Registry

/-- A conformance and the address of its type's descriptor. -/
structure Attachment where
  descriptor : Address
  conformance : Conformance
deriving DecidableEq

/-- What a record attaches, when its protocol is registered. -/
def attachment? (r : Registry) (record : ConformanceRecord) : Option Attachment := do
  let p ← record.protocol
  let a ← record.conformingType.bind TypeReference.descriptor?
  return ⟨a, ⟨← r.protocolAt? p, record.witnessTable⟩⟩

theorem attachment?_of_protocolAt? {r : Registry} {record : ConformanceRecord} {p a : Address}
    {q : Protocol} (hp : record.protocol = some p)
    (ha : record.conformingType.bind TypeReference.descriptor? = some a)
    (hq : r.protocolAt? p = some q) :
    r.attachment? record = some ⟨a, ⟨q, record.witnessTable⟩⟩ := by
  unfold attachment?
  rw [hp, ha]
  change (do return ⟨a, ⟨← r.protocolAt? p, _⟩⟩ : Option Attachment) = _
  rw [hq]
  rfl

/-- What records attach one after another, up to the first that fails. -/
def attachments : List ConformanceRecord → Registry → World → List Attachment
  | [], _, _ => []
  | record :: rest, r, w =>
    match (loadConformance record).runOn r w with
    | ((.ok true, r'), w') => (r'.attachment? record).toList ++ attachments rest r' w'
    | ((.ok false, r'), w') => attachments rest r' w'
    | ((.error _, _), _) => []

/-- What a request attaches. -/
def attached (r : Registry) (w : World) : Request → List Attachment
  | .type _ | .protocol _ | .typeSection .. => []
  | .conformanceSection start count =>
    match w.decode (ConformanceRecord.readSection start count) with
    | .ok records => attachments records r w
    | .error _ => []

/-- What requests attach from here on. -/
def historyFrom (r : Registry) : List (World × Request) → List Attachment
  | [] => []
  | (w, q) :: rest => r.attached w q ++ (r.next w q).historyFrom rest

/-- What is attached in a whole run. -/
def history (s : Settings) (requests : List (World × Request)) : List Attachment :=
  historyFrom { settings := s } requests

/-- The conformances attached to the type with its descriptor at `a`. -/
def attachedTo (h : List Attachment) (a : Address) : List Conformance :=
  (h.filter fun e => e.descriptor = a).map Attachment.conformance

/-- Each registered type has the conformances attached to it, and nothing else is attached. -/
structure Recorded (h : List Attachment) (r : Registry) : Prop where
  consistent : r.Consistent
  conformances_eq : ∀ n t, r.typeNamed? n = some t →
    t.conformances = (attachedTo h t.descriptorAddress).foldl
      (fun cs c => Keyed.put Conformance.key c cs) []
  registered : ∀ e ∈ h, ∃ n, r.typeName? e.descriptor = some n

variable {h : List Attachment} {r : Registry} {s : Settings} {a : Address} {c : Conformance}

theorem attachedTo_append (h h' : List Attachment) (a : Address) :
    attachedTo (h ++ h') a = attachedTo h a ++ attachedTo h' a := by
  simp [attachedTo]

theorem attachedTo_singleton (a b : Address) (c : Conformance) :
    attachedTo [⟨a, c⟩] b = if a = b then [c] else [] := by
  by_cases hb : a = b <;> simp [attachedTo, hb]

theorem mem_attachedTo : c ∈ attachedTo h a ↔ ⟨a, c⟩ ∈ h := by
  simp only [attachedTo, List.mem_map, List.mem_filter, decide_eq_true_eq]
  constructor
  · rintro ⟨e, ⟨he, rfl⟩, rfl⟩
    exact he
  · exact fun he => ⟨_, ⟨he, rfl⟩, rfl⟩

theorem Recorded.empty (s : Settings) : Recorded [] { settings := s } where
  consistent := .empty s
  conformances_eq _ _ ht := by simp [typeNamed?, Keyed.lookup?, Keyed.find?] at ht
  registered _ he := nomatch he

/-! ## What one record does -/

theorem Recorded.attachedTo_eq_nil (hr : Recorded h r) (ha : r.typeAt? a = none) :
    attachedTo h a = [] := by
  refine List.eq_nil_iff_forall_not_mem.2 fun c hc => ?_
  obtain ⟨n, hn⟩ := hr.registered _ (mem_attachedTo.1 hc)
  rw [hr.consistent.typeName?_of_typeAt? ha] at hn
  cases hn

theorem stable_recorded (h : List Attachment) : Stable (Recorded h) where
  consistent _ hr := hr.consistent
  addType r a t hr ha ht hnew := by
    have hnil := hr.attachedTo_eq_nil ha
    have hc := hr.consistent.addType ha ht
    unfold Registry.addType at hc ⊢
    rcases hn : r.typeNamed? t.qualifiedName with _ | first <;> rw [hn] at hc
    · refine ⟨hc, fun n u hu => ?_, fun e he => ?_⟩
      · change (r.putType t).typeNamed? n = some u at hu
        rw [typeNamed?_putType] at hu
        split at hu
        · cases hu
          rw [ht, hnil, hnew]
          rfl
        · exact hr.conformances_eq n u hu
      · obtain ⟨n, hn⟩ := hr.registered e he
        change ∃ n, Keyed.lookup? _ (Keyed.put _ _ _) = some n
        rw [Keyed.lookup?_put]
        split
        · exact ⟨_, rfl⟩
        · exact ⟨n, hn⟩
    · exact hr
  addProtocol r a p hr ha hp := by
    have hc := hr.consistent.addProtocol ha hp
    have htypes : (r.addProtocol a p).2.typeEntries = r.typeEntries
        ∧ (r.addProtocol a p).2.typeNames = r.typeNames := by
      unfold Registry.addProtocol
      simp only
      split <;> exact ⟨rfl, rfl⟩
    refine ⟨hc, fun n t ht => ?_, fun e he => ?_⟩
    · rw [typeNamed?, htypes.1] at ht
      exact hr.conformances_eq n t ht
    · rw [typeName?, htypes.2]
      exact hr.registered e he

/-- One more conformance of a registered type. -/
theorem Recorded.attach {t : NominalType} (hr : Recorded h r)
    (ht : r.typeNamed? t.qualifiedName = some t) (c : Conformance) :
    Recorded (h ++ [⟨t.descriptorAddress, c⟩]) (r.putType (t.attach c)) := by
  refine ⟨hr.consistent.attach ht c, fun n u hu => ?_, fun e he => ?_⟩
  · rw [typeNamed?_putType] at hu
    rw [attachedTo_append, attachedTo_singleton]
    split at hu
    · cases hu
      have ha : (t.attach c).descriptorAddress = t.descriptorAddress := rfl
      rw [ha, if_pos rfl, List.foldl_append, ← hr.conformances_eq _ t ht]
      rfl
    · rename_i hne
      -- No two names lead to types with one descriptor.
      rw [if_neg, List.append_nil]
      · exact hr.conformances_eq n u hu
      · intro ha
        have hn := (hr.consistent.typeName?_iff _ _).2 ⟨t, ht, ha⟩
        rw [(hr.consistent.typeName?_iff _ _).2 ⟨u, hu, rfl⟩] at hn
        cases hn
        exact hne rfl
  · rcases List.mem_append.1 he with he | he
    · exact hr.registered e he
    · cases List.mem_singleton.1 he
      exact ⟨_, (hr.consistent.typeName?_iff _ _).2 ⟨t, ht, rfl⟩⟩

theorem protocolAt?_addProtocol_of_some {b : Address} {p : Protocol} (hb : r.protocolAt? b = some p)
    (ha : r.protocolAt? a = none) (q : Protocol) :
    (r.addProtocol a q).2.protocolAt? b = some p := by
  obtain ⟨n, hname, hn⟩ := Option.bind_eq_some_iff.1 hb
  have hne : a ≠ b := by
    rintro rfl
    rw [ha] at hb
    cases hb
  have hkept : Keyed.lookup? b (Keyed.put Prod.fst (a, q.qualifiedName) r.protocolNames)
      = some n := by
    rw [Keyed.lookup?_put, if_neg hne]
    exact hname
  unfold Registry.addProtocol
  rcases hq : r.protocolNamed? q.qualifiedName with _ | first
  · simp only [protocolNamed?] at hq hn
    simp only [protocolAt?, protocolName?, protocolNamed?, hq, hkept, Keyed.lookup?_put]
    rw [Option.bind_eq_bind, Option.bind_some, if_neg, hn]
    rintro rfl
    rw [hq] at hn
    cases hn
  · simp only [protocolNamed?] at hq hn
    simp only [protocolAt?, protocolName?, protocolNamed?, hq, hkept]
    exact hn

theorem stable_recorded_and (h : List Attachment) (b : Address) (p : Protocol) :
    Stable fun r => Recorded h r ∧ r.protocolAt? b = some p where
  consistent _ hr := hr.1.consistent
  addType r a t hr ha ht hnew := by
    refine ⟨(stable_recorded h).addType r a t hr.1 ha ht hnew, ?_⟩
    unfold Registry.addType
    split <;> exact hr.2
  addProtocol r a q hr ha hq :=
    ⟨(stable_recorded h).addProtocol r a q hr.1 ha hq, protocolAt?_addProtocol_of_some hr.2 ha q⟩

/-- A record that is counted attaches what it says, and another one attaches nothing. -/
theorem ensures_loadConformance (h : List Attachment) (record : ConformanceRecord) :
    InspectOn.Ensures (Recorded h) (loadConformance record)
      (fun attached r =>
        if attached then ∃ e, r.attachment? record = some e ∧ Recorded (h ++ [e]) r
        else Recorded h r)
      (Recorded h) := by
  unfold loadConformance
  rcases hp : record.protocol with _ | p
  · exact InspectOn.Ensures.pure fun _ hr => hr
  rcases ha : record.conformingType.bind TypeReference.descriptor? with _ | a
  · exact InspectOn.Ensures.pure fun _ hr => hr
  refine InspectOn.Ensures.bind (ensures_registerProtocol (stable_recorded h) p) fun protocol => ?_
  refine InspectOn.Ensures.bind
    (Q := fun t r => (Recorded h r ∧ r.protocolAt? p = some protocol)
      ∧ r.typeNamed? t.qualifiedName = some t)
    (fun r w hr => ?_) fun t => ?_
  · have := ensures_registerType (stable_recorded_and h p protocol) a r w hr
    rcases hx : (registerType a).runOn r w with ⟨⟨e | t, r'⟩, w'⟩ <;> rw [hx] at this
    · exact this.1
    · exact this
  · split
    · exact InspectOn.Ensures.pure fun r hr => hr.1.1
    · rename_i hta
      have hta : t.descriptorAddress = a := Decidable.not_not.1 hta
      rintro r w ⟨⟨hr, hprotocol⟩, ht⟩
      exact ⟨_, attachment?_of_protocolAt? hp ha hprotocol, hta ▸ hr.attach ht _⟩

/-! ## A whole run -/

theorem recorded_attachments (records : List ConformanceRecord) (hr : Recorded h r) (w : World) :
    match (records.mapM loadConformance).runOn r w with
    | ((.ok answers, r'), _) => Recorded (h ++ attachments records r w) r'
        ∧ (attachments records r w).length = answers.count true
    | ((.error _, r'), _) => Recorded (h ++ attachments records r w) r' := by
  induction records generalizing h r w with
  | nil => exact ⟨by simpa [attachments] using hr, rfl⟩
  | cons record records ih =>
    have hstep := ensures_loadConformance h record r w hr
    rw [List.mapM_cons, InspectOn.runOn_bind]
    unfold attachments
    rcases hx : (loadConformance record).runOn r w with ⟨⟨e | _ | _, r₁⟩, w₁⟩ <;> rw [hx] at hstep
    · simpa using hstep
    · have hrest := ih hstep w₁
      simp only [InspectOn.runOn_bind]
      rcases hy : (records.mapM loadConformance).runOn r₁ w₁ with ⟨⟨e | answers, r₂⟩, w₂⟩ <;>
        rw [hy] at hrest
      · exact hrest
      · exact ⟨hrest.1, by rw [hrest.2]; rfl⟩
    · obtain ⟨e, he, hr₁⟩ := hstep
      have hrest := ih hr₁ w₁
      rw [List.append_assoc] at hrest
      simp only [InspectOn.runOn_bind, he, Option.toList_some]
      rcases hy : (records.mapM loadConformance).runOn r₁ w₁ with ⟨⟨e | answers, r₂⟩, w₂⟩ <;>
        rw [hy] at hrest
      · exact hrest
      · exact ⟨hrest.1, by rw [List.length_append, hrest.2]; simp [Nat.add_comm]⟩

/-- The answer to a section of conformances counts what it attached. -/
theorem recorded_loadConformances (start : Address) (count : Nat) (hr : Recorded h r) (w : World) :
    match (loadConformances start count).runOn r w with
    | ((.ok n, r'), _) => Recorded (h ++ r.attached w (.conformanceSection start count)) r'
        ∧ (r.attached w (.conformanceSection start count)).length = n
    | ((.error _, r'), _) => Recorded (h ++ r.attached w (.conformanceSection start count)) r' := by
  have hrun : (loadConformances start count).runOn r w = _ :=
    InspectOn.runOn_decode_bind (ConformanceRecord.readSection start count)
      (fun records => do return (← records.mapM loadConformance).count true) r w
  rw [hrun]
  simp only [attached]
  rcases w.decode (ConformanceRecord.readSection start count) with e | records
  · simpa using hr
  · have hrecords := recorded_attachments records hr w
    simp only [InspectOn.runOn_bind]
    rcases hx : (records.mapM loadConformance).runOn r w with ⟨⟨e | answers, r'⟩, w'⟩ <;>
      rw [hx] at hrecords <;> exact hrecords

theorem recorded_next (hr : Recorded h r) (w : World) (q : Request) :
    Recorded (h ++ r.attached w q) (r.next w q) := by
  unfold next
  cases q with
  | type a =>
    rw [attached, List.append_nil]
    exact (keeps_registerType (stable_recorded h) a).discard.run w hr
  | protocol a =>
    rw [attached, List.append_nil]
    exact (keeps_registerProtocol (stable_recorded h) a).discard.run w hr
  | typeSection start count =>
    rw [attached, List.append_nil]
    exact (keeps_loadTypes (stable_recorded h) start count).discard.run w hr
  | conformanceSection start count =>
    have hload := recorded_loadConformances start count hr w
    rw [perform, InspectOn.runOn_discard]
    rcases hx : (loadConformances start count).runOn r w with ⟨⟨e | n, r'⟩, w'⟩ <;>
      rw [hx] at hload
    · exact hload
    · exact hload.1

theorem recorded_after (s : Settings) (requests : List (World × Request)) :
    Recorded (history s requests) (after s requests) := by
  -- The induction is on the requests that are left, from whatever was attached before them.
  have key : ∀ (requests : List (World × Request)) (h : List Attachment) (r : Registry),
      Recorded h r → Recorded (h ++ r.historyFrom requests)
        (requests.foldl (fun r wq => r.next wq.1 wq.2) r) := by
    intro requests
    induction requests with
    | nil => exact fun h r hr => by simpa [historyFrom] using hr
    | cons wq requests ih =>
      intro h r hr
      unfold historyFrom
      rw [← List.append_assoc]
      exact ih _ _ (recorded_next hr wq.1 wq.2)
  exact key requests [] _ (Recorded.empty s)

theorem history_append (s : Settings) (requests more : List (World × Request)) :
    history s (requests ++ more)
      = history s requests ++ (after s requests).historyFrom more := by
  have key : ∀ (requests : List (World × Request)) (r : Registry),
      r.historyFrom (requests ++ more) = r.historyFrom requests
        ++ (requests.foldl (fun r wq => r.next wq.1 wq.2) r).historyFrom more := by
    intro requests
    induction requests with
    | nil => exact fun r => rfl
    | cons wq requests ih =>
      intro r
      rw [List.cons_append, historyFrom, historyFrom, ih, List.append_assoc]
      rfl
  exact key requests _

/-- What stands under a protocol's name is what was attached last under it. -/
theorem Recorded.find?_conformances (hr : Recorded h r) {n : String} {t : NominalType}
    (ht : r.typeNamed? n = some t) (k : String) :
    Keyed.find? Conformance.key k t.conformances
      = Keyed.find? Conformance.key k (attachedTo h t.descriptorAddress).reverse := by
  rw [hr.conformances_eq n t ht, Keyed.find?_foldl_put]
  exact Option.or_none

/-- An attached conformance, or a later one of the same type and under the same name. -/
theorem Recorded.exists_conformance {before later : List Attachment} {e : Attachment}
    (hr : Recorded (before ++ e :: later) r) :
    ∃ t, r.typeAt? e.descriptor = some t ∧ t.descriptorAddress = e.descriptor ∧
      ∃ c ∈ t.conformances, c.key = e.conformance.key ∧
        (c = e.conformance ∨ ⟨e.descriptor, c⟩ ∈ later) := by
  obtain ⟨n, hn⟩ := hr.registered e (by simp)
  obtain ⟨t, ht, hat⟩ := hr.consistent.typeAt?_eq hn
  obtain ⟨u, hu, hut⟩ := (hr.consistent.typeName?_iff _ _).1 hn
  cases ht.symm.trans hu
  refine ⟨t, hat, hut, ?_⟩
  have hfind := hr.find?_conformances ht e.conformance.key
  have hsplit : (attachedTo (before ++ e :: later) t.descriptorAddress).reverse
      = (attachedTo later e.descriptor).reverse
        ++ e.conformance :: (attachedTo before e.descriptor).reverse := by
    rw [attachedTo_append, List.reverse_append, hut]
    have hcons : e :: later = [e] ++ later := rfl
    have hself : attachedTo [e] e.descriptor = [e.conformance] := by
      rw [attachedTo_singleton, if_pos rfl]
    rw [hcons, attachedTo_append, hself]
    simp
  rw [hsplit, Keyed.find?, Keyed.find?, List.find?_append,
    List.find?_cons_of_pos (by simp)] at hfind
  rcases hc : (attachedTo later e.descriptor).reverse.find?
      (fun c => c.key = e.conformance.key) with _ | c <;> rw [hc] at hfind
  · exact ⟨_, List.mem_of_find?_eq_some hfind, rfl, .inl rfl⟩
  · exact ⟨c, List.mem_of_find?_eq_some hfind, by simpa using List.find?_some hc,
      .inr (mem_attachedTo.1 (List.mem_reverse.1 (List.mem_of_find?_eq_some hc)))⟩

/-- Whatever has been asked of a registry: a section of conformances that answers with a number has
attached as many, and for each conformance attached so far its type has one under the same protocol
name, the same one or one attached later. If no later one of the type is under that name for a
protocol of another module, the type has one whose protocol has the qualified name of the attached
one's. -/
theorem conformances_after (s : Settings) (requests : List (World × Request)) :
    (∀ w q, history s (requests ++ [(w, q)])
      = history s requests ++ (after s requests).attached w q) ∧
    (∀ w start count n, ((loadConformances start count).runOn (after s requests) w).1.1 = .ok n →
      ((after s requests).attached w (.conformanceSection start count)).length = n) ∧
    ∀ before e later, history s requests = before ++ e :: later →
      ∃ t, (after s requests).typeAt? e.descriptor = some t ∧
        t.descriptorAddress = e.descriptor ∧
        (∃ c ∈ t.conformances, c.key = e.conformance.key ∧
          (c = e.conformance ∨ ⟨e.descriptor, c⟩ ∈ later)) ∧
        ((∀ c, ⟨e.descriptor, c⟩ ∈ later → c.key = e.conformance.key →
            c.protocol.qualifiedName = e.conformance.protocol.qualifiedName) →
          ∃ c ∈ t.conformances,
            c.protocol.qualifiedName = e.conformance.protocol.qualifiedName) := by
  have hr := recorded_after s requests
  refine ⟨fun w q => ?_, fun w start count n hn => ?_, fun before e later hsplit => ?_⟩
  · rw [history_append, historyFrom, historyFrom, List.append_nil]
  · have hload := recorded_loadConformances start count hr w
    rcases hx : (loadConformances start count).runOn (after s requests) w with ⟨⟨e | m, r'⟩, w'⟩ <;>
      rw [hx] at hload hn <;> cases hn
    exact hload.2
  · rw [hsplit] at hr
    obtain ⟨t, hat, ht, c, hc, hkey, hlast⟩ := hr.exists_conformance
    refine ⟨t, hat, ht, ⟨c, hc, hkey, hlast⟩, fun hsame => ⟨c, hc, ?_⟩⟩
    rcases hlast with rfl | hlater
    · rfl
    · exact hsame c hlater hkey

end Registry

/-- A section of the conformances of a generic struct to two protocols, each given by the name of
its module and its own. -/
def Emit.conformancesToBoth (first second : String × String) : Build Address := do
  let t ← structType { name := "T", parent := ← moduleContext "M", generic := true } 0 0
  let p ← protocolType first.2 (← moduleContext first.1) 0 false
  let q ← protocolType second.2 (← moduleContext second.1) 0 false
  conformanceRecords [← conformance p t none, ← conformance q t none]

namespace Registry

/-- A run that loads such a section once. -/
def loadingBoth (first second : String × String) (records : Address) : List (World × Request) :=
  [(.showing (Emit.conformancesToBoth first second), .conformanceSection records 2)]

theorem conformances_after_both :
    ∃ e e' t, history {} (loadingBoth ("A", "Shape") ("A", "Drawable") ⟨0x10C4⟩) = [e, e'] ∧
      (after {} (loadingBoth ("A", "Shape") ("A", "Drawable") ⟨0x10C4⟩)).typeAt? e.descriptor
        = some t ∧
      (∃ c ∈ t.conformances, c.protocol.qualifiedName = "A.Shape") ∧
      ∃ c ∈ t.conformances, c.protocol.qualifiedName = "A.Drawable" := by
  have hrun : (history {} (loadingBoth ("A", "Shape") ("A", "Drawable") ⟨0x10C4⟩)).map
      (fun e => (e.descriptor, e.conformance.key, e.conformance.protocol.qualifiedName))
      = [(⟨0x1010⟩, "Shape", "A.Shape"), (⟨0x1010⟩, "Drawable", "A.Drawable")] := by
    decide +kernel
  obtain ⟨e, rest, hh, he, hrest⟩ := List.map_eq_cons_iff.1 hrun
  obtain ⟨e', none, rfl, he', hnone⟩ := List.map_eq_cons_iff.1 hrest
  obtain rfl := List.map_eq_nil_iff.1 hnone
  simp only [Prod.mk.injEq] at he he'
  obtain ⟨hd, hkey, hq⟩ := he
  obtain ⟨hd', hkey', hq'⟩ := he'
  obtain ⟨t, ht, -, -, h⟩ := (conformances_after {} _).2.2 [] e [e'] hh
  obtain ⟨t', ht', -, -, h'⟩ := (conformances_after {} _).2.2 [e] e' [] hh
  rw [hd', ← hd, ht] at ht'
  cases ht'
  rw [hq] at h
  rw [hq'] at h'
  refine ⟨e, e', t, hh, ht, h fun c hc hck => ?_, h' fun c hc => nomatch hc⟩
  have hce : c = e'.conformance := congrArg Attachment.conformance (List.mem_singleton.1 hc)
  rw [hce, hkey', hkey] at hck
  exact absurd hck (by decide)

/-- Of two protocols with one name in two modules only the later is left, although both conformances
are counted. -/
theorem not_conformances_after :
    ¬∀ (s : Settings) (w : World) (start : Address) (count n : Nat),
      ((loadConformances start count).runOn { settings := s } w).1.1 = .ok n →
      ∀ e ∈ history s [(w, .conformanceSection start count)],
        ∃ t c, (after s [(w, .conformanceSection start count)]).typeAt? e.descriptor = some t ∧
          c ∈ t.conformances ∧ c.protocol.qualifiedName = e.conformance.protocol.qualifiedName := by
  intro h
  have hrun : (history {} (loadingBoth ("A", "Shape") ("B", "Shape") ⟨0x10C0⟩)).any (fun e =>
        ((after {} (loadingBoth ("A", "Shape") ("B", "Shape") ⟨0x10C0⟩)).typeAt? e.descriptor).any
          fun t => t.conformances.all fun c =>
            c.protocol.qualifiedName ≠ e.conformance.protocol.qualifiedName) := by
    decide +kernel
  obtain ⟨e, he, ht⟩ := List.any_eq_true.1 hrun
  obtain ⟨t, c, hat, hc, hq⟩ := h {} _ ⟨0x10C0⟩ 2 2 (by decide +kernel) e he
  unfold loadingBoth at ht
  rw [hat, Option.any_some, List.all_eq_true] at ht
  exact of_decide_eq_true (ht c hc) hq

end Registry

end TypeMetadata
