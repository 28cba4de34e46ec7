import Mathlib.Data.List.Nodup
import TypeMetadata.Emit.Nominal
import TypeMetadata.Emit.Section
import TypeMetadata.Native.StandIn
import TypeMetadata.Proofs.QuietLoads

/-!
# Loading in another order

Type records register types and protocols, and so do conformance records on the way to what they
attach. If no two types and no two protocols have one name, what stands under a name is settled by
what is asked for, not by the order of asking: `Met` leaves no choice (`Met.typeNamed?`,
`Met.protocolNamed?`), and what is attached shows in the index. So the sections of a quiet image may
be loaded in any order, and the records of the type section, too (`loads_in_any_order`).
-/

namespace TypeMetadata

theorem Keyed.perm_of_lookup? {κ β : Type} [DecidableEq κ] {l l' : List (κ × β)}
    (hl : (l.map Prod.fst).Nodup) (hl' : (l'.map Prod.fst).Nodup)
    (h : ∀ k, lookup? k l = lookup? k l') : l.Perm l' := by
  refine (List.perm_ext_iff_of_nodup hl.of_map hl'.of_map).2 fun x => ?_
  rw [← lookup?_eq_some_iff hl, ← lookup?_eq_some_iff hl', h]

namespace Registry

variable {r r₀ r' : Registry} {w w' : World} {asked asked' : List Request}

/-- Two types that were asked for have different names, and so have two protocols. -/
structure NamesApart (w : World) (s : Settings) (asked : List Request) : Prop where
  types : ∀ a b t u, .type a ∈ asked → .type b ∈ asked → w.typeShown s a = .ok t →
    w.typeShown s b = .ok u → t.qualifiedName = u.qualifiedName → a = b
  protocols : ∀ a b p q, .protocol a ∈ asked → .protocol b ∈ asked → w.protocolShown s a = .ok p →
    w.protocolShown s b = .ok q → p.qualifiedName = q.qualifiedName → a = b

theorem NamesApart.of_subset {s : Settings} (h : NamesApart w s asked)
    (hsub : ∀ q ∈ asked', q ∈ asked) : NamesApart w s asked' :=
  ⟨fun a b t u ha hb => h.types a b t u (hsub _ ha) (hsub _ hb), fun a b p q ha hb =>
    h.protocols a b p q (hsub _ ha) (hsub _ hb)⟩

/-- The same stands under every name and every address; the entries may be in another order. -/
structure Alike (r r' : Registry) : Prop where
  settings : r'.settings = r.settings
  typeNamed? : ∀ n, r'.typeNamed? n = r.typeNamed? n
  protocolNamed? : ∀ n, r'.protocolNamed? n = r.protocolNamed? n
  typeName? : ∀ a, r'.typeName? a = r.typeName? a
  protocolName? : ∀ a, r'.protocolName? a = r.protocolName? a
  types : r'.types.Perm r.types
  protocols : r'.protocols.Perm r.protocols

/-! ## What is asked for settles the index -/

section Met

variable (hmet : Met w asked r₀ r) (hmet' : Met w asked' r₀ r') (hsub : ∀ q ∈ asked, q ∈ asked')
include hmet hmet' hsub

/-- Which name a protocol's descriptor stands for does not depend on the order. -/
theorem Met.protocolName? {a : Address} {n : String} (hn : r.protocolName? a = some n) :
    r'.protocolName? a = some n := by
  rcases hmet.name_shown a n hn with hn₀ | ⟨ha, p, hp, rfl⟩
  · exact hmet'.grows.protocolName? a n hn₀
  obtain ⟨q, hq⟩ := hmet'.known.protocol a (hsub _ ha)
  obtain ⟨m, hm, -⟩ := Option.bind_eq_some_iff.1 hq
  rw [hm]
  rcases hmet'.name_shown a m hm with hm₀ | ⟨-, p', hp', rfl⟩
  · rw [hmet.grows.protocolName? a m hm₀] at hn
    exact hn
  · rw [hp] at hp'
    cases hp'
    rfl

variable (apart : NamesApart w r₀.settings asked')
include apart

/-- Nor does which type stands under a name, up to its conformances. -/
theorem Met.typeNamed? {n : String} {t : NominalType} (ht : r.typeNamed? n = some t) :
    ∃ t', r'.typeNamed? n = some t' ∧ t'.shape = t.shape := by
  have hr := hmet.grows.consistent
  have hr' := hmet'.grows.consistent
  rcases hn₀ : r₀.typeNamed? n with _ | t₀
  · rcases hmet.type_shown n t ht with ⟨t₀, ht₀⟩ | ⟨ha, u, hu, hshape⟩
    · rw [hn₀] at ht₀
      cases ht₀
    have hname : u.qualifiedName = n :=
      (NominalType.qualifiedName_of_shape hshape).trans (hr.qualifiedName_eq ht)
    rcases hmet'.known.type _ (hsub _ ha) with ⟨v, hv⟩ | ⟨u', first, hu', hfirst⟩
    · -- The descriptor is registered, as what it shows.
      obtain ⟨hnamed, haddress⟩ := hr'.of_typeAt? hv
      rcases hmet'.type_shown _ v hnamed with ⟨v₀, hv₀⟩ | ⟨-, u', hu', hshape'⟩
      · obtain ⟨v', hv', hshape₀⟩ := hmet'.grows.typeNamed? hv₀
        rw [hnamed] at hv'
        cases hv'
        obtain ⟨v₁, hv₁, hshape₁⟩ := hmet.grows.typeNamed? hv₀
        have haddress₁ : v₁.descriptorAddress = t.descriptorAddress :=
          (NominalType.descriptorAddress_of_shape (hshape₁.trans hshape₀.symm)).trans haddress
        have hsame := (hr.typeName?_iff _ _).2 ⟨v₁, hv₁, haddress₁⟩
        rw [(hr.typeName?_iff _ _).2 ⟨t, ht, rfl⟩] at hsame
        cases hsame
        rw [hn₀] at hv₀
        cases hv₀
      · rw [haddress, hu] at hu'
        cases hu'
        have hv : v.qualifiedName = n :=
          (NominalType.qualifiedName_of_shape hshape').symm.trans hname
        exact ⟨v, hv ▸ hnamed, hshape'.symm.trans hshape⟩
    · -- Its name is taken, by what only the descriptor itself can show.
      rw [hmet'.grows.settings, hu] at hu'
      cases hu'
      rw [hname] at hfirst
      rcases hmet'.type_shown n first hfirst with ⟨v₀, hv₀⟩ | ⟨hb, u', hu', hshape'⟩
      · rw [hn₀] at hv₀
        cases hv₀
      have hname' : u'.qualifiedName = n :=
        (NominalType.qualifiedName_of_shape hshape').trans (hr'.qualifiedName_eq hfirst)
      have hab := apart.types _ _ u' u hb (hsub _ ha) hu' hu (hname'.trans hname.symm)
      rw [hab, hu] at hu'
      cases hu'
      exact ⟨first, hfirst, hshape'.symm.trans hshape⟩
  · obtain ⟨t₁, ht₁, hshape⟩ := hmet.grows.typeNamed? hn₀
    rw [ht] at ht₁
    cases ht₁
    obtain ⟨t', ht', hshape'⟩ := hmet'.grows.typeNamed? hn₀
    exact ⟨t', ht', hshape'.trans hshape.symm⟩

/-- Nor does which protocol does. -/
theorem Met.protocolNamed? {n : String} {p : Protocol} (hp : r.protocolNamed? n = some p) :
    r'.protocolNamed? n = some p := by
  have hr := hmet.grows.consistent
  have hr' := hmet'.grows.consistent
  rcases hn₀ : r₀.protocolNamed? n with _ | p₀
  · rcases hmet.protocol_shown n p hp with ⟨p₀, hp₀⟩ | ⟨ha, hshown⟩
    · rw [hn₀] at hp₀
      cases hp₀
    have hname : p.qualifiedName = n := hr.protocol_named n p (Keyed.mem_of_lookup? hp)
    have hown := hmet.protocolName? hmet' hsub (hr.protocolName?_own n p hp)
    obtain ⟨q, hq⟩ := hr'.protocolName?_registered _ n hown
    rcases hmet'.protocol_shown n q hq with ⟨q₀, hq₀⟩ | ⟨hb, hshown'⟩
    · rw [hn₀] at hq₀
      cases hq₀
    have hname' : q.qualifiedName = n := hr'.protocol_named n q (Keyed.mem_of_lookup? hq)
    have hab := apart.protocols _ _ q p hb (hsub _ ha) hshown' hshown (hname'.trans hname.symm)
    rw [hab, hshown] at hshown'
    cases hshown'
    exact hq
  · have hp₁ := hmet.grows.protocolNamed? hn₀
    rw [hp] at hp₁
    cases hp₁
    exact hmet'.grows.protocolNamed? hn₀

end Met

/-! ## Registries that are alike -/

/-- To types of one shape the same was attached. -/
theorem Recorded.eq_of_shape {h : List Attachment} {n n' : String} {t t' : NominalType}
    (hr : Recorded h r) (hr' : Recorded h r') (ht : r.typeNamed? n = some t)
    (ht' : r'.typeNamed? n' = some t') (hshape : t'.shape = t.shape) : t' = t := by
  refine NominalType.eq_of_shape hshape ?_
  rw [hr.conformances_eq n t ht, hr'.conformances_eq n' t' ht',
    NominalType.descriptorAddress_of_shape hshape]

theorem attachmentIn_congr (hprotocols : ∀ a, r'.protocolAt? a = r.protocolAt? a)
    (htypes : ∀ a, r'.typeName? a = r.typeName? a) : r'.attachmentIn = r.attachmentIn := by
  funext record
  unfold attachmentIn attachment?
  simp only [hprotocols, htypes]

/-- Two registries that were asked for the same, and were given what the same records attach. -/
theorem Met.alike {h : List Attachment} {records : List ConformanceRecord}
    (hmet : Met w asked r₀ r) (hmet' : Met w asked' r₀ r') (hsame : ∀ q, q ∈ asked ↔ q ∈ asked')
    (apart : NamesApart w r₀.settings asked)
    (hrecorded : Recorded (h ++ records.filterMap r.attachmentIn) r)
    (hrecorded' : Recorded (h ++ records.filterMap r'.attachmentIn) r') : r.Alike r' := by
  have hr := hmet.grows.consistent
  have hr' := hmet'.grows.consistent
  have hsub := fun q => (hsame q).1
  have hsub' := fun q => (hsame q).2
  have apart' := apart.of_subset hsub'
  have hprotocolName : ∀ a, r'.protocolName? a = r.protocolName? a := fun a =>
    Option.ext fun n => ⟨hmet'.protocolName? hmet hsub', hmet.protocolName? hmet' hsub⟩
  have hprotocolNamed : ∀ n, r'.protocolNamed? n = r.protocolNamed? n := fun n =>
    Option.ext fun p =>
      ⟨hmet'.protocolNamed? hmet hsub' apart, hmet.protocolNamed? hmet' hsub apart'⟩
  have htypeName : ∀ a, r'.typeName? a = r.typeName? a := by
    refine fun a => Option.ext fun n => ⟨fun hn => ?_, fun hn => ?_⟩
    · obtain ⟨t, ht, ha⟩ := (hr'.typeName?_iff a n).1 hn
      obtain ⟨t', ht', hshape⟩ := hmet'.typeNamed? hmet hsub' apart ht
      exact (hr.typeName?_iff a n).2
        ⟨t', ht', (NominalType.descriptorAddress_of_shape hshape).trans ha⟩
    · obtain ⟨t, ht, ha⟩ := (hr.typeName?_iff a n).1 hn
      obtain ⟨t', ht', hshape⟩ := hmet.typeNamed? hmet' hsub apart' ht
      exact (hr'.typeName?_iff a n).2
        ⟨t', ht', (NominalType.descriptorAddress_of_shape hshape).trans ha⟩
  have hattached : r'.attachmentIn = r.attachmentIn := by
    refine attachmentIn_congr (fun a => ?_) htypeName
    simp only [protocolAt?, hprotocolName, hprotocolNamed]
  rw [hattached] at hrecorded'
  have htypeNamed : ∀ n, r'.typeNamed? n = r.typeNamed? n := by
    refine fun n => Option.ext fun t => ⟨fun ht => ?_, fun ht => ?_⟩
    · obtain ⟨t', ht', hshape⟩ := hmet'.typeNamed? hmet hsub' apart ht
      rw [ht', hrecorded.eq_of_shape hrecorded' ht' ht hshape.symm]
    · obtain ⟨t', ht', hshape⟩ := hmet.typeNamed? hmet' hsub apart' ht
      rw [ht', hrecorded.eq_of_shape hrecorded' ht ht' hshape]
  exact
    { settings := hmet'.grows.settings.trans hmet.grows.settings.symm
      typeNamed? := htypeNamed
      protocolNamed? := hprotocolNamed
      typeName? := htypeName
      protocolName? := hprotocolName
      types := (Keyed.perm_of_lookup? hr'.types_nodup hr.types_nodup htypeNamed).map Prod.snd
      protocols :=
        (Keyed.perm_of_lookup? hr'.protocols_nodup hr.protocols_nodup hprotocolNamed).map Prod.snd }

/-! ## Orders of loading -/

/-- A load of what these type records refer to: of a section of the image that refers to the same in
any order, or of such records wherever they come from. -/
inductive LoadsTypes (w : World) (types : List TypeRecord) : InspectOn Registry Unit → Prop where
  | ofSection {start : Address} {count : Nat} {records : List TypeRecord}
    (reads : w.decode (TypeRecord.readSection start count) = .ok records)
    (perm : (records.map TypeRecord.reference).Perm (types.map TypeRecord.reference)) :
    LoadsTypes w types (perform (.typeSection start count))
  | ofRecords {records : List TypeRecord}
    (perm : (records.map TypeRecord.reference).Perm (types.map TypeRecord.reference)) :
    LoadsTypes w types (records.forM loadTypeRecord)

/-- Both loads, one after the other. -/
def inEitherOrder (x y : InspectOn Registry Unit) : List (InspectOn Registry Unit) :=
  [do x; y, do y; x]

/-- What a type record asks for depends on nothing but its reference. -/
theorem perm_typeAsks {types records : List TypeRecord}
    (h : (records.map TypeRecord.reference).Perm (types.map TypeRecord.reference)) :
    (records.flatMap (typeAsks w)).Perm (types.flatMap (typeAsks w)) := by
  have hasks : ∀ l : List TypeRecord, l.flatMap (typeAsks w)
      = (l.map TypeRecord.reference).flatMap fun reference => typeAsks w ⟨⟨0⟩, reference⟩ := by
    intro l
    rw [List.flatMap_map]
    rfl
  rw [hasks, hasks]
  exact h.flatMap_right _

section Orders

variable (quiet : w.Quiet) {types : List TypeRecord} {x load : InspectOn Registry Unit}
include quiet

theorem LoadsTypes.meets (hx : LoadsTypes w types x) :
    ∃ asked, Meets w asked x ∧ asked.Perm (types.flatMap (typeAsks w)) := by
  cases hx with
  | @ofSection start count records reads perm =>
    have hmeets := meets_perform quiet (.typeSection start count)
    simp only [asks, reads] at hmeets
    exact ⟨_, hmeets, perm_typeAsks perm⟩
  | @ofRecords records perm =>
    exact ⟨_, .forM (meets_loadTypeRecord quiet) records, perm_typeAsks perm⟩

omit quiet in
theorem LoadsTypes.keeps {P : Registry → Prop} (hP : Stable P) (hx : LoadsTypes w types x) :
    InspectOn.Keeps P x := by
  cases hx with
  | ofSection => exact (keeps_loadTypes hP _ _).discard
  | ofRecords => exact .forM (keeps_loadTypeRecord hP) _

/-- However the two are ordered, what was asked for is met and the records of the conformance
section were attached as the index has it at the end. -/
theorem LoadsTypes.inEitherOrder {h : List Attachment} {start : Address} {count : Nat}
    (hx : LoadsTypes w types x)
    (hload : load ∈ inEitherOrder x (perform (.conformanceSection start count)))
    (hrecorded : Recorded h r₀) (hrun : load.runOn r₀ w = ((.ok (), r), w')) :
    ∃ asked, Met w asked r₀ r ∧
      asked.Perm (types.flatMap (typeAsks w) ++ asks w (.conformanceSection start count)) ∧
      Recorded (h ++ (conformancesRead w start count).filterMap r.attachmentIn) r := by
  obtain ⟨asked, hmeets, hperm⟩ := hx.meets quiet
  have hmeets' := meets_perform quiet (.conformanceSection start count)
  simp only [Registry.inEitherOrder, List.mem_cons, List.not_mem_nil, or_false] at hload
  rcases hload with rfl | rfl
  · rw [InspectOn.runOn_bind] at hrun
    have hkeeps := (hx.keeps (stable_recorded h)).run w hrecorded
    rcases hr₁ : x.runOn r₀ w with ⟨⟨e | u, r₁⟩, w₁⟩ <;> rw [hr₁] at hrun hkeeps
    · cases hrun
    obtain ⟨hmet, hw₁⟩ := hmeets _ _ _ _ _ hrecorded.consistent (.refl w) hr₁
    obtain ⟨hmet', -⟩ := hmeets' _ _ _ _ _ hmet.grows.consistent hw₁ hrun
    refine ⟨_, hmet.trans hmet', hperm.append_right _, ?_⟩
    obtain ⟨n, hn⟩ := InspectOn.runOn_of_discard_ok hrun
    have hload := recorded_loadConformances start count hkeeps w₁
    rw [hn, attached_eq quiet hmet.grows.consistent hw₁ hn (.refl w hmet'.grows.consistent)]
      at hload
    exact hload.1
  · rw [InspectOn.runOn_bind] at hrun
    rcases hr₁ : (perform (.conformanceSection start count)).runOn r₀ w with ⟨⟨e | u, r₁⟩, w₁⟩ <;>
      rw [hr₁] at hrun
    · cases hrun
    obtain ⟨hmet, hw₁⟩ := hmeets' _ _ _ _ _ hrecorded.consistent (.refl w) hr₁
    obtain ⟨hmet', -⟩ := hmeets _ _ _ _ _ hmet.grows.consistent hw₁ hrun
    refine ⟨_, hmet.trans hmet', List.perm_append_comm.trans (hperm.append_right _), ?_⟩
    obtain ⟨n, hn⟩ := InspectOn.runOn_of_discard_ok hr₁
    have hload := recorded_loadConformances start count hrecorded w
    rw [hn, attached_eq quiet hrecorded.consistent (.refl w) hn hmet'] at hload
    have hrun : x.runOn r₁ w₁ = _ := hrun
    have hkeeps := (hx.keeps (stable_recorded _)).run w₁ hload.1
    rw [hrun] at hkeeps
    exact hkeeps

end Orders

/-- Whatever has been asked of a registry: where no two types and no two protocols that the sections
of a quiet image refer to have one name, a section of types and one of conformances may be loaded in
either order, and the types in any order, too. The registries that come of it have the same types
with the same conformances, and the same protocols, under every name, in orders of their own. -/
theorem loads_in_any_order (s : Settings) (requests : List (World × Request)) (w : World)
    (quiet : w.Quiet) (types : List TypeRecord) (start : Address) (count : Nat)
    (apart : NamesApart w s
      (types.flatMap (typeAsks w) ++ asks w (.conformanceSection start count)))
    (x x' load load' : InspectOn Registry Unit)
    (loads : LoadsTypes w types x) (loads' : LoadsTypes w types x')
    (order : load ∈ inEitherOrder x (perform (.conformanceSection start count)))
    (order' : load' ∈ inEitherOrder x' (perform (.conformanceSection start count)))
    (r r' : Registry) (w₁ w₂ : World)
    (run : load.runOn (after s requests) w = ((.ok (), r), w₁))
    (run' : load'.runOn (after s requests) w = ((.ok (), r'), w₂)) : r.Alike r' := by
  have hrecorded := recorded_after s requests
  obtain ⟨asked, hmet, hperm, hr⟩ := loads.inEitherOrder quiet order hrecorded run
  obtain ⟨asked', hmet', hperm', hr'⟩ := loads'.inEitherOrder quiet order' hrecorded run'
  refine hmet.alike hmet' (fun q => (hperm.trans hperm'.symm).mem_iff) ?_ hr hr'
  rw [settings_after]
  exact apart.of_subset fun q => hperm.mem_iff.1

end Registry

/-- A section of a class and a protocol, one with the two the other way round, and one of the
conformances of the class to another protocol and to this one. -/
def Emit.inTwoOrders : Build Address := do
  let m ← moduleContext "M"
  let t ← classType { name := "T", parent := m, accessFunction := some ⟨0x800⟩ }
  let p ← protocolType "P" m 0 false
  let q ← protocolType "Q" m 0 false
  let _ ← typeRecords [t, p]
  let _ ← typeRecords [p, t]
  conformanceRecords [← conformance q t none, ← conformance p t (some p)]

namespace Registry

/-- A process with these sections, whose class has an access function that returns a constant. -/
def showingTwoOrders : World :=
  { World.showing Emit.inTwoOrders with functions := ⟨⟨0x800⟩, #[StandIn.const 7]⟩ }

theorem quiet_showingTwoOrders : showingTwoOrders.Quiet := by
  refine World.quiet_of_functions fun f hf c m => ?_
  obtain rfl : f = StandIn.const 7 := by simpa [showingTwoOrders] using hf
  rfl

/-- The records of the first section. -/
def classThenProtocol : List TypeRecord :=
  [⟨⟨0x1088⟩, some (.descriptor ⟨0x1010⟩)⟩, ⟨⟨0x108C⟩, some (.descriptor ⟨0x1040⟩)⟩]

theorem namesApart_showingTwoOrders :
    NamesApart showingTwoOrders {} (classThenProtocol.flatMap (typeAsks showingTwoOrders)
      ++ asks showingTwoOrders (.conformanceSection ⟨0x10B8⟩ 2)) := by
  have hshown : classThenProtocol.flatMap (typeAsks showingTwoOrders)
      ++ asks showingTwoOrders (.conformanceSection ⟨0x10B8⟩ 2)
        = [.type ⟨0x1010⟩, .protocol ⟨0x1040⟩, .protocol ⟨0x1064⟩, .type ⟨0x1010⟩,
          .protocol ⟨0x1040⟩, .type ⟨0x1010⟩] ∧
      ∀ a ∈ [(⟨0x1040⟩ : Address), ⟨0x1064⟩], ∀ b ∈ [(⟨0x1040⟩ : Address), ⟨0x1064⟩],
        (showingTwoOrders.protocolShown {} a).map Protocol.qualifiedName
          = (showingTwoOrders.protocolShown {} b).map Protocol.qualifiedName → a = b := by
    decide +kernel
  obtain ⟨hasks, hnames⟩ := hshown
  rw [hasks]
  refine ⟨fun a b t u ha hb _ _ _ => ?_, fun a b p q ha hb hp hq hname => ?_⟩
  · obtain rfl : a = ⟨0x1010⟩ := by simpa using ha
    obtain rfl : b = ⟨0x1010⟩ := by simpa using hb
    rfl
  · refine hnames a (by simpa [or_comm, or_left_comm] using ha) b
      (by simpa [or_comm, or_left_comm] using hb) ?_
    rw [hp, hq]
    exact congrArg Except.ok hname

/-- The class first, then the protocol, then the conformances. -/
def typesFirst : InspectOn Registry Unit := do
  perform (.typeSection ⟨0x1088⟩ 2)
  perform (.conformanceSection ⟨0x10B8⟩ 2)

/-- The conformances first, then the protocol, then the class. -/
def conformancesFirst : InspectOn Registry Unit := do
  perform (.conformanceSection ⟨0x10B8⟩ 2)
  perform (.typeSection ⟨0x1090⟩ 2)

/-- Only the order of the two protocols is another one. -/
theorem loads_in_any_order_two :
    ∃ r r' w w', typesFirst.runOn (after {} []) showingTwoOrders = ((.ok (), r), w) ∧
      conformancesFirst.runOn (after {} []) showingTwoOrders = ((.ok (), r'), w') ∧
      r.protocols.map Protocol.name = ["P", "Q"] ∧ r'.protocols.map Protocol.name = ["Q", "P"] ∧
      r.Alike r' := by
  have hruns :
      (showingTwoOrders.decode (TypeRecord.readSection ⟨0x1088⟩ 2) = .ok classThenProtocol ∧
        showingTwoOrders.decode (TypeRecord.readSection ⟨0x1090⟩ 2)
          = .ok [⟨⟨0x1090⟩, some (.descriptor ⟨0x1040⟩)⟩,
            ⟨⟨0x1094⟩, some (.descriptor ⟨0x1010⟩)⟩]) ∧
      ((typesFirst.runOn (after {} []) showingTwoOrders).1.1 = .ok () ∧
        (typesFirst.runOn (after {} []) showingTwoOrders).1.2.protocols.map Protocol.name
          = ["P", "Q"]) ∧
      (conformancesFirst.runOn (after {} []) showingTwoOrders).1.1 = .ok () ∧
        (conformancesFirst.runOn (after {} []) showingTwoOrders).1.2.protocols.map Protocol.name
          = ["Q", "P"] := by
    decide +kernel
  obtain ⟨⟨hreads, hreads'⟩, ⟨hfirst, hnames⟩, hsecond, hnames'⟩ := hruns
  have hrun := InspectOn.runOn_of_answer hfirst
  have hrun' := InspectOn.runOn_of_answer hsecond
  exact ⟨_, _, _, _, hrun, hrun', hnames, hnames',
    loads_in_any_order {} [] showingTwoOrders quiet_showingTwoOrders classThenProtocol ⟨0x10B8⟩ 2
      namesApart_showingTwoOrders _ _ _ _ (.ofSection hreads (.refl _))
      (.ofSection hreads' (.swap _ _ [])) List.mem_cons_self
      (List.mem_cons_of_mem _ List.mem_cons_self) _ _ _ _ hrun hrun'⟩

end Registry

end TypeMetadata
