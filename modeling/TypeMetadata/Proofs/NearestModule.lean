import TypeMetadata.Record.Context

/-!
# The module around a context

Contexts refer to the one around them, and bytes may make a cycle of them. `Context.outward?`
follows the references without a bound and without looking at kinds; the search for a module stops
at the first of the contexts it passes that is one, at the first reference that cannot be followed,
at the outermost context, or when it has passed as many as it may. `Context.FindsModule` says which
of these the name of the module comes from.
-/

namespace TypeMetadata.Context

/-- The context around `c`; `none` for the outermost one. -/
def around? (c : Context) : Decoder (Option Context) := do
  match ← c.parent with
  | some a => return some (← read a)
  | none => return none

/-- The context `i` references out of `c`; `none` if the outermost one comes before. -/
def outward? : Nat → Context → Decoder (Option Context)
  | 0, c => return some c
  | i + 1, c => do
    match ← outward? i c with
    | some d => d.around?
    | none => return none

/-- None of the `n` contexts around `c` is a module, as far as they can be found. -/
def NoModule (m : Memory) (c : Context) (n : Nat) : Prop :=
  ∀ j < n, ∀ d, outward? (j + 1) c m = .ok (some d) → d.kind ≠ .moduleContext

/-- How looking for the context around `c` fails. -/
inductive Unreachable (m : Memory) (c : Context) : Error → Prop
  | pointer {e : MemoryError} : c.parent m = .error (.memory e) → Unreachable m c (.memory e)
  | flags {a : Address} {e : MemoryError} : c.parent m = .ok (some a) → m.readU32 a = .error e →
      Unreachable m c (.memory e)
  | kind {a : Address} {flags : ContextFlags} : c.parent m = .ok (some a) →
      m.readU32 a = .ok flags.bits → flags.kind? = none →
      Unreachable m c (.decode (.unknownContextKind a flags.kindRaw))

/-- The first module that comes among the `depth` contexts around `c` is `d`. -/
def FirstModule (m : Memory) (c : Context) (depth : Nat) (d : Context) : Prop :=
  ∃ i < depth, outward? (i + 1) c m = .ok (some d) ∧ d.kind = .moduleContext ∧ NoModule m c i

/-- Before a module comes among the `depth` contexts around `c`, one cannot be found, because of
`e`. -/
def FirstFailure (m : Memory) (c : Context) (depth : Nat) (e : Error) : Prop :=
  ∃ i < depth, ∃ d, outward? i c m = .ok (some d) ∧ Unreachable m d e ∧ NoModule m c i

/-- The `depth` contexts around `c`, or as many as there are, can be found and are no modules. -/
def AllOther (m : Memory) (c : Context) (depth : Nat) : Prop :=
  (∃ d?, outward? depth c m = .ok d?) ∧ NoModule m c depth

variable {m m' : Memory} {c d : Context} {a : Address} {e : Error} {i k n depth : Nat}

/-! ## One step -/

theorem around?_of_error (h : c.parent m = .error e) : c.around? m = .error e :=
  Decoder.bind_of_error h

theorem around?_of_none (h : c.parent m = .ok none) : c.around? m = .ok none :=
  Decoder.bind_of_ok h

theorem around?_of_some (h : c.parent m = .ok (some a)) : c.around? m = (read a m).map some := by
  refine (Decoder.bind_of_ok h).trans ?_
  rcases hread : read a m with e | d
  · exact Decoder.bind_of_error hread
  · exact Decoder.bind_of_ok hread

theorem read_eq_error_iff : read a m = .error e ↔
    (∃ e', m.readU32 a = .error e' ∧ e = .memory e') ∨
      ∃ flags : ContextFlags, m.readU32 a = .ok flags.bits ∧ flags.kind? = none ∧
        e = .decode (.unknownContextKind a flags.kindRaw) := by
  unfold read
  simp only [Decoder.bind_eq_error_iff, Decoder.u32, Decoder.access_eq_error_iff,
    Decoder.access_eq_ok_iff, Decoder.require_eq_error_iff]
  constructor
  · rintro (h | ⟨bits, hbits, ⟨hkind, rfl⟩ | ⟨k, -, h⟩⟩)
    · exact .inl h
    · exact .inr ⟨⟨bits⟩, hbits, hkind, rfl⟩
    · cases h
  · rintro (h | ⟨⟨bits⟩, hbits, hkind, rfl⟩)
    · exact .inl h
    · exact .inr ⟨bits, hbits, .inl ⟨hkind, rfl⟩⟩

theorem memory_of_parent_error (h : c.parent m = .error e) : ∃ e', e = .memory e' := by
  unfold parent RelativePointer.indirectable at h
  rcases Decoder.bind_eq_error_iff.1 h with h | ⟨raw, -, h⟩
  · obtain ⟨e', -, he⟩ := Decoder.access_eq_error_iff.1 h
    exact ⟨e', he⟩
  · split at h
    · cases h
    · rcases Decoder.bind_eq_error_iff.1 h with h | ⟨target, -, h⟩
      · obtain ⟨e', -, he⟩ := Decoder.access_eq_error_iff.1 h
        exact ⟨e', he⟩
      · cases h

theorem around?_eq_error_iff : c.around? m = .error e ↔ Unreachable m c e := by
  constructor
  · intro h
    rcases hparent : c.parent m with e' | _ | a
    · rw [around?_of_error hparent] at h
      obtain ⟨e₁, rfl⟩ := memory_of_parent_error hparent
      cases h
      exact .pointer hparent
    · rw [around?_of_none hparent] at h
      cases h
    · rw [around?_of_some hparent] at h
      have hread : read a m = .error e := by
        rcases hread : read a m with e' | d <;> rw [hread] at h <;> cases h
        rfl
      rcases read_eq_error_iff.1 hread with ⟨e', hflags, rfl⟩ | ⟨flags, hflags, hkind, rfl⟩
      · exact .flags hparent hflags
      · exact .kind hparent hflags hkind
  · rintro (hparent | ⟨hparent, hflags⟩ | ⟨hparent, hflags, hkind⟩)
    · exact around?_of_error hparent
    · rw [around?_of_some hparent, read_eq_error_iff.2 (.inl ⟨_, hflags, rfl⟩)]
      rfl
    · rw [around?_of_some hparent, read_eq_error_iff.2 (.inr ⟨_, hflags, hkind, rfl⟩)]
      rfl

/-! ## Some steps -/

theorem outward?_succ (i : Nat) (c : Context) (m : Memory) : outward? (i + 1) c m =
    match outward? i c m with
    | .error e => .error e
    | .ok none => .ok none
    | .ok (some d) => d.around? m := by
  rcases h : outward? i c m with e | _ | d
  · exact Decoder.bind_of_error h
  · exact Decoder.bind_of_ok h
  · exact Decoder.bind_of_ok h

theorem outward?_succ_of_some (h : outward? i c m = .ok (some d)) :
    outward? (i + 1) c m = d.around? m :=
  Decoder.bind_of_ok h

theorem outward?_zero (c : Context) (m : Memory) : outward? 0 c m = .ok (some c) := rfl

theorem outward?_one (c : Context) (m : Memory) : outward? 1 c m = c.around? m :=
  outward?_succ_of_some rfl

/-- Further out from a context further out. -/
theorem outward?_add (h : outward? k c m = .ok (some d)) (i : Nat) :
    outward? (k + i) c m = outward? i d m := by
  induction i with
  | zero => exact h
  | succ i ih => rw [← Nat.add_assoc, outward?_succ, outward?_succ, ih]

theorem outward?_succ_of_around (h : c.around? m = .ok (some d)) (i : Nat) :
    outward? (i + 1) c m = outward? i d m := by
  rw [Nat.add_comm]
  exact outward?_add ((outward?_one c m).trans h) i

/-- What can be found further out can be found up to there. -/
theorem exists_outward?_of_le {n : Nat} {d? : Option Context} (hi : i ≤ n)
    (h : outward? n c m = .ok d?) : ∃ d?, outward? i c m = .ok d? := by
  induction hi generalizing d? with
  | refl => exact ⟨d?, h⟩
  | @step n _ ih =>
    rw [outward?_succ] at h
    rcases hn : outward? n c m with e | d?
    · rw [hn] at h
      cases h
    · exact ih hn

theorem outward?_of_error (h : c.around? m = .error e) (i : Nat) :
    outward? (i + 1) c m = .error e := by
  induction i with
  | zero => exact (outward?_one c m).trans h
  | succ i ih => rw [outward?_succ, ih]

theorem outward?_of_none (h : c.around? m = .ok none) (i : Nat) :
    outward? (i + 1) c m = .ok none := by
  induction i with
  | zero => exact (outward?_one c m).trans h
  | succ i ih => rw [outward?_succ, ih]

theorem noModule_zero : NoModule m c 0 := nofun

theorem noModule_succ (h : c.around? m = .ok (some d)) :
    NoModule m c (n + 1) ↔ d.kind ≠ .moduleContext ∧ NoModule m d n := by
  unfold NoModule
  rw [Nat.forall_lt_succ_left]
  simp only [outward?_succ_of_around h, outward?_zero]
  simp

/-! ## The search -/

/-- The search looks at one context around another. -/
theorem enclosingModule?_succ (depth : Nat) (c : Context) :
    enclosingModule? (depth + 1) c = do
      match ← c.around? with
      | some d => if d.kind = .moduleContext then return some d else enclosingModule? depth d
      | none => return none := by
  rw [enclosingModule?, around?, bind_assoc]
  refine congrArg _ (funext fun parent => ?_)
  cases parent with
  | none => simp
  | some a => simp

theorem enclosingModule?_of_error (h : c.around? m = .error e) :
    enclosingModule? (depth + 1) c m = .error e := by
  rw [enclosingModule?_succ]
  exact Decoder.bind_of_error h

theorem enclosingModule?_of_none (h : c.around? m = .ok none) :
    enclosingModule? (depth + 1) c m = .ok none := by
  rw [enclosingModule?_succ]
  exact Decoder.bind_of_ok h

theorem enclosingModule?_of_some (h : c.around? m = .ok (some d)) :
    enclosingModule? (depth + 1) c m =
      if d.kind = .moduleContext then .ok (some d) else enclosingModule? depth d m := by
  rw [enclosingModule?_succ, Decoder.bind_of_ok h]
  simp only
  split <;> rfl

/-- The search finds the first module among the contexts it may look at. -/
theorem enclosingModule?_eq_some_iff :
    enclosingModule? depth c m = .ok (some d) ↔ FirstModule m c depth d := by
  unfold FirstModule
  induction depth generalizing c with
  | zero => exact iff_of_false nofun fun ⟨i, hi, _⟩ => Nat.not_lt_zero i hi
  | succ depth ih =>
    rcases h : c.around? m with e | _ | d'
    · simp [enclosingModule?_of_error h, outward?_of_error h]
    · simp [enclosingModule?_of_none h, outward?_of_none h]
    rw [enclosingModule?_of_some h, Nat.exists_lt_succ_left]
    simp only [outward?_succ_of_around h, outward?_zero, noModule_succ h]
    by_cases hkind : d'.kind = .moduleContext
    · have hfirst : d' = d → d.kind = .moduleContext := fun hd => hd ▸ hkind
      simpa [hkind, noModule_zero] using hfirst
    · have hfirst : d' = d → d.kind ≠ .moduleContext := fun hd => hd ▸ hkind
      simp only [hkind, if_false, ih, ne_eq, not_false_eq_true, true_and, noModule_zero, and_true,
        Except.ok.injEq, Option.some.injEq]
      exact (or_iff_right fun hd => hfirst hd.1 hd.2).symm

/-- The search fails at the first context around which none can be found. -/
theorem enclosingModule?_eq_error_iff :
    enclosingModule? depth c m = .error e ↔ FirstFailure m c depth e := by
  unfold FirstFailure
  simp only [← around?_eq_error_iff]
  induction depth generalizing c with
  | zero => exact iff_of_false nofun fun ⟨i, hi, _⟩ => Nat.not_lt_zero i hi
  | succ depth ih =>
    rw [Nat.exists_lt_succ_left]
    simp only [outward?_zero]
    rcases h : c.around? m with e' | _ | d'
    · simp [enclosingModule?_of_error h, outward?_of_error h, h, noModule_zero]
    · simp [enclosingModule?_of_none h, outward?_of_none h, h]
    rw [enclosingModule?_of_some h]
    simp only [outward?_succ_of_around h, noModule_succ h]
    by_cases hkind : d'.kind = .moduleContext
    · simp [hkind, h]
    · simp [hkind, h, ih]

/-- The search finds nothing among contexts that are no modules. -/
theorem enclosingModule?_eq_none_iff :
    enclosingModule? depth c m = .ok none ↔ AllOther m c depth := by
  unfold AllOther
  induction depth generalizing c with
  | zero => exact iff_of_true rfl ⟨⟨some c, rfl⟩, noModule_zero⟩
  | succ depth ih =>
    rcases h : c.around? m with e' | _ | d'
    · simp [enclosingModule?_of_error h, outward?_of_error h]
    · simp [enclosingModule?_of_none h, outward?_of_none h, NoModule]
    rw [enclosingModule?_of_some h, outward?_succ_of_around h, noModule_succ h]
    by_cases hkind : d'.kind = .moduleContext
    · simp [hkind]
    · simp [hkind, ih]

/-! ## The name of the module -/

theorem moduleName_of_some {limits : Limits}
    (h : enclosingModule? limits.contextDepth c m = .ok (some d)) :
    c.moduleName limits m = d.name limits m := by
  unfold moduleName
  rw [Decoder.bind_of_ok h]
  exact Decoder.bind_of_ok (a := d) rfl

theorem moduleName_of_none {limits : Limits}
    (h : enclosingModule? limits.contextDepth c m = .ok none) :
    c.moduleName limits m =
      .error (.decode (.missingModule c.address limits.contextDepth)) := by
  unfold moduleName
  rw [Decoder.bind_of_ok h]
  rfl

theorem moduleName_of_error {limits : Limits}
    (h : enclosingModule? limits.contextDepth c m = .error e) :
    c.moduleName limits m = .error e :=
  Decoder.bind_of_error h

/-- A name fails without a word about modules. -/
theorem name_ne_missingModule {limits : Limits} :
    c.name limits m ≠ .error (.decode (.missingModule a n)) := by
  unfold name Name.readRelative RelativePointer.required RelativePointer.direct Name.read
  simp [Decoder.bind_eq_error_iff, Decoder.require_eq_error_iff, Decoder.access_eq_error_iff,
    Decoder.i32]

/-- What the search answers depends on no more contexts than it may look at. -/
theorem enclosingModule?_congr (h : ∀ i < depth, ∀ d, outward? i c m = .ok (some d) →
      NoModule m c i → d.around? m' = d.around? m) :
    enclosingModule? depth c m' = enclosingModule? depth c m := by
  induction depth generalizing c with
  | zero => rfl
  | succ depth ih =>
    have hfirst := h 0 (Nat.succ_pos depth) c rfl noModule_zero
    rcases hc : c.around? m with e | _ | d <;> rw [hc] at hfirst
    · rw [enclosingModule?_of_error hc, enclosingModule?_of_error hfirst]
    · rw [enclosingModule?_of_none hc, enclosingModule?_of_none hfirst]
    rw [enclosingModule?_of_some hc, enclosingModule?_of_some hfirst]
    by_cases hkind : d.kind = .moduleContext
    · rw [if_pos hkind, if_pos hkind]
    · rw [if_neg hkind, if_neg hkind]
      refine ih fun i hi d' hd' hnone => ?_
      exact h (i + 1) (by omega) d' ((outward?_succ_of_around hc i).trans hd')
        ((noModule_succ hc).2 ⟨hkind, hnone⟩)

/-- Once a context comes round again, nothing new is found further out. -/
theorem outward?_of_cycle {start : Nat} (hk : 0 < k) (hfirst : outward? start c m = .ok (some d))
    (hagain : outward? (start + k) c m = .ok (some d)) (n : Nat) :
    ∃ i < start + k, ∀ r, outward? (n + r) c m = outward? (i + r) c m := by
  induction n using Nat.strongRecOn with
  | ind n ih =>
    by_cases hn : n < start + k
    · exact ⟨n, hn, fun _ => rfl⟩
    · obtain ⟨i, hi, hr⟩ := ih (n - k) (by omega)
      refine ⟨i, hi, fun r => ?_⟩
      obtain ⟨l, rfl⟩ : ∃ l, n = start + k + l := ⟨n - (start + k), by omega⟩
      rw [← hr r, Nat.add_assoc _ l, outward?_add hagain,
        show start + k + l - k + r = start + (l + r) by omega, outward?_add hfirst]

/-- No module comes round in a cycle without one. -/
theorem noModule_of_cycle {start : Nat} (hk : 0 < k)
    (hfirst : outward? start c m = .ok (some d))
    (hagain : outward? (start + k) c m = .ok (some d)) (hnone : NoModule m c (start + k))
    (n : Nat) : NoModule m c n := by
  intro j _ d' hd'
  obtain ⟨i, hi, hr⟩ := outward?_of_cycle hk hfirst hagain j
  exact hnone i hi d' ((hr 1).symm.trans hd')

/-- Where the name of the module around `c` comes from. -/
structure FindsModule (limits : Limits) (c : Context) (m : Memory) : Prop where
  found : ∀ d, FirstModule m c limits.contextDepth d → c.moduleName limits m = d.name limits m
  failed : ∀ e, FirstFailure m c limits.contextDepth e → c.moduleName limits m = .error e
  missing_iff :
    c.moduleName limits m = .error (.decode (.missingModule c.address limits.contextDepth)) ↔
      AllOther m c limits.contextDepth
  /-- One of the three is always the case. -/
  exhaustive : (∃ d, FirstModule m c limits.contextDepth d) ∨
    (∃ e, FirstFailure m c limits.contextDepth e) ∨ AllOther m c limits.contextDepth
  /-- No more contexts are looked at than the limits allow, and none behind the module. -/
  bounded : ∀ m', (∀ i < limits.contextDepth, ∀ d, outward? i c m = .ok (some d) →
      NoModule m c i → d.around? m' = d.around? m) →
    (∀ d, FirstModule m c limits.contextDepth d → d.name limits m' = d.name limits m) →
    c.moduleName limits m' = c.moduleName limits m
  /-- A cycle without a module ends in no module, whatever the limits. -/
  cyclic : ∀ start k d, 0 < k → outward? start c m = .ok (some d) →
    outward? (start + k) c m = .ok (some d) → NoModule m c (start + k) →
    c.moduleName limits m = .error (.decode (.missingModule c.address limits.contextDepth))

theorem nearest_module (limits : Limits) (c : Context) (m : Memory) : c.FindsModule limits m where
  found _ h := moduleName_of_some (enclosingModule?_eq_some_iff.2 h)
  failed _ h := moduleName_of_error (enclosingModule?_eq_error_iff.2 h)
  missing_iff := by
    constructor
    · intro h
      rcases hfound : enclosingModule? limits.contextDepth c m with e | _ | d
      · rw [moduleName_of_error hfound] at h
        cases h
        obtain ⟨i, -, d, -, hfailure, -⟩ := enclosingModule?_eq_error_iff.1 hfound
        cases hfailure
      · exact enclosingModule?_eq_none_iff.1 hfound
      · rw [moduleName_of_some hfound] at h
        exact absurd h name_ne_missingModule
    · exact fun h => moduleName_of_none (enclosingModule?_eq_none_iff.2 h)
  exhaustive := by
    rcases hfound : enclosingModule? limits.contextDepth c m with e | _ | d
    · exact .inr (.inl ⟨e, enclosingModule?_eq_error_iff.1 hfound⟩)
    · exact .inr (.inr (enclosingModule?_eq_none_iff.1 hfound))
    · exact .inl ⟨d, enclosingModule?_eq_some_iff.1 hfound⟩
  bounded m' hsteps hname := by
    have hsame := enclosingModule?_congr hsteps
    rcases hfound : enclosingModule? limits.contextDepth c m with e | _ | d <;> rw [hfound] at hsame
    · rw [moduleName_of_error hfound, moduleName_of_error hsame]
    · rw [moduleName_of_none hfound, moduleName_of_none hsame]
    · rw [moduleName_of_some hfound, moduleName_of_some hsame]
      exact hname d (enclosingModule?_eq_some_iff.1 hfound)
  cyclic start k d hk hfirst hagain hnone := by
    refine moduleName_of_none (enclosingModule?_eq_none_iff.2 ⟨?_, ?_⟩)
    · obtain ⟨i, hi, hr⟩ := outward?_of_cycle hk hfirst hagain limits.contextDepth
      obtain ⟨d?, hd⟩ := exists_outward?_of_le (Nat.le_of_lt hi) hagain
      exact ⟨d?, (hr 0).trans hd⟩
    · exact noModule_of_cycle hk hfirst hagain hnone _

end TypeMetadata.Context
