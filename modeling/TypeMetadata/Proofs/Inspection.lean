import TypeMetadata.World

/-!
# Running inspections

What an inspection answers and leaves behind, one equation per way of building it (`run_bind`,
`runOn_bind`), with a loop that goes on as long as its steps answer (`passes_or_fails`).
`InspectOn.Ensures` says what holds of the part under inspection afterwards, in whatever world the
inspection runs: `Ensures.bind` chains such facts, and `Keeps.forM` and `Keeps.mapM` carry an
invariant through a loop.
-/

namespace TypeMetadata

theorem World.bind_apply {α β : Type} (x : StateM World α) (f : α → StateM World β) (w : World) :
    (x >>= f) w = f (x w).1 (x w).2 := rfl

namespace Inspect

variable {α β : Type}

theorem run_bind (x : Inspect α) (f : α → Inspect β) (w : World) :
    (x >>= f).run w =
      match x.run w with
      | (.ok a, w') => (f a).run w'
      | (.error e, w') => (.error e, w') := by
  change ExceptT.bindCont f (x.run w).1 (x.run w).2 = _
  rcases x.run w with ⟨e | a, w'⟩ <;> rfl

theorem run_get (w : World) : (get : Inspect World).run w = (.ok w, w) := rfl

theorem run_decode (d : Decoder α) (w : World) : (decode d).run w = (w.decode d, w) := by
  unfold decode
  rw [run_bind, run_get]
  simp only
  cases w.decode d <;> rfl

theorem run_set (w w' : World) : (set w' : Inspect PUnit).run w = (.ok (), w') := rfl

theorem run_tryCatch (x : Inspect α) (f : Error → Inspect α) (w : World) :
    (tryCatch x f).run w =
      match x.run w with
      | (.ok a, w') => (.ok a, w')
      | (.error e, w') => (f e).run w' := by
  rw [ExceptT.run_tryCatch]
  simp only [bind, StateT.bind]
  rcases x.run w with ⟨e | a, w'⟩ <;> rfl

theorem run_call (c : Call) (w : World) :
    (call c).run w = ((w.invoke c).1.mapError .call, (w.invoke c).2) := by
  unfold call
  rw [run_bind, run_get]
  simp only
  rw [run_bind, run_set]
  cases (w.invoke c).1 <;> rfl

theorem run_discard_call (c : Call) (w : World) :
    (discard (call c)).run w =
      (((w.invoke c).1.mapError Error.call).map fun _ => (), (w.invoke c).2) := by
  have hdiscard : discard (call c) = (call c >>= fun _ => pure ()) := by
    rw [Functor.discard, LawfulFunctor.map_const, Function.comp_apply, map_eq_pure_bind]
  rw [hdiscard, run_bind, run_call]
  rcases (w.invoke c).1 with e | x <;> rfl

theorem run_update (f : Memory → Except MemoryError Memory) (w : World) :
    (update f).run w =
      match f w.memory with
      | .ok memory => (.ok (), { w with memory })
      | .error e => (.error (.memory e), w) := by
  unfold update
  rw [run_bind, run_get]
  simp only
  cases f w.memory <;> rfl

/-- The steps of an inspection that answers all answered. -/
theorem run_bind_ok {x : Inspect α} {f : α → Inspect β} {w w' : World} {b : β}
    (h : (x >>= f).run w = (.ok b, w')) :
    ∃ a w₁, x.run w = (.ok a, w₁) ∧ (f a).run w₁ = (.ok b, w') := by
  rw [run_bind] at h
  rcases hx : x.run w with ⟨e | a, w₁⟩ <;> rw [hx] at h
  · cases h
  · exact ⟨a, w₁, rfl, h⟩

/-- What a run shows of an inspection. -/
theorem exists_of_any {x : Inspect α} {w : World} {p : α × World → Bool}
    (h : (match x.run w with
      | (.ok a, w') => p (a, w')
      | (.error _, _) => false) = true) :
    ∃ a w', x.run w = (.ok a, w') ∧ p (a, w') = true := by
  rcases hx : x.run w with ⟨e | a, w'⟩ <;> rw [hx] at h
  · cases h
  · exact ⟨a, w', rfl, h⟩

end Inspect

namespace InspectOn

variable {σ α β : Type}

theorem runOn_current (s : σ) (w : World) :
    (current : InspectOn σ σ).runOn s w = ((.ok s, s), w) := rfl

theorem runOn_lift (x : Inspect α) (s : σ) (w : World) :
    (lift x : InspectOn σ α).runOn s w = (((x.run w).1, s), (x.run w).2) := rfl

theorem runOn_bind (x : InspectOn σ α) (f : α → InspectOn σ β) (s : σ) (w : World) :
    (x >>= f).runOn s w =
      match x.runOn s w with
      | ((.ok a, s'), w') => (f a).runOn s' w'
      | ((.error e, s'), w') => ((.error e, s'), w') := by
  change ExceptT.bindCont f (x.runOn s w).1.1 (x.runOn s w).1.2 (x.runOn s w).2 = _
  rcases x.runOn s w with ⟨⟨e | a, s'⟩, w'⟩ <;> rfl

theorem runOn_decode_bind (d : Decoder α) (f : α → InspectOn σ β) (s : σ) (w : World) :
    ((lift (Inspect.decode d) : InspectOn σ α) >>= f).runOn s w =
      match w.decode d with
      | .ok a => (f a).runOn s w
      | .error e => ((.error e, s), w) := by
  have h := Inspect.run_decode d w
  rw [runOn_bind, runOn_lift, h]
  cases w.decode d <;> rfl

theorem runOn_onPart {τ : Type} (get : σ → τ) (set : σ → τ → σ) (x : InspectOn τ α) (s : σ)
    (w : World) : (onPart get set x).runOn s w =
      (((x.runOn (get s) w).1.1, set s (x.runOn (get s) w).1.2), (x.runOn (get s) w).2) := rfl

theorem runOn_of_answer {x : InspectOn σ α} {s : σ} {w : World} {a : α}
    (h : (x.runOn s w).1.1 = .ok a) :
    x.runOn s w = ((.ok a, (x.runOn s w).1.2), (x.runOn s w).2) :=
  Prod.ext (Prod.ext h rfl) rfl

theorem runOn_of_no_answer {x : InspectOn σ α} {s : σ} {w : World}
    (h : (x.runOn s w).1.1.toOption = none) :
    ∃ e s' w', x.runOn s w = ((.error e, s'), w') := by
  rcases hx : x.runOn s w with ⟨⟨e | a, s'⟩, w'⟩
  · exact ⟨e, s', w', rfl⟩
  · rw [hx] at h
    cases h

theorem runOn_map (f : α → β) (x : InspectOn σ α) (s : σ) (w : World) :
    (f <$> x).runOn s w =
      (((x.runOn s w).1.1.map f, (x.runOn s w).1.2), (x.runOn s w).2) := by
  rw [map_eq_pure_bind, runOn_bind]
  rcases x.runOn s w with ⟨⟨e | a, s'⟩, w'⟩ <;> rfl

/-- Without its answer an inspection has changed as much. -/
theorem runOn_discard (x : InspectOn σ α) (s : σ) (w : World) :
    ((discard x).runOn s w).1.2 = (x.runOn s w).1.2 := by
  rw [Functor.discard, LawfulFunctor.map_const, Function.comp_apply, runOn_map]

/-- So it has if the answer is left in a block. -/
theorem runOn_leave (x : InspectOn σ α) (s : σ) (w : World) :
    ((do let _ ← x : InspectOn σ PUnit).runOn s w).1.2 = (x.runOn s w).1.2 := by
  rw [runOn_bind]
  rcases x.runOn s w with ⟨⟨e | a, s'⟩, w'⟩ <;> rfl

theorem runOn_of_discard_ok {x : InspectOn σ α} {s s' : σ} {w w' : World} {u : PUnit}
    (h : (discard x).runOn s w = ((.ok u, s'), w')) : ∃ a, x.runOn s w = ((.ok a, s'), w') := by
  rw [Functor.discard, LawfulFunctor.map_const, Function.comp_apply, runOn_map] at h
  rcases hx : x.runOn s w with ⟨⟨e₁ | a, s₁⟩, w₁⟩ <;> rw [hx] at h <;> cases h
  exact ⟨a, rfl⟩

theorem runOn_of_discard_error {x : InspectOn σ α} {s s' : σ} {w w' : World} {e : Error}
    (h : (discard x).runOn s w = ((.error e, s'), w')) : x.runOn s w = ((.error e, s'), w') := by
  rw [Functor.discard, LawfulFunctor.map_const, Function.comp_apply, runOn_map] at h
  rcases hx : x.runOn s w with ⟨⟨e₁ | a, s₁⟩, w₁⟩ <;> rw [hx] at h <;> cases h
  rfl

/-! ## Loops -/

section Loops

variable {γ : Type} {step : γ → InspectOn σ α}

/-- `step` answers for one after another of these, which takes the part from `s` to `s'` and the
world from `w` to `w'`. -/
inductive Passes (step : γ → InspectOn σ α) :
    List γ → σ → World → List α → σ → World → Prop where
  | nil (s : σ) (w : World) : Passes step [] s w [] s w
  | cons {c : γ} {cs : List γ} {s s₁ s' : σ} {w w₁ w' : World} {a : α} {as : List α}
    (first : (step c).runOn s w = ((.ok a, s₁), w₁)) (rest : Passes step cs s₁ w₁ as s' w') :
    Passes step (c :: cs) s w (a :: as) s' w'

/-- Either all pass, or there is a first that fails. -/
theorem passes_or_fails (step : γ → InspectOn σ α) (l : List γ) (s : σ) (w : World) :
    (∃ as s' w', Passes step l s w as s' w') ∨
      ∃ before c rest as s₁ w₁ e s' w', l = before ++ c :: rest ∧
        Passes step before s w as s₁ w₁ ∧ (step c).runOn s₁ w₁ = ((.error e, s'), w') := by
  induction l generalizing s w with
  | nil => exact .inl ⟨[], s, w, .nil s w⟩
  | cons c l ih =>
    rcases hc : (step c).runOn s w with ⟨⟨e | a, s₁⟩, w₁⟩
    · exact .inr ⟨[], c, l, [], s, w, e, s₁, w₁, rfl, .nil s w, hc⟩
    · rcases ih s₁ w₁ with ⟨as, s', w', h⟩ | ⟨before, d, rest, as, s₂, w₂, e, s', w', rfl, h, hd⟩
      · exact .inl ⟨a :: as, s', w', .cons hc h⟩
      · exact .inr ⟨c :: before, d, rest, a :: as, s₂, w₂, e, s', w', rfl, .cons hc h, hd⟩

theorem Passes.runOn_mapM {l : List γ} {s s' : σ} {w w' : World} {as : List α}
    (h : Passes step l s w as s' w') : (l.mapM step).runOn s w = ((.ok as, s'), w') := by
  induction h with
  | nil => rfl
  | cons first _ ih =>
    rw [List.mapM_cons, runOn_bind, first]
    simp only
    rw [runOn_bind, ih]
    rfl

theorem Passes.runOn_mapM_error {before rest : List γ} {c : γ} {s s₁ s' : σ} {w w₁ w' : World}
    {as : List α} {e : Error} (h : Passes step before s w as s₁ w₁)
    (hc : (step c).runOn s₁ w₁ = ((.error e, s'), w')) :
    ((before ++ c :: rest).mapM step).runOn s w = ((.error e, s'), w') := by
  induction h with
  | nil =>
    rw [List.nil_append, List.mapM_cons, runOn_bind, hc]
  | cons first _ ih =>
    rw [List.cons_append, List.mapM_cons, runOn_bind, first]
    simp only
    rw [runOn_bind, ih hc]

/-- A loop without answers is one whose answers are dropped. -/
theorem runOn_forM (step : γ → InspectOn σ PUnit) (l : List γ) (s : σ) (w : World) :
    (l.forM step).runOn s w = (l.mapM step >>= fun _ => pure PUnit.unit).runOn s w := by
  induction l generalizing s w with
  | nil => rfl
  | cons c l ih =>
    change (step c >>= fun _ => l.forM step).runOn s w = _
    rw [runOn_bind, List.mapM_cons, runOn_bind, runOn_bind]
    rcases (step c).runOn s w with ⟨⟨e | a, s₁⟩, w₁⟩
    · rfl
    · simp only
      rw [ih, runOn_bind, runOn_bind]
      rcases (l.mapM step).runOn s₁ w₁ with ⟨⟨e | as, s₂⟩, w₂⟩ <;> rfl

end Loops

/-! ## What an inspection ensures -/

/-- From `P`, an answer leaves the part in `Q`, and a failure leaves it in `F`. -/
def Ensures (P : σ → Prop) (x : InspectOn σ α) (Q : α → σ → Prop) (F : σ → Prop) : Prop :=
  ∀ s w, P s →
    match (x.runOn s w).1 with
    | (.ok a, s') => Q a s'
    | (.error _, s') => F s'

/-- The part stays in `P` whether or not there is an answer. -/
def Keeps (P : σ → Prop) (x : InspectOn σ α) : Prop := Ensures P x (fun _ => P) P

variable {P F : σ → Prop} {Q : α → σ → Prop}

theorem Ensures.pure {a : α} (h : ∀ s, P s → Q a s) : Ensures P (pure a : InspectOn σ α) Q F :=
  fun s _ hs => h s hs

theorem Ensures.current {Q : σ → σ → Prop} (h : ∀ s, P s → Q s s) :
    Ensures P (current : InspectOn σ σ) Q F :=
  fun s _ hs => h s hs

/-- Inspecting something else leaves the part as it was. -/
theorem Ensures.lift {x : Inspect α} (hF : ∀ s, P s → F s)
    (hQ : ∀ s w a, P s → (x.run w).1 = .ok a → Q a s) : Ensures P (InspectOn.lift x) Q F := by
  intro s w hs
  rw [runOn_lift]
  rcases hx : (x.run w).1 with e | a
  · exact hF s hs
  · exact hQ s w a hs hx

theorem Ensures.bind {x : InspectOn σ α} {f : α → InspectOn σ β} {R : β → σ → Prop}
    (hx : Ensures P x Q F) (hf : ∀ a, Ensures (Q a) (f a) R F) : Ensures P (x >>= f) R F := by
  intro s w hs
  have h := hx s w hs
  rw [runOn_bind]
  rcases hr : x.runOn s w with ⟨⟨e | a, s'⟩, w'⟩ <;> rw [hr] at h
  · exact h
  · exact hf a s' w' h

theorem Ensures.mono {R : α → σ → Prop} {x : InspectOn σ α} (h : Ensures P x Q F)
    (hQ : ∀ a s, Q a s → R a s) : Ensures P x R F := by
  intro s w hs
  have := h s w hs
  rcases hr : x.runOn s w with ⟨⟨e | a, s'⟩, w'⟩ <;> rw [hr] at this
  · exact this
  · exact hQ _ _ this

theorem Keeps.pure (a : α) : Keeps P (pure a : InspectOn σ α) := Ensures.pure fun _ h => h

theorem Keeps.current : Keeps P (InspectOn.current : InspectOn σ σ) := fun _ _ h => h

theorem Keeps.lift (x : Inspect α) : Keeps P (InspectOn.lift x) :=
  Ensures.lift (fun _ h => h) fun _ _ _ h _ => h

theorem Keeps.bind {x : InspectOn σ α} {f : α → InspectOn σ β} (hx : Keeps P x)
    (hf : ∀ a, Keeps P (f a)) : Keeps P (x >>= f) :=
  Ensures.bind hx hf

theorem Keeps.discard {x : InspectOn σ α} (h : Keeps P x) : Keeps P (discard x) := by
  rw [Functor.discard, LawfulFunctor.map_const, Function.comp_apply, map_eq_pure_bind]
  exact Keeps.bind h fun _ => Keeps.pure _

theorem Keeps.forM {γ : Type} {f : γ → InspectOn σ PUnit} (h : ∀ c, Keeps P (f c)) :
    ∀ l : List γ, Keeps P (l.forM f)
  | [] => Keeps.pure _
  | c :: l => by
    exact Keeps.bind (h c) fun _ => Keeps.forM h l

theorem Keeps.mapM {γ : Type} {f : γ → InspectOn σ α} (h : ∀ c, Keeps P (f c)) :
    ∀ l : List γ, Keeps P (l.mapM f)
  | [] => Keeps.pure _
  | c :: l => by
    rw [List.mapM_cons]
    exact Keeps.bind (h c) fun _ => Keeps.bind (Keeps.mapM h l) fun _ => Keeps.pure _

/-- An invariant holds after an inspection if it held before. -/
theorem Keeps.run {x : InspectOn σ α} (h : Keeps P x) {s : σ} (w : World) (hs : P s) :
    P (x.runOn s w).1.2 := by
  have := h s w hs
  rcases hr : x.runOn s w with ⟨⟨e | a, s'⟩, w'⟩ <;> rw [hr] at this <;> exact this

end InspectOn

end TypeMetadata
