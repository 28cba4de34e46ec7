/-!
# Lists with keys

A list of things that each have a key can serve as a table in which the order of first insertion
shows. Putting a thing under a key that is taken replaces the old one where it stands.
-/

namespace TypeMetadata.Keyed

variable {κ α : Type} [DecidableEq κ] (key : α → κ)

/-- The entry with key `k`. -/
def find? (k : κ) (l : List α) : Option α := l.find? fun x => key x = k

/-- Put `x` in the place of the entry with its key, or last if there is none. -/
def put (x : α) : List α → List α
  | [] => [x]
  | y :: rest => if key y = key x then x :: rest else y :: put x rest

/-- What stands under the key `k` in a list of pairs. -/
def lookup? {κ β : Type} [DecidableEq κ] (k : κ) (l : List (κ × β)) : Option β :=
  (find? Prod.fst k l).map Prod.snd

/-- The keys stay as they are, with a new one last. -/
theorem map_put (x : α) (l : List α) :
    (put key x l).map key = if key x ∈ l.map key then l.map key else l.map key ++ [key x] := by
  induction l with
  | nil => simp [put]
  | cons y rest ih =>
    unfold put
    by_cases h : key y = key x
    · simp [h]
    · have h' : key x ≠ key y := fun e => h e.symm
      simp only [if_neg h, List.map_cons, ih, List.mem_cons, h', false_or]
      split <;> simp

theorem find?_put_self (x : α) (l : List α) : find? key (key x) (put key x l) = some x := by
  induction l with
  | nil => simp [put, find?]
  | cons y rest ih =>
    unfold put
    by_cases h : key y = key x
    · simp [h, find?]
    · rw [if_neg h, find?, List.find?_cons_of_neg (by simpa using h)]
      exact ih

theorem find?_put_of_ne {k : κ} {x : α} (h : key x ≠ k) (l : List α) :
    find? key k (put key x l) = find? key k l := by
  induction l with
  | nil => simp [put, find?, h]
  | cons y rest ih =>
    unfold put
    by_cases hy : key y = key x
    · have hk : key y ≠ k := fun e => h (hy ▸ e)
      simp [hy, find?, h]
    · rw [if_neg hy]
      simp only [find?, List.find?_cons] at ih ⊢
      split
      · rfl
      · exact ih

/-- A new key goes last. -/
theorem put_of_find?_none {x : α} {l : List α} (h : find? key (key x) l = none) :
    put key x l = l ++ [x] := by
  induction l with
  | nil => rfl
  | cons y rest ih =>
    simp only [find?, List.find?_cons] at h ih
    unfold put
    by_cases hy : key y = key x
    · simp [hy] at h
    · rw [if_neg hy, List.cons_append, ih (by simpa [hy] using h)]

/-- What the entry in the place of `x` had in common with it stays as it is. -/
theorem map_put_of_find? {γ : Type} {f : α → γ} {x y : α} {l : List α}
    (h : find? key (key x) l = some y) (hf : f x = f y) : (put key x l).map f = l.map f := by
  induction l with
  | nil => cases h
  | cons z rest ih =>
    simp only [find?, List.find?_cons] at h ih
    unfold put
    by_cases hz : key z = key x
    · have hzy : z = y := by simpa [hz] using h
      rw [if_pos hz, List.map_cons, List.map_cons, hf, hzy]
    · rw [if_neg hz, List.map_cons, List.map_cons, ih (by simpa [hz] using h)]

/-- What is put under the key of an entry stands where the entry stood. -/
theorem put_split {k : κ} {y : α} {l : List α} (h : find? key k l = some y) :
    ∃ front back, l = front ++ y :: back ∧ ∀ x, key x = k → put key x l = front ++ x :: back := by
  induction l with
  | nil => cases h
  | cons z rest ih =>
    simp only [find?, List.find?_cons] at h ih
    by_cases hz : key z = k
    · have hzy : z = y := by simpa [hz] using h
      refine ⟨[], rest, by rw [hzy]; rfl, fun x hx => ?_⟩
      unfold put
      rw [if_pos (hz.trans hx.symm)]
      rfl
    · obtain ⟨front, back, hl, hput⟩ := ih (by simpa [hz] using h)
      refine ⟨z :: front, back, by rw [hl]; rfl, fun x hx => ?_⟩
      unfold put
      rw [if_neg fun e => hz (e.trans hx), hput x hx]
      rfl

/-- What was put last under a key is what stands there. -/
theorem find?_foldl_put (k : κ) (xs l : List α) :
    find? key k (xs.foldl (fun l x => put key x l) l)
      = (find? key k xs.reverse).or (find? key k l) := by
  induction xs generalizing l with
  | nil => rfl
  | cons x xs ih =>
    have hx : find? key k (put key x l) = (find? key k [x]).or (find? key k l) := by
      by_cases hx : key x = k
      · rw [← hx, find?_put_self]
        simp [find?]
      · rw [find?_put_of_ne key hx]
        simp [find?, hx]
    rw [List.foldl_cons, ih, hx, List.reverse_cons, ← Option.or_assoc]
    simp only [find?, List.find?_append]

theorem mem_put {x z : α} {l : List α} (h : z ∈ put key x l) : z = x ∨ z ∈ l := by
  induction l with
  | nil => exact .inl (List.mem_singleton.1 h)
  | cons y rest ih =>
    unfold put at h
    split at h
    · exact (List.mem_cons.1 h).imp id (List.mem_cons_of_mem _)
    · rcases List.mem_cons.1 h with rfl | h
      · exact .inr List.mem_cons_self
      · exact (ih h).imp id (List.mem_cons_of_mem _)

theorem nodup_put {l : List α} (h : (l.map key).Nodup) (x : α) :
    ((put key x l).map key).Nodup := by
  rw [map_put]
  split
  · exact h
  · next hx => simpa [List.nodup_append, h] using hx

/-- A list in which no two entries have one key is known from its keys in order and from what stands
under each. -/
theorem eq_of_find? {l l' : List α} (hkeys : l.map key = l'.map key) (hnodup : (l.map key).Nodup)
    (hfind : ∀ k, find? key k l = find? key k l') : l = l' := by
  induction l generalizing l' with
  | nil => exact (List.map_eq_nil_iff.1 hkeys.symm).symm
  | cons x l ih =>
    obtain ⟨y, l', rfl, hxy, hrest⟩ := List.map_eq_cons_iff.1 hkeys.symm
    obtain ⟨hx, hnodup⟩ := List.nodup_cons.1 hnodup
    have hfirst := hfind (key x)
    simp only [find?, List.find?_cons, hxy, decide_true] at hfirst
    cases hfirst
    have hnone : ∀ m : List α, m.map key = l.map key → find? key (key x) m = none := by
      intro m hm
      refine List.find?_eq_none.2 fun z hz => ?_
      rw [decide_eq_true_eq]
      rintro hzx
      exact hx (hm ▸ hzx ▸ List.mem_map_of_mem hz)
    rw [ih hrest.symm hnodup fun k => ?_]
    by_cases hk : key x = k
    · rw [← hk, hnone l rfl, hnone l' hrest]
    · have := hfind k
      simpa only [find?, List.find?_cons, hk, decide_false] using this

theorem nodup_foldl_put (xs : List α) {l : List α} (h : (l.map key).Nodup) :
    ((xs.foldl (fun l x => put key x l) l).map key).Nodup := by
  induction xs generalizing l with
  | nil => exact h
  | cons x xs ih => exact ih (nodup_put key h x)

/-- No key is lost, and those that are put are there. -/
theorem mem_map_foldl_put {k : κ} (xs l : List α) :
    k ∈ (xs.foldl (fun l x => put key x l) l).map key ↔ k ∈ xs.map key ∨ k ∈ l.map key := by
  induction xs generalizing l with
  | nil => simp
  | cons x xs ih =>
    have hput : k ∈ (put key x l).map key ↔ k = key x ∨ k ∈ l.map key := by
      rw [map_put]
      split
      · next hx => exact ⟨.inr, fun hk => hk.elim (fun hk => hk ▸ hx) id⟩
      · rw [List.mem_append, List.mem_singleton, or_comm]
    rw [List.foldl_cons, ih, hput, List.map_cons, List.mem_cons]
    exact or_left_comm.trans or_assoc.symm

theorem map_foldl_put_of_mem (xs : List α) {l : List α} (h : ∀ x ∈ xs, key x ∈ l.map key) :
    (xs.foldl (fun l x => put key x l) l).map key = l.map key := by
  induction xs generalizing l with
  | nil => rfl
  | cons x xs ih =>
    have hput : (put key x l).map key = l.map key := by
      rw [map_put, if_pos (h x List.mem_cons_self)]
    rw [List.foldl_cons, ih fun y hy => hput ▸ h y (List.mem_cons_of_mem _ hy), hput]

/-- To put the same entries once more changes nothing. -/
theorem foldl_put_twice (xs : List α) {l : List α} (h : (l.map key).Nodup) :
    xs.foldl (fun l x => put key x l) (xs.foldl (fun l x => put key x l) l)
      = xs.foldl (fun l x => put key x l) l := by
  have hkeys : ∀ x ∈ xs, key x ∈ (xs.foldl (fun l x => put key x l) l).map key := fun x hx =>
    (mem_map_foldl_put key xs l).2 (.inl (List.mem_map_of_mem hx))
  have hmap := map_foldl_put_of_mem key xs hkeys
  refine eq_of_find? key hmap (hmap ▸ nodup_foldl_put key xs h) fun k => ?_
  rw [find?_foldl_put, find?_foldl_put, ← Option.or_assoc, Option.or_self]

/-! ## Lists of pairs -/

variable {β : Type}

theorem lookup?_eq_some {k : κ} {b : β} {l : List (κ × β)} (h : lookup? k l = some b) :
    find? Prod.fst k l = some (k, b) := by
  obtain ⟨⟨k', b'⟩, hf, rfl⟩ := Option.map_eq_some_iff.1 h
  have hk : k' = k := by simpa using List.find?_some hf
  rw [hf, hk]

theorem find?_eq_of_lookup? {k : κ} {l l' : List (κ × β)} (h : lookup? k l = lookup? k l') :
    find? Prod.fst k l = find? Prod.fst k l' := by
  rcases hb : lookup? k l with _ | b <;> rw [hb] at h
  · have hl : find? Prod.fst k l = none := Option.map_eq_none_iff.1 hb
    have hl' : find? Prod.fst k l' = none := Option.map_eq_none_iff.1 h.symm
    rw [hl, hl']
  · rw [lookup?_eq_some hb, lookup?_eq_some h.symm]

theorem mem_of_lookup? {k : κ} {b : β} {l : List (κ × β)} (h : lookup? k l = some b) :
    (k, b) ∈ l :=
  List.mem_of_find?_eq_some (lookup?_eq_some h)

/-- Where no key comes twice, what stands under a key is what is listed with it. -/
theorem lookup?_eq_some_iff {k : κ} {b : β} {l : List (κ × β)} (h : (l.map Prod.fst).Nodup) :
    lookup? k l = some b ↔ (k, b) ∈ l := by
  refine ⟨mem_of_lookup?, fun hmem => ?_⟩
  induction l with
  | nil => cases hmem
  | cons x l ih =>
    obtain ⟨hx, hl⟩ := List.nodup_cons.1 h
    rw [lookup?, find?, List.find?_cons]
    rcases List.mem_cons.1 hmem with rfl | hmem
    · simp
    · have hne : x.1 ≠ k := fun hk => hx (hk ▸ List.mem_map_of_mem hmem)
      simp only [hne, decide_false]
      exact ih hl hmem

theorem lookup?_put (k : κ) (x : κ × β) (l : List (κ × β)) :
    lookup? k (put Prod.fst x l) = if x.1 = k then some x.2 else lookup? k l := by
  unfold lookup?
  split
  · next h => rw [← h, find?_put_self, Option.map_some]
  · next h => rw [find?_put_of_ne Prod.fst h]

theorem put_of_lookup?_none {x : κ × β} {l : List (κ × β)} (h : lookup? x.1 l = none) :
    put Prod.fst x l = l ++ [x] :=
  put_of_find?_none _ (Option.map_eq_none_iff.1 h)

/-- What stands under a key stays there when more comes behind it. -/
theorem lookup?_of_prefix {k : κ} {b : β} {l l' : List (κ × β)} (h : l <+: l')
    (hk : lookup? k l = some b) : lookup? k l' = some b := by
  obtain ⟨more, rfl⟩ := h
  rw [lookup?, find?, List.find?_append, ← find?, lookup?_eq_some hk]
  rfl

theorem lookup?_map {γ : Type} (f : β → γ) (k : κ) (l : List (κ × β)) :
    lookup? k (l.map (Prod.map id f)) = (lookup? k l).map f := by
  simp only [lookup?, find?, List.find?_map, Option.map_map, Function.comp_def, Prod.map_fst, id]
  rfl

end TypeMetadata.Keyed
