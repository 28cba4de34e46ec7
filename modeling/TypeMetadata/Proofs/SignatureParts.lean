import TypeMetadata.Signature.Spelling

/-!
# How a symbol is cut

The arguments end at the last parenthesis that an arrow follows (`arguments?_append`), and the
context at the last point that a name and arguments follow (`qualified?_at_point`); `callFollows`
says whether there is one. Arguments without a comma outside brackets stay whole (`Whole`).
-/

namespace TypeMetadata.Signature

open Text

/-! ## Arguments -/

theorem returnType?_of_no_dash {cs : List Char} (h : '-' ∉ cs) : returnType? cs = none := by
  unfold returnType?
  split
  · rename_i rest hcs
    have hmem : '-' ∈ dropBlanks cs := by simp [hcs]
    exact absurd (mem_of_mem_dropBlanks hmem) h
  · rfl

theorem arguments?_of_no_dash {cs : List Char} (h : '-' ∉ cs) : arguments? cs = none := by
  induction cs with
  | nil => rfl
  | cons c rest ih =>
    have hrest : '-' ∉ rest := fun hmem => h (List.mem_cons_of_mem _ hmem)
    unfold arguments?
    rw [ih hrest, returnType?_of_no_dash hrest]
    simp

theorem arguments?_cons_of_ne {c : Char} {rest : List Char} (hc : c ≠ ')')
    (h : arguments? rest = none) : arguments? (c :: rest) = none := by
  unfold arguments?
  rw [h, ite_self]
  exact if_neg hc

variable {type : List Char}

/-- A return type as it is written. -/
structure IsReturnType (type : List Char) : Prop where
  ne_nil : type ≠ []
  no_line : '\n' ∉ type
  no_dash : '-' ∉ type
  dropBlanks_eq : dropBlanks type = type

theorem returnType?_arrow (h : IsReturnType type) :
    returnType? (' ' :: '-' :: '>' :: ' ' :: type) = some type := by
  have htype : dropBlanks (' ' :: type) = type := by
    rw [dropBlanks, List.dropWhile_cons_of_pos (by decide)]
    exact h.dropBlanks_eq
  have hdash : dropBlanks (' ' :: '-' :: '>' :: ' ' :: type) = '-' :: '>' :: ' ' :: type := by
    rw [dropBlanks, List.dropWhile_cons_of_pos (by decide),
      List.dropWhile_cons_of_neg (by decide)]
  unfold returnType?
  rw [hdash]
  simp only [htype]
  exact if_pos ⟨h.ne_nil, h.no_line⟩

theorem arguments?_append {args : List Char} (hargs : '\n' ∉ args) (h : IsReturnType type) :
    arguments? (args ++ arrow type) = some (args, type) := by
  induction args with
  | nil =>
    have hdash : '-' ∉ '>' :: ' ' :: type := by simp [h.no_dash]
    have hnone : arguments? (' ' :: '-' :: '>' :: ' ' :: type) = none :=
      arguments?_cons_of_ne (by decide)
        (arguments?_cons_of_ne (by decide) (arguments?_of_no_dash hdash))
    rw [List.nil_append, arrow, arguments?, hnone, returnType?_arrow h]
    rfl
  | cons c args ih =>
    have hc : c ≠ '\n' := fun hc => hargs (hc ▸ List.mem_cons_self)
    have hrest : '\n' ∉ args := fun hmem => hargs (List.mem_cons_of_mem _ hmem)
    rw [List.cons_append, arguments?, if_neg hc, ih hrest]

/-! ## Contexts -/

/-- Whether a text goes on to a parenthesis without a point or white space before it. -/
def opens (cs : List Char) : Bool := (cs.dropWhile isNameChar).head? = some '('

/-- Whether a name and arguments follow a point in `cs` when `rest` comes after it. -/
def callFollows : List Char → List Char → Bool
  | [], _ => false
  | c :: cs, rest => (c = '.' && (unqualified? (cs ++ rest)).isSome) || callFollows cs rest

theorem callFollows_append (cs ds rest : List Char) :
    callFollows (cs ++ ds) rest = (callFollows cs (ds ++ rest) || callFollows ds rest) := by
  induction cs with
  | nil => rfl
  | cons c cs ih =>
    rw [List.cons_append, callFollows, callFollows, ih, List.append_assoc, Bool.or_assoc]

theorem callFollows_of_no_point {cs : List Char} (h : '.' ∉ cs) (rest : List Char) :
    callFollows cs rest = false := by
  induction cs with
  | nil => rfl
  | cons c cs ih =>
    have hc : c ≠ '.' := fun hc => h (hc ▸ List.mem_cons_self)
    rw [callFollows, ih fun hmem => h (List.mem_cons_of_mem _ hmem)]
    simp [hc]

theorem unqualified?_of_no_dash {cs : List Char} (h : '-' ∉ cs) : unqualified? cs = none := by
  unfold unqualified?
  simp only
  split
  · rfl
  · rename_i rest hdrop _
    have hrest : '-' ∉ rest := fun hmem => h
      ((List.dropWhile_suffix _).subset (hdrop ▸ List.mem_cons_of_mem _ hmem))
    rw [arguments?_of_no_dash hrest]
    rfl
  · rfl

theorem callFollows_of_no_dash {cs : List Char} (h : '-' ∉ cs) : callFollows cs [] = false := by
  induction cs with
  | nil => rfl
  | cons c cs ih =>
    have hcs : '-' ∉ cs := fun hmem => h (List.mem_cons_of_mem _ hmem)
    rw [callFollows, ih hcs, List.append_nil, unqualified?_of_no_dash hcs]
    simp

theorem qualified?_cons_of_some {c : Char} {rest : List Char} {parts : Parts} (hc : c ≠ '\n')
    (h : qualified? rest = some parts) :
    qualified? (c :: rest) = some { parts with context := parts.context.map (c :: ·) } := by
  unfold qualified?
  rw [if_neg hc, h]

theorem qualified?_cons_point {c : Char} {more : List Char} (hc : c ≠ '\n')
    (h : qualified? ('.' :: more) = none) :
    qualified? (c :: '.' :: more)
      = (unqualified? more).map fun parts => { parts with context := some [c] } := by
  rw [qualified?, if_neg hc, h]

theorem qualified?_cons_of_ne {c d : Char} {more : List Char} (hd : d ≠ '.')
    (h : qualified? (d :: more) = none) : qualified? (c :: d :: more) = none := by
  rw [qualified?, h]
  · exact ite_self _
  · exact fun _ heq => hd (List.cons.inj heq).1

/-- A text has a context if a call follows a point somewhere after its first character. -/
theorem isSome_qualified? {c : Char} {cs : List Char} (h : '\n' ∉ c :: cs) :
    (qualified? (c :: cs)).isSome = callFollows cs [] := by
  induction cs generalizing c with
  | nil => simp [qualified?, callFollows]
  | cons d cs ih =>
    have hc : c ≠ '\n' := fun hc => h (hc ▸ List.mem_cons_self)
    have ih := ih fun hmem => h (List.mem_cons_of_mem _ hmem)
    rw [callFollows, ← ih, List.append_nil]
    rcases hq : qualified? (d :: cs) with _ | parts
    · by_cases hd : d = '.'
      · subst hd
        simp [qualified?_cons_point hc hq]
      · simp [qualified?_cons_of_ne hd hq, hd]
    · simp [qualified?_cons_of_some hc hq]

theorem context_of_qualified? {cs : List Char} {parts : Parts} (h : qualified? cs = some parts) :
    ∃ context, parts.context = some context ∧ context ≠ [] := by
  induction cs generalizing parts with
  | nil => cases h
  | cons c cs ih =>
    unfold qualified? at h
    split at h
    · cases h
    rcases hq : qualified? cs with _ | inner <;> simp only [hq] at h
    · split at h
      · obtain ⟨called, -, rfl⟩ := Option.map_eq_some_iff.1 h
        exact ⟨[c], rfl, List.cons_ne_nil _ _⟩
      · cases h
    · obtain ⟨context, hcontext, -⟩ := ih hq
      cases h
      exact ⟨c :: context, by rw [hcontext]; rfl, List.cons_ne_nil _ _⟩

/-- The context of a text that ends in one with a context is that one, with the rest before it. -/
theorem qualified?_append {front cs : List Char} {parts : Parts} (hfront : '\n' ∉ front)
    (h : qualified? cs = some parts) :
    qualified? (front ++ cs) = some { parts with context := parts.context.map (front ++ ·) } := by
  induction front with
  | nil => simp [h]
  | cons c front ih =>
    have hc : c ≠ '\n' := fun hc => hfront (hc ▸ List.mem_cons_self)
    have ih := ih fun hmem => hfront (List.mem_cons_of_mem _ hmem)
    rw [List.cons_append, qualified?_cons_of_some hc ih, Option.map_map]
    rfl

/-- A point after which a call follows, but none after a later point, ends the context. -/
theorem qualified?_at_point {front more : List Char} {parts : Parts} (hfront : '\n' ∉ front)
    (hne : front ≠ []) (hmore : qualified? ('.' :: more) = none)
    (h : unqualified? more = some parts) :
    qualified? (front ++ '.' :: more) = some { parts with context := some front } := by
  obtain ⟨init, c, rfl⟩ := (List.eq_nil_or_concat front).resolve_left hne
  have hc : c ≠ '\n' := fun hc => hfront (by simp [hc])
  have hlast : qualified? (c :: '.' :: more) = some { parts with context := some [c] } := by
    rw [qualified?_cons_point hc hmore, h]
    rfl
  have hinit : '\n' ∉ init := fun hmem => hfront (by simp [hmem])
  rw [List.concat_append, List.concat_eq_append]
  exact qualified?_append hinit hlast

theorem unqualified?_of_open {cs rest : List Char} (hne : cs.takeWhile isNameChar ≠ [])
    (h : cs.dropWhile isNameChar = '(' :: rest) :
    unqualified? cs = (arguments? rest).map fun (args, type) =>
      ⟨none, cs.takeWhile isNameChar, args, type⟩ := by
  unfold unqualified?
  rw [h]
  rcases hword : cs.takeWhile isNameChar with _ | ⟨c, word⟩
  · exact absurd hword hne
  · rfl

theorem unqualified?_of_not_opens {cs : List Char} (h : opens cs = false) :
    unqualified? cs = none := by
  unfold unqualified?
  simp only
  split
  · rfl
  · rename_i hdrop _
    simp [opens, hdrop] at h
  · rfl

theorem unqualified?_call {name args : List Char} (hname : ∀ c ∈ name, isNameChar c = true)
    (hne : name ≠ []) (hargs : '\n' ∉ args) (h : IsReturnType type) :
    unqualified? (name ++ '(' :: (args ++ arrow type)) = some ⟨none, name, args, type⟩ := by
  have htake : (name ++ '(' :: (args ++ arrow type)).takeWhile isNameChar = name := by
    rw [List.takeWhile_append_of_pos hname, List.takeWhile_cons_of_neg (by decide),
      List.append_nil]
  have hdrop : (name ++ '(' :: (args ++ arrow type)).dropWhile isNameChar
      = '(' :: (args ++ arrow type) := by
    rw [List.dropWhile_append_of_pos hname, List.dropWhile_cons_of_neg (by decide)]
  rw [unqualified?_of_open (by rw [htake]; exact hne) hdrop, arguments?_append hargs h, htake]
  rfl

theorem opens_append {word : List Char} (hword : ∀ c ∈ word, isNameChar c = true)
    (cs : List Char) : opens (word ++ cs) = opens cs := by
  rw [opens, List.dropWhile_append_of_pos hword, opens]

/-- In a symbol that ends in an arrow, a word begins a call if a parenthesis opens behind it. -/
theorem isSome_unqualified? {word cs : List Char} (hword : ∀ c ∈ word, isNameChar c = true)
    (hne : word ≠ []) (hcs : '\n' ∉ cs) (h : IsReturnType type) :
    (unqualified? (word ++ (cs ++ arrow type))).isSome = opens (cs ++ arrow type) := by
  rcases hopens : opens (cs ++ arrow type) with _ | _
  · rw [unqualified?_of_not_opens (by rw [opens_append hword, hopens])]
    rfl
  · obtain ⟨rest, hdrop, hrest⟩ : ∃ rest,
        (cs ++ arrow type).dropWhile isNameChar = '(' :: (rest ++ arrow type) ∧ '\n' ∉ rest := by
      have hhead : ((cs ++ arrow type).dropWhile isNameChar).head? = some '(' := by
        simpa [opens] using hopens
      rw [List.dropWhile_append] at hhead ⊢
      rcases hd : cs.dropWhile isNameChar with _ | ⟨c, rest⟩ <;> rw [hd] at hhead
      · cases hhead
      · cases hhead
        have hmem : ∀ c ∈ rest, c ∈ cs := fun c hc =>
          (List.dropWhile_suffix _).subset (hd ▸ List.mem_cons_of_mem _ hc)
        exact ⟨rest, rfl, fun hc => hcs (hmem _ hc)⟩
    have htake : (word ++ (cs ++ arrow type)).takeWhile isNameChar ≠ [] := by
      rw [List.takeWhile_append_of_pos hword]
      simp [hne]
    rw [← List.dropWhile_append_of_pos hword] at hdrop
    rw [unqualified?_of_open htake hdrop, arguments?_append hrest h]
    rfl

/-! ## Splitting -/

/-- Put a text in front of the first of some parts. -/
def prepend (text : List Char) : List (List Char) → List (List Char)
  | [] => [text]
  | part :: more => (text ++ part) :: more

/-- The depth behind a character. -/
def depthAfter (depth : Nat) (c : Char) : Nat :=
  if c = '(' ∨ c = '<' ∨ c = '[' then depth + 1
  else if c = ')' ∨ c = '>' ∨ c = ']' then depth - 1
  else depth

theorem splitArguments_cons (depth : Nat) (c : Char) (rest : List Char) :
    splitArguments depth (c :: rest) =
      if c = ',' ∧ depth = 0 then [] :: splitArguments 0 rest
      else prepend [c] (splitArguments (depthAfter depth c) rest) := by
  rw [splitArguments]
  split
  · rfl
  · simp only [← depthAfter.eq_1]
    rcases splitArguments (depthAfter depth c) rest with _ | ⟨part, more⟩ <;> rfl

theorem splitArguments_ne_nil (depth : Nat) (cs : List Char) : splitArguments depth cs ≠ [] := by
  cases cs with
  | nil => simp [splitArguments]
  | cons c rest =>
    rw [splitArguments_cons]
    split
    · simp
    · rcases splitArguments (depthAfter depth c) rest with _ | ⟨part, more⟩ <;> simp [prepend]

theorem prepend_append (text text' : List Char) (parts : List (List Char)) :
    prepend (text ++ text') parts = prepend text (prepend text' parts) := by
  cases parts <;> simp [prepend]

/-- A text that is not cut at this depth, and behind which the depth is the same. -/
def Whole (depth : Nat) (text : List Char) : Prop :=
  ∀ rest, splitArguments depth (text ++ rest) = prepend text (splitArguments depth rest)

namespace Whole

variable {depth : Nat} {text text' : List Char}

theorem nil (depth : Nat) : Whole depth [] := by
  intro rest
  rcases h : splitArguments depth rest with _ | ⟨part, more⟩
  · exact absurd h (splitArguments_ne_nil depth rest)
  · simp [prepend, h]

theorem append (h : Whole depth text) (h' : Whole depth text') : Whole depth (text ++ text') := by
  intro rest
  rw [List.append_assoc, h, h', prepend_append]

/-- A comma inside brackets, or a character that is no punctuation here. -/
theorem cons {c : Char} (hc : depthAfter depth c = depth) (hcomma : ¬(c = ',' ∧ depth = 0))
    (h : Whole depth text) : Whole depth (c :: text) := by
  intro rest
  rw [List.cons_append, splitArguments_cons, if_neg hcomma, hc, h, ← prepend_append]
  rfl

theorem bracketed {opening closing : Char}
    (hopening : ∀ depth, depthAfter depth opening = depth + 1)
    (hclosing : ∀ depth, depthAfter depth closing = depth - 1) (h : Whole (depth + 1) text) :
    Whole depth (opening :: (text ++ [closing])) := by
  have hno : ∀ {d : Nat}, ¬(opening = ',' ∧ d = 0) := by
    rintro d ⟨rfl, -⟩
    exact absurd (hopening 0) (by decide)
  have hnc : ¬(closing = ',' ∧ depth + 1 = 0) := fun h => nomatch h.2
  intro rest
  rw [List.cons_append, splitArguments_cons, if_neg hno, hopening, List.append_assoc, h,
    List.singleton_append, splitArguments_cons, if_neg hnc, hclosing, ← prepend_append,
    ← prepend_append]
  simp

end Whole

end TypeMetadata.Signature
