import TypeMetadata.Proofs.EnumCases
import TypeMetadata.Proofs.RegistryGrowth

/-!
# Images that reading leaves alone

To read a type may call its access function. Where these functions write nothing (`World.Quiet`)
reading leaves the image as it is, and what a descriptor describes is the same whenever it is read:
`Inspect.Steady` says so of an inspection, and `steady_read` that it holds of reading a type.
-/

namespace TypeMetadata

namespace World

/-- `w'` shows the image that `w` shows: the same bytes, functions and names of types. Other calls
may be on record. -/
structure SameImage (w w' : World) : Prop where
  memory : w'.memory = w.memory
  functions : w'.functions = w.functions
  references : w'.references = w.references

namespace SameImage

variable {w w' : World}

theorem refl (w : World) : w.SameImage w := ⟨rfl, rfl, rfl⟩

theorem decode {α : Type} (h : w.SameImage w') (d : Decoder α) : w'.decode d = w.decode d :=
  congrArg d h.memory

theorem typeName (h : w.SameImage w') (s : Settings) : s.typeName w' = s.typeName w := by
  unfold Settings.typeName
  rw [h.references]

end SameImage

/-- The access functions of the types in the image write nothing. So they return fixed values, too:
what a function returns is settled by its call and by the memory that it finds. -/
def Quiet (w : World) : Prop :=
  ∀ a d n f, w.decode (ContextDescriptor.decode a) = .ok d → d.nominal? = some n →
    n.isGeneric = false → w.decode n.accessFunction = .ok f →
    (w.invoke { function := f }).2.memory = w.memory

/-- So it is if no function writes anything. -/
theorem quiet_of_functions {w : World} (h : ∀ f ∈ w.functions.functions, ∀ c m, (f c m).2 = m) :
    w.Quiet := by
  intro a d n f _ _ _ _
  unfold invoke FunctionTable.invoke
  rcases hf : w.functions.lookup? f with _ | g
  · rfl
  · exact h g (FunctionTable.mem_of_lookup? hf) _ w.memory

end World

/-! ## Steady inspections -/

namespace Inspect

variable {α β : Type} {w : World}

/-- Wherever this image is shown the inspection answers the same, and leaves the image as it is. -/
def Steady (w : World) (x : Inspect α) : Prop :=
  ∀ w', w.SameImage w' → (x.run w').1 = (x.run w).1 ∧ w.SameImage (x.run w').2

namespace Steady

theorem pure (a : α) : Steady w (pure a : Inspect α) := fun _ h => ⟨rfl, h⟩

theorem throw (e : Error) : Steady w (throw e : Inspect α) := fun _ h => ⟨rfl, h⟩

theorem decode (d : Decoder α) : Steady w (decode d) := by
  intro w' h
  rw [run_decode, run_decode, h.decode]
  exact ⟨rfl, h⟩

theorem call {c : Call} (hc : (w.invoke c).2.memory = w.memory) : Steady w (call c) := by
  intro w' h
  have hsame : w'.functions.invoke c w'.memory = w.functions.invoke c w.memory := by
    rw [h.memory, h.functions]
  rw [run_call, run_call]
  unfold World.invoke at hc ⊢
  rw [hsame]
  exact ⟨rfl, hc, h.functions, h.references⟩

theorem bind {x : Inspect α} {f : α → Inspect β} (hx : Steady w x)
    (hf : ∀ a, (x.run w).1 = .ok a → Steady w (f a)) : Steady w (x >>= f) := by
  intro w' h
  obtain ⟨hanswer, himage⟩ := hx w' h
  obtain ⟨-, himage₀⟩ := hx w (.refl w)
  rw [run_bind, run_bind]
  rcases hr : x.run w with ⟨e | a, w₀⟩ <;> rcases hr' : x.run w' with ⟨e' | a', w₁⟩ <;>
    rw [hr, hr'] at hanswer <;> cases hanswer <;> rw [hr'] at himage
  · exact ⟨rfl, himage⟩
  · rw [hr] at himage₀ hf
    obtain ⟨hanswer, himage⟩ := hf a rfl w₁ himage
    exact ⟨hanswer.trans (hf a rfl w₀ himage₀).1.symm, himage⟩

theorem get_bind {f : World → Inspect α} (hf : Steady w (f w))
    (hsame : ∀ w', w.SameImage w' → f w' = f w) : Steady w (get >>= f) := by
  intro w' h
  rw [run_bind, run_bind, run_get, run_get]
  simp only [hsame w' h]
  exact hf w' h

end Steady

end Inspect

/-! ## Reading a type -/

section Read

variable {w : World}

open Inspect (Steady)

theorem Field.ofRecord_of_sameImage {w' : World} (h : w.SameImage w') (s : Settings) :
    Field.ofRecord s w' = Field.ofRecord s w := by
  funext r
  unfold Field.ofRecord
  rw [h.typeName]

theorem TypeInfo.listedFields_of_sameImage {w' : World} (h : w.SameImage w') (s : Settings)
    (fields? : Option FieldDescriptor) : listedFields s w' fields? = listedFields s w fields? := by
  unfold listedFields
  rw [Field.ofRecord_of_sameImage h]

theorem EnumType.entriesFrom_of_sameImage {w' : World} (h : w.SameImage w') (s : Settings) :
    ∀ (index : Nat) (records : List FieldRecord) (kinds : List CaseKind),
      entriesFrom s w' index records kinds = entriesFrom s w index records kinds
  | index, r :: records, k :: kinds => by
    unfold entriesFrom entryOf
    rw [entriesFrom_of_sameImage h s (index + 1) records kinds, h.typeName]
  | _, [], _ => by
    unfold entriesFrom
    rfl
  | _, _ :: _, [] => by
    unfold entriesFrom
    rfl

/-- The access function of this type writes nothing, if it is called at all. -/
def NominalDescriptor.QuietIn (w : World) (d : NominalDescriptor) : Prop :=
  d.isGeneric = false → ∀ f, w.decode d.accessFunction = .ok f →
    (w.invoke { function := f }).2.memory = w.memory

theorem World.Quiet.quietIn (h : w.Quiet) {a : Address} {d : ContextDescriptor}
    {n : NominalDescriptor} (hd : w.decode (ContextDescriptor.decode a) = .ok d)
    (hn : d.nominal? = some n) : n.QuietIn w :=
  fun hgeneric f hf => h a d n f hd hn hgeneric hf

variable {d : NominalDescriptor}

theorem TypeInfo.steady_requestMetadata (h : d.QuietIn w) : Steady w (requestMetadata d) := by
  unfold requestMetadata
  split
  · exact .pure none
  · rename_i hgeneric
    refine .bind (.decode d.accessFunction) fun f hf => ?_
    rw [Inspect.run_decode] at hf
    exact .bind (.call (h (Bool.eq_false_iff.2 hgeneric) f hf)) fun a _ => .pure _

theorem TypeInfo.steady_read (h : d.QuietIn w) (s : Settings) : Steady w (TypeInfo.read s d) := by
  refine .bind (.decode _) fun name _ => .bind (.decode _) fun moduleName _ => ?_
  refine .bind (steady_requestMetadata h) fun metadata _ => .bind (.decode _) fun fields? _ => ?_
  refine .get_bind (.pure _) fun w' hw => ?_
  rw [listedFields_of_sameImage hw]

theorem ValueType.steady_read (h : d.QuietIn w) (s : Settings) : Steady w (ValueType.read s d) := by
  refine .bind (TypeInfo.steady_read h s) fun info _ => ?_
  split
  · exact .pure _
  · exact .bind (.decode _) fun metadata _ => .bind (.decode _) fun witnesses _ => .pure _

theorem EnumType.listedEntries_of_sameImage {w' : World} (h : w.SameImage w') (s : Settings)
    (d : EnumDescriptor) : listedEntries s d w' = listedEntries s d w := by
  have hentries : entriesFrom s w' = entriesFrom s w := by
    funext index records kinds
    exact entriesFrom_of_sameImage h s index records kinds
  unfold listedEntries
  simp only [h.decode, hentries]

theorem EnumType.steady_readEntries (w : World) (s : Settings) (d : EnumDescriptor) :
    Steady w (readEntries s d) := by
  intro w' h
  rw [run_readEntries, run_readEntries, listedEntries_of_sameImage h]
  exact ⟨rfl, h⟩

/-- What a descriptor describes is the same whenever it is read, and to read it leaves the image as
it is. -/
theorem NominalType.steady_read (h : w.Quiet) (s : Settings) (a : Address) :
    Steady w (NominalType.read s a) := by
  refine .bind (.decode _) fun d hd => ?_
  rw [Inspect.run_decode] at hd
  cases d with
  | classType d =>
    have hd : d.toNominalDescriptor.QuietIn w := h.quietIn hd rfl
    exact .bind (.bind (TypeInfo.steady_read hd s) fun info _ => .pure _) fun c _ => .pure _
  | structType d =>
    have hd : d.toNominalDescriptor.QuietIn w := h.quietIn hd rfl
    exact .bind (.bind (ValueType.steady_read hd s) fun core _ => .pure _) fun t _ => .pure _
  | enumType d =>
    have hd : d.toNominalDescriptor.QuietIn w := h.quietIn hd rfl
    refine .bind (.bind (ValueType.steady_read hd s) fun core _ => ?_) fun t _ => .pure _
    exact .bind (EnumType.steady_readEntries w s d) fun entries _ => .pure _
  | moduleContext d | protocolType d | other c => exact .throw _

end Read

end TypeMetadata
