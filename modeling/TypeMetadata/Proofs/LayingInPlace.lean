import TypeMetadata.Emit.Field
import TypeMetadata.Emit.Metadata
import TypeMetadata.Emit.Nominal
import TypeMetadata.Emit.Section
import TypeMetadata.Proofs.RelativePatches

/-!
# Layouts made in place

`Build` gives the image up when a patch cannot be made, but a builder works on one image all along,
and what an emitter has appended by the time it fails stays. `Laying x` takes the layout `x` apart
into the calls that it makes, and there is one for each emitter. `Laying.inPlace` makes these calls
one after another on one image: where `x` goes through it comes to the same, and where `x` fails it
fails alike (`Laying.runOn_inPlace`).
-/

namespace TypeMetadata

namespace InPlace

variable {α β : Type} {x : InPlace α} {f : α → InPlace β} {i j : Image}

theorem runOn_bind_ok {a : α} (h : x.runOn i = (.ok a, j)) :
    (x >>= f).runOn i = (f a).runOn j := by
  unfold runOn at *
  rw [ExceptT.run_bind, StateT.run_bind, h]
  rfl

theorem runOn_bind_error {e : PatchError} (h : x.runOn i = (.error e, j)) :
    (x >>= f).runOn i = (.error e, j) := by
  unfold runOn at *
  rw [ExceptT.run_bind, StateT.run_bind, h]
  rfl

end InPlace

/-- What a layout asks of the image it works on. -/
inductive BuilderCall : Type → Type where
  | push (bs : List UInt8) : BuilderCall Address
  | align (n : UInt64) : BuilderCall Address
  | patch (a : Address) (bs : List UInt8) : BuilderCall Unit
  | relative (a : Address) (p : RelativePatch) : BuilderCall Unit

namespace BuilderCall

variable {α : Type}

def build : BuilderCall α → Build α
  | push bs => Build.push bs
  | align n => Build.align n
  | patch a bs => Build.patch a bs
  | relative a p => p.make a

def inPlace : BuilderCall α → InPlace α
  | push bs => modifyGet fun i => (i.cursor, i.append bs)
  | align n => do
    modify fun i => i.align n
    return (← get).cursor
  | patch a bs => InPlace.update fun i => i.patch a bs
  | relative a p => p.makeInPlace a

/-- A call that fails leaves the image as it is. -/
theorem runOn_inPlace (c : BuilderCall α) (i : Image) : c.inPlace.runOn i = c.build.tryOn i := by
  cases c with
  | push bs => rfl
  | align n => rfl
  | patch a bs =>
    unfold inPlace build
    rw [InPlace.runOn_update, Build.tryOn, Build.run_patch]
    rcases i.patch a bs with e | j <;> rfl
  | relative a p => exact p.runOn_makeInPlace a i

/-- The range a call writes over, if it goes through, and with what. -/
def patch? : BuilderCall α → Option (Address × List UInt8)
  | push _ | align _ => none
  | patch a bs => some (a, bs)
  | relative a p => some (a, bytesOf32 (p.bits a))

theorem runOn_of_patch?_none {c : BuilderCall α} (h : c.patch? = none) (i : Image) :
    ∃ x bs, c.inPlace.runOn i = (.ok x, i.append bs) := by
  cases c with
  | push bs => exact ⟨_, bs, rfl⟩
  | align n => exact ⟨_, _, rfl⟩
  | patch a bs => cases h
  | relative a p => cases h

theorem runOn_of_patch? {c : BuilderCall α} {a : Address} {bs : List UInt8}
    (h : c.patch? = some (a, bs)) (i : Image) :
    (∃ x j, c.inPlace.runOn i = (.ok x, j) ∧ i.patch a bs = .ok j) ∨
      ∃ e, c.inPlace.runOn i = (.error e, i) := by
  rw [runOn_inPlace, Build.tryOn]
  rcases hrun : c.build.run i with e | ⟨x, j⟩
  · exact .inr ⟨e, rfl⟩
  · refine .inl ⟨x, j, rfl, ?_⟩
    cases c with
    | push bs => cases h
    | align n => cases h
    | patch a bs =>
      cases h
      exact Build.patch_ok hrun
    | relative a p =>
      cases h
      exact (RelativePatch.of_make_ok hrun).2

theorem base_and_size {c : BuilderCall α} {r : Except PatchError α} {i j : Image}
    (h : c.inPlace.runOn i = (r, j)) : j.base = i.base ∧ i.bytes.size ≤ j.bytes.size := by
  rcases hc : c.patch? with _ | ⟨a, bs⟩
  · obtain ⟨x, bs, hrun⟩ := runOn_of_patch?_none hc i
    cases h.symm.trans hrun
    exact ⟨rfl, (Image.frame_append i bs 0 0).size⟩
  · rcases runOn_of_patch? hc i with ⟨x, l, hrun, hpatch⟩ | ⟨e, hrun⟩ <;> cases h.symm.trans hrun
    · exact ⟨(Image.grown_patch hpatch).1, Nat.le_of_eq (Image.grown_patch hpatch).2.symm⟩
    · exact ⟨rfl, Nat.le_refl _⟩

end BuilderCall

/-- How a layout is made up of calls. -/
inductive Laying : {α : Type} → Build α → Type 1 where
  | pure {α : Type} (a : α) : Laying (Pure.pure a)
  | call {α : Type} (c : BuilderCall α) : Laying c.build
  | bind {α β : Type} {x : Build α} {f : α → Build β} (first : Laying x)
    (rest : ∀ a, Laying (f a)) : Laying (x >>= f)

namespace Laying

variable {α β : Type} {x y : Build α} {f : α → Build β}

/-- The calls made one after another, up to the first that fails. -/
def inPlace {α : Type} {x : Build α} : Laying x → InPlace α
  | pure a => Pure.pure a
  | call c => c.inPlace
  | bind first rest => do (rest (← first.inPlace)).inPlace

/-- A layout in place answers and leaves what it does otherwise, and fails as it does otherwise. -/
theorem runOn_inPlace (l : Laying x) (i : Image) :
    (∀ a j, x.run i = .ok (a, j) → l.inPlace.runOn i = (.ok a, j)) ∧
      ∀ e, x.run i = .error e → ∃ j, l.inPlace.runOn i = (.error e, j) := by
  induction l generalizing i with
  | pure a =>
    refine ⟨fun b j h => ?_, fun e h => ?_⟩ <;> cases h
    rfl
  | call c =>
    have hrun := c.runOn_inPlace i
    refine ⟨fun b j h => ?_, fun e h => ⟨i, ?_⟩⟩ <;>
      rw [Build.tryOn, h] at hrun <;> exact hrun
  | bind first rest ihFirst ihRest =>
    rename_i x f
    refine ⟨fun b j h => ?_, fun e h => ?_⟩
    · obtain ⟨a, j₁, hx, hf⟩ := Build.run_bind_ok h
      exact (InPlace.runOn_bind_ok ((ihFirst i).1 a j₁ hx)).trans ((ihRest a j₁).1 b j hf)
    · rw [StateT.run_bind] at h
      rcases hx : x.run i with e' | ⟨a, j₁⟩ <;> rw [hx] at h
      · cases h
        obtain ⟨j, hj⟩ := (ihFirst i).2 e hx
        exact ⟨j, InPlace.runOn_bind_error hj⟩
      · obtain ⟨j, hj⟩ := (ihRest a j₁).2 e h
        exact ⟨j, (InPlace.runOn_bind_ok ((ihFirst i).1 a j₁ hx)).trans hj⟩

/-- Whatever becomes of a layout, the image keeps its base and gets no smaller. -/
theorem base_and_size {l : Laying x} {r : Except PatchError α} {i j : Image}
    (h : l.inPlace.runOn i = (r, j)) : j.base = i.base ∧ i.bytes.size ≤ j.bytes.size := by
  induction l generalizing i j with
  | pure a =>
    cases h
    exact ⟨rfl, Nat.le_refl _⟩
  | call c => exact c.base_and_size h
  | bind first rest ihFirst ihRest =>
    rcases hfirst : first.inPlace.runOn i with ⟨e | a, j₁⟩
    · cases h.symm.trans (InPlace.runOn_bind_error hfirst)
      exact ihFirst hfirst
    · obtain ⟨hbase, hsize⟩ := ihFirst hfirst
      obtain ⟨hbase', hsize'⟩ := ihRest a ((InPlace.runOn_bind_ok hfirst).symm.trans h)
      exact ⟨hbase'.trans hbase, Nat.le_trans hsize hsize'⟩

theorem fits_of_run {l : Laying x} {r : Except PatchError α} {i j : Image}
    (h : l.inPlace.runOn i = (r, j)) (hfits : j.Fits) : i.Fits :=
  hfits.of_le (base_and_size h).1 (base_and_size h).2

/-! ## Choices and repetitions -/

def ite {c : Prop} [inst : Decidable c] (t : Laying x) (e : Laying y) :
    Laying (if c then x else y) :=
  match inst with
  | .isTrue _ => t
  | .isFalse _ => e

def optional (each : ∀ a, Laying (f a)) : ∀ x : Option α, Laying (x.mapM f)
  | none => .pure none
  | some x => .bind (each x) fun y => .pure (some y)

def whenSome {f : α → Build PUnit} (each : ∀ a, Laying (f a)) :
    ∀ x : Option α, Laying (x.forM f)
  | none => .pure ()
  | some x => each x

def forM {f : α → Build PUnit} (each : ∀ a, Laying (f a)) : ∀ xs : List α, Laying (xs.forM f)
  | [] => .pure ()
  | x :: xs => .bind (each x) fun _ => forM each xs

def mapM (each : ∀ a, Laying (f a)) : ∀ xs : List α, Laying (xs.mapM f)
  | [] => .pure []
  | x :: xs => (List.mapM_cons (f := f)).symm ▸
    .bind (each x) fun y => .bind (mapM each xs) fun ys => .pure (y :: ys)

/-! ## Emitters -/

/-! Each is taken apart step by step, in the order of its definition. -/

def push (bs : List UInt8) : Laying (Build.push bs) := call (.push bs)

def align (n : UInt64) : Laying (Build.align n) := call (.align n)

def word (n : UInt32) : Laying (Build.pushU32 n) := push (bytesOf32 n)

def reserve (n : Nat) : Laying (Build.reserve n) := push _

def pointer (target : Address) : Laying (Build.pushPointer target) :=
  (align pointerSize).bind fun _ => push (bytesOf64 target.val)

def pointers (targets : List Address) :
    Laying (targets.forM fun a => discard (Build.pushPointer a)) :=
  forM (fun a => (pointer a).bind fun _ => pure ()) targets

def words (ns : List UInt32) : Laying (ns.forM fun n => discard (Build.pushU32 n)) :=
  forM (fun n => (word n).bind fun _ => pure ()) ns

def refer (a : Address) (target : Option Address) : Laying (Build.patchRelative a target) :=
  call (.relative a (.direct target))

def contextHeader (flags : ContextFlags) (parent : Option Address) :
    Laying (Emit.contextHeader flags parent) :=
  (align 4).bind fun _ => (word flags.bits).bind fun start => (word 0).bind fun _ =>
    (refer (start + Context.parentOffset) parent).bind fun _ => pure start

def textAt (a : Address) (text : String) : Laying (Emit.textAt a text) :=
  (push _).bind fun target => (refer a (some target)).bind fun _ => pure target

def nameAt (a : Address) (name : String) : Laying (Emit.nameAt a name) :=
  (textAt a name).bind fun _ => pure ()

def moduleContext (name : String) : Laying (Emit.moduleContext name) :=
  (contextHeader _ none).bind fun start => (word 0).bind fun _ =>
    (nameAt (start + Context.nameOffset) name).bind fun _ => pure start

def protocolType (name : String) (parent : Address) (numRequirements : UInt32)
    (classOnly : Bool) : Laying (Emit.protocolType name parent numRequirements classOnly) :=
  (contextHeader _ (some parent)).bind fun start => (word 0).bind fun _ => (word 0).bind fun _ =>
    (word numRequirements).bind fun _ => (word 0).bind fun _ => (word 0).bind fun _ =>
    (word 0).bind fun _ => (nameAt (start + Context.nameOffset) name).bind fun _ => pure start

def fieldRecord (recordSize : UInt16) (field : FieldSpec) :
    Laying (Emit.fieldRecord recordSize field) :=
  (word _).bind fun start => (word 0).bind fun _ => (word 0).bind fun _ =>
    (reserve _).bind fun _ => pure start

def fieldNames (field : FieldSpec) (a : Address) : Laying (Emit.fieldNames field a) :=
  (optional (textAt (a + FieldRecord.mangledTypeNameOffset)) field.mangledType).bind fun mangled =>
    (nameAt (a + FieldRecord.nameOffset) field.name).bind fun _ => pure mangled

def fieldDescriptor (kind : FieldKind) (fields : List FieldSpec) (recordSize : UInt16) :
    Laying (Emit.fieldDescriptor kind fields recordSize) :=
  (align 4).bind fun _ => (word 0).bind fun start => (word 0).bind fun _ =>
    (push (bytesOf16 _)).bind fun _ => (push (bytesOf16 _)).bind fun _ => (word _).bind fun _ =>
    (mapM (fieldRecord recordSize) fields).bind fun records =>
    (mapM (fun (field, a) => fieldNames field a) (fields.zip records)).bind fun names =>
      pure (EmittedFields.mk start names)

def nominalHeader (kind : ContextKind) (spec : NominalSpec) (kindSpecific : UInt16) :
    Laying (Emit.nominalHeader kind spec kindSpecific) :=
  (contextHeader _ (some spec.parent)).bind fun start => (word 0).bind fun _ =>
    (word 0).bind fun _ => (word 0).bind fun _ =>
    (refer (start + NominalDescriptor.accessFunctionOffset) spec.accessFunction).bind fun _ =>
    (refer (start + NominalDescriptor.fieldsOffset) spec.fields).bind fun _ => pure start

def structType (spec : NominalSpec) (numFields fieldOffsetVectorOffset : UInt32) :
    Laying (Emit.structType spec numFields fieldOffsetVectorOffset) :=
  (nominalHeader _ spec 0).bind fun start => (word _).bind fun _ => (word _).bind fun _ =>
    (nameAt (start + Context.nameOffset) spec.name).bind fun _ => pure start

def enumType (spec : NominalSpec) (numPayloadCases numEmptyCases : UInt32) :
    Laying (Emit.enumType spec numPayloadCases numEmptyCases) :=
  (nominalHeader _ spec 0).bind fun start => (word _).bind fun _ => (word _).bind fun _ =>
    (nameAt (start + Context.nameOffset) spec.name).bind fun _ => pure start

def methodSlot (method : MethodSpec) : Laying (Emit.methodSlot method) :=
  (word _).bind fun start => (word 0).bind fun _ =>
    refer (start + MethodSlot.implementationOffset) method.implementation

def vtable (methods : List MethodSpec) : Laying (Emit.vtable methods) :=
  (word _).bind fun _ => (word _).bind fun _ => forM methodSlot methods

def classWords (spec : ClassSpec) : Laying (Emit.classWords spec) :=
  (word _).bind fun _ => (word _).bind fun _ => (word _).bind fun _ => (word _).bind fun _ =>
    (word _).bind fun _ => (word _).bind fun _ => pure ()

def classParts (spec : ClassSpec) : Laying (Emit.classParts spec) :=
  let initialization :=
    (reserve (ClassDescriptor.initializationSize (some spec.initialization)).toNat).bind fun _ =>
    pure ()
  ite ((reserve _).bind fun _ => initialization) initialization

def classType (spec : ClassSpec) : Laying (Emit.classType spec) :=
  (nominalHeader _ spec.toNominalSpec _).bind fun start => (classWords spec).bind fun _ =>
    (classParts spec).bind fun _ => (whenSome vtable spec.methods).bind fun _ =>
    (nameAt (start + Context.nameOffset) spec.name).bind fun _ => pure start

def valueMetadata (spec : ValueMetadataSpec) : Laying (Emit.valueMetadata spec) :=
  (pointer .null).bind fun table => (pointer spec.destroy).bind fun _ =>
    (pointer spec.initializeWithCopy).bind fun _ => (pointers (.replicate 5 .null)).bind fun _ =>
    (push (bytesOf64 _)).bind fun _ => (push (bytesOf64 _)).bind fun _ => (word _).bind fun _ =>
    (word _).bind fun _ =>
    let metadata :=
      (pointer table).bind fun _ =>
      (push (bytesOf64 (UInt64.ofNat spec.kind.raw))).bind fun start =>
      (pointer spec.description).bind fun _ => (words spec.fieldOffsets).bind fun _ =>
      (align pointerSize).bind fun _ => pure start
    match spec.enumWitnesses with
    | none => metadata
    | some witnesses => (pointer witnesses.getTag).bind fun _ =>
      (pointer witnesses.projectPayload).bind fun _ =>
      (pointer witnesses.injectTag).bind fun _ => metadata

def classMetadata (description : Address) : Laying (Emit.classMetadata description) :=
  (pointer .null).bind fun metadata =>
    (call (.patch metadata (bytesOf64 metadata.val))).bind fun _ =>
    (pointer description).bind fun _ => pure metadata

def typeRecords (targets : List Address) : Laying (Emit.typeRecords targets) :=
  (align 4).bind fun start =>
    (forM (fun target => (word 0).bind fun entry => refer entry (some target)) targets).bind
      fun _ => pure start

def conformance (protocol type : Address) (witnessTable : Option Address) :
    Laying (Emit.conformance protocol type witnessTable) :=
  (align 4).bind fun _ => (word 0).bind fun start => (word 0).bind fun _ => (word 0).bind fun _ =>
    (word 0).bind fun _ => (refer start (some protocol)).bind fun _ =>
    (refer (start + ConformanceRecord.typeOffset) (some type)).bind fun _ =>
    (refer (start + ConformanceRecord.witnessTableOffset) witnessTable).bind fun _ => pure start

end Laying

end TypeMetadata
