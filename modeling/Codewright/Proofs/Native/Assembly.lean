import Codewright.Proofs.Compilation
import Codewright.Proofs.Native.Emission
import Codewright.Proofs.ParameterPlaces
import Codewright.Proofs.PlacedReads

/-!
# Assembly of machine code

The in-place form of a built routine has all that its emission asks for: every operand that the
processor reads is stored, and what is stored to be read has a place. So built routines are
assembled or refused, but the compiler is not at fault.
-/

namespace Codewright

namespace Native

/-! ## In-place form -/

/-- A node of an in-place tree: the operands that are read take a point each, and what is returned
is not stored. -/
structure InPlaceNode (t : Tree) : Prop where
  operands : ∀ f, t.operator? = some f → (∀ callee, f.operation ≠ .routine callee) →
    ∀ a ∈ f.operands, 0 < a.points
  returned : ∀ tag value, t = .retValue tag value → value.store = none

section

variable {t : Tree} {s : Temporaries} {Θ : Typing}

theorem points_withStore (t : Tree) (store : Option LocalId) :
    (t.withStore store).points = t.points := by
  cases t <;> simp [Tree.withStore, Tree.withTag, Tree.points]

theorem InPlaceNode.withStore (h : InPlaceNode t) (store : Option LocalId) :
    InPlaceNode (t.withStore store) where
  operands := by
    intro f hf
    rw [Tree.operator?_withStore] at hf
    exact h.operands f hf
  returned := by
    intro tag value heq
    cases t <;> cases heq
    exact h.returned _ _ rfl

theorem points_keep (s : Temporaries) (t : Tree) : (s.keep t).1.points = t.points := by
  unfold Temporaries.keep
  cases t.store with
  | some x => rfl
  | none => exact points_withStore ..

theorem points_keepAs_pos (hp : 0 < t.points) (s : Temporaries) (real : Bool) :
    0 < (s.keepAs real t).1.points := by
  unfold Temporaries.keepAs
  dsimp only
  split
  · rw [points_keep]
    exact Nat.succ_pos _
  · rwa [points_keep]

/-- A node that has a value takes a point, and so does its in-place form. -/
theorem points_node_pos (ht : t.Typed Θ) (hv : t.ty.isValue = true) (s : Temporaries) :
    0 < (s.node t).1.points := by
  induction t using Tree.induction with
  | const | load => exact Nat.one_pos
  | operator t f hf _ =>
    rw [Tree.points_operator (Temporaries.node_operator hf s).1]
    exact Nat.succ_pos _
  | failFast tag =>
    rw [show (Tree.failFast tag).ty = .void from ht.2] at hv
    cases hv
  | seq tag | ifThen tag | ifElse tag | loop tag | ret tag | retValue tag =>
    rw [Tree.ty, Tree.tag, ht.1] at hv
    cases hv

theorem inPlace_node (hb : t.Bare) (ht : t.Typed Θ) (s : Temporaries) :
    ∀ u ∈ (s.node t).1.nodes, InPlaceNode u := by
  refine Temporaries.forall_nodes_node (fun _ _ h => h.withStore _) (fun u hu s => ⟨?_, ?_⟩)
    (fun u hu hint s => ⟨?_, fun _ _ heq => by cases heq⟩) s
  · intro g hg hcall a ha
    cases hf : u.operator? with
    | none =>
      have hkeeping := (s.parts_node u).2
      simp [Temporaries.keeping, hf, hg] at hkeeping
    | some f =>
      cases (Temporaries.node_operator hf s).1.symm.trans hg
      have htyped := ht.nodes u hu
      have hpoints : ∀ b ∈ f.operands, ∀ s : Temporaries, 0 < (s.node b).1.points := fun b hb =>
        points_node_pos ((htyped.operator hf).2.2 b hb) (htyped.isValue_operands hf hcall b hb)
      revert a
      exact Temporaries.forall_partAll (fun b hb s => points_keepAs_pos (hpoints b hb s) _ _) s
  · intro tag value heq
    cases u with
    | retValue tag v =>
      cases heq
      rw [Tree.store, Temporaries.tag_node]
      exact (hb.nodes _ hu).1
    | _ => simp [Temporaries.node] at heq
  · intro f hf _ a ha
    cases hf
    rw [List.mem_singleton.mp ha, points_keep]
    exact points_node_pos (ht.nodes u hu) (by rw [hint]; rfl) s

end

/-! ## The form that is emitted -/

/-- The locals and the frame of a routine in the form that is emitted. -/
def frameOf (r : Routine) : Frame := ⟨(placedForm r).1.locals, (placedForm r).2 * slotSize⟩

theorem storageOf_frameOf (r : Routine) :
    storageOf (frameOf r).locals = Target.x64.place r.toInPlace.1 := by
  unfold frameOf placedForm
  dsimp only
  rw [Routine.paramTypes_computeIntervals]
  rfl

/-- A routine has code, as far as the target knows its constructs. -/
def EmittableRoutine (r : Routine) : Prop := Emittable (frameOf r) (placedForm r).1.body

/-- A routine that has been built has code: what it loads and what the processor reads as an operand
have places. -/
theorem emittable_of_built {symbols : Symbols} {r : Routine} (hb : r.Built symbols) :
    EmittableRoutine r := by
  have hscoped := hb.toWellScoped.toInPlace
  have htyped := hb.typed _ (Routine.fits_typing symbols _) rfl
  have hplaced := hscoped.reads_placed (Target.x64.layout hscoped)
  intro t ht
  have hin : InPlaceNode t := inPlace_node hb.bare htyped _ t ht
  obtain ⟨hload, hoperand⟩ := hplaced t ht
  have hread : ∀ f, t.operator? = some f → (∀ callee, f.operation ≠ .routine callee) →
      ∀ a ∈ f.operands, IsPlaced (frameOf r) a := by
    intro f hf hcall a ha
    have hready := inPlaceForm_node _ _ t ht (by rw [hf]; rfl) a (by rwa [Tree.parts_operator hf])
    obtain ⟨x, hx⟩ := Option.isSome_iff_exists.mp hready.1
    refine ⟨x, hx, ?_⟩
    rw [storageOf_frameOf]
    exact hoperand f hf a ha (hin.operands f hf hcall a ha) x hx
  cases t with
  | load tag x =>
    show storageOf (frameOf r).locals x ≠ _
    rw [storageOf_frameOf]
    exact hload tag x rfl
  | binary tag op left right =>
    exact ⟨hread _ rfl (by simp) left (by simp), hread _ rfl (by simp) right (by simp)⟩
  | toReal tag operand => exact hread _ rfl (by simp) operand (by simp)
  | retValue tag value =>
    obtain ⟨Γ, U, h⟩ := hscoped.inScope.nodes _ ht
    exact ⟨hin.returned tag value rfl, h.2.isExpr⟩
  | _ => trivial

/-! ## Functions -/

/-- What adding a routine comes to: its code stands behind the code so far, from a multiple of 16
bytes on that is noted as its start. -/
structure Added (a : Assembler) (r : Routine) (a' : Assembler) : Prop where
  params : r.paramCount ≤ argumentRegisters.length
  code : ∃ body l bytes, Computed (frameOf r) (placedForm r).1.body body l ∧
    Encoded (prologueCode (frameOf r).size ++ (body ++ epilogueCode (frameOf r).size)) bytes ∧
      a'.code = a.code ++ padding a.code.size 16 ++ bytes
  functions : a'.functions =
    (a.setFunction r.id r.fullName (a.code ++ padding a.code.size 16).size).functions

namespace Assembler

/-- Adding a routine puts its code into the program, or the routine is refused. -/
theorem add_spec (a : Assembler) (r : Routine) :
    match a.add r with
    | (.ok (), a') => Added a r a'
    | (.error e, _) => EmittableRoutine r → e.IsRefusal := by
  unfold add formOf
  by_cases hparams : argumentRegisters.length < r.paramCount
  · rw [if_pos hparams]
    exact fun _ => trivial
  rw [if_neg hparams]
  have hwrites := writes_routine (frameOf r) (placedForm r).1.body
    (a.code ++ padding a.code.size 16)
  dsimp only
  rw [frameOf] at hwrites
  unfold EStateM.run
  generalize Emit.routine _ (placedForm r).1.body (a.code ++ padding a.code.size 16) = outcome
    at hwrites
  cases outcome with
  | error e code => exact hwrites
  | ok _ code =>
    obtain ⟨is, bytes, hbytes, hcode, body, l, hbody, rfl⟩ := hwrites
    exact ⟨Nat.le_of_not_lt hparams, ⟨body, l, bytes, hbody, hbytes, hcode⟩, rfl⟩

theorem setFunction_next (a : Assembler) (name : String) (start : Nat) :
    (a.setFunction a.functions.size name start).functions = a.functions.push
    (some (name, start)) := by
  have hone : a.functions.size + 1 - a.functions.size = 1 := by omega
  rw [← Array.toList_inj]
  simp [setFunction, hone]

theorem allFunctions_map (done : Array (String × Nat)) (fs : List (String × Nat)) :
    allFunctions done (fs.map some) = .ok (done ++ fs.toArray) := by
  induction fs generalizing done with
  | nil => simp [allFunctions]
  | cons f rest ih => simp [allFunctions, ih]

theorem finish_isOk {a : Assembler} {fs : List (String × Nat)} {main : RoutineId}
    (h : a.functions.toList = fs.map some) (hmain : main < fs.length) :
    ∃ p, a.finish main = .ok p := by
  have hentry : fs.toArray[main]? = some fs[main] := by
    rw [List.getElem?_toArray, List.getElem?_eq_getElem hmain]
  unfold finish
  rw [h, allFunctions_map, Array.empty_append]
  exact ⟨_, by simp only [bind, Except.bind, hentry]; rfl⟩

end Assembler

theorem assemble_go_error {main : RoutineId} {rest : List Routine} {a : Assembler}
    {fs : List (String × Nat)} (hfs : a.functions.toList = fs.map some)
    (hid : ∀ (n : Nat) (r : Routine), rest[n]? = some r → r.id = fs.length + n)
    (hmain : main < fs.length + rest.length) (hr : ∀ r ∈ rest, EmittableRoutine r)
    {e : GenerationError} (h : assemble.go main a rest = .error e) : e.IsRefusal := by
  induction rest generalizing a fs with
  | nil =>
    rw [assemble.go] at h
    obtain ⟨p, hp⟩ := Assembler.finish_isOk hfs hmain
    cases hp.symm.trans h
  | cons r rest ih =>
    rw [assemble.go] at h
    have hspec := a.add_spec r
    generalize a.add r = outcome at h hspec
    obtain ⟨answer, a'⟩ := outcome
    cases answer with
    | error e' =>
      cases h
      exact hspec (hr r List.mem_cons_self)
    | ok _ =>
      have hsize : r.id = a.functions.size := by
        rw [hid 0 r rfl, ← Array.length_toList, hfs, List.length_map, Nat.add_zero]
      have hfs' := hspec.functions
      rw [hsize, Assembler.setFunction_next, ← Array.toList_inj, Array.toList_push, hfs] at hfs'
      have hfs' : a'.functions.toList =
          (fs ++ [(r.fullName, (a.code ++ padding a.code.size 16).size)]).map some := by
        rw [hfs', List.map_append]
        rfl
      refine ih hfs' ?_ ?_ (fun r hr' => hr r (List.mem_cons_of_mem _ hr')) h
      · intro n r' hn
        rw [hid (n + 1) r' hn, List.length_append, List.length_singleton, Nat.add_assoc,
          Nat.add_comm 1]
      · rw [List.length_append, List.length_singleton, Nat.add_assoc, Nat.add_comm 1]
        exact hmain

theorem assemble_error {modules : List Surface.Module} {symbols : Symbols} {rs : List Routine}
    {main : RoutineId} {e : GenerationError} (hrs : BuiltProgram modules symbols rs)
    (hmain : main < rs.length) (h : assemble rs main = .error e) : e.IsRefusal := by
  have hempty : ({} : Assembler).functions.toList = [].map some := rfl
  refine assemble_go_error hempty (fun n r hn => ?_) (by simpa using hmain) (fun r hr => ?_) h
  · rw [hrs.id_eq hn, List.length_nil, Nat.zero_add]
  · obtain ⟨n, hn⟩ := List.getElem?_of_mem hr
    obtain ⟨m, f, -, hb, -⟩ := hrs.routine n r hn
    exact emittable_of_built hb

end Native

end Codewright
