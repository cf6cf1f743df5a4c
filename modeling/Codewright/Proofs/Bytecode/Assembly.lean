import Codewright.Proofs.Bytecode.Emission
import Codewright.Proofs.Compilation
import Codewright.Proofs.ParameterPlaces
import Codewright.Proofs.PlacedReads

/-!
# Assembly of programs

From routines to a program. What a routine has to do with its function in the program is
`Generated`: the same signature, slots for all its locals, and code that is right for the constants
of the whole program. When the routines come in the order of their numbers, every function of the
program is the one of its routine, none is missing, and the only error is a number that is too large
(`assemble_spec`).
-/

namespace Codewright

namespace Routine

theorem localType_congr {r r' : Routine} {x : LocalId}
    (h : declared r.locals x = declared r'.locals x) : r.localType x = r'.localType x := by
  have hty : ∀ r : Routine, r.localType x = ((declared r.locals x).map Prod.fst).getD .noType := by
    intro r
    rw [localType, declared, Option.map_map]
    rfl
  rw [hty, hty, h]

theorem declared_removeSingleUses (r : Routine) (x : LocalId) :
    declared r.removeSingleUses.1.locals x = declared r.locals x := by
  have hmerges := Tree.merges_removeSingleUses r.body { locals := r.locals }
  have hkept : ∀ {p q : Locals × Tree}, Relation.ReflTransGen Tree.MergeStep p q →
      declared q.1 x = declared p.1 x := by
    intro p q h
    induction h with
    | refl => rfl
    | tail _ hstep ih =>
      obtain ⟨y, l, -, -, -, -, -, hlocals⟩ := hstep
      rw [hlocals, Tree.declared_forget, ih]
  exact hkept hmerges

theorem parameters_removeSingleUses (r : Routine) :
    r.removeSingleUses.1.parameters = r.parameters := by
  ext x
  rw [mem_parameters, mem_parameters, declared_removeSingleUses]

end Routine

namespace Bytecode

/-- What is asked of a tree that is emitted holds if the parameters of the routine and of those it
calls are values. -/
theorem plainStmt_removeSingleUses {symbols : Symbols} {r : Routine} {Θ : Typing}
    (hb : r.Built symbols) (hparams : ∀ x ∈ r.parameters, (r.localType x).isValue = true)
    (htyped : r.removeSingleUses.1.body.Typed Θ)
    (hlocals : Θ.ofLocal = r.removeSingleUses.1.localType)
    (hcallees : ∀ n params result, Θ.callee n params result → ∀ ty ∈ params, ty.isValue = true) :
    PlainStmt Θ r.removeSingleUses.1.body where
  inScope := ⟨_, _, hb.removeSingleUses.inScope⟩
  bare := hb.removeSingleUses.bare
  typed := htyped
  params := hcallees
  loads := by
    intro x hx
    rw [hlocals]
    refine hb.removeSingleUses.forall_mentions (fun _ hx => hx) (fun x hx => ?_) x
      (Tree.mem_mentions.mpr (.inl hx))
    rw [r.parameters_removeSingleUses] at hx
    rw [Routine.localType_congr (r.declared_removeSingleUses x)]
    exact hparams x hx

/-! ## The form that is emitted -/

theorem declared_slotForm (r : Routine) (x : LocalId) :
    declared (slotForm r).1.locals x = declared r.locals x :=
  calc declared (slotForm r).1.locals x
      = declared r.removeSingleUses.1.computeIntervals.locals x :=
        Allocator.declared_visits (allocationOrder _) _ x
    _ = declared r.removeSingleUses.1.locals x := Routine.declared_computeIntervals _ x
    _ = declared r.locals x := r.declared_removeSingleUses x

theorem place_slotForm (r : Routine) (x : LocalId) :
    storageOf (slotForm r).1.locals x = .unassigned ∨
    ∃ slot < (slotForm r).2.types.size, storageOf (slotForm r).1.locals x = .stack slot := by
  obtain ⟨held, used, hfit, hused⟩ := Routine.allocate_used SlotPool.lawful
    (Routine.storageOf_computeIntervals r.removeSingleUses.1) (.empty _)
  by_cases hx : storageOf (slotForm r).1.locals x = .unassigned
  · exact .inl hx
  · obtain ⟨slot, hslot, hlt⟩ := hfit.used_lt _ (hused x hx)
    exact .inr ⟨slot, hlt, hslot⟩

theorem SlotPool.length_names (pool : SlotPool) (locals : Locals) :
    (pool.names locals).length = pool.types.size := by
  rw [names, List.length_map, ← Array.foldl_toList, Array.length_toList]
  generalize hn : Array.replicate pool.types.size [] = names
  have hsize : names.size = pool.types.size := by rw [← hn, Array.size_replicate]
  clear hn
  induction locals.toList generalizing names with
  | nil => exact hsize
  | cons l rest ih =>
    rw [List.foldl_cons]
    refine ih _ ?_
    split
    · rw [Array.size_modify, hsize]
    · exact hsize

/-! ## Functions -/

/-- A function has been generated from a routine, in a program with these constants. -/
structure Generated (constants : Array Constant) (r : Routine) (f : Function) : Prop where
  result : f.result = r.result
  paramCount : f.paramCount = r.paramCount
  slots : f.slots.toList.map (·.ty) = (slotForm r).2.types.toList
  code : EmittedStatement ⟨Target.bytecode.place r.removeSingleUses.1, constants⟩
    r.removeSingleUses.1.body f.code.toList

variable {r : Routine} {main : RoutineId} {rs : List Routine} {symbols : Symbols}
  {modules : List Surface.Module} {p : Program}

theorem Generated.slot_lt {constants : Array Constant} {f : Function}
    (h : Generated constants r f) {x : LocalId} {k : Nat}
    (hplace : Target.bytecode.place r.removeSingleUses.1 x = .stack k) : k < f.slots.size := by
  have hsize : f.slots.size = (slotForm r).2.types.size := by
    rw [← Array.length_toList, ← Array.length_toList, ← h.slots, List.length_map]
  rcases place_slotForm r x with hx | ⟨slot, hlt, hx⟩
  · cases hplace.symm.trans hx
  · obtain rfl : k = slot := Storage.stack.inj (hplace.symm.trans hx)
    rwa [hsize]

/-- A routine has code, as far as the instructions have room. -/
def EmittableRoutine (r : Routine) : Prop := Emittable (slotForm r).1.locals (slotForm r).1.body

namespace Assembler

/-- Adding a routine puts its function into the program, or fails because a number is too large. -/
theorem add_spec (a : Assembler) (r : Routine) (ha : a.constants.Sound) :
    match a.add r with
    | (.ok (), a') => a.constants.Grows a'.constants ∧ ∃ f,
      a'.functions = (a.setFunction r.id f).functions ∧
      ∀ constants : Array Constant, a'.constants.entries.toList <+: constants.toList →
        Generated constants r f
    | (.error e, a') => a.constants.Grows a'.constants ∧ (EmittableRoutine r → e.IsOverflow) := by
  have hbody := (emits_node (slotForm r).1.locals (slotForm r).1.body).inRole .statement
    (fun _ h => h) a.constants ha
  rw [show _ >>= Emit.inRole _ .statement _ = Emit.body _ _ from rfl] at hbody
  unfold add EStateM.run
  dsimp only
  generalize Emit.body (slotForm r).1.locals (slotForm r).1.body a.constants = outcome at hbody
  cases outcome with
  | error e constants => exact hbody
  | ok code constants =>
    refine ⟨hbody.1, _, rfl, fun final hfinal => ?_⟩
    have hlength : ((slotForm r).2.names (slotForm r).1.locals).length =
        (slotForm r).2.types.toList.length := by
      rw [SlotPool.length_names, Array.length_toList]
    exact
      { result := Routine.localType_congr (declared_slotForm r 0)
        paramCount := rfl
        slots := by
          rw [List.map_map]
          exact List.map_snd_zip hlength.ge
        code := hbody.2 final hfinal }

theorem setFunction_next (a : Assembler) (f : Function) :
    (a.setFunction a.functions.size f).functions = a.functions.push (some f) := by
  have hone : a.functions.size + 1 - a.functions.size = 1 := by omega
  rw [← Array.toList_inj]
  simp [setFunction, hone]

theorem allFunctions_map (done : Array Function) (fs : List Function) :
    allFunctions done (fs.map some) = .ok (done ++ fs.toArray) := by
  induction fs generalizing done with
  | nil => simp [allFunctions]
  | cons f rest ih => simp [allFunctions, ih]

theorem finish_eq_ok {a : Assembler} {fs : List Function} {main : RoutineId}
    (h : a.functions.toList = fs.map some) (hmain : main < fs.length) :
    a.finish main = .ok ⟨a.constants.entries, fs.toArray, main.toUInt32⟩ := by
  have hlt : ¬ fs.toArray.size ≤ main := by simpa using hmain
  unfold finish
  rw [h, allFunctions_map, Array.empty_append]
  exact if_neg hlt

end Assembler

/-- The functions of the routines that have been added, which stay right when constants are
added. -/
structure Assembled (a : Assembler) (done : List Routine) (fs : List Function) : Prop where
  sound : a.constants.Sound
  functions : a.functions.toList = fs.map some
  generated : List.Forall₂ (fun r f => ∀ constants : Array Constant,
    a.constants.entries.toList <+: constants.toList → Generated constants r f) done fs

theorem Assembled.add {a a' : Assembler} {done : List Routine} {fs : List Function}
    (h : Assembled a done fs) (hid : r.id = done.length) (hadd : a.add r = (.ok (), a')) :
    ∃ f, Assembled a' (done ++ [r]) (fs ++ [f]) := by
  have hspec := a.add_spec r h.sound
  rw [hadd] at hspec
  obtain ⟨hgrows, f, hf, hgenerated⟩ := hspec
  refine ⟨f, hgrows.sound, ?_, ?_⟩
  · have hsize : a.functions.size = done.length := by
      rw [← Array.length_toList, h.functions, List.length_map, h.generated.length_eq]
    rw [hf, hid, ← hsize, Assembler.setFunction_next, Array.toList_push, h.functions,
      List.map_append]
    rfl
  · refine List.rel_append (h.generated.imp fun r f hr constants hc => ?_) (.cons hgenerated .nil)
    exact hr constants (hgrows.kept.trans hc)

theorem assemble_go_spec {rest : List Routine} {a : Assembler}
    {done : List Routine} {fs : List Function} (h : Assembled a done fs)
    (hid : ∀ (n : Nat) (r : Routine), (done ++ rest)[n]? = some r → r.id = n)
    (hmain : main < (done ++ rest).length) :
    match assemble.go main a rest with
    | .ok p => p.main = main.toUInt32 ∧
      List.Forall₂ (Generated p.constants) (done ++ rest) p.functions.toList
    | .error e => (∀ r ∈ rest, EmittableRoutine r) → e.IsOverflow := by
  induction rest generalizing a done fs with
  | nil =>
    rw [List.append_nil] at hmain ⊢
    rw [assemble.go, Assembler.finish_eq_ok h.functions (h.generated.length_eq ▸ hmain)]
    exact ⟨rfl, h.generated.imp fun r f hr => hr _ List.prefix_rfl⟩
  | cons r rest ih =>
    rw [assemble.go]
    have hspec := a.add_spec r h.sound
    generalize hadd : a.add r = outcome at hspec
    obtain ⟨answer, a'⟩ := outcome
    cases answer with
    | error e => exact fun hr => hspec.2 (hr r List.mem_cons_self)
    | ok _ =>
      obtain ⟨f, h'⟩ := h.add (hid done.length r (by simp)) hadd
      rw [List.append_cons] at hid hmain ⊢
      have := ih h' hid hmain
      dsimp only
      cases hgo : assemble.go main a' rest with
      | ok p =>
        rw [hgo] at this
        exact this
      | error e =>
        rw [hgo] at this
        exact fun hr => this fun r hr' => hr r (List.mem_cons_of_mem _ hr')

/-- Routines in the order of their numbers make a program of their functions. -/
theorem assemble_spec
    (hid : ∀ (n : Nat) (r : Routine), rs[n]? = some r → r.id = n) (hmain : main < rs.length) :
    match assemble rs main with
    | .ok p => p.main = main.toUInt32 ∧ List.Forall₂ (Generated p.constants) rs p.functions.toList
    | .error e => (∀ r ∈ rs, EmittableRoutine r) → e.IsOverflow :=
  assemble_go_spec ⟨ConstantPool.sound_empty, rfl, .nil⟩ hid hmain

/-! ## Compiled programs -/

/-- A routine that has been built has code: what it loads has a slot, and the machine has room for
the operands of an operator. -/
theorem emittable_of_built (hb : r.Built symbols) : EmittableRoutine r := by
  have hb' := hb.removeSingleUses
  have htyped := hb'.typed _ (Routine.fits_typing symbols _) rfl
  intro t ht
  refine ⟨fun x _ => ?_, ?_⟩
  · rcases place_slotForm r x with hx | ⟨slot, -, hx⟩
    · rw [hx]
      rfl
    · rw [hx]
      rfl
  · cases t with
    | load tag x =>
      obtain ⟨hload, -⟩ :=
        hb'.toWellScoped.reads_placed (Target.bytecode.layout hb'.toWellScoped) _ ht
      rcases place_slotForm r x with hx | ⟨slot, -, hx⟩
      · exact absurd hx (hload tag x rfl)
      · exact ⟨slot, hx⟩
    | print tag args =>
      obtain ⟨-, hcheck, -⟩ := htyped.nodes _ ht
      obtain ⟨-, hmost, -⟩ := Signature.check_eq_ok.mp hcheck
      rw [List.length_map] at hmost
      exact Nat.lt_succ_of_le hmost
    | _ => trivial

theorem assemble_error {e : GenerationError} (hrs : BuiltProgram modules symbols rs)
    (hmain : main < rs.length) (h : assemble rs main = .error e) : e.IsOverflow := by
  have hspec := assemble_spec (fun n r => hrs.id_eq) hmain
  rw [h] at hspec
  refine hspec fun r hr => ?_
  obtain ⟨n, hn⟩ := List.getElem?_of_mem hr
  obtain ⟨m, f, -, hb, -⟩ := hrs.routine n r hn
  exact emittable_of_built hb

/-- The functions of a generated program are those of the routines, one each and in order. -/
theorem generated_of_generate {target : Target} (hrs : BuiltProgram modules symbols rs)
    (hmain : main < rs.length) (h : generate target rs main = .ok (.bytecode p)) :
    List.Forall₂ (Generated p.constants) rs p.functions.toList := by
  have hspec := assemble_spec (fun n r => hrs.id_eq) hmain
  unfold generate at h
  cases target with
  | bytecode =>
    cases hp : assemble rs main with
    | error e =>
      rw [hp] at h
      cases h
    | ok q =>
      rw [hp] at h hspec
      cases h
      exact hspec.2
  | x64 =>
    cases hp : Native.assemble rs main with
    | error e =>
      rw [hp] at h
      cases h
    | ok q =>
      rw [hp] at h
      cases h

/-- The functions of a compiled program are those of the routines that its functions are built into,
one each and in order. -/
theorem generated_of_compile {options : Options}
    (h : (compile options modules).artifact = some (.bytecode p)) :
    ∃ symbols rs, BuiltProgram modules symbols rs ∧
      List.Forall₂ (Generated p.constants) rs p.functions.toList := by
  have hcompiles := compiles options modules
  generalize compile options modules = outcome at h hcompiles
  cases hcompiles with
  | symbols | semantic | main | generation => cases h
  | @artifact symbols rs main artifact spans hrs hmain hgenerate =>
    obtain rfl := Option.some.inj h
    exact ⟨symbols, rs, hrs, generated_of_generate hrs hmain hgenerate⟩

theorem generated_of_compileTrees {options : Options}
    {trees : TreeProgram} (hrs : BuiltProgram modules trees.symbols trees.routines)
    (h : compileTrees options modules trees = .ok (.bytecode p)) :
    List.Forall₂ (Generated p.constants) trees.routines p.functions.toList := by
  unfold compileTrees at h
  split at h
  · cases h
  · next main hmain =>
    have hlt : main < trees.routines.length := hrs.length ▸ findMain_lt hrs.lists hmain
    split at h
    · cases h
    · next artifact hg =>
      cases h
      exact generated_of_generate hrs hlt hg

section

variable {modules : List Surface.Module} {symbols : Symbols} {rs : List Routine}
  {constants : Array Constant} {fs : List Function}

/-- Each function of the program has a routine, which has been built from a declared function. -/
theorem generated_routine (hrs : BuiltProgram modules symbols rs)
    (hfs : List.Forall₂ (Generated constants) rs fs) {f : Function} (hf : f ∈ fs) :
    ∃ n m d r, (functionsOf modules)[n]? = some (m, d) ∧ r.Built symbols ∧
      r.Of (functionSymbol n m d) d ∧ Generated constants r f := by
  obtain ⟨n, hn, rfl⟩ := List.getElem_of_mem hf
  have hn' : n < rs.length := hfs.length_eq ▸ hn
  obtain ⟨m, d, hd, hb, hof⟩ := hrs.routine n rs[n] (List.getElem?_eq_getElem hn')
  exact ⟨n, m, d, rs[n], hd, hb, hof, hfs.get hn' hn⟩

/-- The entry of a function has the same signature as the function of the program. -/
theorem generated_entry (hrs : BuiltProgram modules symbols rs)
    (hfs : List.Forall₂ (Generated constants) rs fs) {full : String} {g : FunctionSymbol}
    (hg : symbols.function? full = some g) :
    ∃ f, fs[g.id]? = some f ∧ f.paramCount = g.params.length ∧ f.result = g.result := by
  have hplace := hrs.lists.place_of_function? hg
  obtain ⟨hlt, -⟩ := Array.getElem?_eq_some_iff.mp hplace
  rw [hrs.lists.size, ← hrs.length] at hlt
  obtain ⟨m, d, hd, -, hof⟩ := hrs.routine g.id _ (List.getElem?_eq_getElem hlt)
  have heq : g = functionSymbol g.id m d :=
    Option.some.inj (hplace.symm.trans (hrs.lists.entry hd))
  have hlt' := hfs.length_eq ▸ hlt
  have hgenerated := hfs.get hlt hlt'
  rw [← heq] at hof
  have hparams : g.params.length = d.params.length := by
    rw [heq]
    exact List.length_map _
  refine ⟨_, List.getElem?_eq_getElem hlt', ?_, hgenerated.result.trans hof.result⟩
  rw [hparams, ← hof.paramCount]
  exact hgenerated.paramCount

end

/-- The program of a loop and a call has code of this size. -/
theorem assemble_descending :
    ∃ p, assemble [Descending.routine, Descending.mainRoutine] 1 = .ok p ∧
      (compile { target := .bytecode, optimize := false } [Descending.program]).artifact =
        some (.bytecode p) ∧
      p.constants.size = 3 ∧ p.functions.toList.map
        (fun f => (f.paramCount, f.slots.size, f.code.size)) = [(1, 2, 17), (0, 0, 3)] := by
  have hsizes : (assemble [Descending.routine, Descending.mainRoutine] 1).map
      (fun p => (p.constants.size, p.functions.toList.map fun f =>
        (f.paramCount, f.slots.size, f.code.size))) = .ok (3, [(1, 2, 17), (0, 0, 3)]) := by cbv
  cases hp : assemble [Descending.routine, Descending.mainRoutine] 1 with
  | error e =>
    rw [hp] at hsizes
    cases hsizes
  | ok p =>
    rw [hp] at hsizes
    refine ⟨p, rfl, ?_, Prod.mk.inj (Except.ok.inj hsizes)⟩
    rw [Descending.compile_program (by rw [generate, hp]; rfl)]

end Bytecode

end Codewright
