import Codewright.Proofs.Bytecode.Assembly
import Codewright.Proofs.Native.Assembly
import Codewright.Proofs.Respelling

/-!
# The compiler is not at fault

Some errors would be faults of the compiler: a function that was not collected, an operator without
an intrinsic or without operands, a load of a local without a place. None of them comes up. The
reports of a compilation are about the program, and the only one among them that is called internal
says that a number is too large for an instruction.
-/

namespace Codewright

/-- A fault of the compiler and not of the program. -/
def SemanticError.IsFault : SemanticError → Prop
  | .notCollected _ _ | .noIntrinsic _ _ | .noOperands _ _ => True
  | _ => False

theorem SemanticError.OfPart.not_isFault {e : SemanticError} (h : e.OfPart) : ¬ e.IsFault := by
  cases e with
  | notCollected | noIntrinsic | noOperands => exact fun _ => h
  | _ => exact id

/-! ## Building -/

namespace Build

/-- A function is refused only for a reason that lies in the program. -/
theorem routine_not_isFault {ctx : Context} {symbol : FunctionSymbol} {f : Surface.Function}
    {s s' : State}
    {e : SemanticError} (h : routine ctx symbol f s = .error e s') : ¬ e.IsFault := by
  obtain ⟨_, _, ⟨hkind, -⟩, -⟩ := (agree_routine ctx symbol f).of_error (t := s) ⟨rfl, rfl, rfl⟩ h
  rcases hkind with hpart | rfl
  · exact hpart.not_isFault
  · exact id

end Build

/-- The functions of a program are collected before they are built, and building them is not at
fault either. -/
theorem buildRoutines_not_isFault {modules : List Surface.Module} {symbols : Symbols}
    {e : SemanticError} {spans : List Source.Span} (hs : Symbols.collect modules = .ok symbols)
    (h : buildRoutines symbols modules = (.error e, spans)) : ¬ e.IsFault := by
  have hgo := buildRoutines_go_spec symbols (functionsOf modules) [] []
  rw [← buildRoutines, h] at hgo
  obtain ⟨⟨m, f⟩, hf, spans', hbuild⟩ := hgo
  obtain ⟨n, hn⟩ := List.getElem?_of_mem hf
  unfold buildRoutine at hbuild
  dsimp only [EStateM.run] at hbuild
  rw [(Symbols.lists_of_collect hs).function?_eq hn] at hbuild
  dsimp only at hbuild
  split at hbuild
  · cases hbuild
  · next e' s' heq =>
    cases hbuild
    exact Build.routine_not_isFault heq

/-! ## Reports -/

theorem SymbolError.code_report (e : SymbolError) : e.report.code ≠ some .internalFault := by
  cases e <;> exact nofun

theorem MainError.code_report (e : MainError) (entry : Option Source.Span) :
    (e.report entry).code ≠ some .internalFault := by
  cases e <;> cases entry <;> exact nofun

theorem SemanticError.isFault_of_code {e : SemanticError}
    (h : e.report.code = some .internalFault) : e.IsFault := by
  cases e with
  | notCollected | noIntrinsic | noOperands => trivial
  | operands op fault span => cases fault <;> exact absurd h nofun
  | _ => exact absurd h nofun

theorem GenerationError.IsRefusal.isOverflow_of_code {e : GenerationError} (h : e.IsRefusal)
    (hc : e.report.code = some .internalFault) : e.IsOverflow := by
  cases e with
  | operandOverflow kind value => exact ⟨kind, value, rfl⟩
  | notImplemented | displacementOutOfRange => exact absurd hc nofun
  | missingFunction | internal => exact h.elim

theorem generate_error {target : Target} {modules : List Surface.Module} {symbols : Symbols}
    {rs : List Routine} {main : RoutineId} {e : GenerationError}
    (hrs : BuiltProgram modules symbols rs)
    (hmain : main < rs.length) (h : generate target rs main = .error e) : e.IsRefusal := by
  unfold generate at h
  cases target with
  | bytecode =>
    cases hp : Bytecode.assemble rs main with
    | ok p => rw [hp] at h; cases h
    | error e' =>
      rw [hp] at h
      cases h
      obtain ⟨kind, value, rfl⟩ := Bytecode.assemble_error hrs hmain hp
      trivial
  | x64 =>
    cases hp : Native.assemble rs main with
    | ok p => rw [hp] at h; cases h
    | error e' =>
      rw [hp] at h
      cases h
      exact Native.assemble_error hrs hmain hp

/-- A report of a compilation that is called internal is about a number that is too large. -/
theorem compile_internal {options : Options} {modules : List Surface.Module} {d : Diagnostic}
    (hd : d ∈ (compile options modules).diagnostics) (hc : d.code = some .internalFault) :
    ∃ e : GenerationError, e.IsOverflow ∧ d = e.report := by
  have hwarning : ∀ spans : List Source.Span, d ∉ spans.map unreachableReport := by
    intro spans hmem
    obtain ⟨span, -, rfl⟩ := List.mem_map.mp hmem
    exact absurd hc nofun
  have hlast : ∀ {spans : List Source.Span} {d' : Diagnostic},
      d ∈ spans.map unreachableReport ++ [d'] → d = d' := fun hmem =>
    List.mem_singleton.mp ((List.mem_append.mp hmem).resolve_left (hwarning _))
  have hcompiles := compiles options modules
  generalize compile options modules = outcome at hd hcompiles
  cases hcompiles with
  | symbols h =>
    rw [List.mem_singleton.mp hd] at hc
    exact absurd hc (SymbolError.code_report _)
  | semantic hs h =>
    rw [hlast hd] at hc
    exact absurd (SemanticError.isFault_of_code hc) (buildRoutines_not_isFault hs h)
  | main spans hs h =>
    rw [hlast hd] at hc
    exact absurd hc (MainError.code_report _ _)
  | generation spans hrs hmain h =>
    rw [hlast hd] at hc
    exact ⟨_, (generate_error hrs hmain h).isOverflow_of_code hc, hlast hd⟩
  | artifact spans hrs hmain h => exact absurd hd (hwarning spans)

/-- The compiler is not at fault. A report that is called internal comes from a number that does not
fit into an instruction. Building finds every function, the intrinsic of every operator and its
operands; the stack machine fails for numbers that are too large only, and the processor for these
and for constructs and displacements that are not done yet; and what the code reads has a place,
every load for both and every operand for the processor. -/
theorem compile_never_at_fault (options : Options) (modules : List Surface.Module) :
    (∀ d ∈ (compile options modules).diagnostics, d.code = some .internalFault →
      ∃ kind value, d = (GenerationError.operandOverflow kind value).report) ∧
    (∀ symbols e spans, Symbols.collect modules = .ok symbols →
      buildRoutines symbols modules = (.error e, spans) → ¬ e.IsFault) ∧
    ∀ trees warnings main, buildTrees options.optimize modules = (.ok trees, warnings) →
      findMain options.entry modules trees.symbols = .ok main →
      (∀ e, Bytecode.assemble trees.routines main = .error e → e.IsOverflow) ∧
      (∀ e, Native.assemble trees.routines main = .error e → e.IsRefusal) ∧
      ∀ r ∈ trees.routines, Bytecode.EmittableRoutine r ∧ Native.EmittableRoutine r := by
  refine ⟨fun d hd hc => ?_, fun symbols e spans hs h => buildRoutines_not_isFault hs h, ?_⟩
  · obtain ⟨e, ⟨kind, value, rfl⟩, rfl⟩ := compile_internal hd hc
    exact ⟨kind, value, rfl⟩
  · intro trees warnings main htrees hmain
    have hrs := builtProgram_of_buildTrees htrees
    have hlt : main < trees.routines.length := hrs.length ▸ findMain_lt hrs.lists hmain
    refine ⟨fun e => Bytecode.assemble_error hrs hlt, fun e => Native.assemble_error hrs hlt, ?_⟩
    intro r hr
    obtain ⟨n, hn⟩ := List.getElem?_of_mem hr
    obtain ⟨m, f, -, hb, -⟩ := hrs.routine n r hn
    exact ⟨Bytecode.emittable_of_built hb, Native.emittable_of_built hb⟩

/-- There is no native code for a loop yet, which is no fault. -/
theorem compile_never_at_fault_descending :
    Native.assemble [Descending.routine, Descending.mainRoutine] 1 =
        .error (.notImplemented .loops) ∧
      (GenerationError.notImplemented .loops).IsRefusal ∧
      Bytecode.EmittableRoutine Descending.routine ∧
          Native.EmittableRoutine Descending.routine := by
  have hloop : Native.assemble [Descending.routine, Descending.mainRoutine] 1 =
      .error (.notImplemented .loops) := by cbv
  obtain ⟨-, -, h⟩ := compile_never_at_fault { optimize := false } [Descending.program]
  obtain ⟨-, hnative, hplaced⟩ := h _ _ _ Descending.buildTrees_program Descending.findMain_program
  exact ⟨hloop, hnative _ hloop, hplaced _ List.mem_cons_self⟩

end Codewright
