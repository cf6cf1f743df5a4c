import Codewright.Proofs.Collected
import Codewright.Proofs.StorageSharing

/-!
# What a compilation comes to

The stages of a compilation one by one: each either ends it with its own error or hands on to the
next. When code is generated, it is for the routines of all functions, built and perhaps folded, in
the order of their numbers, and the function that the program starts with is one of them.
-/

namespace Codewright

/-- Folding constants keeps all that is known of the routines. -/
theorem BuiltProgram.foldConstants {modules : List Surface.Module} {symbols : Symbols}
    {rs : List Routine} (h : BuiltProgram modules symbols rs) :
    BuiltProgram modules symbols (rs.map fun r => r.foldConstants.1) where
  lists := h.lists
  length := by rw [List.length_map, h.length]
  routine := by
    intro n r' hr'
    rw [List.getElem?_map] at hr'
    obtain ⟨r, hr, rfl⟩ := Option.map_eq_some_iff.mp hr'
    obtain ⟨m, f, hf, hb, hof⟩ := h.routine n r hr
    have hbody : r.foldConstants.1.body = r.body.folded := Tree.fold_fst 0 r.body
    refine ⟨m, f, hf, hb.foldConstants, hof.id, hof.fullName, hof.result, hof.paramCount,
      hof.params, hof.values, ?_⟩
    rw [hbody, (Tree.sameLocals_folded hb.bare).mentions]
    exact hof.unmentioned

/-- The trees of a program come from its functions, perhaps folded. -/
theorem builtProgram_of_buildTrees {optimize : Bool} {modules : List Surface.Module}
    {trees : TreeProgram} {warnings : List Diagnostic}
    (h : buildTrees optimize modules = (.ok trees, warnings)) :
    BuiltProgram modules trees.symbols trees.routines := by
  unfold buildTrees at h
  split at h
  · cases h
  · next symbols hs =>
    split at h
    · cases h
    · next rs spans hrs =>
      cases h
      have hbuilt := builtProgram hs hrs
      cases optimize with
      | true => exact hbuilt.foldConstants
      | false => exact hbuilt

/-- The program starts with one of its functions. -/
theorem findMain_lt {entry : Option String} {modules : List Surface.Module} {symbols : Symbols}
    {fs : List (String × Surface.Function)} {main : RoutineId} (hs : symbols.Lists fs)
    (h : findMain entry modules symbols = .ok main) : main < fs.length := by
  unfold findMain at h
  split at h
  · cases h
  · split at h
    · cases h
    · next f hf =>
      split at h
      · cases h
        have hplace := hs.place_of_function? hf
        rw [← hs.size]
        exact (Array.getElem?_eq_some_iff.mp hplace).1
      · cases h

/-- The ends of a compilation: an error of one of its stages, or an artifact. -/
inductive Compiles (options : Options) (modules : List Surface.Module) : Compilation → Prop
  | symbols {e : SymbolError} (h : Symbols.collect modules = .error e) :
    Compiles options modules ⟨none, [e.report]⟩
  | semantic {symbols : Symbols} {e : SemanticError} {spans : List Source.Span}
    (hs : Symbols.collect modules = .ok symbols)
    (h : buildRoutines symbols modules = (.error e, spans)) :
    Compiles options modules ⟨none, spans.map unreachableReport ++ [e.report]⟩
  | main {symbols : Symbols} {e : MainError} (spans : List Source.Span)
    (hs : Symbols.collect modules = .ok symbols)
    (h : findMain options.entry modules symbols = .error e) :
    Compiles options modules
      ⟨none, spans.map unreachableReport ++ [e.report (modules.head?.map (·.span))]⟩
  | generation {symbols : Symbols} {rs : List Routine} {main : RoutineId} {e : GenerationError}
    (spans : List Source.Span) (hrs : BuiltProgram modules symbols rs) (hmain : main < rs.length)
    (h : generate options.target rs main = .error e) :
    Compiles options modules ⟨none, spans.map unreachableReport ++ [e.report]⟩
  | artifact {symbols : Symbols} {rs : List Routine} {main : RoutineId} {artifact : Artifact}
    (spans : List Source.Span) (hrs : BuiltProgram modules symbols rs) (hmain : main < rs.length)
    (h : generate options.target rs main = .ok artifact) :
    Compiles options modules ⟨some artifact, spans.map unreachableReport⟩

theorem compileTrees_bind (options : Options) (modules : List Surface.Module)
    (trees : TreeProgram) :
    ((Except.ok trees : Except CompileError TreeProgram) >>= compileTrees options modules) =
      compileTrees options modules trees := rfl

/-- Every compilation comes to one of the ends. -/
theorem compiles (options : Options) (modules : List Surface.Module) :
    Compiles options modules (compile options modules) := by
  unfold compile buildTrees
  cases hs : Symbols.collect modules with
  | error e => exact .symbols hs
  | ok symbols =>
    dsimp only
    cases hr : buildRoutines symbols modules with
    | mk answer spans =>
      cases answer with
      | error e => exact .semantic hs hr
      | ok built =>
        have hrs : BuiltProgram modules symbols
            (if options.optimize then built.map fun r => r.foldConstants.1 else built) := by
          split
          · exact (builtProgram hs hr).foldConstants
          · exact builtProgram hs hr
        dsimp only
        rw [compileTrees_bind]
        generalize (if options.optimize then built.map fun r => r.foldConstants.1 else built) = rs
          at hrs ⊢
        unfold compileTrees
        cases hmain : findMain options.entry modules symbols with
        | error e => exact .main spans hs hmain
        | ok main =>
          have hlt : main < rs.length := hrs.length ▸ findMain_lt hrs.lists hmain
          dsimp only
          cases hg : generate options.target rs main with
          | error e => exact .generation spans hrs hlt hg
          | ok artifact => exact .artifact spans hrs hlt hg

/-! ## A program of two functions -/

namespace Descending

/-- Adds up the numbers from three downwards. -/
def main : Surface.Function where
  name := "main"
  isPublic := true
  result := .int
  params := []
  body := {
    body := [.ret (some (.call "sum" [.literal (.int 3) default] default)) default]
    span := default }
  span := default

def program : Surface.Module := .ofFunctions [function, main]

def programSymbols : Symbols where
  modules := #[{ name := "main", imports := [], span := default }]
  functions := #[functionSymbol 0 "main" function, functionSymbol 1 "main" main]
  index := ((∅ : Std.HashMap String Nat).insert "main.sum" 0).insert "main.main" 1

def mainRoutine : Routine where
  id := 1
  fullName := "main.main"
  locals := #[{ name := "$result", ty := .int }]
  paramCount := 0
  body := .seq { ty := .void } [
    .retValue { ty := .void } (.call { ty := .int } 0 [.const { ty := .int } (.int 3)])]

theorem collect_program : Symbols.collect [program] = .ok programSymbols := by cbv

theorem function?_programSymbols : programSymbols.function? (fullName "main" function.name) =
    some (functionSymbol 0 "main" function) := by
  cbv

theorem resolveConstant?_programSymbols (name : String) :
    programSymbols.resolveConstant? "main" name = none :=
  Symbols.resolveConstant?_of_no_constants rfl "main" name

theorem buildRoutine_main : buildRoutine programSymbols "main" main = (.ok mainRoutine, []) := by
  cbv

/-- Both functions are built, without a remark. -/
theorem buildRoutines_program :
    buildRoutines programSymbols [program] = (.ok [routine, mainRoutine], []) := by
  have hsum := buildRoutine_function_of function?_programSymbols resolveConstant?_programSymbols
  simp [buildRoutines, functionsOf, program, buildRoutines.go, hsum, buildRoutine_main]

theorem buildTrees_program :
    buildTrees false [program] = (.ok ⟨programSymbols, [routine, mainRoutine]⟩, []) := by
  simp [buildTrees, collect_program, buildRoutines_program]

theorem findMain_program : findMain none [program] programSymbols = .ok 1 := by cbv

/-- The program compiles to whatever the target makes of the two routines. -/
theorem compile_program {target : Target} {artifact : Artifact}
    (h : generate target [routine, mainRoutine] 1 = .ok artifact) :
    compile { target, optimize := false } [program] = ⟨some artifact, []⟩ := by
  have htrees : compileTrees { target, optimize := false } [program]
      ⟨programSymbols, [routine, mainRoutine]⟩ = .ok artifact := by
    simp only [compileTrees, findMain_program, h]
  simp only [compile, buildTrees_program, compileTrees_bind, htrees]

end Descending

end Codewright
