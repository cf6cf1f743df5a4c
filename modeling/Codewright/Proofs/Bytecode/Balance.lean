import Codewright.Proofs.Bytecode.Verification

/-!
# Values in locals and operands

What a routine stores and prints has a value, whatever program it is from: assignments and
intrinsics check the types that they are given. Arguments are only compared with parameters, so what
a routine has in its locals, loads and hands on are values exactly if no function declares a
parameter without them. Then the code of each expression leaves on the stack what its type says, and
what a statement leaves there unused is discarded.
-/

namespace Codewright

/-! ## Routines -/

/-- A routine stores and prints values only. -/
structure Routine.KeepsValues (r : Routine) : Prop where
  stored : ∀ t ∈ r.body.nodes, t.store ≠ none → t.ty.isValue = true
  printed : ∀ tag args, .print tag args ∈ r.body.nodes → ∀ a ∈ args, a.ty.isValue = true

/-- A routine has only values in its locals, the one of the result apart, and loads and hands on
only values. -/
structure Routine.HoldsValues (r : Routine) : Prop where
  locals : ∀ (x : LocalId) (l : Local), x ≠ 0 → r.locals[x]? = some l → l.ty.isValue = true
  loaded : ∀ tag x, .load tag x ∈ r.body.nodes → tag.ty.isValue = true
  arguments : ∀ tag callee args, .call tag callee args ∈ r.body.nodes →
    ∀ a ∈ args, a.ty.isValue = true

theorem Routine.Built.keepsValues {symbols : Symbols} {fs : List (String × Surface.Function)}
    {r : Routine} (hb : r.Built symbols) (hs : symbols.Lists fs) (h0 : 0 ∉ r.body.mentions) :
    r.KeepsValues where
  stored := by
    intro t ht hstore
    obtain ⟨x, hx⟩ := Option.ne_none_iff_exists'.mp hstore
    exact ((hb.wellTyped hs h0 t ht).1 x hx).2.1
  printed := by
    intro tag args ht a ha
    obtain ⟨-, hcheck⟩ := hb.wellTyped hs h0 _ ht
    exact Intrinsic.isValue_of_check_operands hcheck _ (List.mem_map_of_mem ha)

namespace BuiltProgram

variable {modules : List Surface.Module} {symbols : Symbols} {rs : List Routine}

/-- The locals are the parameters, which are as declared, and those of assignments. -/
theorem isValue_locals (hrs : BuiltProgram modules symbols rs)
    (hvoid : ∀ q ∈ functionsOf modules, ∀ a ∈ q.2.params, a.type ≠ .void) {r : Routine}
    (hr : r ∈ rs) {x : LocalId} {l : Local} (hx : x ≠ 0) (hl : r.locals[x]? = some l) :
    l.ty.isValue = true := by
  obtain ⟨n, hn⟩ := List.getElem?_of_mem hr
  obtain ⟨m, f, hf, hb, hof⟩ := hrs.routine n r hn
  have hdecl : declared r.locals x = some (l.ty, l.isParameter) := by rw [declared, hl]; rfl
  by_cases hle : x ≤ r.paramCount
  · have hmem : x ∈ r.parameters := (hb.params x).mpr ⟨Nat.one_le_iff_ne_zero.mpr hx, hle⟩
    have hvalue :=
      hof.isValue_parameters hb.toWellScoped (hvoid _ (List.mem_of_getElem? hf)) x hmem
    rwa [Routine.localType_eq_of_declared hdecl] at hvalue
  · exact hof.values x _ _ (Nat.lt_of_not_le hle) hdecl

theorem holdsValues (hrs : BuiltProgram modules symbols rs)
    (hvoid : ∀ q ∈ functionsOf modules, ∀ a ∈ q.2.params, a.type ≠ .void) {r : Routine}
    (hr : r ∈ rs) : r.HoldsValues := by
  obtain ⟨n, hn⟩ := List.getElem?_of_mem hr
  obtain ⟨m, f, hf, hb, hof⟩ := hrs.routine n r hn
  have hnodes := hb.wellTyped hrs.lists hof.unmentioned
  refine ⟨fun x l hx hl => hrs.isValue_locals hvoid hr hx hl, fun tag x ht => ?_,
    fun tag callee args ht a ha => ?_⟩
  · obtain ⟨-, l, hl, hty⟩ := hnodes _ ht
    have hx : x ≠ 0 := by
      rintro rfl
      exact hof.unmentioned (Tree.mentions_nodes _ _ ht (by simp [Tree.mentions, Tree.loads]))
    rw [hty]
    exact hrs.isValue_locals hvoid hr hx hl
  · obtain ⟨-, g, hg, -, hargs, -⟩ := hnodes _ ht
    exact hrs.lists.isValue_params hvoid hg _ (hargs ▸ List.mem_map_of_mem ha)

theorem params_of_holdsValues (hrs : BuiltProgram modules symbols rs)
    (h : ∀ r ∈ rs, r.HoldsValues) : ∀ q ∈ functionsOf modules, ∀ a ∈ q.2.params,
      a.type ≠ .void := by
  intro q hq a ha hty
  obtain ⟨n, hn⟩ := List.getElem?_of_mem hq
  have hlt : n < rs.length := hrs.length ▸ (List.getElem?_eq_some_iff.mp hn).1
  obtain ⟨m, f, hf, -, hof⟩ := hrs.routine n _ (List.getElem?_eq_getElem hlt)
  obtain rfl : q = (m, f) := Option.some.inj (hn.symm.trans hf)
  obtain ⟨k, hk⟩ := List.getElem?_of_mem ha
  obtain ⟨l, hl, heq⟩ := Option.map_eq_some_iff.mp (hof.params k a hk)
  have hvalue := (h _ (List.getElem_mem hlt)).locals (k + 1) l (Nat.succ_ne_zero k) hl
  rw [(Prod.mk.inj heq).1, hty] at hvalue
  cases hvalue

end BuiltProgram

/-! ## Code -/

namespace Tree

mutual

/-- The nodes that stand as statements. -/
def statements : Tree → List Tree
  | t@(.seq _ body) => t :: statementsAll body
  | t@(.ifThen _ _ yes) => t :: statements yes
  | t@(.ifElse _ _ yes no) => t :: (statements yes ++ statements no)
  | t@(.loop _ _ body) => t :: statements body
  | t@(.const _ _) | t@(.load _ _) | t@(.call _ _ _) | t@(.binary _ _ _ _) | t@(.unary _ _ _)
  | t@(.print _ _) | t@(.failFast _) | t@(.toReal _ _) | t@(.ret _) | t@(.retValue _ _) => [t]

def statementsAll : List Tree → List Tree
  | [] => []
  | t :: rest => statements t ++ statementsAll rest

end

theorem statementsAll_eq (ts : List Tree) : statementsAll ts = ts.flatMap statements := by
  induction ts with
  | nil => rfl
  | cons t rest ih => rw [statementsAll, ih, List.flatMap_cons]

/-- The statements that a node has directly in it. -/
def inner : Tree → List Tree
  | .seq _ body => body
  | .ifThen _ _ yes => [yes]
  | .ifElse _ _ yes no => [yes, no]
  | .loop _ _ body => [body]
  | _ => []

theorem inner_subset (t : Tree) : t.inner ⊆ t.parts := by
  cases t <;> simp [inner, parts]

theorem inner_operator {t : Tree} {f : Operator} (h : t.operator? = some f) : t.inner = [] := by
  cases t <;> first | rfl | cases h

theorem statements_eq (t : Tree) : t.statements = t :: t.inner.flatMap statements := by
  cases t <;> simp [statements, inner, statementsAll_eq]

/-- What holds of a tree and passes to the statements in every statement holds of all of them. -/
theorem forall_statements {P : Tree → Prop} {t : Tree} (step : ∀ t, P t → ∀ a ∈ t.inner, P a)
    (h : P t) : ∀ u ∈ t.statements, P u := by
  induction t using induction_parts with
  | h t ih =>
    rw [statements_eq, List.forall_mem_cons, List.forall_mem_flatMap]
    exact ⟨h, fun a ha => ih a (inner_subset t ha) (step t h a ha)⟩

end Tree

namespace Bytecode

/-- A piece of the code computes a node. -/
def Coding.Computes (C : Coding) (code : List Instruction) (t : Tree) : Prop :=
  ∃ piece, piece <:+: code ∧ Emitted C t piece

section

variable {C : Coding} {t : Tree} {ts : List Tree} {code code' : List Instruction}

theorem Coding.Computes.mono (h : C.Computes code t) (hc : code <:+: code') :
    C.Computes code' t := by
  obtain ⟨piece, hpiece, h⟩ := h
  exact ⟨piece, hpiece.trans hc, h⟩

theorem infix_after {i : Instruction} (before : List Instruction) {rest : List Instruction}
    (h : code <:+: rest) : code <:+: before ++ i :: rest :=
  h.trans ((List.suffix_cons i rest).trans (List.suffix_append before _)).isInfix

theorem EmittedValue.computes (h : EmittedValue C t code) : C.Computes code t := by
  cases h with
  | intro h _ => exact ⟨_, (List.prefix_append _ _).isInfix, h⟩

theorem EmittedStatement.computes (h : EmittedStatement C t code) : C.Computes code t := by
  cases h with
  | intro h _ => exact ⟨_, (List.prefix_append _ _).isInfix, h⟩

theorem EmittedAllIn.pieces {r : Role} (h : EmittedAllIn C r ts code) :
    ∀ t ∈ ts, ∃ piece, piece <:+: code ∧ EmittedIn C r t piece := by
  induction ts generalizing code with
  | nil => simp
  | cons t rest ih =>
    cases r <;> cases h
    all_goals
      next ht hrest =>
        rintro u hu
        rcases List.mem_cons.mp hu with rfl | hu
        · exact ⟨_, (List.prefix_append _ _).isInfix, ht⟩
        · obtain ⟨piece, hpiece, h⟩ := ih hrest u hu
          exact ⟨piece, hpiece.trans (List.suffix_append _ _).isInfix, h⟩

/-- The code of a tree has the code of all its nodes in it. -/
theorem Coding.Computes.nodes (h : C.Computes code t) : ∀ u ∈ t.nodes, C.Computes code u := by
  refine Tree.forall_nodes_of_parts ?_ h
  rintro u ⟨piece, hpiece, hu⟩
  cases hu with
  | const | load | failFast | ret => simp [Tree.parts]
  | operator hf hvalues _ =>
    rw [Tree.parts_operator hf]
    intro a ha
    obtain ⟨inner, hinner, h⟩ := EmittedAllIn.pieces (r := .value) hvalues a ha
    exact h.computes.mono (hinner.trans ((List.prefix_append _ _).isInfix.trans hpiece))
  | seq hbody =>
    intro a ha
    obtain ⟨inner, hinner, h⟩ := EmittedAllIn.pieces (r := .statement) hbody a ha
    exact h.computes.mono (hinner.trans hpiece)
  | ifThen hc hy _ =>
    simp only [Tree.parts, List.forall_mem_cons]
    exact ⟨hc.computes.mono ((List.prefix_append _ _).isInfix.trans hpiece),
      hy.computes.mono ((infix_after _ List.infix_rfl).trans hpiece), by simp⟩
  | ifElse hc hy hn _ _ =>
    simp only [Tree.parts, List.forall_mem_cons]
    exact ⟨hc.computes.mono ((List.prefix_append _ _).isInfix.trans hpiece),
      hy.computes.mono ((infix_after _ (List.prefix_append _ _).isInfix).trans hpiece),
      hn.computes.mono ((infix_after _ (infix_after _ List.infix_rfl)).trans hpiece), by simp⟩
  | loop hc hb _ _ =>
    simp only [Tree.parts, List.forall_mem_cons]
    exact ⟨hc.computes.mono ((List.prefix_append _ _).isInfix.trans hpiece),
      hb.computes.mono ((infix_after _ (List.prefix_append _ _).isInfix).trans hpiece), by simp⟩
  | retValue hv =>
    simp only [Tree.parts, List.forall_mem_cons]
    exact ⟨hv.computes.mono ((List.prefix_append _ _).isInfix.trans hpiece), by simp⟩

/-- The code of a statement has the code of the statements in it, each with what takes its value off
the stack. -/
theorem EmittedStatement.pieces (h : EmittedStatement C t code) :
    ∀ u ∈ t.statements, ∃ piece, piece <:+: code ∧ EmittedStatement C u piece := by
  refine Tree.forall_statements ?_ ⟨code, List.infix_rfl, h⟩
  rintro u ⟨piece, hpiece, ⟨hu, _⟩⟩
  have hpiece := (List.prefix_append _ _).isInfix.trans hpiece
  cases hu with
  | seq hbody =>
    intro a ha
    obtain ⟨inner, hinner, h⟩ := EmittedAllIn.pieces (r := .statement) hbody a ha
    exact ⟨inner, hinner.trans hpiece, h⟩
  | ifThen _ hy _ =>
    simp only [Tree.inner, List.forall_mem_singleton]
    exact ⟨_, (infix_after _ List.infix_rfl).trans hpiece, hy⟩
  | ifElse _ hy hn _ _ =>
    simp only [Tree.inner, List.forall_mem_cons]
    exact ⟨⟨_, (infix_after _ (List.prefix_append _ _).isInfix).trans hpiece, hy⟩,
      ⟨_, (infix_after _ (infix_after _ List.infix_rfl)).trans hpiece, hn⟩, by simp⟩
  | loop _ hb _ _ =>
    simp only [Tree.inner, List.forall_mem_singleton]
    exact ⟨_, (infix_after _ (List.prefix_append _ _).isInfix).trans hpiece, hb⟩
  | const | load | failFast | ret | retValue => simp [Tree.inner]
  | operator hf _ _ => rw [Tree.inner_operator hf]; simp

end

/-- The code of a function leaves on the stack what the types of its routine say. -/
structure Balanced (p : Program) (r : Routine) (f : Function) : Prop where
  /-- An expression leaves exactly one value if it has one, and nothing otherwise. -/
  expression : ∀ t ∈ r.removeSingleUses.1.body.nodes, t.IsExpr → ∃ piece, piece <:+: f.code.toList ∧
    Emitted ⟨Target.bytecode.place r.removeSingleUses.1, p.constants⟩ t piece ∧
    ∀ depth, scan (p.effect? f) piece depth = some (depth + if t.ty.isValue then 1 else 0)
  /-- A statement that leaves a value is followed by a discard. -/
  discard : ∀ t ∈ r.removeSingleUses.1.body.statements, t.leavesValue = true →
    ∃ piece, piece ++ [⟨.popDiscard, 0⟩] <:+: f.code.toList ∧
      Emitted ⟨Target.bytecode.place r.removeSingleUses.1, p.constants⟩ t piece

theorem Generated.balanced {modules : List Surface.Module} {symbols : Symbols} {rs : List Routine}
    {p : Program} (hrs : BuiltProgram modules symbols rs)
    (hfs : List.Forall₂ (Generated p.constants) rs p.functions.toList)
    (hvoid : ∀ m ∈ modules, ∀ d ∈ m.functions, ∀ a ∈ d.params, a.type ≠ .void) {r : Routine}
    {f : Function} (hr : r ∈ rs) (h : Generated p.constants r f) : Balanced p r f where
  expression := by
    intro t ht he
    obtain ⟨n, hn⟩ := List.getElem?_of_mem hr
    obtain ⟨m, d, hd, hb, hof⟩ := hrs.routine n r hn
    have hplain := plainStmt_of_params hrs hvoid hd hb hof
    obtain ⟨piece, hpiece, hcode⟩ := h.code.computes.nodes t ht
    exact ⟨piece, hpiece, hcode, fun depth => (scan_expr (weighs_effect? hrs hfs h) t
      ⟨hplain.node ht, he⟩ hcode depth).1⟩
  discard := by
    intro t ht hleaves
    obtain ⟨hstore, hvalue⟩ := Bool.and_eq_true_iff.mp hleaves
    obtain ⟨piece, hpiece, hcode⟩ := h.code.pieces t ht
    cases hcode with
    | intro hcode htail =>
      cases htail with
      | nothing _ hv => exact absurd (hv.symm.trans hvalue) Bool.false_ne_true
      | discard => exact ⟨_, hpiece, hcode⟩
      | unplaced hs | placed hs =>
        rw [hs] at hstore
        cases hstore

/-- In every program that is accepted what is stored and what is printed are values. What is in
locals, what is loaded and what is handed to functions are values exactly if all parameters are, and
then the code of every function is balanced. -/
theorem accepted_holds_values {optimize : Bool} {modules : List Surface.Module}
    {trees : TreeProgram}
    {warnings : List Diagnostic} (h : buildTrees optimize modules = (.ok trees, warnings)) :
    (∀ r ∈ trees.routines, r.KeepsValues) ∧
    ((∀ r ∈ trees.routines, r.HoldsValues) ↔
      ∀ m ∈ modules, ∀ f ∈ m.functions, ∀ a ∈ f.params, a.type ≠ .void) ∧
    ((∀ r ∈ trees.routines, r.HoldsValues) → ∀ options p,
      compileTrees options modules trees = .ok (.bytecode p) →
        List.Forall₂ (Balanced p) trees.routines p.functions.toList) := by
  have hrs := builtProgram_of_buildTrees h
  have hiff : (∀ r ∈ trees.routines, r.HoldsValues) ↔
      ∀ m ∈ modules, ∀ f ∈ m.functions, ∀ a ∈ f.params, a.type ≠ .void := by
    rw [← forall_functionsOf]
    exact ⟨hrs.params_of_holdsValues, fun hvoid r => hrs.holdsValues hvoid⟩
  refine ⟨fun r hr => ?_, hiff, fun hholds options p hp => ?_⟩
  · obtain ⟨n, hn⟩ := List.getElem?_of_mem hr
    obtain ⟨m, f, -, hb, hof⟩ := hrs.routine n r hn
    exact hb.keepsValues hrs.lists hof.unmentioned
  · have hfs := generated_of_compileTrees hrs hp
    refine List.forall₂_iff_get.mpr ⟨hfs.length_eq, fun n hr hf => ?_⟩
    exact (hfs.get hr hf).balanced hrs hfs (hiff.mp hholds) (List.getElem_mem hr)

/-- A program with a loop and a call: its locals are values, and its functions are balanced. -/
theorem accepted_holds_values_descending :
    buildTrees false [Descending.program] =
      (.ok ⟨Descending.programSymbols, [Descending.routine, Descending.mainRoutine]⟩, []) ∧
    (∀ r ∈ [Descending.routine, Descending.mainRoutine], r.HoldsValues) ∧
    ∃ p, compileTrees {} [Descending.program]
        ⟨Descending.programSymbols, [Descending.routine, Descending.mainRoutine]⟩ =
          .ok (.bytecode p) ∧
      List.Forall₂ (Balanced p) [Descending.routine, Descending.mainRoutine]
          p.functions.toList := by
  have htrees := Descending.buildTrees_program
  obtain ⟨-, hiff, hbalanced⟩ := accepted_holds_values htrees
  have hholds := hiff.mpr (by decide)
  obtain ⟨p, hp, -⟩ := assemble_descending
  have hcompile : compileTrees {} [Descending.program]
      ⟨Descending.programSymbols, [Descending.routine, Descending.mainRoutine]⟩ =
        .ok (.bytecode p) := by
    simp only [compileTrees, Descending.findMain_program, generate, hp]
    rfl
  exact ⟨htrees, hholds, p, hcompile, hbalanced hholds {} p hcompile⟩

end Bytecode

/-! ## A parameter without values -/

namespace Hollow

/-- Hands on its parameter, which has no value, and then what a function without a result gives. -/
def function : Surface.Function where
  name := "f"
  isPublic := false
  result := .void
  params := [⟨"x", .void, default⟩]
  body := {
    body := [
      .expr (.call "f" [.name "x" default] default),
      .expr (.call "f" [.call "print" [.literal (.int 1) default] default] default)]
    span := default }
  span := default

def program : Surface.Module := .ofFunctions [function]

abbrev symbols : Symbols := .alone function

def routine : Routine where
  id := 0
  fullName := "main.f"
  locals := #[
    { name := "$result", ty := .void },
    { name := "x", ty := .void, uses := 1, isParameter := true }]
  paramCount := 1
  body := .seq { ty := .void } [
    .call { ty := .void } 0 [.load { ty := .void } 1],
    .call { ty := .void } 0 [.print { ty := .void } [.const { ty := .int } (.int 1)]],
    .ret { ty := .void }]

theorem fullName_f : fullName "main" "f" = "main.f" := by decide +kernel

theorem collect_program : Symbols.collect [program] = .ok symbols := by cbv

theorem resolveFunction?_symbols :
    symbols.resolveFunction? "main" "f" = some (functionSymbol 0 "main" function) := by
  have hsplit : Symbols.splitQualifier? "f" = none := by cbv
  have hmodule : symbols.module? "main" = some symbols.modules[0] := rfl
  simp only [Symbols.resolveFunction?, Symbols.resolve?, hmodule, hsplit]
  rw [show "main" ++ "." ++ "f" = fullName "main" function.name by decide +kernel,
    Symbols.function?_alone]

open Build.Evaluated in
theorem buildRoutine_function : buildRoutine symbols "main" function = (.ok routine, []) := by
  have hfold : foldName "f" = "f" ∧ foldName "print" = "print" :=
    ⟨by decide +kernel, by decide +kernel⟩
  have hx : foldName "x" = "x" ∧ "x".contains '.' = false := ⟨by decide +kernel, by cbv⟩
  have hname : Intrinsic.ofName? "f" = none ∧ Intrinsic.ofName? "print" = some .print :=
    ⟨by decide +kernel, by decide +kernel⟩
  have hcheck : Intrinsic.print.check [.int] = .ok .void := rfl
  unfold buildRoutine
  simp only [Symbols.function?_alone]
  simp [function, routine, functionSymbol, fullName_f, foldName_main,
    Symbols.resolveConstant?_alone, resolveFunction?_symbols, hfold, hx, hname, hcheck]

theorem buildTrees_program : buildTrees false [program] = (.ok ⟨symbols, [routine]⟩, []) := by
  have hroutines : buildRoutines symbols [program] = (.ok [routine], []) := by
    simp [buildRoutines, functionsOf, program, buildRoutines.go, buildRoutine_function]
  simp [buildTrees, collect_program, hroutines]

/-- The program is accepted, with a local, a load and arguments that have no value, and the code of
its function finds nothing on the stack at the second call. -/
theorem void_handed_on : buildTrees false [program] = (.ok ⟨symbols, [routine]⟩, []) ∧
    (∃ l, routine.locals[1]? = some l ∧ l.ty = .void) ∧
    .load { ty := .void } 1 ∈ routine.body.nodes ∧
    .call { ty := .void } 0 [.print { ty := .void } [.const { ty := .int } (.int 1)]] ∈
      routine.body.nodes ∧
    (Bytecode.assemble [routine] 0).map (fun p => p.functions.toList.map fun f =>
      Bytecode.scan (p.effect? f) f.code.toList 0) = .ok [none] := by
  refine ⟨buildTrees_program, ⟨_, rfl, rfl⟩, ?_, ?_, ?_⟩
  · simp [routine, Tree.nodes, Tree.nodesAll]
  · simp [routine, Tree.nodes, Tree.nodesAll]
  · cbv

end Hollow

end Codewright
