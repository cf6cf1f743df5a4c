import Codewright.Proofs.Compilation

/-!
# Respelled programs

Capitals in names do not matter. A program in which every name is spelled anew has the same table of
symbols, and building it goes step by step like building the first one: the states have the same
names in force, the same places noted, and the same locals apart from the names these keep for
listings. So both fail with reports of the same code at the same places, or both give the same
routines. Two programs that are the same once all their names are folded are compared through the
one in which a spelling is chosen for every folded name.

The walk over the steps also tells what a part of a function is refused for. Whether a function
returns is not asked until all of it is built, so no part of it is refused for that; and none is
refused through a fault of the compiler.
-/

namespace Codewright

open Source (Span)
open Surface (Expr Stmt)
open Steps

/-! ## Spellings -/

namespace Surface

mutual

/-- The expression with every name changed. -/
def Expr.mapNames (f : String → String) : Expr → Expr
  | .literal value span => .literal value span
  | .name written span => .name (f written) span
  | .call callee args span => .call (f callee) (Expr.mapNamesAll f args) span
  | .binary op left right span => .binary op (left.mapNames f) (right.mapNames f) span
  | .unary op operand span => .unary op (operand.mapNames f) span

def Expr.mapNamesAll (f : String → String) : List Expr → List Expr
  | [] => []
  | e :: rest => e.mapNames f :: Expr.mapNamesAll f rest

end

mutual

def Stmt.mapNames (f : String → String) : Stmt → Stmt
  | .block body span => .block (Stmt.mapNamesAll f body) span
  | .assign target value span => .assign (f target) (value.mapNames f) span
  | .ifThen condition yes span => .ifThen (condition.mapNames f) (yes.mapNames f) span
  | .ifElse condition yes no span =>
    .ifElse (condition.mapNames f) (yes.mapNames f) (no.mapNames f) span
  | .loop condition body span => .loop (condition.mapNames f) (body.mapNames f) span
  | .ret value span => .ret (value.map (Expr.mapNames f)) span
  | .expr value => .expr (value.mapNames f)

def Stmt.mapNamesAll (f : String → String) : List Stmt → List Stmt
  | [] => []
  | s :: rest => s.mapNames f :: Stmt.mapNamesAll f rest

end

def Import.mapNames (f : String → String) (i : Import) : Import := { i with name := f i.name }

def Constant.mapNames (f : String → String) (c : Constant) : Constant := { c with name := f c.name }

def Param.mapNames (f : String → String) (p : Param) : Param := { p with name := f p.name }

def Function.mapNames (f : String → String) (g : Function) : Function :=
  { g with
    name := f g.name
    params := g.params.map (Param.mapNames f)
    body := { g.body with body := Stmt.mapNamesAll f g.body.body } }

def Module.mapNames (f : String → String) (m : Module) : Module :=
  { m with
    name := f m.name
    imports := m.imports.map (Import.mapNames f)
    constants := m.constants.map (Constant.mapNames f)
    functions := m.functions.map (Function.mapNames f) }

theorem Expr.span_mapNames (f : String → String) (e : Expr) : (e.mapNames f).span = e.span := by
  cases e <;> simp only [mapNames, span]

theorem Expr.mapNamesAll_eq (f : String → String) (es : List Expr) :
    Expr.mapNamesAll f es = es.map (Expr.mapNames f) := by
  induction es with
  | nil => rw [mapNamesAll, List.map_nil]
  | cons e rest ih => rw [mapNamesAll, ih, List.map_cons]

theorem Stmt.span_mapNames (f : String → String) (s : Stmt) : (s.mapNames f).span = s.span := by
  cases s <;> simp only [mapNames, span, Expr.span_mapNames]

end Surface

/-- A name that is folded to this one, where there is any. -/
noncomputable def spelling : String → String := Function.invFun foldName

theorem foldName_spelling (name : String) : foldName (spelling (foldName name)) = foldName name :=
  Function.invFun_eq ⟨name, rfl⟩

/-- The expression with the chosen spelling of every name. -/
noncomputable abbrev Surface.Expr.respell (e : Expr) : Expr :=
  (e.mapNames foldName).mapNames spelling

/-- The function with the chosen spelling of every name. -/
noncomputable abbrev Surface.Function.respell (f : Function) : Function :=
  (f.mapNames foldName).mapNames spelling

/-- The module with the chosen spelling of every name. -/
noncomputable abbrev Surface.Module.respell (m : Module) : Module :=
  (m.mapNames foldName).mapNames spelling

/-! ## What is left when the wording is put aside -/

/-- The level, the code and the places of a report. -/
def Diagnostic.gist (d : Diagnostic) : Level × Option Code × List (Span × Bool) :=
  (d.level, d.code, d.labels.map fun l => (l.span, l.primary))

/-- The code and the places of a report on an error. -/
def SymbolError.gist : SymbolError → Code × List (Span × Bool)
  | .moduleTwice _ second first | .nameTwice _ second first =>
    (.nameTaken, [(second, true), (first, false)])
  | .constantType _ _ _ span => (.wrongType, [(span, true)])
  | .unknownModule _ span => (.unknownModule, [(span, true)])

/-- The code of a report on operands. -/
def OperandFault.code : OperandFault → Code
  | .tooFew .. => .tooFewArguments
  | .tooMany .. => .tooManyArguments
  | .wrongType .. => .wrongType
  | .typesDiffer .. => .operandTypesDiffer

/-- The code and the place of a report on an error. -/
def SemanticError.gist : SemanticError → Code × Span
  | .notCollected _ span | .noIntrinsic _ span | .noOperands _ span => (.internalFault, span)
  | .parameterShadowsConstant _ span | .parameterTwice _ span => (.nameTaken, span)
  | .returnNotGuaranteed _ _ span => (.returnNotGuaranteed, span)
  | .valueFromVoid span | .missingValue _ span | .wrongType _ _ span | .retyped _ _ _ span
  | .nothingAssigned _ _ span | .functionAsValue _ span => (.wrongType, span)
  | .constantAssigned _ span => (.assignedConstant, span)
  | .nameNotFound _ span => (.nameNotFound, span)
  | .tooFewArguments _ _ _ span => (.tooFewArguments, span)
  | .tooManyArguments _ _ _ span => (.tooManyArguments, span)
  | .operands _ fault span => (fault.code, span)

/-- Where a report on a missing main function points besides the entry module. -/
def MainError.gist : MainError → List (Span × Bool)
  | .takesParameters _ span => [(span, false)]
  | .nothingToCompile | .missing _ => []

theorem SymbolError.gist_report (e : SymbolError) :
    e.report.gist = (.error, some e.gist.1, e.gist.2) := by
  cases e <;> rfl

theorem SemanticError.gist_report (e : SemanticError) :
    e.report.gist = (.error, some e.gist.1, [(e.gist.2, true)]) := by
  cases e with
  | operands op fault span => cases fault <;> rfl
  | _ => rfl

theorem MainError.gist_report (entry : Option Span) (e : MainError) :
    (e.report entry).gist = (.error, some .noMain, entry.toList.map (·, true) ++ e.gist) := by
  cases e <;> cases entry <;> rfl

/-- The reports on the two errors differ in their wording only. -/
def SymbolError.Alike (e e' : SymbolError) : Prop := e.report.gist = e'.report.gist

/-- The reports on the two errors differ in their wording only. -/
def SemanticError.Alike (e e' : SemanticError) : Prop := e.report.gist = e'.report.gist

/-- The reports on the two errors differ in their wording only. -/
def MainError.Alike (e e' : MainError) : Prop :=
  ∀ entry, (e.report entry).gist = (e'.report entry).gist

theorem SymbolError.alike {e e' : SymbolError} (h : e.gist = e'.gist) : e.Alike e' := by
  rw [Alike, gist_report, gist_report, h]

theorem SemanticError.alike {e e' : SemanticError} (h : e.gist = e'.gist) : e.Alike e' := by
  rw [Alike, gist_report, gist_report, h]

theorem MainError.alike {e e' : MainError} (h : e.gist = e'.gist) : e.Alike e' := by
  intro entry
  rw [gist_report, gist_report, h]

/-- An error that is found in a parameter, a statement or an expression. -/
def SemanticError.OfPart : SemanticError → Prop
  | .notCollected _ _ | .noIntrinsic _ _ | .noOperands _ _ | .returnNotGuaranteed _ _ _ => False
  | _ => True

def Local.unnamed (l : Local) : Local := { l with name := "" }

/-- The routine without the names of its locals. -/
def Routine.unnamed (r : Routine) : Routine := { r with locals := r.locals.map Local.unnamed }

/-- The routines differ in the names of their locals only. -/
def Routine.Alike (r r' : Routine) : Prop := r.unnamed = r'.unnamed

theorem Routine.forall₂_alike {rs rs' : List Routine} :
    List.Forall₂ Alike rs rs' ↔ rs.map unnamed = rs'.map unnamed := by
  rw [← List.forall₂_eq_eq_eq, List.forall₂_map_left_iff, List.forall₂_map_right_iff]
  rfl

/-! ## Building -/

namespace Build

/-- The states differ in the names of the locals only; what is noted in them is related by `K`. -/
structure State.Alike (K : List Span → List Span → Prop) (s t : State) : Prop where
  locals : s.locals.map Local.unnamed = t.locals.map Local.unnamed
  scope : s.scope = t.scope
  noted : K s.unreachable t.unreachable

/-- Two steps in a part of a function agree up to the names of the locals and the wording of
errors. -/
abbrev Agrees (K : List Span → List Span → Prop) {α β : Type} (R : α → β → Prop) (x : Step α)
    (y : Step β) : Prop :=
  Agree (fun e e' => e.OfPart ∧ e.Alike e') (State.Alike K) R x y

section

variable {K : List Span → List Span → Prop} {s t : State}

theorem State.Alike.size (h : s.Alike K t) : s.locals.size = t.locals.size := by
  simpa using congrArg Array.size h.locals

theorem State.Alike.localType (h : s.Alike K t) (x : LocalId) :
    s.locals[x]?.map (·.ty) = t.locals[x]?.map (·.ty) := by
  have hx := congrArg (fun ls : Locals => ls[x]?.map (·.ty)) h.locals
  simpa only [Array.getElem?_map, Option.map_map, Function.comp_def, Local.unnamed] using hx

theorem unnamed_modify {f : Local → Local} (hf : ∀ l, (f l).unnamed = f l.unnamed) (ls : Locals)
    (x : LocalId) : (ls.modify x f).map Local.unnamed = (ls.map Local.unnamed).modify x f := by
  apply Array.ext_getElem?
  intro i
  rw [Array.getElem?_map, Array.getElem?_modify, Array.getElem?_modify, Array.getElem?_map]
  by_cases hi : x = i
  · rw [if_pos hi, if_pos hi, Option.map_map, Option.map_map]
    exact congrArg (fun g => ls[i]?.map g) (funext hf)
  · rw [if_neg hi, if_neg hi]

theorem State.Alike.modify (h : s.Alike K t) (x : LocalId) (f : Local → Local)
    (hf : ∀ l, (f l).unnamed = f l.unnamed) : State.Alike K { s with locals := s.locals.modify x f }
        { t with locals := t.locals.modify x f } where
  locals := by rw [unnamed_modify hf, unnamed_modify hf, h.locals]
  scope := h.scope
  noted := h.noted

theorem agree_localType (x : LocalId) : Agrees K Eq (localType x) (localType x) := by
  refine Agree.get.bind fun s t hs => .pure ?_
  rw [hs.localType]

theorem agree_load (x : LocalId) : Agrees K Eq (load x) (load x) := by
  refine (agree_localType x).andThen fun ty => ?_
  exact Agree.andThen (.modify fun s t hs => hs.modify x _ fun _ => rfl) fun _ => .pure rfl

/-- A local is added on both sides under the same name of the block. -/
theorem agree_declareLocal (name : String) {l l' : Local} (h : l.unnamed = l'.unnamed) :
    Agrees K Eq (declareLocal name l) (declareLocal name l') := by
  refine .modifyGet fun s t hs => ⟨hs.size, ?_, ?_, hs.noted⟩
  · show (s.locals.push l).map Local.unnamed = (t.locals.push l').map Local.unnamed
    rw [Array.map_push, Array.map_push, hs.locals, h]
  · show s.scope.insert name s.locals.size = t.scope.insert name t.locals.size
    rw [hs.size, hs.scope]

theorem agree_inBlock {α β : Type} {R : α → β → Prop} {x : Step α} {y : Step β}
    (h : Agrees K R x y) : Agrees K R (inBlock x) (inBlock y) := by
  refine Agree.bind (.modify fun s t hs => ⟨hs.locals, ?_, hs.noted⟩) fun _ _ _ => ?_
  · rw [hs.scope]
  · refine h.bind fun a b hab => ?_
    refine Agree.bind (.modify fun s t hs => ⟨hs.locals, ?_, hs.noted⟩) fun _ _ _ => .pure hab
    rw [hs.scope]

end

variable (ctx : Context) {K : List Span → List Span → Prop}

theorem agree_declareParameter (p : Surface.Param) :
    Agrees K Eq (declareParameter ctx p)
        (declareParameter ctx ((p.mapNames foldName).mapNames spelling)) := by
  simp only [declareParameter, Surface.Param.mapNames, foldName_spelling]
  refine .guard Iff.rfl ⟨trivial, SemanticError.alike rfl⟩ (Agree.get.bind fun s t hs => ?_)
  refine .guard ?_ ⟨trivial, SemanticError.alike rfl⟩ ?_
  · rw [hs.scope]
  · refine Agree.andThen (agree_declareLocal _ ?_) fun _ => .pure rfl
    rfl

theorem agree_name {written written' : String} (h : foldName written = foldName written')
    (span : Span) : Agrees K Eq (name ctx written span) (name ctx written' span) := by
  unfold name
  dsimp only
  rw [h]
  cases ctx.symbols.resolveConstant? ctx.home (foldName written') with
  | some c => exact .pure rfl
  | none =>
    refine Agree.get.bind fun s t hs => ?_
    rw [hs.scope]
    split
    · exact agree_load _
    · split
      · exact .throw ⟨trivial, SemanticError.alike rfl⟩
      · exact .throw ⟨trivial, SemanticError.alike rfl⟩

/-- Operands that pass the check are there: only `print` and `failFast` do without, and these are
told apart. -/
theorem agree_apply (op : Intrinsic) (args : List Tree) (spans : List Span) (span : Span) :
    Agrees K Eq (apply op args spans span) (apply op args spans span) := by
  unfold apply
  split
  · exact .throw ⟨trivial, SemanticError.alike rfl⟩
  · exact .throw ⟨trivial, SemanticError.alike rfl⟩
  · next ty hcheck =>
    split
    · exact .pure rfl
    · exact .pure rfl
    · exact .pure rfl
    · exact .pure rfl
    · next hprint hfail =>
      obtain ⟨hleast, -⟩ := Signature.check_eq_ok.mp hcheck
      cases op <;> first | exact absurd hleast (by decide) | contradiction

mutual

theorem agree_expr : (e : Expr) →
    Agrees K Eq (expr ctx e) (expr ctx e.respell)
  | .literal value span => by
    simp only [Expr.respell, Expr.mapNames, expr]
    exact .pure rfl
  | .name written span => by
    simp only [Expr.respell, Expr.mapNames, expr]
    exact agree_name ctx (foldName_spelling written).symm span
  | .binary op left right span => by
    simp only [Expr.respell, Expr.mapNames, expr, operator_binary, pure_bind, Expr.span_mapNames]
    refine (agree_expr left).andThen fun l => (agree_expr right).andThen fun r => ?_
    exact agree_apply _ _ _ _
  | .unary op operand span => by
    simp only [Expr.respell, Expr.mapNames, expr, operator_unary, pure_bind, Expr.span_mapNames]
    exact (agree_expr operand).andThen fun t => agree_apply _ _ _ _
  | .call callee args span => by
    simp only [Expr.respell, Expr.mapNames, expr, foldName_spelling, Expr.mapNamesAll_eq,
      List.map_map, Function.comp_def, Expr.span_mapNames, List.length_map, List.getElem?_map]
    cases Intrinsic.ofName? (foldName callee) with
    | some op => exact (agree_operands args).andThen fun es => agree_apply _ _ _ _
    | none =>
      cases ctx.symbols.resolveFunction? ctx.home (foldName callee) with
      | none => exact .throw ⟨trivial, SemanticError.alike rfl⟩
      | some f =>
        refine .guard Iff.rfl ⟨trivial, SemanticError.alike rfl⟩ ?_
        -- the first argument too many is the same one on both sides, and is reported at its place
        cases args[f.params.length]? with
        | none => exact (agree_arguments args f.params).andThen fun es => .pure rfl
        | some extra =>
          refine .throw ⟨trivial, SemanticError.alike ?_⟩
          simp only [SemanticError.gist, Expr.span_mapNames]

theorem agree_operands : (es : List Expr) →
    Agrees K Eq (operands ctx es) (operands ctx (es.map Expr.respell))
  | [] => by
    simp only [List.map_nil, operands]
    exact .pure rfl
  | e :: rest => by
    simp only [List.map_cons, operands]
    exact (agree_expr e).andThen fun t => (agree_operands rest).andThen fun ts => .pure rfl

theorem agree_arguments : (es : List Expr) → (types : List Ty) →
    Agrees K Eq (arguments ctx es types) (arguments ctx (es.map Expr.respell) types)
  | [], types => by
    simp only [List.map_nil, arguments]
    exact .pure rfl
  | e :: rest, [] => by
    simp only [List.map_cons, arguments]
    exact .pure rfl
  | e :: rest, expected :: types => by
    simp only [List.map_cons, arguments, Expr.span_mapNames]
    refine (agree_expr e).andThen fun t => .guard Iff.rfl ⟨trivial, SemanticError.alike rfl⟩ ?_
    exact (agree_arguments rest types).andThen fun ts => .pure rfl

end

theorem agree_condition (e : Expr) : Agrees K Eq (condition ctx e) (condition ctx e.respell) := by
  refine (agree_expr ctx e).andThen fun t => ?_
  rw [Expr.span_mapNames, Expr.span_mapNames]
  exact .guard Iff.rfl ⟨trivial, SemanticError.alike rfl⟩ (.pure rfl)

theorem agree_target (written written' name : String) (ty : Ty) (span : Span) :
    Agrees K Eq (target written name ty span) (target written' name ty span) := by
  refine Agree.get.bind fun s t hs => ?_
  rw [hs.scope]
  cases t.scope.lookup? name with
  | none => exact agree_declareLocal name rfl
  | some x =>
    refine (agree_localType x).andThen fun expected => ?_
    exact .guard Iff.rfl ⟨trivial, SemanticError.alike rfl⟩ (.pure rfl)

/-- A node is made to store, and the counts follow on both sides. -/
theorem State.Alike.setStore {s t : State} (h : s.Alike K t) (tree : Tree) (x : LocalId) :
    State.Alike K { s with locals := (tree.setStore (some x) s.locals).2 }
      { t with locals := (tree.setStore (some x) t.locals).2 } := by
  have hcount {s t : State} (h : s.Alike K t) :=
    h.modify x (fun l => { l with assignments := l.assignments + 1 }) fun _ => rfl
  unfold Tree.setStore
  cases tree.store with
  | none => exact hcount h
  | some old =>
    exact hcount (h.modify old (fun l => { l with assignments := l.assignments - 1 }) fun _ => rfl)

theorem agree_assignment (written : String) (value : Expr) (span : Span) :
    Agrees K Eq (assignment ctx written value span)
      (assignment ctx (spelling (foldName written)) value.respell span) := by
  simp only [assignment, foldName_spelling, Expr.span_mapNames]
  refine .guard Iff.rfl ⟨trivial, SemanticError.alike rfl⟩
    (.guard Iff.rfl ⟨trivial, SemanticError.alike rfl⟩ ?_)
  refine (agree_expr ctx value).andThen fun t => ?_
  refine .require Iff.rfl ⟨trivial, SemanticError.alike rfl⟩ ?_
  refine (agree_target written _ _ _ _).andThen fun x => ?_
  exact .modifyGet fun s s' hs => ⟨rfl, hs.setStore t x⟩

theorem agree_ret (value : Option Expr) (span : Span) : Agrees K Eq (ret ctx value span)
    (ret ctx ((value.map (Expr.mapNames foldName)).map (Expr.mapNames spelling)) span) := by
  refine (agree_localType 0).andThen fun expected => ?_
  cases value with
  | none => exact .guard Iff.rfl ⟨trivial, SemanticError.alike rfl⟩ (.pure rfl)
  | some e =>
    refine (agree_expr ctx e).andThen fun t => ?_
    rw [Expr.span_mapNames, Expr.span_mapNames]
    exact .guard Iff.rfl ⟨trivial, SemanticError.alike rfl⟩
      (.guard Iff.rfl ⟨trivial, SemanticError.alike rfl⟩ (.pure rfl))

theorem agree_noteUnreachable (hK : ∀ span u v, K u v → K (span :: u) (span :: v)) (span : Span) :
    Agrees K Eq (noteUnreachable span) (noteUnreachable span) :=
  .modify fun _ _ hs => ⟨hs.locals, hs.scope, hK _ _ _ hs.noted⟩

mutual

theorem agree_statement (hK : ∀ span u v, K u v → K (span :: u) (span :: v)) : (s : Stmt) →
    Agrees K Eq (statement ctx s) (statement ctx ((s.mapNames foldName).mapNames spelling))
  | .block body span => by
    simp only [Stmt.mapNames, statement]
    exact agree_inBlock (agree_statements hK body [] false false)
  | .assign written value span => by
    simp only [Stmt.mapNames, statement]
    exact (agree_assignment ctx written value span).andThen fun t => .pure rfl
  | .ifThen c yes span | .loop c yes span => by
    simp only [Stmt.mapNames, statement]
    refine (agree_condition ctx c).andThen fun t => ?_
    exact (agree_inBlock (agree_statement hK yes)).andThen fun y => .pure rfl
  | .ifElse c yes no span => by
    simp only [Stmt.mapNames, statement]
    refine (agree_condition ctx c).andThen fun t => ?_
    refine (agree_inBlock (agree_statement hK yes)).andThen fun y => ?_
    exact (agree_inBlock (agree_statement hK no)).andThen fun n => .pure rfl
  | .ret value span => by
    simp only [Stmt.mapNames, statement]
    exact (agree_ret ctx value span).andThen fun t => .pure rfl
  | .expr e => by
    simp only [Stmt.mapNames, statement]
    exact (agree_expr ctx e).andThen fun t => .pure rfl

theorem agree_statements (hK : ∀ span u v, K u v → K (span :: u) (span :: v)) :
    (body : List Stmt) → (done : List Tree) → (returns noted : Bool) →
    Agrees K Eq (statements ctx done returns noted body)
      (statements ctx done returns noted
        (Stmt.mapNamesAll spelling (Stmt.mapNamesAll foldName body)))
  | [], done, returns, noted => by
    simp only [Stmt.mapNamesAll, statements]
    exact .pure rfl
  | s :: rest, done, returns, noted => by
    have hgo : Agrees K Eq
        (statement ctx s >>= fun (t, returns') =>
          statements ctx (t :: done) (returns || returns') (noted || returns) rest)
        (statement ctx ((s.mapNames foldName).mapNames spelling) >>= fun (t, returns') =>
          statements ctx (t :: done) (returns || returns') (noted || returns)
            (Stmt.mapNamesAll spelling (Stmt.mapNamesAll foldName rest))) := by
      exact (agree_statement hK s).andThen fun p => agree_statements hK rest _ _ _
    -- the note, if one is made, is about the same place
    simp only [Stmt.mapNamesAll, statements, Stmt.span_mapNames]
    exact .ite Iff.rfl ((agree_noteUnreachable hK _).andThen fun _ => hgo) hgo

end

/-- A function is refused for one of its parts, or for a missing return. -/
theorem agree_routine (symbol : FunctionSymbol) (f : Surface.Function) :
    Agree (fun e e' => (e.OfPart ∨ e = .returnNotGuaranteed f.name symbol.result f.body.span) ∧
      e.Alike e') (State.Alike Eq) Routine.Alike (routine ctx symbol f)
        (routine ctx symbol f.respell) := by
  simp only [routine, Surface.Function.mapNames, List.map_map, List.length_map]
  refine (Agree.forM (agree_declareParameter ctx)).imp (.imp_left .inl) |>.andThen fun _ => ?_
  refine (agree_inBlock (agree_statements ctx (fun _ _ _ huv => by rw [huv]) f.body.body []
    false false)).imp (.imp_left .inl) |>.andThen fun p => ?_
  refine .guard Iff.rfl ⟨.inr rfl, SemanticError.alike rfl⟩ (Agree.get.bind fun s t hs => .pure ?_)
  simp only [Routine.Alike, Routine.unnamed, hs.locals]

end Build

theorem fullName_spelling (m n : String) :
    fullName (spelling (foldName m)) (spelling (foldName n)) = fullName m n := by
  rw [fullName, foldName_spelling, foldName_spelling, fullName]

theorem buildRoutine_respell (symbols : Symbols) (m : String) (f : Surface.Function) :
    let outcome' := buildRoutine symbols (spelling (foldName m)) f.respell
    Matched SemanticError.Alike Routine.Alike (buildRoutine symbols m f).1 outcome'.1 ∧
      (buildRoutine symbols m f).2 = outcome'.2 := by
  have hname : f.respell.name = spelling (foldName f.name) := rfl
  unfold buildRoutine EStateM.run
  dsimp only
  -- both look up the same full name, so they have the same entry and start with the same result
  -- type
  rw [hname, fullName_spelling, foldName_spelling]
  cases symbols.function? (fullName m f.name) with
  | none => exact ⟨.error (SemanticError.alike rfl), rfl⟩
  | some symbol =>
    dsimp only
    have hrun := Build.agree_routine ⟨symbols, foldName m⟩ symbol f
      { locals := #[{ name := "$result", ty := symbol.result }] } _ ⟨rfl, rfl, rfl⟩
    generalize Build.routine ⟨symbols, foldName m⟩ symbol f _ = outcome at hrun ⊢
    generalize Build.routine ⟨symbols, foldName m⟩ symbol _ _ = outcome' at hrun ⊢
    cases hrun with
    | ok hr hs => exact ⟨.ok hr, congrArg List.reverse hs.noted⟩
    | error he hs => exact ⟨.error he.2, congrArg List.reverse hs.noted⟩

theorem buildRoutines_go_respell (symbols : Symbols) (rest : List (String × Surface.Function))
    {done done' : List Routine} (hdone : List.Forall₂ Routine.Alike done done')
    (noted : List Span) : let outcome := buildRoutines.go symbols done noted rest
    let outcome' := buildRoutines.go symbols done' noted
      (rest.map fun p => (spelling (foldName p.1), p.2.respell))
    Matched SemanticError.Alike (List.Forall₂ Routine.Alike) outcome.1 outcome'.1 ∧
      outcome.2 = outcome'.2 := by
  induction rest generalizing done done' noted with
  | nil => exact ⟨.ok (List.rel_reverse hdone), rfl⟩
  | cons p rest ih =>
    obtain ⟨m, f⟩ := p
    obtain ⟨hanswer, hspans⟩ := buildRoutine_respell symbols m f
    simp only [List.map_cons]
    rw [buildRoutines.go, buildRoutines.go]
    generalize buildRoutine symbols m f = outcome at hanswer hspans ⊢
    generalize buildRoutine symbols (spelling (foldName m)) _ = outcome' at hanswer hspans ⊢
    obtain ⟨answer, spans⟩ := outcome
    obtain ⟨answer', spans'⟩ := outcome'
    obtain rfl : spans = spans' := hspans
    cases hanswer with
    | error he => exact ⟨.error he, rfl⟩
    | ok hr => exact ih (.cons hr hdone) _

/-! ## Collecting -/

namespace Symbols

theorem agree_addModule (m : Surface.Module) :
    Agree SymbolError.Alike Eq Eq (addModule m) (addModule m.respell) := by
  simp only [addModule, Surface.Module.mapNames, Surface.Import.mapNames, foldName_spelling,
    List.map_map, Function.comp_def]
  refine Agree.get.andThen fun s => ?_
  cases s.module? (foldName m.name) with
  | some first => exact .throw (SymbolError.alike rfl)
  | none => exact .modify fun _ _ hs => by rw [hs]

theorem agree_checkFree (full written written' : String) (span : Span) :
    Agree SymbolError.Alike Eq Eq (checkFree full written span) (checkFree full written' span) := by
  refine Agree.get.andThen fun s => ?_
  cases s.declaredAt? full with
  | some first => exact .throw (SymbolError.alike rfl)
  | none => exact .pure rfl

theorem agree_declareConstant (m : String) (c : Surface.Constant) :
    Agree SymbolError.Alike Eq Eq (declareConstant m c)
      (declareConstant (spelling (foldName m)) ((c.mapNames foldName).mapNames spelling)) := by
  simp only [declareConstant, Surface.Constant.mapNames, fullName_spelling]
  refine (agree_checkFree _ _ _ _).andThen fun _ => .guard Iff.rfl (SymbolError.alike rfl) ?_
  exact .modify fun _ _ hs => by rw [hs]

theorem agree_declareFunction (m : String) (f : Surface.Function) :
    Agree SymbolError.Alike Eq Eq (declareFunction m f)
      (declareFunction (spelling (foldName m)) f.respell) := by
  simp only [declareFunction, Surface.Function.mapNames, Surface.Param.mapNames, fullName_spelling,
    foldName_spelling, List.map_map, Function.comp_def]
  refine (agree_checkFree _ _ _ _).andThen fun _ => Agree.get.andThen fun s => ?_
  refine Agree.andThen (.modify fun _ _ hs => by rw [hs]) fun _ => ?_
  exact Agree.andThen (.modify fun _ _ hs => by rw [hs]) fun _ => .pure rfl

theorem agree_declareAll (ms : List Surface.Module) :
    Agree SymbolError.Alike Eq Eq (declareAll ms) (declareAll (ms.map Surface.Module.respell)) := by
  refine Agree.andThen (.forM agree_addModule) fun _ => ?_
  refine Agree.andThen (.forM fun m => ?_) fun _ => .forM fun m => ?_
  · simp only [Surface.Module.mapNames, List.map_map]
    exact .forM (agree_declareConstant m.name)
  · simp only [Surface.Module.mapNames, List.map_map]
    exact .forM fun f => (agree_declareFunction m.name f).andThen fun _ => .pure rfl

theorem validateImports_respell (s : Symbols) (ms : List Surface.Module) :
    Matched SymbolError.Alike Eq (s.validateImports ms)
      (s.validateImports (ms.map Surface.Module.respell)) := by
  refine .forM fun m => ?_
  simp only [Surface.Module.mapNames, List.map_map]
  refine .forM fun i => ?_
  simp only [Function.comp_apply, Surface.Import.mapNames, foldName_spelling]
  split
  · exact .ok rfl
  · exact .error (SymbolError.alike rfl)

/-- The program spelled anew has the same table of symbols, or none either. -/
theorem collect_respell (ms : List Surface.Module) :
    Matched SymbolError.Alike Eq (collect ms) (collect (ms.map Surface.Module.respell)) := by
  unfold collect EStateM.run
  have hrun := agree_declareAll ms empty empty rfl
  generalize declareAll ms empty = outcome at hrun ⊢
  generalize declareAll _ empty = outcome' at hrun ⊢
  cases hrun with
  | error he => exact .error he
  | @ok _ _ s t _ hs =>
    -- one table from here on
    obtain rfl : s = t := hs
    have hvalid := validateImports_respell s ms
    dsimp only
    generalize s.validateImports ms = valid at hvalid ⊢
    generalize s.validateImports _ = valid' at hvalid ⊢
    cases hvalid with
    | error he => exact .error he
    | ok => exact .ok rfl

end Symbols

/-! ## The routines of a program -/

theorem functionsOf_respell (ms : List Surface.Module) :
    functionsOf (ms.map Surface.Module.respell) =
      (functionsOf ms).map fun p => (spelling (foldName p.1), p.2.respell) := by
  simp [functionsOf, List.map_flatMap, List.flatMap_map, Surface.Module.mapNames, Function.comp_def]

/-- The program spelled anew is built into the same routines, locals' names apart. -/
theorem buildRoutines_respell (symbols : Symbols) (ms : List Surface.Module) :
    let outcome' := buildRoutines symbols (ms.map Surface.Module.respell)
    Matched SemanticError.Alike (List.Forall₂ Routine.Alike) (buildRoutines symbols ms).1
        outcome'.1 ∧ (buildRoutines symbols ms).2 = outcome'.2 := by
  unfold buildRoutines
  rw [functionsOf_respell]
  exact buildRoutines_go_respell symbols _ .nil []

/-- The program spelled anew starts with the same function. -/
theorem findMain_respell (entry : Option String) (ms : List Surface.Module) (s : Symbols) :
    Matched MainError.Alike Eq (findMain entry ms s)
      (findMain (entry.map (spelling ∘ foldName)) (ms.map Surface.Module.respell) s) := by
  have hname : ((entry.map (spelling ∘ foldName)).orElse fun _ =>
      (ms.map Surface.Module.respell).head?.map (·.name)) =
      (entry.orElse fun _ => ms.head?.map (·.name)).map (spelling ∘ foldName) := by
    cases entry <;> cases ms <;> rfl
  unfold findMain
  rw [hname]
  cases entry.orElse fun _ => ms.head?.map (·.name) with
  | none => exact .error (MainError.alike rfl)
  | some m =>
    have hfull : fullName (spelling (foldName m)) "main" = fullName m "main" := by
      rw [fullName, foldName_spelling, fullName]
    dsimp only [Option.map_some, Function.comp_apply]
    rw [hfull]
    cases s.function? (fullName m "main") with
    | none => exact .error (MainError.alike rfl)
    | some f =>
      dsimp only
      split
      · exact .ok rfl
      · exact .error (MainError.alike rfl)

/-! ## Programs -/

/-- Capitals do not matter. Of two programs that are the same once all their names are folded, both
have the same table of symbols, or both have none for reasons of the same code at the same places.
With the table, both are built into routines that differ in the names of their locals only, or both
are refused for reasons of the same code at the same places; and the same statements are noted as
unreachable. The function to start with is the same, however the name of its module is spelled. -/
theorem names_case_insensitive (ms ms' : List Surface.Module)
    (h : ms.map (Surface.Module.mapNames foldName) = ms'.map (Surface.Module.mapNames foldName)) :
    Matched SymbolError.Alike Eq (Symbols.collect ms) (Symbols.collect ms') ∧
    ∀ s, Symbols.collect ms = .ok s →
      Matched SemanticError.Alike (List.Forall₂ Routine.Alike) (buildRoutines s ms).1
        (buildRoutines s ms').1 ∧
      (buildRoutines s ms).2 = (buildRoutines s ms').2 ∧
      ∀ entry entry' : Option String, entry.map foldName = entry'.map foldName →
        Matched MainError.Alike Eq (findMain entry ms s) (findMain entry' ms' s) := by
  have hms : ms.map Surface.Module.respell = ms'.map Surface.Module.respell := by
    have h := congrArg (List.map (Surface.Module.mapNames spelling)) h
    rwa [List.map_map, List.map_map] at h
  have hcollect := Symbols.collect_respell ms
  rw [hms] at hcollect
  refine ⟨hcollect.join (fun _ _ _ h h' => h.trans h'.symm) (fun _ _ _ h h' => h.trans h'.symm)
    (Symbols.collect_respell ms'), fun s _ => ?_⟩
  obtain ⟨hroutines, hnoted⟩ := buildRoutines_respell s ms
  obtain ⟨hroutines', hnoted'⟩ := buildRoutines_respell s ms'
  rw [hms] at hroutines hnoted
  refine ⟨hroutines.join (fun _ _ _ h h' => h.trans h'.symm) (fun _ _ _ h h' => ?_) hroutines',
    hnoted.trans hnoted'.symm, fun entry entry' hentry => ?_⟩
  · rw [Routine.forall₂_alike] at h h' ⊢
    exact h.trans h'.symm
  · have hmain := findMain_respell entry ms s
    have hentry : entry.map (spelling ∘ foldName) = entry'.map (spelling ∘ foldName) := by
      simpa only [Option.map_map] using congrArg (Option.map spelling) hentry
    rw [hms, hentry] at hmain
    exact hmain.join (fun _ _ _ h h' entry => (h entry).trans (h' entry).symm)
      (fun _ _ _ h h' => h.trans h'.symm) (findMain_respell entry' ms' s)

namespace Descending

def capitals : Surface.Module := program.mapNames String.toUpper

theorem capitals_respelled : [program].map (Surface.Module.mapNames foldName) =
    [capitals].map (Surface.Module.mapNames foldName) := by
  have hmain : foldName (String.toUpper "main") = foldName "main" := by decide +kernel
  have hsum : foldName (String.toUpper "sum") = foldName "sum" := by decide +kernel
  have hn : foldName (String.toUpper "n") = foldName "n" := by decide +kernel
  have hs : foldName (String.toUpper "s") = foldName "s" := by decide +kernel
  simp [capitals, program, function, main, Surface.Module.mapNames, Surface.Function.mapNames,
    Surface.Param.mapNames, Stmt.mapNames, Stmt.mapNamesAll, Expr.mapNames,
    Expr.mapNamesAll, hmain, hsum, hn, hs]

end Descending

/-- A program and the same in capitals: the second starts at the same function and is built into the
same routines, locals' names apart. -/
theorem names_case_insensitive_capitals :
    Descending.capitals.name = "MAIN" ∧
    Symbols.collect [Descending.capitals] = .ok Descending.programSymbols ∧
    (∃ rs, buildRoutines Descending.programSymbols [Descending.capitals] = (.ok rs, []) ∧
      List.Forall₂ Routine.Alike [Descending.routine, Descending.mainRoutine] rs) ∧
    findMain (some "MAIN") [Descending.capitals] Descending.programSymbols = .ok 1 := by
  obtain ⟨hcollect, hrest⟩ :=
    names_case_insensitive [Descending.program] [Descending.capitals] Descending.capitals_respelled
  obtain ⟨hroutines, hnoted, hmain⟩ := hrest _ Descending.collect_program
  specialize hmain (some "main") (some "MAIN") (by decide +kernel)
  rw [Descending.collect_program] at hcollect
  rw [Descending.buildRoutines_program] at hroutines hnoted
  rw [show findMain (some "main") _ _ = .ok 1 from Descending.findMain_program] at hmain
  refine ⟨by decide +kernel, ?_, ?_, ?_⟩
  · generalize Symbols.collect [Descending.capitals] = collected at hcollect ⊢
    cases hcollect with
    | ok h => rw [h]
  · generalize buildRoutines Descending.programSymbols [Descending.capitals] =
      built at hroutines hnoted ⊢
    obtain ⟨answer, noted⟩ := built
    cases hroutines with
    | @ok _ rs h => exact ⟨rs, congrArg (Prod.mk _) hnoted.symm, h⟩
  · generalize findMain (some "MAIN") [Descending.capitals] Descending.programSymbols =
      found at hmain ⊢
    cases hmain with
    | ok h => rw [h]

end Codewright
