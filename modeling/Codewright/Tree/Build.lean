import Codewright.Scope
import Codewright.Symbols
import Codewright.Tree

/-!
# Building trees

The body of a declared function becomes a tree, and on the way names, types and the flow of control
are checked. The first error ends the work; statements that control cannot reach are only noted.

A local comes into being with the first assignment to its name, which fixes its type, and is known
until the end of the block. Branches and loop bodies are blocks of their own. A block returns for
sure if one of its statements does; a conditional does if both branches do, and a loop never does.
-/

namespace Codewright

open Source (Span)

/-! ## Errors -/

inductive SemanticError where
  | notCollected (fullName : String) (span : Span)
  | parameterShadowsConstant (name : String) (span : Span)
  | parameterTwice (name : String) (span : Span)
  | returnNotGuaranteed (name : String) (result : Ty) (span : Span)
  | valueFromVoid (span : Span)
  | missingValue (expected : Ty) (span : Span)
  | wrongType (expected found : Ty) (span : Span)
  /-- Another type than at the first assignment to the local. -/
  | retyped (target : String) (expected found : Ty) (span : Span)
  | constantAssigned (name : String) (span : Span)
  | nothingAssigned (target : String) (ty : Ty) (span : Span)
  | nameNotFound (name : String) (span : Span)
  | functionAsValue (name : String) (span : Span)
  | tooFewArguments (callee : String) (expected found : Nat) (span : Span)
  | tooManyArguments (callee : String) (expected found : Nat) (span : Span)
  | operands (op : Intrinsic) (fault : OperandFault) (span : Span)
  | noIntrinsic (operator : String) (span : Span)
  | noOperands (op : Intrinsic) (span : Span)
  deriving DecidableEq

/-- The report on operands that do not suit an intrinsic. -/
def OperandFault.report (fault : OperandFault) (op : Intrinsic) (span : Span) : Diagnostic :=
  match fault with
  | .tooFew expected found =>
    (Diagnostic.error .tooFewArguments
      ("`" ++ op.name ++ "` expects at least " ++ toString expected ++ " arguments, found "
        ++ toString found)).label span "missing arguments"
  | .tooMany expected found =>
    (Diagnostic.error .tooManyArguments
      ("`" ++ op.name ++ "` expects at most " ++ toString expected ++ " arguments, found "
        ++ toString found)).label span "too many arguments"
  | .wrongType _ found expected =>
    (Diagnostic.error .wrongType
      ("`" ++ op.name ++ "` expects " ++ expected ++ ", found " ++ found.text)).label
      span ("this is " ++ found.text)
  | .typesDiffer first other =>
    (Diagnostic.error .operandTypesDiffer
      ("operands of `" ++ op.name ++ "` must have the same type")).label
      span ("found " ++ first.text ++ " and " ++ other.text)

namespace SemanticError

/-- The report that a value has another type than expected. -/
def wrongTypeReport (expected found : Ty) (span : Span) : Diagnostic :=
  (Diagnostic.error .wrongType ("expected " ++ expected.text ++ ", found " ++ found.text)).label
    span ("this is " ++ found.text)

/-- The report on a number of arguments other than the number of parameters. -/
def argumentsReport (code : Code) (callee : String) (expected found : Nat) : Diagnostic :=
  Diagnostic.error code
    ("`" ++ callee ++ "` expects " ++ toString expected ++ " arguments, found " ++ toString found)

def report : SemanticError → Diagnostic
  | .notCollected fullName span =>
    (Diagnostic.error .internalFault ("function `" ++ fullName ++ "` was not collected")).label
      span "here"
  | .parameterShadowsConstant name span =>
    (Diagnostic.error .nameTaken ("parameter `" ++ name ++ "` shadows a constant")).label
      span "constant with this name is visible here"
  | .parameterTwice name span =>
    (Diagnostic.error .nameTaken ("parameter `" ++ name ++ "` is declared twice")).label
      span "duplicate parameter"
  | .returnNotGuaranteed name result span =>
    ((Diagnostic.error .returnNotGuaranteed
      ("function `" ++ name ++ "` may end without returning a value")).label
      span "not every path reaches a `return`").withHelp
      ("add a `return` of type " ++ result.text ++ " at the end")
  | .valueFromVoid span =>
    (Diagnostic.error .wrongType "a Void function cannot return a value").label
      span "remove this value"
  | .missingValue expected span =>
    (Diagnostic.error .wrongType ("missing return value of type " ++ expected.text)).label
      span "returns nothing"
  | .wrongType expected found span => wrongTypeReport expected found span
  | .retyped target expected found span =>
    (wrongTypeReport expected found span).withNote
      ("`" ++ target ++ "` was first assigned a " ++ expected.text)
  | .constantAssigned name span =>
    (Diagnostic.error .assignedConstant ("cannot assign to constant `" ++ name ++ "`")).label
      span "constants are read-only"
  | .nothingAssigned target ty span =>
    (Diagnostic.error .wrongType
      ("cannot assign a " ++ ty.text ++ " value to `" ++ target ++ "`")).label
      span "this produces no value"
  | .nameNotFound name span =>
    (Diagnostic.error .nameNotFound ("name `" ++ name ++ "` not found")).label
      span "not a local, constant or function in scope"
  | .functionAsValue name span =>
    ((Diagnostic.error .wrongType ("function `" ++ name ++ "` used as a value")).label
      span "functions are not values").withHelp ("call it: `" ++ name ++ "(...)`")
  | .tooFewArguments callee expected found span =>
    (argumentsReport .tooFewArguments callee expected found).label span "missing arguments"
  | .tooManyArguments callee expected found span =>
    (argumentsReport .tooManyArguments callee expected found).label span "unexpected argument"
  | .operands op fault span => fault.report op span
  | .noIntrinsic operator span =>
    (Diagnostic.error .internalFault ("operator `" ++ operator ++ "` has no intrinsic")).label
      span "here"
  | .noOperands op span =>
    (Diagnostic.error .internalFault ("intrinsic `" ++ op.name ++ "` has no operands")).label
      span "here"

end SemanticError

/-- The report on a statement that control cannot reach. -/
def unreachableReport (span : Span) : Diagnostic :=
  (Diagnostic.warning .unreachable "unreachable code").label
    span "this statement is never executed"

/-! ## The work on one function -/

namespace Build

/-- Where the function stands: the symbols of the program and the name of its module in small
letters. -/
structure Context where
  symbols : Symbols
  home : String

/-- What has been built so far: the locals, the names in force, and the places of the statements
that control cannot reach, the last one first. -/
structure State where
  locals : Locals
  scope : Scope := .empty
  unreachable : List Span := []

/-- A step of the work; what was noted before an error is kept. -/
abbrev Step := EStateM SemanticError State

def localType (x : LocalId) : Step Ty := do
  return ((← get).locals[x]?.map (·.ty)).getD .noType

def inBlock {α : Type} (step : Step α) : Step α := do
  modify fun s => { s with scope := s.scope.push }
  let result ← step
  modify fun s => { s with scope := s.scope.pop }
  return result

def declareLocal (name : String) (l : Local) : Step LocalId :=
  modifyGet fun ⟨locals, scope, unreachable⟩ =>
    let x := locals.size
    (x, { locals := locals.push l, scope := scope.insert name x, unreachable })

def declareParameter (ctx : Context) (p : Surface.Param) : Step Unit := do
  let name := foldName p.name
  if (ctx.symbols.resolveConstant? ctx.home name).isSome then
    throw (.parameterShadowsConstant p.name p.span)
  if (← get).scope.declares name then throw (.parameterTwice p.name p.span)
  let _ ← declareLocal name { name := p.name, ty := .ofName p.type, isParameter := true }

/-- A load of a local, counted as a use. -/
def load (x : LocalId) : Step Tree := do
  let ty ← localType x
  modify fun s => { s with locals := s.locals.modify x fun l => { l with uses := l.uses + 1 } }
  return .load { ty } x

/-- What a name means as a value: a constant, else a local. -/
def name (ctx : Context) (written : String) (span : Span) : Step Tree := do
  let folded := foldName written
  match ctx.symbols.resolveConstant? ctx.home folded with
  | some c => return .ofValue c.value
  | none =>
    let scope := (← get).scope
    match (if folded.contains '.' then none else scope.lookup? folded) with
    | some x => load x
    | none =>
      if (ctx.symbols.resolveFunction? ctx.home folded).isSome
          || (Intrinsic.ofName? folded).isSome then
        throw (.functionAsValue written span)
      else throw (.nameNotFound written span)

/-- The intrinsic of an operator, looked up by name. -/
def operator (name : String) (span : Span) : Step Intrinsic :=
  match Intrinsic.ofName? name with
  | some op => return op
  | none => throw (.noIntrinsic name span)

def apply (op : Intrinsic) (args : List Tree) (spans : List Span) (span : Span) : Step Tree :=
  match op.check (args.map (·.ty)) with
  | .error (.wrongType index found expected) =>
    throw (.operands op (.wrongType index found expected) (spans[index]?.getD span))
  | .error fault => throw (.operands op fault span)
  | .ok ty =>
    match op, args with
    | .print, args => return .print { ty } args
    | .failFast, _ => return .failFast { ty }
    | op, left :: right :: _ => return .binary { ty } op left right
    | op, [operand] => return .unary { ty } op operand
    | op, [] => throw (.noOperands op span)

mutual

def expr (ctx : Context) : Surface.Expr → Step Tree
  | .literal value _ => return .ofValue value
  | .name written span => name ctx written span
  | .binary op left right span => do
    let op ← operator op.intrinsicName span
    let l ← expr ctx left
    let r ← expr ctx right
    apply op [l, r] [left.span, right.span] span
  | .unary op operand span => do
    let op ← operator op.intrinsicName span
    let e ← expr ctx operand
    apply op [e] [operand.span] span
  | .call callee args span => do
    match Intrinsic.ofName? (foldName callee) with
    | some op =>
      let es ← operands ctx args
      apply op es (args.map (·.span)) span
    | none =>
      match ctx.symbols.resolveFunction? ctx.home (foldName callee) with
      | none => throw (.nameNotFound callee span)
      | some f =>
        if args.length < f.params.length then
          throw (.tooFewArguments callee f.params.length args.length span)
        match args[f.params.length]? with
        | some extra =>
          throw (.tooManyArguments callee f.params.length args.length extra.span)
        | none =>
          let es ← arguments ctx args f.params
          return .call { ty := f.result } f.id es

def operands (ctx : Context) : List Surface.Expr → Step (List Tree)
  | [] => return []
  | arg :: rest => do
    let e ← expr ctx arg
    let es ← operands ctx rest
    return e :: es

/-- The arguments of a function, each of the type of its parameter. -/
def arguments (ctx : Context) : List Surface.Expr → List Ty → Step (List Tree)
  | arg :: rest, expected :: types => do
    let e ← expr ctx arg
    if e.ty ≠ expected then throw (.wrongType expected e.ty arg.span)
    let es ← arguments ctx rest types
    return e :: es
  | _, _ => return []

end

/-- A condition: an expression of type `Bool`. -/
def condition (ctx : Context) (e : Surface.Expr) : Step Tree := do
  let t ← expr ctx e
  if t.ty ≠ .bool then throw (.wrongType .bool t.ty e.span)
  return t

/-- The local that an assignment stores into, made if its name is new. -/
def target (written name : String) (ty : Ty) (span : Span) : Step LocalId := do
  match (← get).scope.lookup? name with
  | none => declareLocal name { name := written, ty }
  | some x =>
    let expected ← localType x
    if expected ≠ ty then throw (.retyped written expected ty span)
    return x

def assignment (ctx : Context) (written : String) (value : Surface.Expr) (span : Span) :
    Step Tree := do
  let name := foldName written
  if (ctx.symbols.resolveConstant? ctx.home name).isSome then
    throw (.constantAssigned written span)
  if name.contains '.' then throw (.nameNotFound written span)
  let t ← expr ctx value
  unless t.ty.isValue do throw (.nothingAssigned written t.ty value.span)
  let x ← target written name t.ty value.span
  modifyGet fun ⟨locals, scope, unreachable⟩ =>
    let (t, locals) := t.setStore (some x) locals
    (t, { locals, scope, unreachable })

/-- A return, which must carry a value of the type of the result. -/
def ret (ctx : Context) (value : Option Surface.Expr) (span : Span) : Step Tree := do
  let expected ← localType 0
  match value with
  | some e =>
    let t ← expr ctx e
    if expected = .void then throw (.valueFromVoid e.span)
    if t.ty ≠ expected then throw (.wrongType expected t.ty e.span)
    return .retValue { ty := .void } t
  | none =>
    if expected ≠ .void then throw (.missingValue expected span)
    return .ret { ty := .void }

/-- Notes a statement that control cannot reach. -/
def noteUnreachable (span : Span) : Step Unit :=
  modify fun s => { s with unreachable := span :: s.unreachable }

mutual

/-- A statement, and whether it returns for sure. -/
def statement (ctx : Context) : Surface.Stmt → Step (Tree × Bool)
  | .block body _ => inBlock (statements ctx [] false false body)
  | .assign written value span => do
    let t ← assignment ctx written value span
    return (t, false)
  | .ifThen c yes _ => do
    let c ← condition ctx c
    let (yes, _) ← inBlock (statement ctx yes)
    return (.ifThen { ty := .void } c yes, false)
  | .ifElse c yes no _ => do
    let c ← condition ctx c
    let (yes, returns) ← inBlock (statement ctx yes)
    let (no, returns') ← inBlock (statement ctx no)
    return (.ifElse { ty := .void } c yes no, returns && returns')
  | .loop c body _ => do
    let c ← condition ctx c
    let (body, _) ← inBlock (statement ctx body)
    return (.loop { ty := .void } c body, false)
  | .ret value span => do
    let t ← ret ctx value span
    return (t, true)
  | .expr e => do
    let t ← expr ctx e
    return (t, false)

/-- The statements of a block after the reversed ones `done`, and whether the block returns for
sure. Of the statements after a sure return the first is noted. -/
def statements (ctx : Context) (done : List Tree) (returns noted : Bool) :
    List Surface.Stmt → Step (Tree × Bool)
  | [] => return (.ofStatements done.reverse, returns)
  | s :: rest => do
    if returns && !noted then noteUnreachable s.span
    let (t, returns') ← statement ctx s
    statements ctx (t :: done) (returns || returns') (noted || returns) rest

end

/-- The body with a return at its end, for a `Void` function that may run into it. -/
def closed (body : Tree) : Tree :=
  match body with
  | .seq tag stmts => .seq tag (stmts ++ [.ret { ty := .void }])
  | other => other

def routine (ctx : Context) (symbol : FunctionSymbol) (f : Surface.Function) : Step Routine := do
  f.params.forM (declareParameter ctx)
  let (body, returns) ← inBlock (statements ctx [] false false f.body.body)
  if !returns && symbol.result ≠ .void then
    throw (.returnNotGuaranteed f.name symbol.result f.body.span)
  return {
    id := symbol.id
    fullName := symbol.fullName
    locals := (← get).locals
    paramCount := f.params.length
    body := if returns then body else closed body }

end Build

/-- The routine of a function of a module, or why there is none, and the places of the statements
that control cannot reach. -/
def buildRoutine (symbols : Symbols) (moduleName : String) (f : Surface.Function) :
    Except SemanticError Routine × List Span :=
  let full := fullName moduleName f.name
  match symbols.function? full with
  | none => (.error (.notCollected full f.span), [])
  | some symbol =>
    let ctx : Build.Context := { symbols, home := foldName moduleName }
    let start : Build.State := { locals := #[{ name := "$result", ty := symbol.result }] }
    match (Build.routine ctx symbol f).run start with
    | .ok r s => (.ok r, s.unreachable.reverse)
    | .error e s => (.error e, s.unreachable.reverse)

/-- The functions of a program in the order of declaration, each with the name of its module. -/
def functionsOf (modules : List Surface.Module) : List (String × Surface.Function) :=
  modules.flatMap fun m => m.functions.map (m.name, ·)

/-- The routines of a program, or why there are none, and the places of the statements that control
cannot reach, up to the first error. -/
def buildRoutines (symbols : Symbols) (modules : List Surface.Module) :
    Except SemanticError (List Routine) × List Span :=
  go [] [] (functionsOf modules)
where
  /-- Goes on after the reversed routines `done` and places `noted`. -/
  go (done : List Routine) (noted : List Span) :
      List (String × Surface.Function) → Except SemanticError (List Routine) × List Span
    | [] => (.ok done.reverse, noted.reverse)
    | (moduleName, f) :: rest =>
      match buildRoutine symbols moduleName f with
      | (.error e, spans) => (.error e, noted.reverse ++ spans)
      | (.ok r, spans) => go (r :: done) (spans.reverse ++ noted) rest

end Codewright
