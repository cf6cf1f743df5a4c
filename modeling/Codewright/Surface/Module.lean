import Codewright.Surface.Statement

/-!
# Reading modules

A module is an optional header, imports, and declarations of constants and functions. A part that
cannot be read is reported once. The token at fault is skipped, and reading goes on at the next
place where a declaration can start.
-/

namespace Codewright.Surface

namespace Read

def typeName (ts : List Token) : Reading TypeName ts.length :=
  match ts with
  | ⟨.typeName type, span⟩ :: rest => .single type ⟨.typeName type, span⟩ rest
  | ts => .stuck .type ts

/-- A name without qualification, and its place. -/
def simpleName (expected : Expectation) (ts : List Token) :
    Reading (String × Source.Span) ts.length :=
  match ts with
  | ⟨.ident name, span⟩ :: rest => .single (name, span) ⟨.ident name, span⟩ rest
  | ts => .stuck expected ts

/-- A number with its sign turned around; the other literals have no sign. -/
def negated? : Kind → Option Value
  | .int n => some (.int (-n))
  | .real x => some (.real x.neg)
  | _ => none

/-- The front token as the literal that `valueOf?` finds in it, and its place. -/
def literalToken (valueOf? : Kind → Option Value) (ts : List Token) :
    Reading (Value × Source.Span) ts.length :=
  match ts with
  | [] => .stuck .literal []
  | t :: rest =>
    match valueOf? t.kind with
    | some value => .single (value, t.span) t rest
    | none => .stuck .literal (t :: rest)

/-- The literal of a constant, which may have a minus before it, and the place of its last token. -/
def constantValue (ts : List Token) : Reading (Value × Source.Span) ts.length :=
  match ts with
  | [] => .stuck .literal []
  | t :: rest =>
    if t.kind = .minus then (literalToken negated? rest).behind t
    else literalToken literal? (t :: rest)

/-- A constant after its `const`; `start` is where the declaration starts. -/
def constant (isPublic : Bool) (start : Source.Span) (ts : List Token) :
    Reading Constant ts.length :=
  (typeName ts).andThen fun type rest _ =>
  (simpleName .constantName rest).andThen fun (name, _) rest _ =>
  (token .equals .constantEquals rest).andThen fun _ rest _ =>
  (constantValue rest).map fun (value, last) =>
    { name, isPublic, type, value, span := start.join last }

def param (ts : List Token) : Reading Param ts.length :=
  match ts with
  | ⟨.typeName type, typeSpan⟩ :: rest =>
    ((simpleName .parameterName rest).map fun (name, span) =>
      { name, type, span := typeSpan.join span : Param }).behind ⟨.typeName type, typeSpan⟩
  | ts => .stuck .type ts

/-- Parameters with commas between them, the reversed ones `done` having been read from the front of
`start` already. -/
def paramList (start : List Token) (done : List Param) (ts : List Token)
    (hts : ts.length ≤ start.length) : Reading (List Param) start.length :=
  match param ts with
  | .failed e rest h => .failed e rest (le_of_le_of_le h hts)
  | .ok p rest h =>
    match after? .comma rest with
    | none => .ok (p :: done).reverse rest (lt_of_lt_of_le h hts)
    | some ⟨rest₁, h₁⟩ => paramList start (p :: done) rest₁ (le_of_lt_of_lt_of_le h₁ h hts)
termination_by ts.length

/-- The parameters of a function after the opening parenthesis, up to the closing one. -/
def params (ts : List Token) : Reading (List Param) ts.length :=
  match after? .rparen ts with
  | some ⟨rest, h⟩ => .ok [] rest h
  | none =>
    (paramList ts [] ts (le_self ts)).andThen fun ps rest _ =>
      (token .rparen .parametersClose rest).map fun _ => ps

/-- A function; `start` is where the declaration starts. -/
def function (isPublic : Bool) (start : Source.Span) (ts : List Token) :
    Reading Function ts.length :=
  (typeName ts).andThen fun result rest _ =>
  (simpleName .functionName rest).andThen fun (name, _) rest _ =>
  (token .lparen .parametersOpen rest).andThen fun _ rest _ =>
  (params rest).andThen fun params rest _ =>
  (block rest).map fun body =>
    { name, isPublic, result, params, body, span := start.join body.span }

inductive Declaration where
  | constant (c : Constant)
  | function (f : Function)

/-- A constant or a function, after a possible `public`. -/
def unmarkedDeclaration (isPublic : Bool) (start : Source.Span) (ts : List Token) :
    Reading Declaration ts.length :=
  match ts with
  | [] => (function isPublic start []).map .function
  | t :: rest =>
    if t.kind = .kwConst then ((constant isPublic start rest).map .constant).behind t
    else (function isPublic start (t :: rest)).map .function

def declaration (t : Token) (rest : List Token) : Reading Declaration (t :: rest).length :=
  if t.kind = .kwPublic then (unmarkedDeclaration true t.span rest).behind t
  else unmarkedDeclaration false t.span (t :: rest)

/-! ## Recovery -/

/-- Whether a declaration can start here: `public`, `const`, or the type, name and parenthesis that
open a function. -/
def startsDeclaration : List Token → Bool
  | ⟨.kwPublic, _⟩ :: _ => true
  | ⟨.kwConst, _⟩ :: _ => true
  | ⟨.typeName _, _⟩ :: ⟨.ident _, _⟩ :: ⟨.lparen, _⟩ :: _ => true
  | _ => false

/-- The tokens from the first place on where a declaration can start. -/
def toDeclaration : List Token → List Token
  | [] => []
  | t :: rest => if startsDeclaration (t :: rest) then t :: rest else toDeclaration rest

/-- Where reading goes on after a failure at `ts`: the token at fault is skipped in any case. -/
def resume (ts : List Token) : List Token := toDeclaration ts.tail

theorem toDeclaration_length (ts : List Token) : (toDeclaration ts).length ≤ ts.length := by
  induction ts with
  | nil => exact Nat.le_refl _
  | cons t rest ih =>
    unfold toDeclaration
    split
    · exact Nat.le_refl _
    · exact Nat.le_succ_of_le ih

theorem resume_length (ts : List Token) : (resume ts).length ≤ ts.length - 1 := by
  unfold resume
  have := toDeclaration_length ts.tail
  rwa [List.length_tail] at this

def skipSemicolon (ts : List Token) : List Token :=
  match after? .semicolon ts with
  | some ⟨rest, _⟩ => rest
  | none => ts

theorem skipSemicolon_length (ts : List Token) : (skipSemicolon ts).length ≤ ts.length := by
  unfold skipSemicolon
  split
  · next rest h _ => exact Nat.le_of_lt h
  · exact Nat.le_refl _

/-! ## Modules -/

/-- What has been read of a module: the parts in reverse, and the reports in reverse. -/
structure Draft where
  name : String := "main"
  imports : List Import := []
  constants : List Constant := []
  functions : List Function := []
  reports : List Diagnostic := []

namespace Draft

/-- The draft with a report on a failure at `rest` more. -/
def report (d : Draft) (eof : Source.Span) (e : Expectation) (rest : List Token) : Draft :=
  { d with reports := e.report (Stream.peek eof rest) :: d.reports }

def declare (d : Draft) : Declaration → Draft
  | .constant c => { d with constants := c :: d.constants }
  | .function f => { d with functions := f :: d.functions }

end Draft

/-- The header of a module: `module name`, which may be missing. -/
def header (eof : Source.Span) (ts : List Token) : Draft × List Token :=
  match after? .kwModule ts with
  | none => ({}, ts)
  | some ⟨rest, _⟩ =>
    match qualifiedName .moduleName rest with
    | .ok (name, _) rest₁ _ => ({ name }, skipSemicolon rest₁)
    | .failed e rest₁ _ => (Draft.report {} eof e rest₁, skipSemicolon (resume rest₁))

def imports (eof : Source.Span) (d : Draft) (ts : List Token) : Draft × List Token :=
  match ts with
  | [] => (d, [])
  | t :: rest =>
    if t.kind = .kwImport then
      match qualifiedName .importName rest with
      | .ok (name, span) rest₁ h₁ =>
        have hrest : (skipSemicolon rest₁).length < (t :: rest).length := by
          have hskip := skipSemicolon_length rest₁
          rw [List.length_cons]
          omega
        imports eof { d with imports := ⟨name, t.span.join span⟩ :: d.imports }
          (skipSemicolon rest₁)
      | .failed e rest₁ h₁ =>
        have hrest : (skipSemicolon (resume rest₁)).length < (t :: rest).length := by
          have hskip := skipSemicolon_length (resume rest₁)
          have hresume := resume_length rest₁
          rw [List.length_cons]
          omega
        imports eof (d.report eof e rest₁) (skipSemicolon (resume rest₁))
    else (d, t :: rest)
termination_by ts.length
decreasing_by all_goals exact hrest

/-- The declarations of a module, up to the end of the file. -/
def declarations (eof : Source.Span) (d : Draft) (ts : List Token) : Draft :=
  match ts with
  | [] => d
  | t :: rest =>
    if t.kind = .semicolon then
      have hrest : rest.length < (t :: rest).length := Nat.lt_succ_self _
      declarations eof d rest
    else
      match declaration t rest with
      | .ok decl rest₁ hrest => declarations eof (d.declare decl) rest₁
      | .failed e rest₁ h₁ =>
        have hrest : (resume rest₁).length < (t :: rest).length := by
          have hresume := resume_length rest₁
          rw [List.length_cons] at h₁ ⊢
          omega
        declarations eof (d.report eof e rest₁) (resume rest₁)
termination_by ts.length
decreasing_by all_goals exact hrest

end Read

/-- The module that tokens spell, and the reports on what could not be read. -/
def parseModule (tokens : List Token) : Module × List Diagnostic :=
  let stream := Stream.ofTokens tokens
  let (d₀, rest₀) := Read.header stream.eof stream.ahead
  let (d₁, rest₁) := Read.imports stream.eof d₀ rest₀
  let d := Read.declarations stream.eof d₁ rest₁
  ({ name := d.name
     imports := d.imports.reverse
     constants := d.constants.reverse
     functions := d.functions.reverse
     span := (Stream.peek stream.eof stream.ahead).span.join stream.eof },
   d.reports.reverse)

/-- Reads an expression `times` times, each from where the last one stopped: the expressions, with
`none` for a failure, and the reports. -/
def parseExpressions (tokens : List Token) (times : Nat) :
    List (Option Expr) × List Diagnostic :=
  let stream := Stream.ofTokens tokens
  go stream.eof times stream.ahead
where
  go (eof : Source.Span) : Nat → List Token → List (Option Expr) × List Diagnostic
    | 0, _ => ([], [])
    | n + 1, ts =>
      match Read.expression ts with
      | .ok e rest _ =>
        let (es, ds) := go eof n rest
        (some e :: es, ds)
      | .failed expected rest _ =>
        let (es, ds) := go eof n rest
        (none :: es, expected.report (Stream.peek eof rest) :: ds)

end Codewright.Surface
