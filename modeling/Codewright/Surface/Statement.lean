import Codewright.Surface.Expression

/-!
# Reading statements

A statement is a block, an assignment, a conditional, a loop, a return or an expression. Semicolons
between the statements of a block are optional. A name at the start of a statement is the target of
an assignment if `:=` follows it, and else the start of an expression.
-/

namespace Codewright.Surface.Read

def expressionStatement (ts : List Token) : Reading Stmt ts.length := (expression ts).map .expr

mutual

def statement (ts : List Token) : Reading Stmt ts.length :=
  match ts with
  | [] => .stuck .statement []
  | t :: rest =>
    match t.kind with
    | .kwBegin =>
      ((statements rest [] rest (le_self rest)).map fun (body, close) =>
        .block body (t.span.join close)).behind t
    | .kwIf =>
      ((expression rest).andThen fun condition rest₁ _ =>
        (statement rest₁).orAfter .kwElse
          (fun yes rest₂ h₂ => .ok (.ifThen condition yes (t.span.join yes.span)) rest₂ h₂)
          (fun yes rest₂ _ =>
            (statement rest₂).map fun no =>
              .ifElse condition yes no (t.span.join no.span))).behind t
    | .kwWhile =>
      ((expression rest).andThen fun condition rest₁ _ =>
        (statement rest₁).map fun body =>
          .loop condition body (t.span.join body.span)).behind t
    | .kwReturn =>
      match rest with
      | [] => .single (.ret none t.span) t []
      | t' :: rest' =>
        if startsExpression t'.kind then
          ((expression (t' :: rest')).map fun value =>
            .ret (some value) (t.span.join value.span)).behind t
        else .single (.ret none t.span) t (t' :: rest')
    | .ident _ =>
      (qualifiedName .statement (t :: rest)).orAfter .assign
        (fun _ _ _ => expressionStatement (t :: rest))
        (fun (target, _) rest₁ _ =>
          (expression rest₁).map fun value => .assign target value (t.span.join value.span))
    | k =>
      if startsExpression k then expressionStatement (t :: rest)
      else .stuck .statement (t :: rest)
termination_by (ts.length, 0)

/-- The statements of a block up to its `end`, and the place of the `end`. The reversed statements
`done` have been read from the front of `start` already. -/
def statements (start : List Token) (done : List Stmt) (ts : List Token)
    (hts : ts.length ≤ start.length) : Reading (List Stmt × Source.Span) start.length :=
  match ts with
  | [] => .failed .blockEnd [] hts
  | t :: rest =>
    if t.kind = .kwEnd then .ok (done.reverse, t.span) rest (lt_of_cons_le hts)
    else if t.kind = .semicolon then statements start done rest (le_of_cons_le hts)
    else
      match statement (t :: rest) with
      | .failed e rest₁ h₁ => .failed e rest₁ (le_of_le_of_le h₁ hts)
      | .ok s rest₁ h₁ => statements start (s :: done) rest₁ (le_of_lt_of_le h₁ hts)
termination_by (ts.length, 1)

end

/-- `begin … end` -/
def block (ts : List Token) : Reading Block ts.length :=
  (token .kwBegin .blockBegin ts).andThen fun opening rest _ =>
    (statements rest [] rest (le_self rest)).map fun (body, close) => ⟨body, opening.join close⟩

end Codewright.Surface.Read
