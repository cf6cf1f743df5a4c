import Codewright.Surface.Reading
import Codewright.Surface.Tree

/-!
# Reading expressions

Binary operators bind on five levels, from `or` and `xor` up to the multiplicative ones, and group
to the left on each. Unary operators bind tighter. Parentheses leave no trace in the tree.

The readers call each other on the same tokens only towards tighter levels, and else on fewer
tokens; the pair of the number of tokens and the rank of the reader falls with every call.
-/

namespace Codewright.Surface

/-- A binary operator and the level on which it binds, the loosest being 0. -/
def binaryOp? : Kind → Option (BinaryOp × Nat)
  | .kwOr => some (.or, 0)
  | .kwXor => some (.xor, 0)
  | .kwAnd => some (.and, 1)
  | .eqEq => some (.eq, 2)
  | .notEq => some (.ne, 2)
  | .lt => some (.lt, 2)
  | .ltEq => some (.le, 2)
  | .gt => some (.gt, 2)
  | .gtEq => some (.ge, 2)
  | .plus => some (.add, 3)
  | .minus => some (.sub, 3)
  | .star => some (.mul, 4)
  | .slash => some (.div, 4)
  | .slashSlash => some (.intDiv, 4)
  | .percent => some (.mod, 4)
  | _ => none

/-- The number of levels of binary operators. -/
def levels : Nat := 5

/-- The operator that a token is, if it binds on the given level. -/
def operatorAt? (level : Nat) (k : Kind) : Option BinaryOp :=
  match binaryOp? k with
  | some (op, l) => if l = level then some op else none
  | none => none

def unaryOp? : Kind → Option UnaryOp
  | .minus => some .neg
  | .kwNot => some .not
  | _ => none

def literal? : Kind → Option Value
  | .int n => some (.int n)
  | .real x => some (.real x)
  | .kwTrue => some (.bool true)
  | .kwFalse => some (.bool false)
  | _ => none

def startsExpression : Kind → Bool
  | .int _ | .real _ | .kwTrue | .kwFalse | .ident _ | .lparen | .minus | .kwNot => true
  | _ => false

/-- A binary expression, spanning its operands. -/
def joined (op : BinaryOp) (left right : Expr) : Expr :=
  .binary op left right (left.span.join right.span)

namespace Read

mutual

/-- An expression of operators of `level` and the tighter levels. -/
def climb (level : Nat) (ts : List Token) : Reading Expr ts.length :=
  if _h : level < levels then
    match climb (level + 1) ts with
    | .failed e rest h => .failed e rest h
    | .ok left rest h => chain ts level left rest h
  else unary ts
termination_by (ts.length, levels - level + 2)

/-- Goes on with operators of `level`, each with a right operand of the tighter levels, `left`
having been read from the front of `start` already. -/
def chain (start : List Token) (level : Nat) (left : Expr) (ts : List Token)
    (hts : ts.length < start.length) : Reading Expr start.length :=
  match ts with
  | [] => .ok left [] hts
  | t :: rest =>
    match operatorAt? level t.kind with
    | none => .ok left (t :: rest) hts
    | some op =>
      have hrest : rest.length < start.length := Nat.lt_trans (Nat.lt_succ_self _) hts
      match climb (level + 1) rest with
      | .failed e rest₁ h₁ => .failed e rest₁ (by omega)
      | .ok right rest₁ h₁ => chain start level (joined op left right) rest₁ (by omega)
termination_by (ts.length, levels + 3)

/-- An operand with the unary operators before it. -/
def unary (ts : List Token) : Reading Expr ts.length :=
  match ts with
  | [] => primary []
  | t :: rest =>
    match unaryOp? t.kind with
    | none => primary (t :: rest)
    | some op =>
      ((unary rest).map fun operand => .unary op operand (t.span.join operand.span)).behind t
termination_by (ts.length, 1)

/-- A literal, a name, a call or an expression in parentheses. -/
def primary (ts : List Token) : Reading Expr ts.length :=
  match ts with
  | [] => .stuck .expression []
  | t :: rest =>
    match literal? t.kind with
    | some value => .single (.literal value t.span) t rest
    | none =>
      if t.kind = .lparen then
        ((climb 0 rest).andThen fun inner rest₁ _ =>
          (token .rparen .groupClose rest₁).map fun _ => inner).behind t
      else
        (qualifiedName .expression (t :: rest)).orAfter .lparen
          (fun (name, span) rest₁ h₁ => .ok (.name name span) rest₁ h₁)
          (fun (name, span) rest₁ _ =>
            (arguments rest₁).map fun (args, close) => .call name args (span.join close))
termination_by (ts.length, 0)

/-- The arguments of a call after its opening parenthesis, and the place of the closing one. -/
def arguments (ts : List Token) : Reading (List Expr × Source.Span) ts.length :=
  match token .rparen .argumentsClose ts with
  | .ok close rest h => .ok ([], close) rest h
  | .failed _ _ _ =>
    (argumentList ts [] ts (le_self ts)).andThen fun args rest _ =>
      (token .rparen .argumentsClose rest).map fun close => (args, close)
termination_by (ts.length, levels + 4)

/-- Expressions with commas between them, the reversed ones `done` having been read from the front
of `start` already. -/
def argumentList (start : List Token) (done : List Expr) (ts : List Token)
    (hts : ts.length ≤ start.length) : Reading (List Expr) start.length :=
  match climb 0 ts with
  | .failed e rest h => .failed e rest (le_of_le_of_le h hts)
  | .ok arg rest h =>
    match after? .comma rest with
    | none => .ok (arg :: done).reverse rest (lt_of_lt_of_le h hts)
    | some ⟨rest₁, h₁⟩ => argumentList start (arg :: done) rest₁ (le_of_lt_of_lt_of_le h₁ h hts)
termination_by (ts.length, levels + 3)

end

def expression (ts : List Token) : Reading Expr ts.length := climb 0 ts

end Read

end Codewright.Surface
