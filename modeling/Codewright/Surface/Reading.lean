import Codewright.Diagnostic
import Codewright.Token

/-!
# Reading from tokens

A reader takes tokens from the front of a list and either gives a value and the tokens after it, or
tells what it expected and the tokens it stopped at. Both results carry the bound that makes readers
compose into loops that end: a success leaves fewer tokens than there were, and a failure never
more.

The list never holds the end of the file: the list being empty is the end, and the stream keeps the
place of the end apart.
-/

namespace Codewright.Surface

open Source (Span)

inductive Expectation where
  | expression
  | type
  | literal
  | statement
  | moduleName
  | importName
  | nameAfterDot
  | constantName
  | functionName
  | parameterName
  | constantEquals
  | parametersOpen
  | parametersClose
  | blockBegin
  | blockEnd
  | groupClose
  | argumentsClose
  deriving DecidableEq

namespace Expectation

def message : Expectation → String
  | .expression => "expected an expression"
  | .type => "expected a type (`void`, `bool`, `int` or `real`)"
  | .literal => "expected a literal value"
  | .statement => "expected a statement"
  | .moduleName => "expected module name after `module`"
  | .importName => "expected module name after `import`"
  | .nameAfterDot => "expected name after `.`"
  | .constantName => "expected constant name"
  | .functionName => "expected function name"
  | .parameterName => "expected parameter name"
  | .constantEquals => "expected `=` after constant name"
  | .parametersOpen => "expected `(` after function name"
  | .parametersClose => "expected `)` after parameters"
  | .blockBegin => "expected `begin`"
  | .blockEnd => "expected `end` to close block"
  | .groupClose => "expected `)`"
  | .argumentsClose => "expected `)` after arguments"

def code : Expectation → Code
  | .expression | .literal => .expectedExpression
  | .type => .expectedType
  | _ => .unexpectedToken

/-- The report that `found` stands where something else was expected. -/
def report (e : Expectation) (found : Token) : Diagnostic :=
  (Diagnostic.error e.code e.message).label found.span ("found `" ++ found.kind.text ++ "`")

end Expectation

/-- The outcome of a reader on a list of `n` tokens. -/
inductive Reading (α : Type) (n : Nat) where
  | ok (value : α) (rest : List Token) (shorter : rest.length < n)
  | failed (expected : Expectation) (rest : List Token) (within : rest.length ≤ n)

namespace Reading

variable {α β : Type} {m n : Nat}

def value? : Reading α n → Option α
  | .ok value _ _ => some value
  | .failed _ _ _ => none

/-- The tokens left, after the value or at the failure. -/
def rest : Reading α n → List Token
  | .ok _ rest _ => rest
  | .failed _ rest _ => rest

def stuck (expected : Expectation) (ts : List Token) : Reading α ts.length :=
  .failed expected ts (Nat.le_refl _)

def single (value : α) (t : Token) (rest : List Token) : Reading α (t :: rest).length :=
  .ok value rest (Nat.lt_succ_self _)

/-- The outcome as seen from a longer list. -/
def widen (h : m ≤ n) : Reading α m → Reading α n
  | .ok value rest shorter => .ok value rest (Nat.lt_of_lt_of_le shorter h)
  | .failed e rest within => .failed e rest (Nat.le_trans within h)

/-- The outcome as seen from the token in front. -/
def behind (t : Token) {rest : List Token} (r : Reading α rest.length) :
    Reading α (t :: rest).length :=
  r.widen (Nat.le_succ _)

def map (f : α → β) : Reading α n → Reading β n
  | .ok value rest shorter => .ok (f value) rest shorter
  | .failed e rest within => .failed e rest within

/-- Goes on after a success, on the tokens that are left. -/
def andThen (r : Reading α n)
    (next : (value : α) → (rest : List Token) → rest.length < n → Reading β rest.length) :
    Reading β n :=
  match r with
  | .failed e rest within => .failed e rest within
  | .ok value rest shorter => (next value rest shorter).widen (Nat.le_of_lt shorter)

end Reading

/-- Tokens to be read, up to the end of the file, and the place of that end. -/
structure Stream where
  ahead : List Token
  eof : Span

namespace Stream

/-- The stream of a token list. A list that does not end with the end of the file gets one at the
place of its last token; what stands after the first end of the file is never read. -/
def ofTokens (tokens : List Token) : Stream :=
  let final := (tokens.getLast?.map (·.span)).getD default
  let afterEnd := tokens.dropWhile (·.kind != .eof)
  { ahead := tokens.takeWhile (·.kind != .eof)
    eof := (afterEnd.head?.map (·.span)).getD final }

/-- The token that stands at the front of `ahead`, the end of the file if nothing does. -/
def peek (eof : Span) : List Token → Token
  | [] => ⟨.eof, eof⟩
  | t :: _ => t

end Stream

namespace Read

/-! ## Bounds on what is left -/

theorem le_self (ts : List Token) : ts.length ≤ ts.length := Nat.le_refl _

theorem lt_of_cons_le {t : Token} {rest start : List Token}
    (h : (t :: rest).length ≤ start.length) : rest.length < start.length :=
  Nat.lt_of_succ_le h

theorem le_of_cons_le {t : Token} {rest start : List Token}
    (h : (t :: rest).length ≤ start.length) : rest.length ≤ start.length :=
  Nat.le_of_lt (lt_of_cons_le h)

theorem le_of_le_of_le {a b start : List Token} (h : a.length ≤ b.length)
    (hb : b.length ≤ start.length) : a.length ≤ start.length :=
  Nat.le_trans h hb

theorem lt_of_lt_of_le {a b start : List Token} (h : a.length < b.length)
    (hb : b.length ≤ start.length) : a.length < start.length :=
  Nat.lt_of_lt_of_le h hb

theorem le_of_lt_of_le {a b start : List Token} (h : a.length < b.length)
    (hb : b.length ≤ start.length) : a.length ≤ start.length :=
  Nat.le_of_lt (Nat.lt_of_lt_of_le h hb)

theorem le_of_lt_of_lt_of_le {a b c start : List Token} (h : a.length < b.length)
    (hb : b.length < c.length) (hc : c.length ≤ start.length) : a.length ≤ start.length :=
  Nat.le_of_lt (Nat.lt_trans h (lt_of_lt_of_le hb hc))

/-! ## Tokens and names -/

/-- The token `k` at the front, and its place. -/
def token (k : Kind) (expected : Expectation) (ts : List Token) : Reading Span ts.length :=
  match ts with
  | [] => .stuck expected []
  | t :: rest => if t.kind = k then .single t.span t rest else .stuck expected (t :: rest)

/-- The tokens after `k`, if that is the front token. -/
def after? (k : Kind) (ts : List Token) : Option { rest : List Token // rest.length < ts.length } :=
  match ts with
  | [] => none
  | t :: rest => if t.kind = k then some ⟨rest, Nat.lt_succ_self _⟩ else none

/-- Goes on with a name that has been read up to a possible dot: `. name` any number of times. -/
def dotted (name : String) (span : Span) :
    (ts : List Token) → Reading (String × Span) (ts.length + 1)
  | ⟨.dot, _⟩ :: ⟨.ident part, partSpan⟩ :: rest =>
    (dotted (name ++ "." ++ part) (span.join partSpan) rest).widen
      (Nat.le_add_right (rest.length + 1) 2)
  | ⟨.dot, _⟩ :: rest => (Reading.stuck .nameAfterDot rest).widen (Nat.le_add_right rest.length 2)
  | ts => .ok (name, span) ts (Nat.lt_succ_self _)

/-- A name with the modules that qualify it: `name (. name)*`. -/
def qualifiedName (expected : Expectation) :
    (ts : List Token) → Reading (String × Span) ts.length
  | ⟨.ident name, span⟩ :: rest => dotted name span rest
  | ts => .stuck expected ts

end Read

/-- Goes on after a success: behind the token `k` with `next` if that follows, and else with
`plain`. -/
def Reading.orAfter {α β : Type} {n : Nat} (r : Reading α n) (k : Kind)
    (plain : (value : α) → (rest : List Token) → rest.length < n → Reading β n)
    (next : (value : α) → (rest : List Token) → rest.length < n → Reading β rest.length) :
    Reading β n :=
  match r with
  | .failed e rest within => .failed e rest within
  | .ok value rest shorter =>
    match Read.after? k rest with
    | none => plain value rest shorter
    | some ⟨rest', h⟩ =>
      (next value rest' (Nat.lt_trans h shorter)).widen (Nat.le_of_lt (Nat.lt_trans h shorter))

end Codewright.Surface
