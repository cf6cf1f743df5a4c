import Codewright.Source.Span
import Codewright.Text.Quoted
import Codewright.Value

/-!
# Tokens

The words and signs of a source text. A piece of text that is no token is kept as a `bad` one with
the reason, so that the reports of the scanner can be read off its tokens.
-/

namespace Codewright

inductive Fault where
  /-- No token starts with this character. -/
  | character (c : Char)
  /-- The digits denote a number of more than 64 bits. -/
  | number (digits : String)
  deriving DecidableEq

inductive Kind where
  -- declarations
  | kwModule
  | kwImport
  | kwPublic
  | kwConst
  -- statements
  | kwBegin
  | kwEnd
  | kwIf
  | kwElse
  | kwWhile
  | kwReturn
  -- operators that are words
  | kwAnd
  | kwOr
  | kwXor
  | kwNot
  -- types and literals
  | typeName (t : TypeName)
  | int (n : Int64)
  | real (x : Double)
  | kwTrue
  | kwFalse
  | ident (name : String)
  -- signs
  | assign
  | equals
  | eqEq
  | notEq
  | lt
  | ltEq
  | gt
  | gtEq
  | plus
  | minus
  | star
  | slash
  | slashSlash
  | percent
  | lparen
  | rparen
  | comma
  | dot
  | semicolon
  -- the rest
  | eof
  | bad (fault : Fault)
  deriving DecidableEq, Inhabited

namespace Kind

/-- A capital of the first 128 characters as a small letter. -/
def asciiLower (c : Char) : Char :=
  if 'A' ≤ c ∧ c ≤ 'Z' then Char.ofNat (c.toNat + 32) else c

/-- The keyword that a word spells, in capitals or small letters of the first 128 characters. -/
def keyword? (word : String) : Option Kind :=
  match String.ofList (word.toList.map asciiLower) with
  | "module" => some .kwModule
  | "import" => some .kwImport
  | "public" => some .kwPublic
  | "const" => some .kwConst
  | "begin" => some .kwBegin
  | "end" => some .kwEnd
  | "if" => some .kwIf
  | "else" => some .kwElse
  | "while" => some .kwWhile
  | "return" => some .kwReturn
  | "and" => some .kwAnd
  | "or" => some .kwOr
  | "xor" => some .kwXor
  | "not" => some .kwNot
  | "void" => some (.typeName .void)
  | "bool" => some (.typeName .bool)
  | "int" => some (.typeName .int)
  | "real" => some (.typeName .real)
  | "true" => some .kwTrue
  | "false" => some .kwFalse
  | _ => none

/-- The token that a word is: a keyword or a name. -/
def ofWord (word : String) : Kind :=
  (keyword? word).getD (.ident word)

def text : Kind → String
  | .kwModule => "module"
  | .kwImport => "import"
  | .kwPublic => "public"
  | .kwConst => "const"
  | .kwBegin => "begin"
  | .kwEnd => "end"
  | .kwIf => "if"
  | .kwElse => "else"
  | .kwWhile => "while"
  | .kwReturn => "return"
  | .kwAnd => "and"
  | .kwOr => "or"
  | .kwXor => "xor"
  | .kwNot => "not"
  | .typeName t => t.text
  | .int n => toString n.toInt
  | .real x => x.text
  | .kwTrue => "true"
  | .kwFalse => "false"
  | .ident name => name
  | .assign => ":="
  | .equals => "="
  | .eqEq => "=="
  | .notEq => "!="
  | .lt => "<"
  | .ltEq => "<="
  | .gt => ">"
  | .gtEq => ">="
  | .plus => "+"
  | .minus => "-"
  | .star => "*"
  | .slash => "/"
  | .slashSlash => "//"
  | .percent => "%"
  | .lparen => "("
  | .rparen => ")"
  | .comma => ","
  | .dot => "."
  | .semicolon => ";"
  | .eof => "end of file"
  | .bad _ => "<error>"

def sort : Kind → String
  | .kwModule => "Module"
  | .kwImport => "Import"
  | .kwPublic => "Public"
  | .kwConst => "Const"
  | .kwBegin => "Begin"
  | .kwEnd => "End"
  | .kwIf => "If"
  | .kwElse => "Else"
  | .kwWhile => "While"
  | .kwReturn => "Return"
  | .kwAnd => "And"
  | .kwOr => "Or"
  | .kwXor => "Xor"
  | .kwNot => "Not"
  | .typeName .void => "VoidType"
  | .typeName .bool => "BoolType"
  | .typeName .int => "IntType"
  | .typeName .real => "RealType"
  | .int _ => "IntLit"
  | .real _ => "RealLit"
  | .kwTrue => "True"
  | .kwFalse => "False"
  | .ident _ => "Ident"
  | .assign => "Assign"
  | .equals => "Eq"
  | .eqEq => "EqEq"
  | .notEq => "NotEq"
  | .lt => "Lt"
  | .ltEq => "LtEq"
  | .gt => "Gt"
  | .gtEq => "GtEq"
  | .plus => "Plus"
  | .minus => "Minus"
  | .star => "Star"
  | .slash => "Slash"
  | .slashSlash => "SlashSlash"
  | .percent => "Percent"
  | .lparen => "LParen"
  | .rparen => "RParen"
  | .comma => "Comma"
  | .dot => "Dot"
  | .semicolon => "Semicolon"
  | .eof => "Eof"
  | .bad _ => "Error"

/-- The sort of token with what it carries, for listings. -/
def listing (k : Kind) : String :=
  match k with
  | .int _ | .real _ => k.sort ++ "(" ++ k.text ++ ")"
  | .ident name => k.sort ++ "(" ++ Text.quoted name ++ ")"
  | _ => k.sort

end Kind

structure Token where
  kind : Kind
  span : Source.Span
  deriving DecidableEq, Inhabited

end Codewright
