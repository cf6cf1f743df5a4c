import Codewright.Diagnostic
import Codewright.Text.Blank
import Codewright.Text.Name
import Codewright.Token

/-!
# Scanning

A source text is cut into tokens from the left. Blanks and comments, which run from `#` to the end
of the line, are skipped; what follows is the longest number, word or sign. The last token is always
the end of the file.

The loop is well founded: a lexeme takes at least its first character (`lexeme_rest_length`), and
skipping never gives characters back (`skipTrivia_length`).
-/

namespace Codewright

open Source (Position Span)

namespace Scan

/-! ## Trivia -/

/-- Skips blanks and comments; `inComment` tells whether the text starts inside a comment. -/
def skipTrivia (inComment : Bool) (p : Position) : List Char → Position × List Char
  | [] => (p, [])
  | c :: cs =>
    if inComment then skipTrivia (c != '\n') (p.advance c) cs
    else if Text.isBlank c then skipTrivia false (p.advance c) cs
    else if c = '#' then skipTrivia true (p.advance c) cs
    else (p, c :: cs)

theorem skipTrivia_length (inComment : Bool) (p : Position) (cs : List Char) :
    (skipTrivia inComment p cs).2.length ≤ cs.length := by
  induction cs generalizing inComment p with
  | nil => simp [skipTrivia]
  | cons c cs ih =>
    unfold skipTrivia
    split
    · exact Nat.le_succ_of_le (ih _ _)
    · split
      · exact Nat.le_succ_of_le (ih _ _)
      · split
        · exact Nat.le_succ_of_le (ih _ _)
        · exact Nat.le_refl _

/-! ## Lexemes -/

def isDigit (c : Char) : Bool := '0' ≤ c && c ≤ '9'

def digitsValue (ds : List Char) : Nat :=
  ds.foldl (fun n d => 10 * n + (d.toNat - 48)) 0

/-- The first whole number that does not fit in 64 bits with a sign. -/
def wholeLimit : Nat := 0x8000000000000000

/-- The token of a whole number, which has to be below the limit. -/
def wholeKind (ds : List Char) : Kind :=
  let n := digitsValue ds
  if n < wholeLimit then .int (.ofNat n) else .bad (.number (String.ofList ds))

def fractionKind (whole fraction : List Char) : Kind :=
  .real (.ofDecimal (digitsValue (whole ++ fraction)) fraction.length)

/-- A token with the characters it is made of and the text after it. -/
structure Lexeme where
  kind : Kind
  chars : List Char
  rest : List Char

/-- A number: digits, and a fraction if a point and a digit follow. -/
def number (cs : List Char) : Lexeme :=
  let whole := cs.takeWhile isDigit
  let after := cs.dropWhile isDigit
  match after with
  | '.' :: d :: tail =>
    if isDigit d then
      let fraction := (d :: tail).takeWhile isDigit
      ⟨fractionKind whole fraction, whole ++ '.' :: fraction, (d :: tail).dropWhile isDigit⟩
    else ⟨wholeKind whole, whole, after⟩
  | _ => ⟨wholeKind whole, whole, after⟩

def word (cs : List Char) : Lexeme :=
  let chars := cs.takeWhile Text.isNameContinue
  ⟨.ofWord (String.ofList chars), chars, cs.dropWhile Text.isNameContinue⟩

def sign₂? (c d : Char) : Option Kind :=
  if c = ':' && d = '=' then some .assign
  else if c = '=' && d = '=' then some .eqEq
  else if c = '!' && d = '=' then some .notEq
  else if c = '<' && d = '=' then some .ltEq
  else if c = '>' && d = '=' then some .gtEq
  else if c = '/' && d = '/' then some .slashSlash
  else none

def sign₁ (c : Char) : Kind :=
  if c = '=' then .equals
  else if c = '<' then .lt
  else if c = '>' then .gt
  else if c = '/' then .slash
  else if c = '+' then .plus
  else if c = '-' then .minus
  else if c = '*' then .star
  else if c = '%' then .percent
  else if c = '(' then .lparen
  else if c = ')' then .rparen
  else if c = ',' then .comma
  else if c = '.' then .dot
  else if c = ';' then .semicolon
  else .bad (.character c)

/-- A sign, of two characters where possible. -/
def sign (c : Char) (cs : List Char) : Lexeme :=
  match cs with
  | d :: tail =>
    match sign₂? c d with
    | some kind => ⟨kind, [c, d], tail⟩
    | none => ⟨sign₁ c, [c], cs⟩
  | [] => ⟨sign₁ c, [c], []⟩

/-- The token at the start of a text that does not start with trivia. -/
def lexeme (c : Char) (cs : List Char) : Lexeme :=
  if isDigit c then number (c :: cs)
  else if Text.isNameStart c then word (c :: cs)
  else sign c cs

theorem dropWhile_length (p : Char → Bool) (cs : List Char) :
    (cs.dropWhile p).length ≤ cs.length := by
  induction cs with
  | nil => simp
  | cons c cs ih =>
    rw [List.dropWhile_cons]
    split
    · exact Nat.le_succ_of_le ih
    · exact Nat.le_refl _

theorem number_rest_length {c : Char} (cs : List Char) (h : isDigit c = true) :
    (number (c :: cs)).rest.length < (c :: cs).length := by
  have hdrop : ((c :: cs).dropWhile isDigit).length ≤ cs.length := by
    rw [List.dropWhile_cons_of_pos h]
    exact dropWhile_length _ _
  simp only [number]
  split
  · next d tail heq =>
    rw [heq] at hdrop
    split
    · have := dropWhile_length isDigit (d :: tail)
      simp only [List.length_cons] at hdrop this ⊢
      omega
    · rw [heq]
      simp only [List.length_cons] at hdrop ⊢
      omega
  · simp only [List.length_cons]
    omega

theorem sign_rest_length (c : Char) (cs : List Char) :
    (sign c cs).rest.length < (c :: cs).length := by
  cases cs with
  | nil => exact Nat.zero_lt_one
  | cons d tail =>
    simp only [sign]
    split
    · exact Nat.lt_succ_of_lt (Nat.lt_succ_self _)
    · exact Nat.lt_succ_self _

/-- A lexeme takes at least the first character. -/
theorem lexeme_rest_length (c : Char) (cs : List Char) :
    (lexeme c cs).rest.length < (c :: cs).length := by
  unfold lexeme
  split
  · next h => exact number_rest_length cs h
  · split
    · next h =>
      have hc := Text.isNameContinue_of_isNameStart h
      simp only [word, List.dropWhile_cons_of_pos hc, List.length_cons]
      exact Nat.lt_succ_of_le (dropWhile_length _ _)
    · exact sign_rest_length c cs

/-! ## Tokens -/

/-- The tokens of the text `cs` at position `p`, after the reversed tokens `done`. -/
def tokensFrom (file : Nat) (done : List Token) (p : Position) (cs : List Char) : List Token :=
  match h : skipTrivia false p cs with
  | (q, []) => (⟨.eof, .point q file⟩ :: done).reverse
  | (q, c :: rest) =>
    let l := lexeme c rest
    let stop := q.advanceAll l.chars
    have hskip : (c :: rest).length ≤ cs.length := by
      have hall := skipTrivia_length false p cs
      rwa [h] at hall
    tokensFrom file (⟨l.kind, ⟨q, stop, file⟩⟩ :: done) stop l.rest
termination_by cs.length
decreasing_by exact Nat.lt_of_lt_of_le (lexeme_rest_length c rest) hskip

end Scan

def scan (file : Nat) (source : String) : List Token :=
  Scan.tokensFrom file [] .origin source.toList

def Fault.report (fault : Fault) (span : Span) : Diagnostic :=
  match fault with
  | .character c =>
    (Diagnostic.error .unexpectedCharacter ("unexpected character `" ++ c.toString ++ "`")).label
      span "not valid here"
  | .number digits =>
    (Diagnostic.error .invalidNumber ("invalid number literal `" ++ digits ++ "`")).label
      span "does not fit in 64 bits"

def Token.report? (t : Token) : Option Diagnostic :=
  match t.kind with
  | .bad fault => some (fault.report t.span)
  | _ => none

def scanReports (tokens : List Token) : List Diagnostic :=
  tokens.filterMap Token.report?

end Codewright
