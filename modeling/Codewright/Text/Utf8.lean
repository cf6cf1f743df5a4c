/-!
# UTF-8

Decoding of bytes that should be UTF-8. A byte sequence is cut into pieces from the left: each piece
is either the encoding of one character, or a longest run of bytes that starts like a character and
then breaks off. Strict reading accepts a text without broken pieces; lenient reading writes the
replacement character for each broken piece.

The loop is well founded: a piece takes at least its first byte (`next_length`).
-/

namespace Codewright.Text.Utf8

/-- Whether `b` is a continuation byte between `low` and `high`. -/
def within (low high : Nat) (b : UInt8) : Bool :=
  low ≤ b.toNat && b.toNat ≤ high

/-- The six bits that a continuation byte carries. -/
def payload (b : UInt8) : Nat :=
  b.toNat % 64

/-- The bounds of the second byte after the first byte `a` of a three-byte character. -/
def secondOfThree (a : Nat) : Nat × Nat :=
  if a = 0xE0 then (0xA0, 0xBF) else if a = 0xED then (0x80, 0x9F) else (0x80, 0xBF)

/-- The bounds of the second byte after the first byte `a` of a four-byte character. -/
def secondOfFour (a : Nat) : Nat × Nat :=
  if a = 0xF0 then (0x90, 0xBF) else if a = 0xF4 then (0x80, 0x8F) else (0x80, 0xBF)

/-- The piece that starts with a byte of value `n`, for a character of two bytes. -/
def two (n : Nat) (rest : List UInt8) : Option Char × List UInt8 :=
  match rest with
  | b :: rest' =>
    if within 0x80 0xBF b then (some (Char.ofNat (n % 32 * 64 + payload b)), rest') else
      (none, rest)
  | [] => (none, [])

/-- The piece that starts with a byte of value `n`, for a character of three bytes. -/
def three (n : Nat) (rest : List UInt8) : Option Char × List UInt8 :=
  match rest with
  | b :: rest₁ =>
    if within (secondOfThree n).1 (secondOfThree n).2 b then
      match rest₁ with
      | c :: rest₂ =>
        if within 0x80 0xBF c then
          (some (Char.ofNat (n % 16 * 4096 + payload b * 64 + payload c)), rest₂)
        else (none, rest₁)
      | [] => (none, [])
    else (none, rest)
  | [] => (none, [])

/-- The piece that starts with a byte of value `n`, for a character of four bytes. -/
def four (n : Nat) (rest : List UInt8) : Option Char × List UInt8 :=
  match rest with
  | b :: rest₁ =>
    if within (secondOfFour n).1 (secondOfFour n).2 b then
      match rest₁ with
      | c :: rest₂ =>
        if within 0x80 0xBF c then
          match rest₂ with
          | d :: rest₃ =>
            if within 0x80 0xBF d then
              (some (Char.ofNat
                (n % 8 * 262144 + payload b * 4096 + payload c * 64 + payload d)), rest₃)
            else (none, rest₂)
          | [] => (none, [])
        else (none, rest₁)
      | [] => (none, [])
    else (none, rest)
  | [] => (none, [])

/-- The first piece of a text that starts with the byte `a`: its character, or `none` for a broken
piece, and the bytes after it. -/
def next (a : UInt8) (rest : List UInt8) : Option Char × List UInt8 :=
  let n := a.toNat
  if n < 0x80 then (some (Char.ofNat n), rest)
  else if 0xC2 ≤ n && n ≤ 0xDF then two n rest
  else if 0xE0 ≤ n && n ≤ 0xEF then three n rest
  else if 0xF0 ≤ n && n ≤ 0xF4 then four n rest
  else (none, rest)

theorem two_length (n : Nat) (rest : List UInt8) : (two n rest).2.length ≤ rest.length := by
  unfold two
  repeat' split
  all_goals simp

theorem three_length (n : Nat) (rest : List UInt8) : (three n rest).2.length ≤ rest.length := by
  unfold three
  repeat' split
  all_goals simp
  all_goals omega

theorem four_length (n : Nat) (rest : List UInt8) : (four n rest).2.length ≤ rest.length := by
  unfold four
  repeat' split
  all_goals simp
  all_goals omega

/-- A piece never gives bytes back. -/
theorem next_length (a : UInt8) (rest : List UInt8) : (next a rest).2.length ≤ rest.length := by
  simp only [next]
  repeat' split
  all_goals simp [two_length, three_length, four_length]

/-- The pieces of a byte sequence after the reversed pieces `done`. -/
def piecesFrom (done : List (Option Char)) : List UInt8 → List (Option Char)
  | [] => done.reverse
  | a :: rest => piecesFrom ((next a rest).1 :: done) (next a rest).2
termination_by bytes => bytes.length
decreasing_by
  have := next_length a rest
  simp only [List.length_cons]
  omega

def pieces (bytes : List UInt8) : List (Option Char) :=
  piecesFrom [] bytes

/-- The text of a byte sequence, with the replacement character for each broken piece. -/
def decodeLenient (bytes : List UInt8) : String :=
  String.ofList ((pieces bytes).map (·.getD '�'))

/-- The text of a byte sequence, if it has no broken piece. -/
def decode? (bytes : List UInt8) : Option String :=
  let ps := pieces bytes
  if ps.all Option.isSome then some (String.ofList (ps.filterMap id)) else none

end Codewright.Text.Utf8
