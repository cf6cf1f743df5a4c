import Mathlib
import Codewright.Token.Scan

/-!
# Tokens tile the source

What the scanner finds is described without it. A position is what counting the characters before it
gives (`Position.after`). Between two tokens stand only blanks and comments (`Trivia`). Which token
a text is, is a matter of that text alone (`Spelled`), and a token takes the longest text that is
one (`Longest`).

1. Trivia: `skipTrivia` takes a `Trivia` and stops where none can go on (`skipTrivia_spec`).
2. Lexemes: `lexeme` takes the longest spelled text, and its token is the one that the text spells
   (`lexeme_spelled`, `longest_lexeme`); a spelled text on its own is scanned as itself
   (`lexeme_of_spelled`), so the token of a text is unique.
3. Tokens: one round of the scanner lays one more tile (`Tiled`), hence all rounds together tile the
   source (`tiled_tokensFrom`).
-/

namespace Codewright

open Source (Position Span)

/-! ## Positions by counting -/

namespace Source.Position

/-- The position after a text: its line feeds, the characters after the last of them, and its
bytes. -/
def after (text : List Char) : Position where
  line := 1 + text.count '\n'
  column := 1 + (text.reverse.takeWhile (· != '\n')).length
  offset := (String.ofList text).utf8ByteSize

theorem advance_after (text : List Char) (c : Char) :
    (after text).advance c = after (text ++ [c]) := by
  have hoffset : (String.ofList (text ++ [c])).utf8ByteSize
      = (String.ofList text).utf8ByteSize + c.utf8Size := by
    rw [String.ofList_append, String.utf8ByteSize_append, ← String.singleton_eq_ofList,
      String.utf8ByteSize_singleton]
  unfold advance
  by_cases hc : c = '\n'
  · rw [if_pos hc, after, after, hoffset]
    simp [hc, Nat.add_assoc]
  · rw [if_neg hc, after, after, hoffset]
    simp [hc, Nat.add_assoc, Nat.add_comm 1]

theorem advanceAll_after (text cs : List Char) :
    (after text).advanceAll cs = after (text ++ cs) := by
  induction cs generalizing text with
  | nil => rw [List.append_nil]; rfl
  | cons c cs ih =>
    show ((after text).advance c).advanceAll cs = _
    rw [advance_after, ih, List.append_assoc, List.singleton_append]

theorem offset_after_append (text cs : List Char) :
    (after (text ++ cs)).offset = (after text).offset + (String.ofList cs).utf8ByteSize := by
  show (String.ofList (text ++ cs)).utf8ByteSize = _
  rw [String.ofList_append, String.utf8ByteSize_append]
  rfl

theorem offset_after_le (text cs : List Char) :
    (after text).offset ≤ (after (text ++ cs)).offset := by
  rw [offset_after_append]
  exact Nat.le_add_right _ _

theorem offset_after_lt {cs : List Char} (text : List Char) (h : cs ≠ []) :
    (after text).offset < (after (text ++ cs)).offset := by
  rw [offset_after_append]
  refine Nat.lt_add_of_pos_right (Nat.pos_of_ne_zero fun hzero => h ?_)
  have hempty := String.utf8ByteSize_eq_zero_iff.mp hzero
  rwa [String.ofList_eq_empty_iff] at hempty

end Source.Position

namespace Scan

/-! ## Trivia -/

/-- Blanks and comments in front of the text `rest`. A comment reaches to the end of its line; one
without that end reaches to the end of the source. -/
inductive Trivia (rest : List Char) : List Char → Prop
  | nil : Trivia rest []
  | blank {c : Char} {cs : List Char} (hc : Text.isBlank c = true) (h : Trivia rest cs) :
    Trivia rest (c :: cs)
  | comment {body cs : List Char} (hbody : '\n' ∉ body) (h : Trivia rest cs) :
    Trivia rest ('#' :: (body ++ '\n' :: cs))
  | lastComment {body : List Char} (hbody : '\n' ∉ body) (h : rest = []) : Trivia rest ('#' :: body)

variable {cs text ds w : List Char} {c : Char} {k : Kind}

/-- A comment may hold any character of its line. -/
theorem Trivia.lengthen {rest : List Char} (hc : c ≠ '\n')
    (h : Trivia rest ('#' :: cs)) : Trivia rest ('#' :: c :: cs) := by
  generalize hcs : '#' :: cs = gap at h
  cases h with
  | nil => cases hcs
  | blank hblank h =>
    obtain ⟨rfl, rfl⟩ := List.cons.inj hcs
    exact absurd hblank (by decide)
  | @comment body cs' hbody h =>
    obtain ⟨-, rfl⟩ := List.cons.inj hcs
    exact @Trivia.comment _ (c :: body) _ (by simp [hc.symm, hbody]) h
  | lastComment hbody hrest =>
    obtain ⟨-, rfl⟩ := List.cons.inj hcs
    exact Trivia.lastComment (by simp [hc.symm, hbody]) hrest

/-- A text that a token starts with: neither a blank nor a comment comes first. -/
def StartsToken (cs : List Char) : Prop :=
  ∀ c rest, cs = c :: rest → Text.isBlank c = false ∧ c ≠ '#'

/-- What is skipped from the inside of a comment is trivia once the `#` is put back. -/
theorem skipTrivia_spec (inComment : Bool) (p : Position) (cs : List Char) :
    ∃ gap, cs = gap ++ (skipTrivia inComment p cs).2 ∧
      (skipTrivia inComment p cs).1 = p.advanceAll gap ∧
      Trivia (skipTrivia inComment p cs).2 (if inComment then '#' :: gap else gap) ∧
      StartsToken (skipTrivia inComment p cs).2 := by
  -- inside of a comment the induction is on a text whose `#` has been taken already
  induction cs generalizing inComment p with
  | nil =>
    refine ⟨[], rfl, rfl, ?_, fun c rest h => by cases h⟩
    cases inComment with
    | true => exact Trivia.lastComment (by simp) rfl
    | false => exact Trivia.nil
  | cons c cs ih =>
    unfold skipTrivia
    cases inComment with
    | true =>
      obtain ⟨gap, hcs, hpos, htrivia, hstarts⟩ := ih (c != '\n') (p.advance c)
      rw [if_pos rfl]
      refine ⟨c :: gap, by rw [List.cons_append, ← hcs], hpos, ?_, hstarts⟩
      by_cases hc : c = '\n'
      · subst hc
        exact @Trivia.comment _ [] _ (by simp) htrivia
      · rw [bne_iff_ne.mpr hc, if_pos rfl] at htrivia
        rw [if_pos rfl, bne_iff_ne.mpr hc]
        exact htrivia.lengthen hc
    | false =>
      rw [if_neg Bool.false_ne_true]
      by_cases hblank : Text.isBlank c = true
      · obtain ⟨gap, hcs, hpos, htrivia, hstarts⟩ := ih false (p.advance c)
        rw [if_pos hblank]
        exact ⟨c :: gap, by rw [List.cons_append, ← hcs], hpos, .blank hblank htrivia, hstarts⟩
      · rw [if_neg hblank]
        by_cases hhash : c = '#'
        · obtain ⟨gap, hcs, hpos, htrivia, hstarts⟩ := ih true (p.advance c)
          rw [if_pos hhash]
          subst hhash
          exact ⟨'#' :: gap, by rw [List.cons_append, ← hcs], hpos, htrivia, hstarts⟩
        · rw [if_neg hhash]
          refine ⟨[], rfl, rfl, .nil, fun d rest h => ?_⟩
          obtain ⟨rfl, -⟩ := List.cons.inj h
          exact ⟨Bool.eq_false_iff.mpr hblank, hhash⟩

/-! ## What a text spells -/

/-- The kinds of token that are words of the language. -/
def keywords : List Kind :=
  [.kwModule, .kwImport, .kwPublic, .kwConst, .kwBegin, .kwEnd, .kwIf, .kwElse, .kwWhile, .kwReturn,
   .kwAnd, .kwOr, .kwXor, .kwNot, .typeName .void, .typeName .bool, .typeName .int, .typeName .real,
   .kwTrue, .kwFalse]

/-- The signs and the tokens they are. -/
def signs : List (List Char × Kind) :=
  [([':', '='], .assign), (['='], .equals), (['=', '='], .eqEq), (['!', '='], .notEq), (['<'], .lt),
   (['<', '='], .ltEq), (['>'], .gt), (['>', '='], .gtEq), (['+'], .plus), (['-'], .minus),
   (['*'], .star), (['/'], .slash), (['/', '/'], .slashSlash), (['%'], .percent), (['('], .lparen),
   ([')'], .rparen), ([','], .comma), (['.'], .dot), ([';'], .semicolon)]

def IsDigits (ds : List Char) : Prop := ds ≠ [] ∧ ∀ d ∈ ds, isDigit d = true

/-- A word: a keyword or a name. -/
def IsWord (w : List Char) : Prop :=
  (∃ c cs, w = c :: cs ∧ Text.isNameStart c = true) ∧ ∀ c ∈ w, Text.isNameContinue c = true

/-- The token that a text is. Keywords are spelled as messages show them, in capitals or small
letters. -/
inductive Spelled : List Char → Kind → Prop
  | whole {ds : List Char} (hds : IsDigits ds) (hfits : Nat.ofDigitChars 10 ds 0 < 2 ^ 63) :
    Spelled ds (.int (.ofNat (Nat.ofDigitChars 10 ds 0)))
  | tooLarge {ds : List Char} (hds : IsDigits ds) (hlarge : 2 ^ 63 ≤ Nat.ofDigitChars 10 ds 0) :
    Spelled ds (.bad (.number (String.ofList ds)))
  | fraction {ds fs : List Char} (hds : IsDigits ds) (hfs : IsDigits fs) :
    Spelled (ds ++ '.' :: fs) (.real (.ofDecimal (Nat.ofDigitChars 10 (ds ++ fs) 0) fs.length))
  | keyword {w : List Char} {k : Kind} (hw : IsWord w) (hk : k ∈ keywords)
    (hspelled : w.map Kind.asciiLower = k.text.toList) : Spelled w k
  | name {w : List Char} (hw : IsWord w)
    (hfree : ∀ k ∈ keywords, w.map Kind.asciiLower ≠ k.text.toList) :
    Spelled w (.ident (String.ofList w))
  | sign {text : List Char} {k : Kind} (hk : (text, k) ∈ signs) : Spelled text k
  | stray {c : Char} (hblank : Text.isBlank c = false) (hhash : c ≠ '#')
    (hdigit : isDigit c = false)
    (hname : Text.isNameStart c = false) (hsign : ∀ k, ([c], k) ∉ signs) :
    Spelled [c] (.bad (.character c))

/-- No text that is a token reaches from the start of `text` into `rest`. -/
def Longest (text rest : List Char) : Prop :=
  ∀ longer k, Spelled longer k → longer <+: text ++ rest → longer <+: text

/-! ## Characters -/

/-- The code points of ranges that begin behind `start`. -/
def membersFrom (start : Nat) : Text.Ranges → List Nat
  | gap :: range :: rest => List.range' (start + gap) range ++
    membersFrom (start + gap + range) rest
  | _ => []

theorem mem_membersFrom {start n : Nat} {table : Text.Ranges} (h : table.contains n = true) :
    start + n ∈ membersFrom start table := by
  fun_induction membersFrom start table generalizing n with
  | case1 start gap range rest ih =>
    rw [Text.Ranges.contains] at h
    split_ifs at h with hgap
    rw [List.mem_append, List.mem_range'_1]
    rcases Bool.or_eq_true_iff.mp h with hrange | h
    · have hrange := of_decide_eq_true hrange
      exact .inl (by omega)
    · by_cases hrange : n < gap + range
      · exact .inl (by omega)
      · have hrest := ih h
        rw [show start + gap + range + (n - (gap + range)) = start + n by omega] at hrest
        exact .inr hrest
  | case2 start table hshort =>
    rw [Text.Ranges.contains] at h
    · cases h
    · exact hshort

/-- What the scanner relies on of the characters that start a name and of those that continue
one. -/
structure NameClasses (start continues : Char → Bool) : Prop where
  continues_of_start : ∀ c, start c = true → continues c = true
  start_of_lt : ∀ c, c.toNat < 0x41 → start c = false
  continues_of_digit : ∀ c, isDigit c = true → continues c = true
  not_blank : ∀ c, continues c = true → Text.isBlank c = false

/-- The tables of Unicode are as the scanner relies on. -/
theorem nameClasses : NameClasses Text.isNameStart Text.isNameContinue where
  continues_of_start := fun c => Text.isNameContinue_of_isNameStart
  start_of_lt := by
    intro c h
    have hne : c ≠ '_' := by
      rintro rfl
      exact absurd h (by decide)
    have hranges : Text.nameStartRanges = 0x41 :: 26 :: Text.nameStartRanges.drop 2 := rfl
    unfold Text.isNameStart Text.Ranges.holds
    rw [hranges, Text.Ranges.contains, if_pos h, Bool.or_false]
    exact beq_eq_false_iff_ne.mpr hne
  continues_of_digit := by
    intro c h
    simp only [isDigit, Bool.and_eq_true, decide_eq_true_eq] at h
    have hlow : 48 ≤ c.toNat := h.1
    have hhigh : c.toNat < 48 + 10 := Nat.lt_succ_of_le h.2
    have hranges : Text.nameExtraRanges = 48 :: 10 :: Text.nameExtraRanges.drop 2 := rfl
    rw [Text.isNameContinue, Text.Ranges.holds, hranges, Text.Ranges.contains, if_neg (by omega),
      decide_eq_true hhigh, Bool.true_or, Bool.or_true]
  not_blank := by
    intro c h
    have htable : ∀ n ∈ membersFrom 0 Text.blankRanges, Text.isNameContinue (.ofNat n) = false := by
      decide +kernel
    refine Bool.eq_false_iff.mpr fun hblank => ?_
    rw [← Char.ofNat_toNat c, ← Nat.zero_add c.toNat, htable _ (mem_membersFrom hblank)] at h
    cases h

theorem isNameStart_of_isDigit (h : isDigit c = true) : Text.isNameStart c = false := by
  simp only [isDigit, Bool.and_eq_true, decide_eq_true_eq] at h
  have hc : c.toNat ≤ 57 := h.2
  exact nameClasses.start_of_lt c (by omega)

theorem isBlank_of_isDigit (h : isDigit c = true) : Text.isBlank c = false :=
  nameClasses.not_blank c (nameClasses.continues_of_digit c h)

/-- The characters of signs are neither digits nor parts of names nor blanks. -/
theorem sign_characters (h : (text, k) ∈ signs)
    (hc : c ∈ text) : isDigit c = false ∧ Text.isNameStart c = false ∧ Text.isBlank c = false := by
  have hlow : ∀ p ∈ signs, ∀ c ∈ p.1, isDigit c = false ∧ 0x20 < c.toNat ∧ c.toNat < 0x41 := by
    simp [signs, isDigit]
  obtain ⟨hdigit, hgt, hlt⟩ := hlow _ h c hc
  refine ⟨hdigit, nameClasses.start_of_lt c hlt, Bool.eq_false_iff.mpr fun hblank => ?_⟩
  simp [Text.isBlank, Text.Ranges.holds, Text.Ranges.contains, Text.blankRanges] at hblank
  omega

/-- A text at the front all of whose characters pass a test is in the front that passes it. -/
theorem prefix_takeWhile {p : Char → Bool} (h : ∀ c ∈ w, p c = true) (hcs : w <+: cs) :
    w <+: cs.takeWhile p := by
  obtain ⟨tail, rfl⟩ := hcs
  rw [List.takeWhile_append_of_pos h]
  exact List.prefix_append _ _

theorem IsDigits.takeWhile_append (h : IsDigits ds)
    (hcs : ∀ c rest, cs = c :: rest → isDigit c = false) :
    (ds ++ cs).takeWhile isDigit = ds ∧ (ds ++ cs).dropWhile isDigit = cs := by
  rw [List.takeWhile_append_of_pos h.2, List.dropWhile_append_of_pos h.2]
  cases cs with
  | nil => simp
  | cons c rest => simp [hcs c rest rfl]

theorem isDigits_takeWhile (cs : List Char) (h : isDigit c = true) :
    IsDigits ((c :: cs).takeWhile isDigit) := by
  refine ⟨?_, fun d hd => List.mem_takeWhile_imp hd⟩
  rw [List.takeWhile_cons_of_pos h]
  exact List.cons_ne_nil _ _

theorem IsDigits.exists_cons (h : IsDigits ds) : ∃ c cs, ds = c :: cs ∧ isDigit c = true := by
  obtain ⟨c, cs, rfl⟩ := List.exists_cons_of_ne_nil h.1
  exact ⟨c, cs, rfl, h.2 c List.mem_cons_self⟩

/-! ## Numbers -/

theorem spelled_wholeKind (h : IsDigits ds) : Spelled ds (wholeKind ds) := by
  unfold wholeKind
  by_cases hfits : digitsValue ds < wholeLimit
  · rw [if_pos hfits]
    exact .whole h hfits
  · rw [if_neg hfits]
    exact .tooLarge h (not_lt.mp hfits)

theorem wholeKind_of_lt (h : Nat.ofDigitChars 10 ds 0 < 2 ^ 63) :
    wholeKind ds = .int (.ofNat (Nat.ofDigitChars 10 ds 0)) :=
  if_pos h

theorem wholeKind_of_le (h : 2 ^ 63 ≤ Nat.ofDigitChars 10 ds 0) :
    wholeKind ds = .bad (.number (String.ofList ds)) :=
  if_neg (not_lt.mpr h)

theorem number_whole (hds : IsDigits ds) (hcs : ∀ c rest, cs = c :: rest → isDigit c = false)
    (hpoint : ∀ d rest, cs = '.' :: d :: rest → isDigit d = false) :
    number (ds ++ cs) = ⟨wholeKind ds, ds, cs⟩ := by
  obtain ⟨htake, hdrop⟩ := hds.takeWhile_append hcs
  unfold number
  simp only [htake, hdrop]
  split
  · next d rest => rw [if_neg (by simp [hpoint d rest rfl])]
  · rfl

/-- Digits, a point and digits are one number, and all digits belong to it. -/
theorem number_fraction {fs : List Char} (hds : IsDigits ds) (hfs : IsDigits fs) (cs : List Char) :
    number (ds ++ '.' :: (fs ++ cs)) = ⟨fractionKind ds (fs ++ cs.takeWhile isDigit),
      ds ++ '.' :: (fs ++ cs.takeWhile isDigit), cs.dropWhile isDigit⟩ := by
  have hpoint : ∀ c rest, '.' :: (fs ++ cs) = c :: rest → isDigit c = false := by
    rintro c rest h
    obtain ⟨rfl, -⟩ := List.cons.inj h
    decide
  obtain ⟨htake, hdrop⟩ := hds.takeWhile_append hpoint
  obtain ⟨f, fs', hcons, hf⟩ := hfs.exists_cons
  have htail : (f :: (fs' ++ cs)).takeWhile isDigit = fs ++ cs.takeWhile isDigit ∧
      (f :: (fs' ++ cs)).dropWhile isDigit = cs.dropWhile isDigit := by
    rw [← List.cons_append, ← hcons, List.takeWhile_append_of_pos hfs.2,
      List.dropWhile_append_of_pos hfs.2]
    exact ⟨rfl, rfl⟩
  unfold number
  simp only [htake, hdrop]
  rw [hcons, List.cons_append]
  simp only [hf, if_true, htail, hcons]

theorem digits_cases (cs : List Char) (hc : isDigit c = true) :
    (∃ ds fs rest, c :: cs = ds ++ '.' :: (fs ++ rest) ∧ IsDigits ds ∧ IsDigits fs ∧
      (∀ d tail, rest = d :: tail → isDigit d = false)) ∨
    (∃ ds rest, c :: cs = ds ++ rest ∧ IsDigits ds ∧
      (∀ d tail, rest = d :: tail → isDigit d = false) ∧
      (∀ d tail, rest = '.' :: d :: tail → isDigit d = false)) := by
  have hds := isDigits_takeWhile cs hc
  have hcut := List.takeWhile_append_dropWhile (p := isDigit) (l := c :: cs)
  have hstop : ∀ {l : List Char} d tail, l.dropWhile isDigit = d :: tail → isDigit d = false := by
    intro l d tail h
    have := List.head?_dropWhile_not isDigit l
    rw [h] at this
    simpa using this
  generalize (c :: cs).takeWhile isDigit = ds at hds hcut
  generalize hrest : (c :: cs).dropWhile isDigit = rest at hcut
  rw [← hcut]
  by_cases hpoint : ∃ d tail, rest = '.' :: d :: tail ∧ isDigit d = true
  · obtain ⟨d, tail, rfl, hd⟩ := hpoint
    refine .inl ⟨ds, (d :: tail).takeWhile isDigit, (d :: tail).dropWhile isDigit, ?_, hds,
      isDigits_takeWhile _ hd, fun _ _ => hstop _ _⟩
    rw [List.takeWhile_append_dropWhile]
  · refine .inr ⟨ds, rest, rfl, hds, fun d tail h => hstop d tail (hrest.trans h),
      fun d tail h => ?_⟩
    by_contra hd
    exact hpoint ⟨d, tail, h, by simpa using hd⟩

/-! ## Words -/

theorem mem_keywords_of_keyword? {word : String} (h : Kind.keyword? word = some k) :
    k ∈ keywords ∧ word.toList.map Kind.asciiLower = k.text.toList := by
  have hword : ∀ {s : String}, String.ofList (word.toList.map Kind.asciiLower) = s →
      word.toList.map Kind.asciiLower = s.toList := by
    rintro s rfl
    rw [String.toList_ofList]
  unfold Kind.keyword? at h
  split at h <;> cases h
  all_goals exact ⟨by decide, hword ‹_›⟩

theorem keyword?_of_mem (hk : k ∈ keywords)
    (hw : w.map Kind.asciiLower = k.text.toList) : Kind.keyword? (String.ofList w) = some k := by
  have htext : ∀ k ∈ keywords,
      k.text.toList.map Kind.asciiLower = k.text.toList ∧ Kind.keyword? k.text = some k := by
    decide +kernel
  obtain ⟨hlower, hkeyword⟩ := htext k hk
  rw [← hkeyword]
  unfold Kind.keyword?
  rw [String.toList_ofList, hw, hlower]

theorem spelled_ofWord (h : IsWord w) : Spelled w (.ofWord (String.ofList w)) := by
  unfold Kind.ofWord
  cases hk : Kind.keyword? (String.ofList w) with
  | some k =>
    obtain ⟨hmem, hspelled⟩ := mem_keywords_of_keyword? hk
    rw [String.toList_ofList] at hspelled
    exact .keyword h hmem hspelled
  | none =>
    refine .name h fun k hmem hspelled => ?_
    rw [keyword?_of_mem hmem hspelled] at hk
    cases hk

theorem isWord_takeWhile (cs : List Char) (h : Text.isNameStart c = true) :
    IsWord ((c :: cs).takeWhile Text.isNameContinue) := by
  refine ⟨⟨c, cs.takeWhile Text.isNameContinue, ?_, h⟩, fun d hd => List.mem_takeWhile_imp hd⟩
  rw [List.takeWhile_cons_of_pos (nameClasses.continues_of_start c h)]

/-! ## Signs -/

theorem sign₂?_eq_some {d : Char} (h : sign₂? c d = some k) : ([c, d], k) ∈ signs := by
  unfold sign₂? at h
  simp only [Bool.and_eq_true, decide_eq_true_eq] at h
  split_ifs at h with h₁ h₂ h₃ h₄ h₅ h₆
  all_goals
    obtain rfl := Option.some.inj h
    simp_all [signs]

/-- A sign has one character or two, and is found as what it is. -/
theorem sign_cases (h : (text, k) ∈ signs) :
    (∃ c, text = [c] ∧ sign₁ c = k) ∨ (∃ c d, text = [c, d] ∧ sign₂? c d = some k) := by
  have htable : ∀ p ∈ signs, (∃ c ∈ p.1.head?, p.1 = [c] ∧ sign₁ c = p.2) ∨
      (∃ c ∈ p.1.head?, ∃ d ∈ p.1.tail.head?, p.1 = [c, d] ∧ sign₂? c d = some p.2) := by
    simp [signs, sign₁, sign₂?]
  rcases htable _ h with ⟨c, -, htext, hk⟩ | ⟨c, -, d, -, htext, hk⟩
  · exact .inl ⟨c, htext, hk⟩
  · exact .inr ⟨c, d, htext, hk⟩

theorem sign₁_cases (c : Char) :
    ([c], sign₁ c) ∈ signs ∨ (sign₁ c = .bad (.character c) ∧ ∀ k, ([c], k) ∉ signs) := by
  by_cases h : ∃ k, ([c], k) ∈ signs
  · obtain ⟨k, hk⟩ := h
    rcases sign_cases hk with ⟨d, hd, hsign⟩ | ⟨d, e, hd, -⟩
    · obtain rfl := List.singleton_inj.mp hd
      exact .inl (hsign ▸ hk)
    · cases hd
  · push Not at h
    refine .inr ⟨?_, h⟩
    have hne : ∀ p ∈ signs, [c] ≠ p.1 := fun p hp hc => h p.2 (hc ▸ hp)
    simp [signs] at hne
    simp [sign₁, hne]

/-! ## Lexemes -/

theorem Spelled.solid (h : Spelled text k) : text ≠ [] ∧ ∀ c ∈ text, Text.isBlank c = false := by
  have hdigits : ∀ {ds : List Char}, IsDigits ds → ∀ c ∈ ds, Text.isBlank c = false :=
    fun hds c hc => isBlank_of_isDigit (hds.2 c hc)
  cases h with
  | whole hds | tooLarge hds => exact ⟨hds.1, hdigits hds⟩
  | fraction hds hfs =>
    refine ⟨by simp, List.forall_mem_append.mpr ⟨hdigits hds, ?_⟩⟩
    exact List.forall_mem_cons.mpr ⟨by decide, hdigits hfs⟩
  | keyword hw | name hw =>
    obtain ⟨⟨c, cs, rfl, -⟩, hw⟩ := hw
    exact ⟨List.cons_ne_nil _ _, fun c hc => nameClasses.not_blank c (hw c hc)⟩
  | sign hk =>
    refine ⟨?_, fun c hc => (sign_characters hk hc).2.2⟩
    rcases sign_cases hk with ⟨c, rfl, -⟩ | ⟨c, d, rfl, -⟩
    all_goals exact List.cons_ne_nil _ _
  | stray hblank =>
    exact ⟨List.cons_ne_nil _ _, fun c hc => List.mem_singleton.mp hc ▸ hblank⟩

theorem Spelled.on_one_line (h : Spelled text k) : '\n' ∉ text := fun hmem =>
  absurd (h.solid.2 _ hmem) (by decide)

theorem lexeme_of_isDigit (h : isDigit c = true) : lexeme c cs = number (c :: cs) := if_pos h

theorem lexeme_of_isNameStart (h : Text.isNameStart c = true) : lexeme c cs = word (c :: cs) := by
  have hdigit : ¬ isDigit c = true := fun hc => by
    rw [isNameStart_of_isDigit hc] at h
    cases h
  rw [lexeme, if_neg hdigit, if_pos h]

theorem lexeme_of_sign (hdigit : isDigit c = false)
    (hname : Text.isNameStart c = false) : lexeme c cs = sign c cs := by
  rw [lexeme, if_neg (by simp [hdigit]), if_neg (by simp [hname])]

theorem lexeme_of_spelled (h : Spelled text k) :
    ∃ c cs, text = c :: cs ∧ lexeme c cs = ⟨k, text, []⟩ := by
  -- keywords and names are read as words, whole numbers as digits, and told apart after that
  have hword : ∀ {w : List Char}, IsWord w →
      ∃ c cs, w = c :: cs ∧ lexeme c cs = ⟨.ofWord (String.ofList w), w, []⟩ := by
    rintro w ⟨⟨c, cs, rfl, hc⟩, hw⟩
    refine ⟨c, cs, rfl, ?_⟩
    rw [lexeme_of_isNameStart hc, word]
    simp only [List.takeWhile_eq_self_iff.mpr hw, List.dropWhile_eq_nil_iff.mpr hw]
  have hwhole : ∀ {ds : List Char}, IsDigits ds →
      ∃ c cs, ds = c :: cs ∧ lexeme c cs = ⟨wholeKind ds, ds, []⟩ := by
    intro ds hds
    obtain ⟨c, cs, rfl, hc⟩ := hds.exists_cons
    refine ⟨c, cs, rfl, ?_⟩
    have hnumber := @number_whole [] (c :: cs) hds (by simp) (by simp)
    rw [List.append_nil] at hnumber
    rw [lexeme_of_isDigit hc, hnumber]
  cases h with
  | whole hds hfits =>
    rw [← wholeKind_of_lt hfits]
    exact hwhole hds
  | tooLarge hds hlarge =>
    rw [← wholeKind_of_le hlarge]
    exact hwhole hds
  | @fraction ds fs hds hfs =>
    obtain ⟨c, cs, rfl, hc⟩ := hds.exists_cons
    refine ⟨c, cs ++ '.' :: fs, rfl, ?_⟩
    have := number_fraction hds hfs []
    simp only [List.takeWhile_nil, List.dropWhile_nil, List.append_nil] at this
    rw [lexeme_of_isDigit hc, ← List.cons_append, this]
    rfl
  | keyword hw hk hspelled =>
    obtain ⟨c, cs, hcs, hlexeme⟩ := hword hw
    rw [Kind.ofWord, keyword?_of_mem hk hspelled] at hlexeme
    exact ⟨c, cs, hcs, hlexeme⟩
  | name hw hfree =>
    obtain ⟨c, cs, hcs, hlexeme⟩ := hword hw
    have hnone : Kind.keyword? (String.ofList text) = none := by
      cases hk : Kind.keyword? (String.ofList text) with
      | none => rfl
      | some k =>
        obtain ⟨hmem, hspelled⟩ := mem_keywords_of_keyword? hk
        rw [String.toList_ofList] at hspelled
        exact absurd hspelled (hfree k hmem)
    rw [Kind.ofWord, hnone] at hlexeme
    exact ⟨c, cs, hcs, hlexeme⟩
  | sign hk =>
    rcases sign_cases hk with ⟨c, rfl, hsign⟩ | ⟨c, d, rfl, hsign⟩
    · obtain ⟨hdigit, hname, -⟩ := sign_characters hk List.mem_cons_self
      refine ⟨c, [], rfl, ?_⟩
      rw [lexeme_of_sign hdigit hname, sign, hsign]
    · obtain ⟨hdigit, hname, -⟩ := sign_characters hk List.mem_cons_self
      refine ⟨c, [d], rfl, ?_⟩
      rw [lexeme_of_sign hdigit hname, sign]
      simp only [hsign]
  | @stray c _ _ hdigit hname hsign =>
    refine ⟨c, [], rfl, ?_⟩
    rw [lexeme_of_sign hdigit hname, sign]
    rcases sign₁_cases c with hmem | ⟨heq, -⟩
    · exact absurd hmem (hsign _)
    · rw [heq]

theorem Spelled.unique {k' : Kind} (h : Spelled text k) (h' : Spelled text k') : k = k' := by
  obtain ⟨c, cs, rfl, hk⟩ := lexeme_of_spelled h
  obtain ⟨c', cs', hcs, hk'⟩ := lexeme_of_spelled h'
  obtain ⟨rfl, rfl⟩ := List.cons.inj hcs
  exact congrArg Lexeme.kind (hk.symm.trans hk')

/-- What starts with a digit is a number, and the number is taken whole. -/
theorem number_spec (cs : List Char) (hc : isDigit c = true) :
    c :: cs = (number (c :: cs)).chars ++ (number (c :: cs)).rest ∧
      Spelled (number (c :: cs)).chars (number (c :: cs)).kind := by
  rcases digits_cases cs hc with ⟨ds, fs, rest, hcs, hds, hfs, hrest⟩ | ⟨ds, rest, hcs, hds,
    hrest, hpoint⟩
  · have hnumber := number_fraction hds hfs rest
    have hnone : rest.takeWhile isDigit = [] ∧ rest.dropWhile isDigit = rest := by
      cases rest with
      | nil => exact ⟨rfl, rfl⟩
      | cons d tail => simp [hrest d tail rfl]
    rw [hnone.1, hnone.2, List.append_nil] at hnumber
    rw [hcs, hnumber]
    exact ⟨by simp, .fraction hds hfs⟩
  · rw [hcs, number_whole hds hrest hpoint]
    exact ⟨rfl, spelled_wholeKind hds⟩

theorem takeWhile_prefix_number (cs : List Char) : cs.takeWhile isDigit <+: (number cs).chars := by
  unfold number
  dsimp only
  split
  · split
    · exact List.prefix_append _ _
    · exact List.prefix_rfl
  · exact List.prefix_rfl

/-- A sign is a token of one or two characters, if no blank and no comment starts with it. -/
theorem sign_spec (cs : List Char) (hblank : Text.isBlank c = false) (hhash : c ≠ '#')
    (hdigit : isDigit c = false) (hname : Text.isNameStart c = false) :
    c :: cs = (sign c cs).chars ++ (sign c cs).rest ∧
        Spelled (sign c cs).chars (sign c cs).kind := by
  have hone : Spelled [c] (sign₁ c) := by
    rcases sign₁_cases c with hmem | ⟨hbad, hsign⟩
    · exact .sign hmem
    · rw [hbad]
      exact .stray hblank hhash hdigit hname hsign
  cases cs with
  | nil => exact ⟨rfl, hone⟩
  | cons d tail =>
    unfold sign
    dsimp only
    split
    · next k hk => exact ⟨rfl, .sign (sign₂?_eq_some hk)⟩
    · exact ⟨rfl, hone⟩

/-- A lexeme is the front of the text, and its token is the one that its characters spell. -/
theorem lexeme_spelled (cs : List Char) (hblank : Text.isBlank c = false) (hhash : c ≠ '#') :
    c :: cs = (lexeme c cs).chars ++ (lexeme c cs).rest ∧
      Spelled (lexeme c cs).chars (lexeme c cs).kind := by
  by_cases hdigit : isDigit c = true
  · rw [lexeme_of_isDigit hdigit]
    exact number_spec cs hdigit
  by_cases hname : Text.isNameStart c = true
  · have hword := isWord_takeWhile cs hname
    have hcut := List.takeWhile_append_dropWhile (p := Text.isNameContinue) (l := c :: cs)
    rw [lexeme_of_isNameStart hname]
    unfold word
    generalize (c :: cs).takeWhile Text.isNameContinue = chars at hword hcut ⊢
    exact ⟨hcut.symm, spelled_ofWord hword⟩
  · rw [Bool.not_eq_true] at hdigit hname
    rw [lexeme_of_sign hdigit hname]
    exact sign_spec cs hblank hhash hdigit hname

/-- Every token text at the front of a text is at the front of the lexeme. -/
theorem prefix_lexeme {longer : List Char} (hblank : Text.isBlank c = false)
    (hhash : c ≠ '#') (h : Spelled longer k) (hlonger : longer <+: c :: cs) :
    longer <+: (lexeme c cs).chars := by
  have hone : ∀ {d : Char}, [d] <+: c :: cs → [d] <+: (lexeme c cs).chars := by
    intro d hprefix
    obtain ⟨rfl, -⟩ := List.cons_prefix_cons.mp hprefix
    obtain ⟨hcs, hspelled⟩ := lexeme_spelled cs hblank hhash
    obtain ⟨e, tail, hchars⟩ := List.exists_cons_of_ne_nil hspelled.solid.1
    rw [hchars] at hcs ⊢
    obtain ⟨rfl, -⟩ := List.cons.inj hcs
    exact ⟨tail, rfl⟩
  cases h with
  | whole hds | tooLarge hds =>
    obtain ⟨d, tail, rfl, hd⟩ := hds.exists_cons
    obtain ⟨rfl, -⟩ := List.cons_prefix_cons.mp hlonger
    rw [lexeme_of_isDigit hd]
    exact (prefix_takeWhile hds.2 hlonger).trans (takeWhile_prefix_number _)
  | @fraction ds fs hds hfs =>
    obtain ⟨tail, htail⟩ := hlonger
    obtain ⟨d, ds', hcons, hd⟩ := hds.exists_cons
    have hc : d = c := by
      rw [hcons] at htail
      exact (List.cons.inj htail).1
    subst hc
    rw [lexeme_of_isDigit hd, ← htail, List.append_assoc, List.cons_append, number_fraction hds hfs]
    exact ⟨tail.takeWhile isDigit, by simp⟩
  | keyword hw | name hw =>
    obtain ⟨d, tail, rfl, hd⟩ := hw.1
    obtain ⟨rfl, -⟩ := List.cons_prefix_cons.mp hlonger
    rw [lexeme_of_isNameStart hd]
    exact prefix_takeWhile hw.2 hlonger
  | sign hk =>
    rcases sign_cases hk with ⟨d, rfl, -⟩ | ⟨d, e, rfl, hsign⟩
    · exact hone hlonger
    · obtain ⟨hdigit, hname, -⟩ := sign_characters hk List.mem_cons_self
      obtain ⟨tail, htail⟩ := hlonger
      obtain ⟨rfl, rfl⟩ := List.cons.inj htail
      show [d, e] <+: (lexeme d (e :: tail)).chars
      rw [lexeme_of_sign hdigit hname, sign]
      simp only [hsign]
      exact List.prefix_rfl
  | stray => exact hone hlonger

theorem longest_lexeme (cs : List Char) (hblank : Text.isBlank c = false)
    (hhash : c ≠ '#') : Longest (lexeme c cs).chars (lexeme c cs).rest := by
  intro longer k hspelled hlonger
  rw [← (lexeme_spelled cs hblank hhash).1] at hlonger
  exact prefix_lexeme hblank hhash hspelled hlonger

/-! ## Tiles -/

/-- Tokens that tile the text `cs`, which stands after the text `before`: trivia and tokens in turn,
each token as long as it can be, and at last the end of the file. -/
inductive Tiled (file : Nat) : (before cs : List Char) → List Token → Prop
  | eof {before gap : List Char} (hgap : Trivia [] gap) :
    Tiled file before gap [⟨.eof, .point (.after (before ++ gap)) file⟩]
  | token {before gap text rest : List Char} {k : Kind} {ts : List Token}
    (hgap : Trivia (text ++ rest) gap) (htext : Spelled text k) (hlongest : Longest text rest)
    (h : Tiled file (before ++ gap ++ text) rest ts) :
    Tiled file before (gap ++ (text ++ rest))
      (⟨k, ⟨.after (before ++ gap), .after (before ++ gap ++ text), file⟩⟩ :: ts)

/-- Each round of the scanner lays one tile. -/
theorem tiled_tokensFrom (file : Nat) (done : List Token) (before cs : List Char) :
    ∃ ts, tokensFrom file done (.after before) cs = done.reverse ++ ts ∧
        Tiled file before cs ts := by
  -- The text that is left grows shorter with every lexeme.
  induction hn : cs.length using Nat.strong_induction_on generalizing done before cs with
  | _ n ih =>
  subst hn
  obtain ⟨gap, hcs, hpos, htrivia, hstarts⟩ := skipTrivia_spec false (.after before) cs
  rw [Position.advanceAll_after] at hpos
  rw [if_neg Bool.false_ne_true] at htrivia
  rw [tokensFrom]
  split
  · next q hskip =>
    rw [hskip] at hcs hpos htrivia
    dsimp only at hcs hpos htrivia
    subst hpos
    rw [List.append_nil] at hcs
    subst hcs
    exact ⟨[⟨.eof, .point (.after (before ++ cs)) file⟩], List.reverse_cons, .eof htrivia⟩
  · next q c rest hskip =>
    rw [hskip] at hcs hpos htrivia hstarts
    dsimp only at hcs hpos htrivia hstarts
    subst hpos
    obtain ⟨hblank, hhash⟩ := hstarts c rest rfl
    obtain ⟨hlexeme, hspelled⟩ := lexeme_spelled rest hblank hhash
    have hlongest := longest_lexeme rest hblank hhash
    have hshorter : (lexeme c rest).rest.length < cs.length := by
      have := lexeme_rest_length c rest
      rw [hcs, List.length_append]
      omega
    dsimp only
    rw [Position.advanceAll_after]
    obtain ⟨ts, hts, htiled⟩ := ih _ hshorter
      (⟨(lexeme c rest).kind, ⟨.after (before ++ gap),
        .after (before ++ gap ++ (lexeme c rest).chars), file⟩⟩ :: done)
      (before ++ gap ++ (lexeme c rest).chars) (lexeme c rest).rest rfl
    refine ⟨_, hts.trans (by rw [List.reverse_cons, List.append_assoc, List.singleton_append]), ?_⟩
    rw [hlexeme] at hcs htrivia
    rw [hcs]
    exact .token htrivia hspelled hlongest htiled

/-! ## Reading off the tiles -/

/-- The token is the piece `text` of the source between `before` and `rest`. Its kind is the one
thing that this text spells. -/
structure Cuts (file : Nat) (source : List Char) (t : Token) (before text rest : List Char) :
    Prop where
  source_eq : source = before ++ text ++ rest
  span_eq : t.span = ⟨.after before, .after (before ++ text), file⟩
  ne_nil : text ≠ []
  on_one_line : '\n' ∉ text
  spelled : ∀ k, Spelled text k ↔ k = t.kind
  longest : Longest text rest

/-- Between the two regions stand only blanks and comments. -/
def Apart (source : List Char) (a b : Span) : Prop :=
  ∃ before gap rest, source = before ++ gap ++ rest ∧ a.stop = .after before ∧
    b.start = .after (before ++ gap) ∧ Trivia rest gap

theorem Spelled.ne_eof (h : Spelled text k) : k ≠ .eof := by
  rintro rfl
  cases h with
  | keyword _ hk _ => exact absurd hk (by simp [keywords])
  | sign hk => exact absurd hk (by simp [signs])

namespace Tiled

variable {file : Nat} {before cs : List Char} {ts : List Token}

/-- The end of the file comes last, at the end of the source, and all tokens before it are cut out
of the source. -/
theorem cuts (h : Tiled file before cs ts) :
    ∃ init, ts = init ++ [⟨.eof, .point (.after (before ++ cs)) file⟩] ∧
      ∀ t ∈ init, t.kind ≠ .eof ∧ ∃ b text rest, Cuts file (before ++ cs) t b text rest := by
  induction h with
  | eof hgap => exact ⟨[], rfl, by simp⟩
  | @token before gap text rest k ts hgap htext hlongest h ih =>
    obtain ⟨init, rfl, hinit⟩ := ih
    have hsource : before ++ (gap ++ (text ++ rest)) = before ++ gap ++ text ++ rest := by simp
    rw [← hsource] at hinit ⊢
    refine ⟨_ :: init, rfl, fun t ht => ?_⟩
    rcases List.mem_cons.mp ht with rfl | ht
    · refine ⟨htext.ne_eof, before ++ gap, text, rest, hsource, rfl, htext.solid.1,
        htext.on_one_line, fun k' => ⟨fun hk' => hk'.unique htext, ?_⟩, hlongest⟩
      rintro rfl
      exact htext
    · exact hinit t ht

/-- From the end of what comes before, each token stands apart from the next. -/
theorem apart (h : Tiled file before cs ts) {a : Span} (ha : a.stop = .after before) :
    (a :: ts.map (·.span)).IsChain (Apart (before ++ cs)) := by
  induction h generalizing a with
  | @eof before gap hgap =>
    refine List.isChain_cons_cons.mpr ⟨⟨before, gap, [], ?_, ha, rfl, hgap⟩,
      List.isChain_singleton _⟩
    rw [List.append_nil]
  | @token before gap text rest k ts hgap htext hlongest h ih =>
    have hsource : before ++ gap ++ text ++ rest = before ++ (gap ++ (text ++ rest)) := by simp
    rw [hsource] at ih
    refine List.isChain_cons_cons.mpr ⟨⟨before, gap, text ++ rest, ?_, ha, rfl, hgap⟩, ih rfl⟩
    rw [List.append_assoc]

theorem offset_le (h : Tiled file before cs ts) :
    ∀ t ∈ ts, (Position.after before).offset ≤ t.span.start.offset := by
  induction h with
  | eof hgap =>
    intro t ht
    obtain rfl := List.mem_singleton.mp ht
    exact Position.offset_after_le _ _
  | @token before gap text rest k ts hgap htext hlongest h ih =>
    intro t ht
    rcases List.mem_cons.mp ht with rfl | ht
    · exact Position.offset_after_le _ _
    · calc (Position.after before).offset
          ≤ (Position.after (before ++ gap)).offset := Position.offset_after_le _ _
        _ ≤ (Position.after (before ++ gap ++ text)).offset := Position.offset_after_le _ _
        _ ≤ t.span.start.offset := ih t ht

theorem ordered (h : Tiled file before cs ts) : ts.Pairwise fun a b =>
    a.span.start.offset < b.span.start.offset ∧ a.span.stop.offset ≤ b.span.start.offset := by
  induction h with
  | eof hgap => exact List.pairwise_singleton _ _
  | @token before gap text rest k ts hgap htext hlongest h ih =>
    refine List.pairwise_cons.mpr ⟨fun t ht => ?_, ih⟩
    have hstop := h.offset_le t ht
    exact ⟨lt_of_lt_of_le (Position.offset_after_lt _ htext.solid.1) hstop, hstop⟩

end Tiled

end Scan

/-! ## Reports -/

/-- Whether the text of a token is no token. -/
def Kind.isBad : Kind → Bool
  | .bad _ => true
  | _ => false

theorem Fault.report_labels (fault : Fault) (span : Span) :
    (fault.report span).level = .error ∧ (fault.report span).labels.map (·.span) = [span] := by
  cases fault <;> exact ⟨rfl, rfl⟩

/-- Every bad token has its report, and nothing else is reported. -/
theorem scanReports_bad (tokens : List Token) :
    List.Forall₂ (fun t d => d.level = .error ∧ d.labels.map (·.span) = [t.span])
      (tokens.filter (·.kind.isBad)) (scanReports tokens) := by
  induction tokens with
  | nil => exact .nil
  | cons t tokens ih =>
    obtain ⟨k, span⟩ := t
    by_cases hbad : ∃ fault, k = .bad fault
    · obtain ⟨fault, rfl⟩ := hbad
      exact .cons (fault.report_labels span) ih
    · obtain ⟨hkind, hnone⟩ : k.isBad = false ∧ Token.report? ⟨k, span⟩ = none := by
        cases k with
        | bad fault => exact absurd ⟨fault, rfl⟩ hbad
        | _ => exact ⟨rfl, rfl⟩
      rw [List.filter_cons_of_neg (by simp [hkind]), scanReports, List.filterMap_cons_none hnone]
      exact ih

/-! ## The whole source -/

/-- The tokens of a source text tile it: the end of the file comes last and once, at the end of the
source; every other token is cut out of the source as the longest text that is a token, on one line
and at the positions that counting gives, and it is the token that this text spells; the tokens are
in order and do not overlap; between them, and before the first, stand only blanks and comments.
Exactly the bad tokens are reported, each with an error at its place. -/
theorem scan_tiles_source (file : Nat) (source : String) :
    (∃ ts, scan file source = ts ++ [⟨.eof, .point (.after source.toList) file⟩] ∧
      ∀ t ∈ ts, t.kind ≠ .eof ∧
        ∃ before text rest, Scan.Cuts file source.toList t before text rest) ∧
    ((scan file source).Pairwise fun a b =>
      a.span.start.offset < b.span.start.offset ∧ a.span.stop.offset ≤ b.span.start.offset) ∧
    (Span.point .origin file :: (scan file source).map (·.span)).IsChain
      (Scan.Apart source.toList) ∧
    List.Forall₂ (fun t d => d.level = .error ∧ d.labels.map (·.span) = [t.span])
      ((scan file source).filter (·.kind.isBad)) (scanReports (scan file source)) := by
  obtain ⟨ts, hts, htiled⟩ := Scan.tiled_tokensFrom file [] [] source.toList
  have hscan : scan file source = ts := hts
  rw [hscan]
  refine ⟨htiled.cuts, htiled.ordered, htiled.apart rfl, scanReports_bad ts⟩

end Codewright
