import Codewright.Proofs.Scanning
import Codewright.Proofs.Surface.Modules

/-!
# Integers as they are written

A constant is declared as an integer with its decimal digits, behind a minus if it is negative and
with any number of zeros in front. Which tokens a text gives is put together from its lexemes
(`Scans`), so the tokens of such a declaration are known up to the kind of its digits
(`scans_constant`), and a declaration of these tokens is read as the constant.

The digits are checked before the minus is seen, and have to be below 2 ^ 63. So every integer of 64
bits can be written but the least one, whose digits are reported.
-/

namespace Codewright

open Source (Position Span)

namespace Scan

variable {cs ds rest : List Char} {c : Char} {k : Kind} {ks : List Kind}

/-! ## Kinds of the tokens of a text -/

theorem tokensFrom_eq (file : Nat) (done : List Token) (p : Position) (cs : List Char) :
    tokensFrom file done p cs = match skipTrivia false p cs with
      | (q, []) => (⟨.eof, .point q file⟩ :: done).reverse
      | (q, c :: rest) => tokensFrom file
          (⟨(lexeme c rest).kind, ⟨q, q.advanceAll (lexeme c rest).chars, file⟩⟩ :: done)
          (q.advanceAll (lexeme c rest).chars) (lexeme c rest).rest := by
  rw [tokensFrom]
  split <;> next heq => simp only [heq]

/-- The kinds of the tokens of a text, wherever it stands. -/
def Scans (cs : List Char) (ks : List Kind) : Prop :=
  ∀ file done p, (tokensFrom file done p cs).map (·.kind) = (done.map (·.kind)).reverse ++ ks

theorem Scans.nil : Scans [] [.eof] := fun file done p => by
  rw [tokensFrom_eq, skipTrivia]
  simp

theorem Scans.blank (hc : Text.isBlank c = true) (h : Scans cs ks) : Scans (c :: cs) ks := by
  intro file done p
  rw [tokensFrom_eq, skipTrivia, if_neg Bool.false_ne_true, if_pos hc, ← tokensFrom_eq]
  exact h file done _

theorem Scans.token {chars : List Char} (hblank : Text.isBlank c = false) (hhash : c ≠ '#')
    (hlexeme : lexeme c cs = ⟨k, chars, rest⟩) (h : Scans rest ks) : Scans (c :: cs) (k :: ks) := by
  intro file done p
  rw [tokensFrom_eq, skipTrivia, if_neg Bool.false_ne_true, if_neg (by simp [hblank]), if_neg hhash]
  simp only [hlexeme]
  rw [h]
  simp

theorem Scans.digits (h : IsDigits ds) : Scans ds [wholeKind ds, .eof] := by
  obtain ⟨d, ds', rfl, hd⟩ := h.exists_cons
  have hnumber : number (d :: ds' ++ []) = _ := number_whole h (by simp) (by simp)
  rw [List.append_nil, ← lexeme_of_isDigit hd] at hnumber
  refine .token (isBlank_of_isDigit hd) ?_ hnumber .nil
  rintro rfl
  exact absurd hd (by decide)

end Scan

/-! ## Declarations of integers -/

/-- The decimal digits of a number with zeros in front. -/
def padded (zeros n : Nat) : List Char := List.replicate zeros '0' ++ Nat.toDigits 10 n

/-- The declaration of a constant `k` by digits, behind a minus or not. -/
def constantText (negative : Bool) (digits : List Char) : String :=
  String.ofList ("const int k = ".toList ++ ((if negative then ['-'] else []) ++ digits))

/-- The declaration of a constant `k` that is the integer `v`. -/
def written (v : Int64) (zeros : Nat) : String := constantText (v < 0) (padded zeros v.toInt.natAbs)

theorem isDigits_padded (zeros n : Nat) : Scan.IsDigits (padded zeros n) := by
  refine ⟨fun h => Nat.toDigits_ne_nil (List.append_eq_nil_iff.mp h).2, fun d hd => ?_⟩
  rcases List.mem_append.mp hd with hd | hd
  · rw [List.eq_of_mem_replicate hd]
    decide
  · have hdigit := Nat.isDigit_of_mem_toDigits (by decide) (by decide) hd
    simp only [Char.isDigit, Bool.and_eq_true, decide_eq_true_eq] at hdigit
    simp only [Scan.isDigit, Bool.and_eq_true, decide_eq_true_eq]
    exact hdigit

theorem value_padded (zeros n : Nat) : Nat.ofDigitChars 10 (padded zeros n) 0 = n := by
  rw [padded, Nat.ofDigitChars_append, Nat.ofDigitChars_replicate_zero, Nat.mul_zero,
    Nat.ofDigitChars_ten_toDigits]

theorem Scan.lexemes_constant (tail : List Char) :
    lexeme 'c' ('o' :: 'n' :: 's' :: 't' :: ' ' :: tail) = ⟨.kwConst, ['c', 'o', 'n', 's', 't'],
      ' ' :: tail⟩ ∧
    lexeme 'i' ('n' :: 't' :: ' ' :: tail) = ⟨.typeName .int, ['i', 'n', 't'], ' ' :: tail⟩ ∧
    lexeme 'k' (' ' :: tail) = ⟨.ident "k", ['k'], ' ' :: tail⟩ ∧
    lexeme '=' (' ' :: tail) = ⟨.equals, ['='], ' ' :: tail⟩ := by
  refine ⟨?_, ?_, ?_, ?_⟩ <;> cbv

/-- The tokens of the declaration are known up to the kind of the digits. -/
theorem Scan.scans_constant (negative : Bool) {ds : List Char} (h : IsDigits ds) :
    Scans (constantText negative ds).toList ([.kwConst, .typeName .int, .ident "k", .equals] ++
      ((if negative then [.minus] else []) ++ [wholeKind ds, .eof])) := by
  have hvalue : Scans ((if negative then ['-'] else []) ++ ds)
      ((if negative then [.minus] else []) ++ [wholeKind ds, .eof]) := by
    cases negative with
    | false => exact .digits h
    | true => exact .token (by decide) (by decide) (by cases ds <;> cbv) (.digits h)
  have htext : "const int k = ".toList =
      ['c', 'o', 'n', 's', 't', ' ', 'i', 'n', 't', ' ', 'k', ' ', '=', ' '] := by
    cbv
  have hchars : (constantText negative ds).toList = "const int k = ".toList ++ _ :=
    String.toList_ofList
  rw [hchars, htext]
  exact .token (by decide) (by decide) (lexemes_constant _).1 (.blank (by decide)
    (.token (by decide) (by decide) (lexemes_constant _).2.1 (.blank (by decide)
      (.token (by decide) (by decide) (lexemes_constant _).2.2.1 (.blank (by decide)
        (.token (by decide) (by decide) (lexemes_constant _).2.2.2 (.blank (by decide) hvalue)))))))

/-! ## What is read and reported -/

theorem ofNat_natAbs {v : Int64} (hv : v ≠ .minValue) : v.toInt.natAbs < 2 ^ 63 ∧
    Int64.ofNat v.toInt.natAbs = if v < 0 then -v else v := by
  have hlt := v.toInt_lt
  have hle := v.le_toInt
  have hne : v.toInt ≠ -2 ^ 63 :=
    fun h => hv (Int64.toInt_inj.mp (h.trans Int64.toInt_minValue.symm))
  refine ⟨by omega, ?_⟩
  rw [← Int64.ofInt_eq_ofNat]
  by_cases hneg : v < 0
  · have hsign : v.toInt < 0 := Int64.lt_iff_toInt_lt.mp hneg
    rw [if_pos hneg, Int.ofNat_natAbs_of_nonpos hsign.le, Int64.ofInt_neg, Int64.ofInt_toInt]
  · have hsign : 0 ≤ v.toInt := not_lt.mp fun h => hneg (Int64.lt_iff_toInt_lt.mpr h)
    rw [if_neg hneg, Int.natAbs_of_nonneg hsign, Int64.ofInt_toInt]

theorem value_kinds {v : Int64} (hv : v ≠ .minValue) (zeros : Nat) :
    (if v < 0 then [.minus] else []) ++ [Scan.wholeKind (padded zeros v.toInt.natAbs)] =
      Surface.initialKinds (.int v) := by
  obtain ⟨hfits, hvalue⟩ := ofNat_natAbs hv
  rw [Scan.wholeKind_of_lt (by rwa [value_padded]), value_padded, hvalue, Surface.initialKinds]
  split <;> rfl

/-- A file without a header and imports is read as the module `main` of its declarations. -/
theorem Surface.parseModule_of_declarations (closed : Bool) {ds : List Surface.Read.Declaration}
    {tokens : List Token} (hsettled : ∀ x ∈ ds, x.settled = true)
    (hkinds : (Stream.ofTokens tokens).ahead.map (·.kind) = ds.flatMap fun x =>
      x.rendering ++ closing closed) :
    ∃ m, parseModule tokens = (m, []) ∧ m.unplaced =
      ⟨"main", [], (ds.filterMap Read.Declaration.constant?).map Constant.unplaced,
        (ds.filterMap Read.Declaration.function?).map Function.unplaced, default⟩ := by
  have hopens := atPart_of_declarations hsettled hkinds
  have hmodule : front (Stream.ofTokens tokens).ahead ≠ some .kwModule :=
    fun hfront => nomatch hopens _ hfront
  have himport : front (Stream.ofTokens tokens).ahead ≠ some .kwImport :=
    fun hfront => nomatch hopens _ hfront
  have hheader : Read.header (Stream.ofTokens tokens).eof (Stream.ofTokens tokens).ahead
      = ({}, (Stream.ofTokens tokens).ahead) := by
    rw [Read.header, Read.after?_eq_none hmodule]
  have hnone : ([] : List Token).map (·.kind) = ([] : List Import).flatMap
    (Import.rendering closed) := rfl
  obtain ⟨is, his, himports⟩ :=
    imports_of_rendering closed {} (fun k hfront => .inr (hopens k hfront)) himport hnone
  obtain rfl := List.map_eq_nil_iff.mp his
  obtain ⟨ds', hds, hdeclarations⟩ := declarations_of_rendering closed _ hsettled hkinds
  obtain ⟨span, hparse⟩ := parseModule_eq tokens hheader himports
  rw [hdeclarations, foldl_declare] at hparse
  refine ⟨_, hparse, ?_⟩
  simp only [Module.unplaced, List.append_nil, List.reverse_reverse, filterMap_constant?_unplaced,
    filterMap_function?_unplaced, hds]
  rfl

/-- The code of the report on a token. -/
def Kind.faultCode? : Kind → Option (Option Code)
  | .bad (.number _) => some (some .invalidNumber)
  | .bad (.character _) => some (some .unexpectedCharacter)
  | _ => none

theorem codes_scanReports (tokens : List Token) :
    (scanReports tokens).map (·.code) = (tokens.map (·.kind)).filterMap Kind.faultCode? := by
  rw [scanReports, List.map_filterMap, List.filterMap_map]
  refine List.filterMap_congr fun t _ => ?_
  obtain ⟨k, span⟩ := t
  cases k with
  | bad fault => cases fault <;> rfl
  | _ => rfl

theorem Scan.Scans.kinds {text : String} {ks : List Kind} (h : Scans text.toList ks) (file : Nat) :
    (scan file text).map (·.kind) = ks :=
  h file [] _

/-- The constant that the declaration of `v` declares. -/
def writtenConstant (v : Int64) : Surface.Constant := ⟨"k", false, .int, .int v, default⟩

theorem rendering_writtenConstant (v : Int64) :
    (Surface.Read.Declaration.constant (writtenConstant v)).rendering =
    .kwConst :: .typeName .int :: .ident "k" :: .equals :: Surface.initialKinds (.int v) :=
  rfl

theorem kinds_written {v : Int64} (hv : v ≠ .minValue) (zeros file : Nat) :
    (scan file (written v zeros)).map (·.kind) =
      (Surface.Read.Declaration.constant (writtenConstant v)).rendering ++ [.eof] := by
  have hscans := Scan.scans_constant (decide (v < 0)) (isDigits_padded zeros v.toInt.natAbs)
  rw [written, hscans.kinds, rendering_writtenConstant, ← value_kinds hv zeros]
  simp

theorem faultCode?_rendering (v : Int64) :
    ∀ k ∈ (Surface.Read.Declaration.constant (writtenConstant v)).rendering,
    k ≠ .eof ∧ Kind.faultCode? k = none := by
  rw [rendering_writtenConstant, Surface.initialKinds]
  split <;> simp [Kind.faultCode?]

theorem ahead_written {v : Int64} (hv : v ≠ .minValue) (zeros file : Nat) :
    (Surface.Stream.ofTokens (scan file (written v zeros))).ahead.map (·.kind) =
      (Surface.Read.Declaration.constant (writtenConstant v)).rendering :=
  calc (Surface.Stream.ofTokens (scan file (written v zeros))).ahead.map (·.kind)
      = ((scan file (written v zeros)).map (·.kind)).takeWhile (· != .eof) := by
        rw [List.takeWhile_map]; rfl
    _ = _ := by
      rw [kinds_written hv, List.takeWhile_append_of_pos]
      · simp
      · intro k hk
        exact bne_iff_ne.mpr (faultCode?_rendering v k hk).1

/-- Digits that make too large a number are the only thing reported of a text that ends with
them. -/
theorem codes_of_large {ds : List Char} (h : 2 ^ 63 ≤ Nat.ofDigitChars 10 ds 0) {text : String}
    {ks : List Kind} (hscans : Scan.Scans text.toList (ks ++ [Scan.wholeKind ds, .eof]))
    (hks : ∀ k ∈ ks, Kind.faultCode? k = none)
    (file : Nat) : (scanReports (scan file text)).map (·.code) = [some .invalidNumber] := by
  rw [codes_scanReports, hscans.kinds, Scan.wholeKind_of_le h, List.filterMap_append,
    List.filterMap_eq_nil_iff.mpr hks]
  rfl

theorem codes_constant_of_large {ds : List Char} (hds : Scan.IsDigits ds)
    (h : 2 ^ 63 ≤ Nat.ofDigitChars 10 ds 0) (negative : Bool) (file : Nat) :
    (scanReports (scan file (constantText negative ds))).map (·.code) = [some .invalidNumber] := by
  have hscans := Scan.scans_constant negative hds
  rw [← List.append_assoc] at hscans
  refine codes_of_large h hscans (fun k hk => ?_) file
  cases negative <;> revert k <;> simp [Kind.faultCode?]

/-- Every integer but the least is read as it is written, and digits that make 2 ^ 63 or more are
reported once. -/
theorem integers_written_but_least (file : Nat) :
    (∀ (v : Int64) (zeros : Nat), v ≠ .minValue →
      scanReports (scan file (written v zeros)) = [] ∧
      ∃ m, Surface.parseModule (scan file (written v zeros)) = (m, []) ∧
        m.unplaced = ⟨"main", [], [⟨"k", false, .int, .int v, default⟩], [], default⟩) ∧
    (∀ zeros : Nat,
      (scanReports (scan file (written .minValue zeros))).map (·.code) = [some .invalidNumber]) ∧
    ∀ ds : List Char, Scan.IsDigits ds → 2 ^ 63 ≤ Nat.ofDigitChars 10 ds 0 →
      (scanReports (scan file (String.ofList ds))).map (·.code) = [some .invalidNumber] ∧
      ∀ negative, (scanReports (scan file (constantText negative ds))).map (·.code) =
          [some .invalidNumber] := by
  refine ⟨fun v zeros hv => ⟨?_, ?_⟩, fun zeros => ?_, fun ds hds hlarge =>
    ⟨?_, fun negative => ?_⟩⟩
  · rw [← List.map_eq_nil_iff, codes_scanReports, kinds_written hv, List.filterMap_append,
      List.filterMap_eq_nil_iff.mpr fun k hk => (faultCode?_rendering v k hk).2]
    rfl
  · have hsettled : ∀ x ∈ [Surface.Read.Declaration.constant (writtenConstant v)],
        x.settled = true := by
      simp [Surface.Read.Declaration.settled]
    refine Surface.parseModule_of_declarations false hsettled ?_
    rw [ahead_written hv]
    simp [Surface.closing]
  · refine codes_constant_of_large (isDigits_padded zeros _) ?_ true file
    rw [value_padded]
    decide
  · have hscans : Scan.Scans (String.ofList ds).toList ([] ++ [Scan.wholeKind ds, .eof]) := by
      rw [String.toList_ofList]
      exact .digits hds
    exact codes_of_large hlarge hscans (by simp) file
  · exact codes_constant_of_large hds hlarge negative file

theorem integers_written_but_least_negative :
    (-9223372036854775807 : Int64) ≠ .minValue ∧
    written (-9223372036854775807) 2 = "const int k = -009223372036854775807" ∧
    (scanReports (scan 0 (written (-9223372036854775807) 2)) = [] ∧
      ∃ m, Surface.parseModule (scan 0 (written (-9223372036854775807) 2)) = (m, []) ∧
        m.unplaced = ⟨"main", [], [⟨"k", false, .int, .int (-9223372036854775807), default⟩],
          [], default⟩) ∧
    (scanReports (scan 0 (String.ofList (padded 3 (2 ^ 63 + 1))))).map (·.code) =
    [some .invalidNumber] :=
  ⟨by decide, by decide +kernel, (integers_written_but_least 0).1 _ 2 (by decide),
    ((integers_written_but_least 0).2.2 _ (isDigits_padded 3 (2 ^ 63 + 1))
      (by rw [value_padded]; decide)).1⟩

/-- The least integer is not read as it is written: its digits are reported, and there is no
constant. -/
theorem least_integer_refused :
    written .minValue 0 = "const int k = -9223372036854775808" ∧
    (scanReports (scan 0 "const int k = -9223372036854775808")).map (·.code) =
    [some .invalidNumber] ∧
    (Surface.parseModule (scan 0 "const int k = -9223372036854775808")).1.constants = [] :=
  ⟨by decide +kernel, by cbv, by cbv⟩

end Codewright
