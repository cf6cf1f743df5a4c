import Codewright.Proofs.Scanning
import Codewright.Source.File

/-!
# Positions and lines

The scanner counts lines and columns while it reads, and a file keeps the offsets at which its lines
start. Here the two are compared. The text from one of these offsets to the next is a line of the
text cut at its line feeds (`File.lineAfter?_ofText`), and what has been begun of a line is as long
as the column of its position (`column_after`). So the line of a position is what stands around it
up to the next line feeds (`line?_after`), less the carriage returns at its end, and no token
reaches into these.
-/

namespace Codewright

open Source (Position Span File shownLine)

variable {source before text rest cs : List Char}

namespace Source

/-! ## Cutting a text into lines -/

/-- What stands on the last line of a text. -/
def lastLine (text : List Char) : List Char := (text.reverse.takeWhile (· != '\n')).reverse

theorem Position.column_after (text : List Char) :
    (Position.after text).column = 1 + (lastLine text).length := by
  simp [Position.after, lastLine]

theorem lastLine_append (h : '\n' ∉ cs) : lastLine (text ++ cs) = lastLine text ++ cs := by
  have hall : ∀ c ∈ cs.reverse, (c != '\n') = true := fun c hc =>
    bne_iff_ne.mpr fun hline => h (hline ▸ List.mem_reverse.mp hc)
  rw [lastLine, List.reverse_append, List.takeWhile_append_of_pos hall, List.reverse_append,
    List.reverse_reverse, lastLine]

/-- What is left of the lines of a text after the whole ones of its front: the line that the front
has begun goes on with what comes after. -/
theorem drop_splitOn (before cs : List Char) :
    ((before ++ cs).splitOn '\n').drop (before.count '\n') =
    (cs.splitOn '\n').modifyHead (lastLine before ++ ·) := by
  induction before using List.reverseRecOn generalizing cs with
  | nil => simp [lastLine, ← Function.id_def]
  | append_singleton before c ih =>
    have ih := ih (c :: cs)
    rw [List.splitOn_cons_eq_if_modifyHead] at ih
    rw [List.append_assoc, List.singleton_append, List.count_append]
    by_cases hc : c = '\n'
    · rw [if_pos (beq_iff_eq.mpr hc)] at ih
      rw [← List.drop_drop, ih]
      simp [hc, lastLine, ← Function.id_def]
    · rw [if_neg (by simpa using hc), List.modifyHead_modifyHead] at ih
      rw [List.count_singleton, if_neg (by simpa using hc), Nat.add_zero, ih]
      simp [hc, lastLine, Function.comp_def]

theorem length_splitOn (cs : List Char) : (cs.splitOn '\n').length = cs.count '\n' + 1 := by
  induction cs with
  | nil => simp
  | cons c cs ih =>
    rw [List.splitOn_cons_eq_if_modifyHead]
    by_cases hc : c = '\n' <;> simp [hc, ih]

theorem head?_splitOn (cs : List Char) :
    (cs.splitOn '\n').head? = some (cs.takeWhile (· != '\n')) := by
  induction cs with
  | nil => simp
  | cons c cs ih =>
    rw [List.splitOn_cons_eq_if_modifyHead]
    by_cases hc : c = '\n' <;> simp [hc, ih]

/-! ## The table of lines -/

/-- A text can be cut at the end of its front, which is no place within a character. -/
theorem cutAt?_append (front cs rest : List Char) :
    cutAt? front (String.utf8Len cs) (cs ++ rest) = some (front.reverse ++ cs, rest) := by
  induction cs generalizing front with
  | nil => simp [cutAt?]
  | cons c cs ih =>
    obtain ⟨n, hn⟩ :=
      Nat.exists_eq_add_one.mpr (Nat.add_pos_right (String.utf8Len cs) c.utf8Size_pos)
    rw [List.cons_append, String.utf8Len_cons, hn, cutAt?, if_pos (by omega), ← hn,
      Nat.add_sub_cancel, ih]
    simp

theorem slice?_append (before cs rest : List Char) : slice? (String.utf8Len before)
    (String.utf8Len (before ++ cs)) (before ++ (cs ++ rest)) = some cs := by
  rw [slice?, String.utf8Len_append, if_pos (Nat.le_add_right _ _), cutAt?_append,
    Nat.add_sub_cancel_left]
  simp [cutAt?_append]

theorem lineStartsFrom_append (starts more : Array Nat) (offset : Nat) (cs : List Char) :
    lineStartsFrom (starts ++ more) offset cs = starts ++ lineStartsFrom more offset cs := by
  induction cs generalizing more offset with
  | nil => rfl
  | cons c cs ih =>
    rw [lineStartsFrom, lineStartsFrom, ← ih]
    split_ifs <;> simp

theorem getElem?_zero_lineStartsFrom (start offset : Nat) (cs : List Char) :
    (lineStartsFrom #[start] offset cs)[0]? = some start := by
  have h := lineStartsFrom_append #[start] #[] offset cs
  rw [Array.append_empty] at h
  simp [h]

/-- From a line that has been begun with `current` on, the table gives the pieces between the line
feeds. -/
theorem File.lineAfter?_lineStartsFrom (name : String) (before current cs : List Char) (n : Nat) :
    File.lineAfter? ⟨name, String.ofList (before ++ (current ++ cs)),
      lineStartsFrom #[String.utf8Len before] (String.utf8Len (before ++ current)) cs⟩ n =
        ((cs.splitOn '\n').modifyHead (current ++ ·))[n]? := by
  induction cs generalizing before current n with
  | nil =>
    cases n with
    | zero =>
      simpa [lineAfter?, lineStartsFrom, String.utf8ByteSize_ofList] using slice?_append
        before current []
    | succ n => simp [lineAfter?, lineStartsFrom]
  | cons c cs ih =>
    rw [lineStartsFrom, List.splitOn_cons_eq_if_modifyHead]
    by_cases hc : c = '\n'
    · subst hc
      have hoffset : String.utf8Len (before ++ current) + 1 =
          String.utf8Len (before ++ (current ++ ['\n'])) := by
        rw [← List.append_assoc, String.utf8Len_append (before ++ current)]
        rfl
      -- The line at hand is done, and the next one has been begun with nothing.
      have hstarts := lineStartsFrom_append #[String.utf8Len before]
        #[String.utf8Len (before ++ (current ++ ['\n']))]
          (String.utf8Len (before ++ (current ++ ['\n']))) cs
      rw [if_pos rfl, if_pos (beq_self_eq_true _), show '\n'.utf8Size = 1 from rfl, hoffset,
        Array.push_eq_append, hstarts]
      cases n with
      | zero =>
        simpa [lineAfter?, Array.getElem?_append, getElem?_zero_lineStartsFrom, ← hoffset] using
          slice?_append before current ('\n' :: cs)
      | succ n =>
        simpa [lineAfter?, Array.getElem?_append, ← Function.id_def] using
          ih (before ++ (current ++ ['\n'])) [] n
    · have ih := ih before (current ++ [c]) n
      rw [if_neg hc, if_neg (by simpa using hc), List.modifyHead_modifyHead]
      simpa [Function.comp_def, Nat.add_assoc] using ih

theorem File.lineAfter?_ofText (name text : String) (n : Nat) :
    (ofText name text).lineAfter? n = (text.toList.splitOn '\n')[n]? := by
  have h := lineAfter?_lineStartsFrom name [] [] text.toList n
  simpa [ofText, ← Function.id_def] using h

/-! ## Lines as they are shown -/

/-- A shown line lacks the carriage returns at the end, all of them and nothing else. -/
theorem shownLine_spec (cs : List Char) : (∃ n, cs = shownLine cs ++ List.replicate n '\r') ∧
    ∀ front, shownLine cs ≠ front ++ ['\r'] := by
  constructor
  · refine ⟨(cs.rtakeWhile (· == '\r')).length, ?_⟩
    have hreturns :
        cs.rtakeWhile (· == '\r') = List.replicate (cs.rtakeWhile (· == '\r')).length '\r' :=
      List.eq_replicate_iff.mpr ⟨rfl, fun c hc => by simpa using List.mem_rtakeWhile_imp hc⟩
    rw [← hreturns]
    exact List.rdropWhile_append_rtakeWhile.symm
  · intro front h
    have hlast := List.rdropWhile_last_not (· == '\r') cs
    simp [show cs.rdropWhile (· == '\r') = front ++ ['\r'] from h] at hlast

theorem shownLine_append {c : Char} (front : List Char) (hc : c ≠ '\r') (cs : List Char) :
    ∃ tail, shownLine (front ++ c :: cs) = front ++ c :: tail := by
  induction cs using List.reverseRecOn with
  | nil =>
    refine ⟨[], ?_⟩
    show (front ++ [c]).rdropWhile (· == '\r') = _
    exact List.rdropWhile_concat_neg _ _ _ (by simpa using hc)
  | append_singleton cs d ih =>
    obtain ⟨tail, ih⟩ := ih
    by_cases hd : d = '\r'
    · refine ⟨tail, ?_⟩
      rw [← ih, ← List.cons_append, ← List.append_assoc]
      exact List.rdropWhile_concat_pos _ _ _ (by simpa using hd)
    · refine ⟨cs ++ [d], ?_⟩
      rw [← List.cons_append, ← List.append_assoc]
      exact List.rdropWhile_concat_neg _ _ _ (by simpa using hd)

theorem File.line?_after (name : String) {source : String} (h : source.toList = before ++ cs) :
    (File.ofText name source).line? (Position.after before).line =
      some (String.ofList (shownLine (lastLine before ++ cs.takeWhile (· != '\n')))) := by
  have hline : (Position.after before).line = before.count '\n' + 1 := Nat.add_comm _ _
  have hpiece := congrArg List.head? (drop_splitOn before cs)
  rw [List.head?_drop, List.head?_modifyHead, head?_splitOn] at hpiece
  rw [hline, File.line?, File.lineAfter?_ofText, h, hpiece]
  rfl

end Source

/-! ## Tokens on their lines -/

/-- The text of a region: what stands in the source between its two offsets. -/
def Source.Span.Holds (source : List Char) (s : Span) (text : List Char) : Prop :=
  ∃ before rest, source = before ++ text ++ rest ∧ (Position.after before).offset = s.start.offset ∧
    (Position.after (before ++ text)).offset = s.stop.offset

theorem Source.Position.offset_after_inj {a b : List Char} (ha : a <+: source) (hb : b <+: source)
    (h : (Position.after a).offset = (Position.after b).offset) : a = b := by
  have hmore : ∀ {a more : List Char}, (Position.after (a ++ more)).offset =
    (Position.after a).offset →
      more = [] := by
    intro a more h
    by_contra hne
    exact absurd h (Position.offset_after_lt a hne).ne'
  rcases List.prefix_or_prefix_of_prefix ha hb with ⟨more, rfl⟩ | ⟨more, rfl⟩
  · rw [hmore h.symm, List.append_nil]
  · rw [hmore h, List.append_nil]

theorem Source.Span.Holds.unique {s : Span} {text' : List Char} (h : s.Holds source text)
    (h' : s.Holds source text') : text = text' := by
  obtain ⟨before, rest, hsource, hstart, hstop⟩ := h
  obtain ⟨before', rest', hsource', hstart', hstop'⟩ := h'
  have hfront : before <+: source := ⟨text ++ rest, by rw [hsource, List.append_assoc]⟩
  have hfront' : before' <+: source := ⟨text' ++ rest', by rw [hsource', List.append_assoc]⟩
  obtain rfl := Position.offset_after_inj hfront hfront' (hstart.trans hstart'.symm)
  exact List.append_cancel_left (Position.offset_after_inj ⟨rest, hsource.symm⟩
    ⟨rest', hsource'.symm⟩
    (hstop.trans hstop'.symm))

theorem Source.File.lines_joined (name source : String) : ∃ lines : List String,
    (∀ n, (File.ofText name source).line? n = if n = 0 then none else lines[n - 1]?) ∧
    lines.length = source.toList.count '\n' + 1 ∧
    (∀ line ∈ lines, ∀ front, line.toList ≠ front ++ ['\r']) ∧
    ∃ returns : List Nat, returns.length = lines.length ∧ source.toList =
      ['\n'].intercalate (lines.zipWith (fun line n => line.toList ++ List.replicate n '\r')
        returns) := by
  choose returns hreturns using fun cs => (shownLine_spec cs).1
  refine ⟨(source.toList.splitOn '\n').map fun cs => String.ofList (shownLine cs),
    fun n => ?_, ?_, ?_,
    (source.toList.splitOn '\n').map returns, by simp, ?_⟩
  · cases n with
    | zero => rfl
    | succ n => simp [File.line?, File.lineAfter?_ofText]
  · rw [List.length_map, length_splitOn]
  · simp only [List.forall_mem_map, String.toList_ofList]
    exact fun cs _ => (shownLine_spec cs).2
  · rw [List.zipWith_map, List.zipWith_self]
    simp only [String.toList_ofList, ← hreturns, List.map_id', List.intercalate_splitOn]

/-- The tokens of a source are cut out of it, up to the end of the file at its end. -/
theorem cuts_of_mem_scan {file : Nat} {source : String} {t : Token} (h : t ∈ scan file source) :
    (∃ before text rest, Scan.Cuts file source.toList t before text rest) ∨
      t = ⟨.eof, .point (.after source.toList) file⟩ := by
  obtain ⟨ts, hts, htiled⟩ := Scan.tiled_tokensFrom file [] [] source.toList
  obtain ⟨init, rfl, hinit⟩ := htiled.cuts
  have hscan : scan file source = init ++ [⟨.eof, .point (.after source.toList) file⟩] := hts
  rw [hscan] at h
  rcases List.mem_append.mp h with h | h
  · exact .inl (hinit t h).2
  · exact .inr (List.mem_singleton.mp h)

theorem Scan.Cuts.solid {file : Nat} {t : Token} (h : Cuts file source t before text rest) :
    ∀ c ∈ text, Text.isBlank c = false :=
  ((h.spelled t.kind).mpr rfl).solid.2

/-- A token stands on the line of its start, at its columns. As its last character is no carriage
return, it is shown with all that comes before it on the line. -/
theorem Scan.Cuts.line? {file : Nat} {source : String} {t : Token} (name : String)
    (h : Cuts file source.toList t before text rest) :
    ∃ line, (File.ofText name source).line? t.span.start.line = some line ∧
      t.span.stop.line = t.span.start.line ∧ 1 ≤ t.span.start.column ∧
      t.span.start.column < t.span.stop.column ∧ t.span.stop.column ≤ line.length + 1 ∧
      (line.toList.drop (t.span.start.column - 1)).take (t.span.stop.column - t.span.start.column) =
        text := by
  have hall : ∀ c ∈ text, (c != '\n') = true := fun c hc =>
    bne_iff_ne.mpr fun hline => h.on_one_line (hline ▸ hc)
  obtain ⟨front, c, rfl⟩ : ∃ front c, text = front ++ [c] :=
    ⟨_, _, (List.dropLast_append_getLast h.ne_nil).symm⟩
  have hc : c ≠ '\r' := by
    rintro rfl
    exact absurd (h.solid '\r' (by simp)) (by decide)
  obtain ⟨tail, htail⟩ := Source.shownLine_append (Source.lastLine before ++ front) hc
    (rest.takeWhile (· != '\n'))
  have hline := File.line?_after name (h.source_eq.trans (List.append_assoc _ _ _))
  rw [List.takeWhile_append_of_pos hall, ← List.append_assoc, ← List.append_assoc,
    List.append_assoc _ [c], List.singleton_append, htail] at hline
  have hcolumn := Position.column_after before
  have hcolumn' := Position.column_after (before ++ (front ++ [c]))
  rw [Source.lastLine_append h.on_one_line, List.length_append] at hcolumn'
  rw [List.length_append, List.length_singleton] at hcolumn'
  rw [h.span_eq]
  dsimp only
  have hsame : (Position.after (before ++ (front ++ [c]))).line = (Position.after before).line := by
    simp [Position.after, List.count_eq_zero_of_not_mem h.on_one_line]
  refine ⟨_, hline, hsame, by omega, by omega, ?_, ?_⟩
  · simp only [String.length_ofList, List.length_append, List.length_cons]
    omega
  · rw [hcolumn, hcolumn', String.toList_ofList, List.append_assoc, List.drop_left' (by omega),
      ← List.singleton_append, ← List.append_assoc, List.take_left' (by simp; omega)]

/-- The positions of the scanner and the lines of the file agree. The lines that are given for 1, 2
and so on are one more than the line feeds; joined by line feeds, with the carriage returns that are
not shown put back at their ends, they are the source. Every token but the end of the file lies on
the line of its start, and the characters of this line from its start column up to its stop column
are the text of its region. -/
theorem positions_agree_with_lines (name source : String) (file : Nat) :
    (∃ lines : List String,
      (∀ n, (File.ofText name source).line? n = if n = 0 then none else lines[n - 1]?) ∧
      lines.length = source.toList.count '\n' + 1 ∧
      (∀ line ∈ lines, ∀ front, line.toList ≠ front ++ ['\r']) ∧
      ∃ returns : List Nat, returns.length = lines.length ∧ source.toList =
        ['\n'].intercalate
        (lines.zipWith (fun line n => line.toList ++ List.replicate n '\r') returns)) ∧
    ∀ t ∈ scan file source, t.kind ≠ .eof → ∃ line,
      (File.ofText name source).line? t.span.start.line = some line ∧
      t.span.stop.line = t.span.start.line ∧ 1 ≤ t.span.start.column ∧
      t.span.start.column < t.span.stop.column ∧ t.span.stop.column ≤ line.length + 1 ∧
      ∀ text, t.span.Holds source.toList text ↔
        (line.toList.drop (t.span.start.column - 1)).take
        (t.span.stop.column - t.span.start.column) = text := by
  refine ⟨File.lines_joined name source, fun t ht hkind => ?_⟩
  rcases cuts_of_mem_scan ht with ⟨before, text, rest, hcuts⟩ | rfl
  · obtain ⟨line, hline, hstop, hfirst, hwidth, hlast, htext⟩ := hcuts.line? name
    have hholds : t.span.Holds source.toList text :=
      ⟨before, rest, hcuts.source_eq, by rw [hcuts.span_eq], by rw [hcuts.span_eq]⟩
    refine ⟨line, hline, hstop, hfirst, hwidth, hlast, fun text' => ?_⟩
    rw [htext]
    exact ⟨hholds.unique, fun h => h ▸ hholds⟩
  · exact absurd rfl hkind

end Codewright
