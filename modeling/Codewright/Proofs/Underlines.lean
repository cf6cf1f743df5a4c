import Codewright.Diagnostic.Render
import Codewright.Proofs.SourceLines

/-!
# Underlines

A label is shown as its line with a row of markers under it. Both rows start with as many characters
before the first column, so a marker stands under the column that it marks (`Label.render_plain`).
The region of a label is that of tokens (`Span.Over`), which fixes the characters of the line it
starts on (`Over.shown`).

A region within a line is marked at its columns. For one that ends on a later line the last marker
is counted in bytes, so it stands under the last character of the line only where all characters of
the line take one byte each, and to the right of the line otherwise.
-/

namespace Codewright

open Source (Position Span File)

/-- A region of tokens: that of one of them, or of all from one such region to another. -/
inductive Source.Span.Over (tokens : List Token) : Span → Prop
  | token {t : Token} (h : t ∈ tokens) : Over tokens t.span
  | join {a b : Span} (ha : Over tokens a) (hb : Over tokens b) : Over tokens (a.join b)

namespace Source.Span.Over

variable {file : Nat} {source : String} {s : Span}

/-- A region of tokens starts where one of them starts and stops where one of them stops, in this
order. -/
theorem ends (h : s.Over (scan file source)) : s.file = file ∧ s.start.offset ≤ s.stop.offset ∧
    (∃ t ∈ scan file source, s.start = t.span.start) ∧ ∃ t ∈ scan file source,
      s.stop = t.span.stop := by
  induction h with
  | @token t ht =>
    rcases cuts_of_mem_scan ht with ⟨before, text, rest, hcuts⟩ | hend
    · have hspan := hcuts.span_eq
      exact ⟨by rw [hspan], by rw [hspan]; exact Position.offset_after_le _ _, ⟨t, ht, rfl⟩,
        ⟨t, ht, rfl⟩⟩
    · exact ⟨by rw [hend]; rfl, by rw [hend]; exact le_rfl, ⟨t, ht, rfl⟩, ⟨t, ht, rfl⟩⟩
  | @join a b ha hb iha ihb =>
    obtain ⟨hfile, hle, hstart, hstop⟩ := iha
    obtain ⟨-, hle', hstart', hstop'⟩ := ihb
    refine ⟨hfile, ?_, ?_, ?_⟩ <;> unfold Span.join <;> dsimp only
    · split_ifs <;> omega
    · split_ifs
      · exact hstart
      · exact hstart'
    · split_ifs
      · exact hstop
      · exact hstop'

/-- The line that a region starts on is shown. A region that goes on to a later line starts on a
shown character, and one that does not stops within the shown line or at the end of the source. -/
theorem shown (h : s.Over (scan file source)) (name : String) :
    ∃ shown, (File.ofText name source).line? s.start.line = some shown ∧ 1 ≤ s.start.column ∧
      (s.stop.line ≠ s.start.line → s.start.column ≤ shown.length) ∧
      (s.stop.line = s.start.line → s.stop.column ≤ shown.length + 1 ∨
        s.stop = .after source.toList) := by
  obtain ⟨-, hle, ⟨a, ha, hstart⟩, b, hb, hstop⟩ := h.ends
  have hlast : ∀ line, (File.ofText name source).line? s.stop.line = some line →
      s.stop.column ≤ line.length + 1 ∨ s.stop = .after source.toList := by
    rcases cuts_of_mem_scan hb with ⟨before, text, rest, hcuts⟩ | rfl
    · obtain ⟨line, hline, heq, -, -, hcolumn, -⟩ := hcuts.line? name
      intro line' hline'
      rw [hstop, heq, hline, Option.some.injEq] at hline'
      rw [hstop, ← hline']
      exact .inl hcolumn
    · exact fun _ _ => .inr hstop
  rcases cuts_of_mem_scan ha with ⟨before, text, rest, hcuts⟩ | rfl
  · obtain ⟨line, hline, -, hfirst, hwidth, hcolumn, -⟩ := hcuts.line? name
    rw [← hstart] at hline hfirst hwidth
    exact ⟨line, hline, hfirst, fun _ => by omega, fun hsame => hlast line (hsame ▸ hline)⟩
  · have hline := File.line?_after name (List.append_nil source.toList).symm
    have hsame : s.stop = s.start := by
      obtain ⟨front, hfront, hafter⟩ : ∃ front, front <+: source.toList ∧
          s.stop = .after front := by
        rcases cuts_of_mem_scan hb with ⟨before, text, rest, hcuts⟩ | rfl
        · exact ⟨before ++ text, ⟨rest, hcuts.source_eq.symm⟩, by rw [hstop, hcuts.span_eq]⟩
        · exact ⟨source.toList, List.prefix_rfl, hstop⟩
      obtain ⟨more, hmore⟩ := hfront
      have hback := Position.offset_after_le front more
      rw [hstart, hafter] at hle
      rw [hmore] at hback
      rw [hstart, hafter, Position.offset_after_inj ⟨more, hmore⟩ List.prefix_rfl
        (hback.antisymm hle)]
      rfl
    rw [hsame, hstart]
    exact ⟨_, hline, Nat.le_add_right 1 _, fun hne => absurd rfl hne, fun _ => .inr rfl⟩

end Source.Span.Over

/-! ## Rows -/

namespace Label

/-- A row that marks the columns from `first` to `last`. -/
def underline (marker : Char) (first last : Nat) : String :=
  row ' ' (first - 1) ++ row marker (last + 1 - first)

def marker (l : Label) : Char := if l.primary then '^' else '-'

/-- The last marked column. -/
def lastColumn (l : Label) (shown : String) : Nat :=
  max l.span.start.column
    (if l.span.stop.line = l.span.start.line then l.span.stop.column - 1 else shown.utf8ByteSize)

/-- What stands before the first column in the row of the line, and under it in the row of the
markers. -/
def number (l : Label) : String := " " ++ toString l.span.start.line ++ " | "

def gutter (l : Label) : String := " " ++ row ' ' (toString l.span.start.line).length ++
    " " ++ "|" ++ " "

theorem length_number (l : Label) : l.number.length = l.gutter.length := by
  simp [number, gutter, row]
  rfl

/-- A label without colours ends with the row of its line and the row of the markers. -/
theorem render_plain {files : Source.Files} {f : File} {shown : String} {l : Label}
    (hfile : files[l.span.file]? = some f) (hshown : f.line? l.span.start.line = some shown)
    (hcolumn : 1 ≤ l.span.start.column) : ∃ place, l.render .plain files "" =
      place ++ l.number ++ shown ++ "\n" ++ l.gutter ++
        underline l.marker l.span.start.column (l.lastColumn shown) ++ " " ++
            l.message ++ "\n" := by
  have hmarkers : row ' ' l.indent ++ row l.marker (l.width shown) =
      underline l.marker l.span.start.column (l.lastColumn shown) := by
    unfold underline indent width lastColumn indent
    congr 2
    split_ifs <;> omega
  refine ⟨" " ++ "-->" ++ " " ++ f.name ++ ":" ++ toString l.span.start.line ++ ":" ++
    toString l.span.start.column ++ "\n" ++ " " ++ row ' ' (toString l.span.start.line).length ++
      " " ++ "|" ++
    "\n", ?_⟩
  unfold render
  rw [hfile]
  dsimp only
  rw [hshown, ← hmarkers]
  cases hprimary : l.primary
  all_goals
    simp [marker, hprimary, Palette.plain, number, gutter, String.append_assoc,
      -String.reduceAppend]

end Label

/-- Bytes and characters are as many where every character takes one byte. -/
theorem utf8ByteSize_eq_length_iff (s : String) :
    s.length ≤ s.utf8ByteSize ∧ (s.utf8ByteSize = s.length ↔ ∀ c ∈ s.toList, c.utf8Size = 1) := by
  rw [← String.ofList_toList (s := s), String.toList_ofList, String.length_ofList]
  induction s.toList with
  | nil => simp
  | cons c cs ih =>
    have hpos := c.utf8Size_pos
    rw [← List.singleton_append, String.ofList_append, String.utf8ByteSize_append,
      ← String.singleton_eq_ofList,
      String.utf8ByteSize_singleton, List.length_append, List.length_singleton,
        List.singleton_append,
      List.forall_mem_cons, ← ih.2]
    omega

/-- The marked columns of a label, which are shown without colours under its line. Within a line
they are those of the region, at least one, and all are columns of the shown line unless the region
reaches to the end of the source. For a region that goes on to a later line they end with the number
of bytes of the shown line: never before its last character, and there if and only if every
character of the line takes one byte. -/
theorem underlines_mark_columns (name source : String) {file : Nat}
    {files : Source.Files} {l : Label} (hfile : files[file]? = some (File.ofText name source))
    (hspan : l.span.Over (scan file source)) :
    ∃ place shown, (File.ofText name source).line? l.span.start.line = some shown ∧
      l.render .plain files "" = place ++ l.number ++ shown ++ "\n" ++ l.gutter ++
        Label.underline l.marker l.span.start.column (l.lastColumn shown) ++ " " ++
          l.message ++ "\n" ∧
      l.number.length = l.gutter.length ∧
      (l.span.stop.line = l.span.start.line →
        l.lastColumn shown = max l.span.start.column (l.span.stop.column - 1) ∧
        (l.span.stop.column - 1 ≤ shown.length ∨ l.span.stop = .after source.toList)) ∧
      (l.span.stop.line ≠ l.span.start.line → l.span.start.column ≤ shown.length ∧
        shown.length ≤ l.lastColumn shown ∧
        (l.lastColumn shown = shown.length ↔ ∀ c ∈ shown.toList, c.utf8Size = 1)) := by
  obtain ⟨shown, hshown, hcolumn, hlater, hsame⟩ := hspan.shown name
  rw [← hspan.ends.1] at hfile
  obtain ⟨place, hrender⟩ := Label.render_plain hfile hshown hcolumn
  refine ⟨place, shown, hshown, hrender, l.length_number, fun hline => ⟨?_, ?_⟩, fun hline => ?_⟩
  · rw [Label.lastColumn, if_pos hline]
  · exact (hsame hline).imp_left fun h => by omega
  · have hstart := hlater hline
    obtain ⟨hle, hiff⟩ := utf8ByteSize_eq_length_iff shown
    rw [Label.lastColumn, if_neg hline, max_eq_right (hstart.trans hle)]
    exact ⟨hstart, hle, hiff⟩

namespace Accented

def source : String := "é(\n)"

/-- From the name to the closing parenthesis on the next line. -/
def label : Label := ⟨⟨⟨1, 1, 0⟩, ⟨2, 2, 5⟩, 0⟩, "here", true⟩

theorem label_over : label.span.Over (scan 0 source) := by
  have hscan :
    scan 0 source = [⟨.ident "é", ⟨⟨1, 1, 0⟩, ⟨1, 2, 2⟩, 0⟩⟩, ⟨.lparen, ⟨⟨1, 2, 2⟩, ⟨1, 3, 3⟩, 0⟩⟩,
      ⟨.rparen, ⟨⟨2, 1, 4⟩, ⟨2, 2, 5⟩, 0⟩⟩, ⟨.eof, .point ⟨2, 2, 5⟩ 0⟩] := by
    cbv
  rw [hscan]
  exact Span.Over.join (.token List.mem_cons_self)
    (.token (List.mem_cons_of_mem _ (List.mem_cons_of_mem _
    List.mem_cons_self)))

theorem underlines_mark_columns_accented :
    [File.ofText "a" source][0]? = some (File.ofText "a" source) ∧ label.span.Over (scan 0 source) ∧
    ∃ place shown, (File.ofText "a" source).line? 1 = some shown ∧
      label.render .plain [File.ofText "a" source] "" = place ++ label.number ++ shown ++ "\n" ++
        label.gutter ++
        Label.underline '^' 1 (label.lastColumn shown) ++ " " ++ "here" ++ "\n" ∧
      1 ≤ shown.length ∧ shown.length ≤ label.lastColumn shown ∧
      (label.lastColumn shown = shown.length ↔ ∀ c ∈ shown.toList, c.utf8Size = 1) := by
  have hfile : [File.ofText "a" source][0]? = some (File.ofText "a" source) := rfl
  obtain ⟨place, shown, hline, hrender, -, -, hlater⟩ :=
    underlines_mark_columns "a" source hfile label_over
  exact ⟨hfile, label_over, place, shown, hline, hrender, hlater (by decide)⟩

/-- Three markers under a line of two characters. -/
theorem underline_past_line : label.span.Over (scan 0 source) ∧
    (File.ofText "a" source).line? 1 = some "é(" ∧
    label.render .plain [File.ofText "a" source] "" =
        " --> a:1:1\n   |\n 1 | é(\n   | ^^^ here\n" := by
  refine ⟨label_over, ?_, ?_⟩
  · cbv
  · cbv

end Accented

end Codewright
