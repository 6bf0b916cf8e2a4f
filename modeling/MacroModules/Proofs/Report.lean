import MacroModules.Proofs.Token.Lines
import MacroModules.Report

/-!
# Excerpts quote the line they are about

An excerpt looks for its line by the offset at which a position says that its line begins, and for
the column of its carets by walking through the line. Both are compared here with the text cut into
lines, for positions that are true to the text.

* `Excerpt.lineAt_behind`: the line that is quoted is the one with the position's number.
* `Excerpt.padding_eq`: what is left free before the carets is as wide as what is shown there.
* `Excerpt.Points`, `Excerpt.points_render`: **an excerpt shows the line of its span, with the first
  caret below the character at which the span begins**.
-/

namespace MacroModules

theorem Position.lineStart_behind (cs : List Char) :
    (Position.behind cs).lineStart = lastLineStart cs := by
  have := lastLineStart_le cs
  simp only [Position.behind, Position.lineStart]
  omega

namespace Excerpt

theorem countBefore_natCast (cs : List Char) (n : Nat) : countBefore cs n = n := by
  simp [countBefore]

theorem lineAt_eq (before rest : List Char) : lineAt (before ++ rest) (.behind before) =
    (((before ++ rest).drop (lastLineStart before)).takeWhile (· != '\n')).rdropWhile
      (· == '\r') := by
  rw [lineAt, Position.lineStart_behind, countBefore_natCast]
  rfl

/-- **The line that is quoted has the number of the position**, and is quoted without carriage
returns at its end. -/
theorem lineAt_behind (before rest : List Char) :
    (((before ++ rest).splitOn '\n')[before.count '\n']?).map (·.rdropWhile (· == '\r')) =
      some (lineAt (before ++ rest) (.behind before)) := by
  rw [getElem?_splitOn_count, lineAt_eq]
  rfl

/-- The character behind a text is found in its line, as far as that goes. -/
theorem getElem?_lineAt (before rest : List Char) {i : Nat}
    (hi : i < (lineAt (before ++ rest) (.behind before)).length) :
    (lineAt (before ++ rest) (.behind before))[i]? =
      (before ++ rest)[lastLineStart before + i]? := by
  have hline : lineAt (before ++ rest) (.behind before) <+:
      (before ++ rest).drop (lastLineStart before) := by
    rw [lineAt_eq]
    exact (List.rdropWhile_prefix _ _).trans (List.takeWhile_prefix _)
  rw [← List.getElem?_drop]
  obtain ⟨tail, htail⟩ := hline
  rw [← htail, List.getElem?_append_left hi]

theorem foldl_displayWidth (cs : List Char) (width : Nat) :
    cs.foldl (fun width c => width + displayWidth c) width = width + (display cs).length := by
  induction cs generalizing width with
  | nil => rfl
  | cons c cs ih =>
    rw [List.foldl_cons, ih, display, display, List.flatMap_cons, List.length_append]
    by_cases hc : c = '\t'
    · simp only [displayWidth, hc, if_true, List.length_replicate]
      omega
    · simp only [displayWidth, hc, if_false, List.length_singleton]
      omega

/-- What is left free before the carets is as wide as what is shown there. -/
theorem padding_eq (line : List Char) (column : Int) :
    padding line column = (display (before line column)).length := by
  rw [padding, foldl_displayWidth, Nat.zero_add]

theorem caretCount_pos (line : List Char) (span : Span) : 0 < caretCount line span := by
  unfold caretCount
  dsimp only
  omega

/-! ## Excerpts -/

/-- The line of an excerpt that quotes the text. -/
def quoted (number : String) (line : List Char) : String :=
  number ++ " | " ++ String.ofList (display line)

/-- The line of an excerpt with the carets, behind a gutter and `pad` columns. -/
def marked (number : String) (pad carets : Nat) : String :=
  String.ofList (List.replicate (number.length + 1) ' ') ++ "| " ++
    String.ofList (List.replicate pad ' ') ++ String.ofList (List.replicate carets '^')

/-- The upper lines of an excerpt, an arrow to the place and an empty line. -/
def arrow (name : String) (p : Position) : String :=
  let gutter := String.ofList (List.replicate ((Int.repr p.line).length + 1) ' ')
  gutter ++ "--> " ++ name ++ ":" ++ Int.repr p.line ++ ":" ++ Int.repr p.column ++ "\n" ++
    gutter ++ "|"

theorem render_eq (name text : String) (span : Span) : render name text span =
    arrow name span.start ++ "\n" ++
      quoted (Int.repr span.start.line) (lineAt text.toList span.start) ++ "\n" ++
      marked (Int.repr span.start.line) (padding (lineAt text.toList span.start) span.start.column)
        (caretCount (lineAt text.toList span.start) span) := by
  have hbar : "|\n" = "|" ++ "\n" := rfl
  unfold render quoted marked arrow
  dsimp only
  rw [hbar]
  simp only [String.append_assoc]

/-- A text ends with the excerpt for a span: with the line of the span and with carets below it. -/
structure Points (text : String) (span : Span) (shown : String) (line : List Char)
    (pad carets : Nat) : Prop where
  /-- The line has the number of the span, and no carriage return at its end. -/
  line_eq : ((text.toList.splitOn '\n')[(span.start.line - 1).toNat]?).map
    (·.rdropWhile (· == '\r')) = some line
  shown_eq : ∃ above, shown = above ++ "\n" ++ quoted (Int.repr span.start.line) line ++ "\n" ++
    marked (Int.repr span.start.line) pad carets
  carets_pos : 0 < carets
  /-- The first caret is below the character at which the span begins. -/
  first_caret : span.start.column ≤ line.length → ∃ left c right, line = left ++ c :: right ∧
    (left.length + 1 : Int) = span.start.column ∧
    text.toList[span.start.offset.toNat]? = some c ∧ pad = (display left).length

/-- The character at which a span begins, in its line. -/
theorem exists_lineAt_eq (front rest : List Char)
    (h : (Position.behind front).column ≤ (lineAt (front ++ rest) (.behind front)).length) :
    ∃ left c right, lineAt (front ++ rest) (.behind front) = left ++ c :: right ∧
      (left.length + 1 : Int) = (Position.behind front).column ∧
      (front ++ rest)[front.length]? = some c ∧
      left = before (lineAt (front ++ rest) (.behind front)) (Position.behind front).column := by
  obtain ⟨i, hi⟩ := Nat.exists_eq_add_of_le (lastLineStart_le front)
  have hcolumn : (Position.behind front).column - 1 = (i : Int) := by
    simp only [Position.behind]
    omega
  have hlt : i < (lineAt (front ++ rest) (.behind front)).length := by
    omega
  have hchar := getElem?_lineAt front rest hlt
  rw [← hi] at hchar
  rw [before, hcolumn, countBefore_natCast]
  generalize lineAt (front ++ rest) (.behind front) = cs at hlt hchar ⊢
  obtain ⟨c, hc⟩ : ∃ c, cs[i]? = some c := ⟨_, List.getElem?_eq_getElem hlt⟩
  refine ⟨cs.take i, c, cs.drop (i + 1), ?_, ?_, hchar.symm.trans hc, rfl⟩
  · have hdrop : cs.drop i = c :: cs.drop (i + 1) := by
      rw [List.drop_eq_getElem?_toList_append, hc]
      rfl
    rw [← hdrop, List.take_append_drop]
  · rw [List.length_take_of_le (Nat.le_of_lt hlt)]
    omega

/-- **An excerpt points at its span**, if the span begins where it says. -/
theorem points_render {text : String} {front rest : List Char} {span : Span} (name : String)
    (htext : text.toList = front ++ rest) (hstart : span.start = .behind front) :
    Points text span (render name text span) (lineAt text.toList span.start)
      (padding (lineAt text.toList span.start) span.start.column)
      (caretCount (lineAt text.toList span.start) span) := by
  constructor
  case line_eq =>
    have hline : (span.start.line - 1).toNat = front.count '\n' := by
      rw [hstart]
      simp only [Position.behind]
      omega
    rw [hline, htext, hstart, lineAt_behind]
  case shown_eq => exact ⟨arrow name span.start, render_eq name text span⟩
  case carets_pos => exact caretCount_pos _ _
  case first_caret =>
    rw [hstart, htext]
    intro hcolumn
    obtain ⟨left, c, right, hline, hleft, hchar, hbefore⟩ := exists_lineAt_eq front rest hcolumn
    refine ⟨left, c, right, hline, hleft, ?_, by rw [padding_eq, hbefore]⟩
    simpa [Position.behind] using hchar

theorem Points.append_left {text shown : String} {span : Span} {line : List Char}
    {pad carets : Nat} (h : Points text span shown line pad carets) (above : String) :
    Points text span (above ++ shown) line pad carets := by
  obtain ⟨upper, hshown⟩ := h.shown_eq
  refine ⟨h.line_eq, ⟨above ++ upper, ?_⟩, h.carets_pos, h.first_caret⟩
  rw [hshown]
  simp only [String.append_assoc]

end Excerpt

end MacroModules
