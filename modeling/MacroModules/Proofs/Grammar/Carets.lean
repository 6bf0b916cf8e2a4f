import Mathlib.Order.Interval.Finset.Nat
import MacroModules.Proofs.Grammar.Diagnostics
import MacroModules.Proofs.Text.Parts

/-!
# What the carets stand under

The carets of an excerpt begin below the first character of a span, and there are as many of them as
the span has characters on its line. A tab, however, is one character and takes four columns when
the line is shown. So the carets reach to the end of the span unless there is a tab inside it.

* `Excerpt.columns`: the columns in which a line shows some of its characters.
* `Excerpt.Underlines`: carets below exactly these columns.
* `Excerpt.exists_hidden`: the part of a span that its line does not show is a line end.
* `Excerpt.underlines_iff`: carets as many as characters are right if there is no tab.
* `carets_below_span`: **the carets of a report stand below the span, up to the tabs in it**.
-/

namespace MacroModules

namespace Excerpt

/-! ## Columns -/

/-- The columns that the character at an index takes when the line is shown. There are none behind
the end of the line. -/
def columnsAt (line : List Char) (i : Nat) : Finset Nat :=
  Finset.Ico (display (line.take i)).length (display (line.take (i + 1))).length

/-- The columns in which a line shows the characters from an index up to another. -/
def columns (line : List Char) (i j : Nat) : Finset Nat := (Finset.Ico i j).biUnion (columnsAt line)

/-- Carets behind so many columns stand below exactly those in which the line shows the characters
from `i` up to `j`, or below a single column if there are none. -/
def Underlines (line : List Char) (i j pad carets : Nat) : Prop :=
  if columns line i j = ∅ then carets = 1 else Finset.Ico pad (pad + carets) = columns line i j

theorem length_display (line : List Char) :
    (display line).length = line.length + 3 * line.count '\t' := by
  induction line with
  | nil => rfl
  | cons c line ih =>
    unfold display at ih ⊢
    rw [List.flatMap_cons, List.length_append, ih]
    by_cases hc : c = '\t'
    · simp only [hc, if_true, List.length_replicate, tabWidth, List.length_cons,
        List.count_cons_self]
      omega
    · simp only [hc, if_false, List.length_cons, List.length_nil, List.count_cons_of_ne hc]
      omega

theorem length_display_take_add (line : List Char) (i n : Nat) :
    (display (line.take (i + n))).length =
      (display (line.take i)).length + (display ((line.drop i).take n)).length := by
  rw [List.take_add]
  unfold display
  rw [List.flatMap_append, List.length_append]

/-- Characters in a row take columns in a row. -/
theorem columns_add (line : List Char) (i n : Nat) : columns line i (i + n) =
    Finset.Ico (display (line.take i)).length
      ((display (line.take i)).length + (display ((line.drop i).take n)).length) := by
  rw [← length_display_take_add]
  induction n with
  | zero => simp [columns]
  | succ n ih =>
    have hnext := length_display_take_add line i n
    have hlast := length_display_take_add line (i + n) 1
    ext c
    have hcolumns : c ∈ columns line i (i + (n + 1)) ↔
        c ∈ columns line i (i + n) ∨ c ∈ columnsAt line (i + n) := by
      simp only [columns, Finset.mem_biUnion, Finset.mem_Ico]
      constructor
      · rintro ⟨k, hk, hc⟩
        rcases Nat.lt_or_ge k (i + n) with hlt | hge
        · exact .inl ⟨k, ⟨hk.1, hlt⟩, hc⟩
        · obtain rfl : k = i + n := by omega
          exact .inr hc
      · rintro (⟨k, hk, hc⟩ | hc)
        · exact ⟨k, ⟨hk.1, by omega⟩, hc⟩
        · exact ⟨i + n, ⟨by omega, by omega⟩, hc⟩
    rw [hcolumns, ih, columnsAt, Finset.mem_Ico, Finset.mem_Ico, Finset.mem_Ico, Nat.add_assoc]
    rw [Nat.add_assoc] at hlast
    omega

/-- **Carets as many as characters are right if there is no tab**, and then only. -/
theorem underlines_iff (line : List Char) (i n : Nat) :
    Underlines line i (i + n) (display (line.take i)).length
      (max 1 ((line.drop i).take n).length) ↔ '\t' ∉ (line.drop i).take n := by
  have hwidth := length_display ((line.drop i).take n)
  rw [Underlines, columns_add]
  generalize (line.drop i).take n = shown at hwidth ⊢
  generalize (display (line.take i)).length = pad
  rw [hwidth, ← List.count_eq_zero]
  by_cases hempty : shown = []
  · subst hempty
    simp
  · have hlength : 0 < shown.length := List.length_pos_of_ne_nil hempty
    rw [if_neg (by rw [Finset.Ico_eq_empty_iff]; omega)]
    constructor
    · intro hsame
      have hcard := congrArg Finset.card hsame
      rw [Nat.card_Ico, Nat.card_Ico] at hcard
      omega
    · intro hcount
      rw [hcount]
      congr 1
      omega

/-! ## Spans -/

/-- The number of carets is that of the characters that the line shows of a span, and at least
one. -/
theorem caretCount_eq {span : Span} {i n : Nat} (hstart : span.start.column = i + 1)
    (hline : span.stop.line = span.start.line)
    (hstop : span.stop.column = span.start.column + n) (line : List Char) :
    caretCount line span = max 1 ((line.drop i).take n).length := by
  unfold caretCount
  dsimp only
  rw [if_pos hline, hstop, hstart, List.length_take, List.length_drop]
  omega

theorem padding_of_column {column : Int} {i : Nat} (h : column = i + 1) (line : List Char) :
    padding line column = (display (line.take i)).length := by
  rw [padding_eq, before, h, Int.add_sub_cancel, countBefore_natCast]

/-- Text without a line feed, apart from one that it may end with. -/
def ClosesLine (cut : List Char) : Prop :=
  ∃ body, '\n' ∉ body ∧ (cut = body ∨ cut = body ++ ['\n'])

/-- What the line of a place shows behind the place is the rest of the line, up to the carriage
returns at its end. -/
theorem exists_drop_lineAt (front rest : List Char) : ∃ returns, (∀ c ∈ returns, c = '\r') ∧
    rest.takeWhile (· != '\n') =
      (lineAt (front ++ rest) (.behind front)).drop (front.length - lastLineStart front) ++
        returns := by
  obtain ⟨lines, last, rfl, hlast, hstart, -⟩ := exists_lastLine front
  have hline := lineAt_eq (lines ++ last) rest
  rw [hstart, List.append_assoc, List.drop_left,
    List.takeWhile_append_of_pos (bne_of_notMem hlast)] at hline
  -- the whole line, and its part behind the place
  have hwhole := List.rdropWhile_append_rtakeWhile (p := (· == '\r'))
    (l := last ++ rest.takeWhile (· != '\n'))
  rw [← hline] at hwhole
  have hreturns : ∀ c ∈ (last ++ rest.takeWhile (· != '\n')).rtakeWhile (· == '\r'), c = '\r' :=
    fun c hc => by simpa using List.mem_rtakeWhile_imp hc
  have hdrop := congrArg (List.drop last.length) hwhole
  rw [List.drop_left, List.drop_append] at hdrop
  have hindex : (lines ++ last).length - lastLineStart (lines ++ last) = last.length := by
    rw [hstart, List.length_append]
    omega
  rw [hindex, List.append_assoc]
  exact ⟨_, fun c hc => hreturns c (List.mem_of_mem_drop hc), hdrop.symm⟩

/-- **What a line does not show of a span is a line end.** -/
theorem exists_hidden {cut : List Char} (hcut : ClosesLine cut) (front back : List Char) :
    ∃ hidden, cut = ((lineAt (front ++ (cut ++ back)) (.behind front)).drop
        (front.length - lastLineStart front)).take cut.length ++ hidden ∧
      ∀ c ∈ hidden, c = '\r' ∨ c = '\n' := by
  obtain ⟨returns, hreturns, hline⟩ := exists_drop_lineAt front (cut ++ back)
  generalize (lineAt (front ++ (cut ++ back)) (.behind front)).drop
    (front.length - lastLineStart front) = behind at hline ⊢
  obtain ⟨body, hbody, rfl | rfl⟩ := hcut
  · rw [List.takeWhile_append_of_pos (bne_of_notMem hbody)] at hline
    refine ⟨returns.take (cut.length - behind.length), ?_,
      fun c hc => .inl (hreturns c (List.mem_of_mem_take hc))⟩
    rw [← List.take_append, ← hline, List.take_left]
  · rw [List.append_assoc, List.takeWhile_append_of_pos (bne_of_notMem hbody),
      List.singleton_append, List.takeWhile_cons_of_neg (by decide), List.append_nil] at hline
    refine ⟨returns ++ ['\n'], ?_, fun c hc => ?_⟩
    · rw [List.take_of_length_le (by simp [hline]), hline, List.append_assoc]
    · rcases List.mem_append.1 hc with hc | hc
      · exact .inl (hreturns c hc)
      · exact .inr (List.mem_singleton.1 hc)

end Excerpt

open Reader Grammar

/-- What stands before the end of a span: the text in front of it and what it covers. -/
theorem Span.Covers.take_stop {text cut : String} {span : Span} (h : span.Covers text cut) :
    text.toList.take span.stop.offset.toNat =
      text.toList.take span.start.offset.toNat ++ cut.toList := by
  have hnonneg := h.start_nonneg
  have hle := h.start_le_stop
  have hsplit := List.take_append_drop span.start.offset.toNat
    (text.toList.take span.stop.offset.toNat)
  rw [List.take_take, Nat.min_eq_left (by omega), ← h.cut] at hsplit
  exact hsplit.symm

/-- A span that says truly where it begins and where it ends is as wide as what it covers. -/
theorem Span.Covers.stop_column {text cut : String} {span : Span} (h : span.Covers text cut)
    (hstop : span.stop = .behind (text.toList.take span.stop.offset.toNat)) :
    span.stop.column = span.start.column + cut.length := by
  have hstart := h.start_eq
  have hbefore := h.take_stop
  have hline := h.stop_line
  rw [hstop, hstart, hbefore] at hline
  simp only [Position.behind, List.count_append] at hline
  have hlf : '\n' ∉ cut.toList := List.count_eq_zero.1 (by omega)
  have hlast := lastLineStart_le (text.toList.take span.start.offset.toNat)
  rw [hstop, hstart, hbefore]
  simp only [Position.behind, lastLineStart_append hlf, List.length_append, String.length_toList]
  omega

/-- The end of a line is where it says. -/
theorem lineEnd_eq_behind {text : String} {us : List Token} (hus : us <:+ tokens text) :
    lineEnd (endOf text) us =
      .behind (text.toList.take (lineEnd (endOf text) us).offset.toNat) := by
  unfold lineEnd
  cases hfind : us.find? (·.kind == .newline) with
  | none =>
    rw [endOf_eq]
    simp [Position.behind]
  | some t =>
    have ht : t ∈ tokens text := hus.subset (List.mem_of_find?_eq_some hfind)
    exact (placed_of_mem_tokens ht).covers.start_eq

theorem closesLine_of_mem_tokens {text : String} {t : Token} (ht : t ∈ tokens text) :
    Excerpt.ClosesLine t.text.toList := by
  obtain ⟨before, l, after, hsplit, rfl⟩ := mem_tokens ht
  have hl := closesLine_split text l (by rw [hsplit]; simp)
  rw [Lexeme.toToken, String.toList_ofList]
  by_cases hkind : l.kind = .newline
  · rcases hl.newline hkind with htext | htext
    · exact ⟨[], by simp, .inr htext⟩
    · exact ⟨['\r'], by simp, .inr htext⟩
  · exact ⟨l.text, hl.other hkind, .inl rfl⟩

/-- **What a fault is about** is as long as its span is wide, and does not go on behind a line
end. -/
theorem exists_cut {source : Source} {f : Fault} (h : Document.read source = .error (.fault f)) :
    ∃ cut, f.Concerns source.text cut ∧ f.span.Covers source.text cut ∧
      f.span.stop.column = f.span.start.column + cut.length ∧ Excerpt.ClosesLine cut.toList := by
  have htoken : ∀ t ∈ tokens source.text, t.span.Covers source.text t.text ∧
      t.span.stop.column = t.span.start.column + t.text.length ∧
      Excerpt.ClosesLine t.text.toList := fun t ht =>
    ⟨(placed_of_mem_tokens ht).covers, (placed_of_mem_tokens ht).stop_column,
      closesLine_of_mem_tokens ht⟩
  rcases fault_cases h with ⟨got, expected, rfl, hgot⟩ | ⟨expected, rfl⟩ | ⟨command, hmem, rfl⟩ |
    ⟨name, us, hstands, rfl⟩
  · exact ⟨got.text, ⟨hgot, rfl⟩, htoken got hgot⟩
  · refine ⟨"", ⟨?_, rfl⟩, (placed_endAt source.text).covers, ?_, [], by simp, .inl rfl⟩
    · rw [endOf_eq, ← String.length_toList]
      rfl
    · exact (Int.add_zero _).symm
  · exact ⟨command.text, ⟨hmem, rfl⟩, htoken command hmem⟩
  · obtain ⟨cut, hconcerns, hcovers⟩ := covers_of_object hstands
    have hus : us <:+ tokens source.text := by
      obtain ⟨sign, word, gap, head, hd, hsuffix, -⟩ := hstands
      refine List.IsSuffix.trans ?_ hsuffix
      exact ⟨sign :: word :: gap ++ name :: head, by simp⟩
    refine ⟨cut, hconcerns, hcovers, hcovers.stop_column (lineEnd_eq_behind hus), ?_⟩
    obtain ⟨_, _, _, _, _, -, -, -, -, -, hcut⟩ := hconcerns
    rw [hcut]
    exact ⟨_, Lexeme.lf_notMem_take_lineLength _, .inl rfl⟩

/-- The index that the first character of a span has in its line. -/
def Span.index (span : Span) : Nat := (span.start.column - 1).toNat

theorem Span.column_of_behind {span : Span} {front : List Char} (h : span.start = .behind front) :
    span.start.column = span.index + 1 ∧ span.index = front.length - lastLineStart front := by
  have := lastLineStart_le front
  unfold Span.index
  rw [h]
  simp only [Position.behind]
  omega

/-- **The carets of a report stand below the span, up to the tabs in it.** The part of a span that
its line shows is all of it but a line end. Below its first character stands the first caret, and
there are as many carets as characters, or one if there are none. So the carets stand below exactly
the columns in which the line shows the span if and only if it shows no tab there. -/
theorem carets_below_span {source : Source} {f : Fault}
    (h : Document.read source = .error (.fault f)) (name : String) :
    ∃ cut line pad carets shown hidden, f.Concerns source.text cut ∧
      f.span.Covers source.text cut ∧
      Excerpt.Points source.text f.span ((f.report source).renderAs name) line pad carets ∧
      shown = (line.drop f.span.index).take cut.length ∧ cut.toList = shown ++ hidden ∧
      (∀ c ∈ hidden, c = '\r' ∨ c = '\n') ∧
      pad = (Excerpt.display (line.take f.span.index)).length ∧ carets = max 1 shown.length ∧
      (Excerpt.Underlines line f.span.index (f.span.index + cut.length) pad carets ↔
        '\t' ∉ shown) := by
  obtain ⟨cut, hconcerns, hcovers, hstop, hcloses⟩ := exists_cut h
  obtain ⟨above, name', hreport⟩ := report_renderAs f source name
  have htext : source.text.toList = source.text.toList.take f.span.start.offset.toNat ++
      (cut.toList ++ source.text.toList.drop f.span.stop.offset.toNat) := by
    rw [← List.append_assoc, ← hcovers.take_stop, List.take_append_drop]
  have hpoints := (Excerpt.points_render name' htext hcovers.start_eq).append_left above
  rw [← hreport] at hpoints
  obtain ⟨hcolumn, hindex⟩ := Span.column_of_behind hcovers.start_eq
  obtain ⟨hidden, hcut, hhidden⟩ := Excerpt.exists_hidden hcloses
    (source.text.toList.take f.span.start.offset.toNat)
    (source.text.toList.drop f.span.stop.offset.toNat)
  rw [← htext, ← hcovers.start_eq, ← hindex, String.length_toList] at hcut
  generalize Excerpt.lineAt source.text.toList f.span.start = line at hpoints hcut
  have hpad := Excerpt.padding_of_column hcolumn line
  have hcarets := Excerpt.caretCount_eq hcolumn hcovers.stop_line hstop line
  rw [hpad, hcarets] at hpoints
  exact ⟨cut, line, _, _, _, hidden, hconcerns, hcovers, hpoints, rfl, hcut, hhidden, rfl, rfl,
    Excerpt.underlines_iff line f.span.index cut.length⟩

/-- A string at fault behind a tab, which widens the line in front of it. -/
theorem carets_below_span_string :
    Document.read ⟨"a", "@M \x7b\n\t\"a\" b\n\x7d\n"⟩ = .error (.fault
      (.unexpectedToken ⟨.string, "\"a\"", ⟨⟨2, 2, 6⟩, ⟨2, 5, 9⟩⟩⟩ [.name, .atSign, .braceClose])) ∧
    Excerpt.Points "@M \x7b\n\t\"a\" b\n\x7d\n" ⟨⟨2, 2, 6⟩, ⟨2, 5, 9⟩⟩
      ("error: unexpected string '\"a\"', expected name, '@', '\x7d'\n" ++
        "  --> a:2:2\n  |\n2 |     \"a\" b\n  |     ^^^") "\t\"a\" b".toList 4 3 ∧
    Excerpt.Underlines "\t\"a\" b".toList 1 4 4 3 := by
  have hread : Document.read ⟨"a", "@M \x7b\n\t\"a\" b\n\x7d\n"⟩ = .error (.fault
      (.unexpectedToken ⟨.string, "\"a\"", ⟨⟨2, 2, 6⟩, ⟨2, 5, 9⟩⟩⟩
        [.name, .atSign, .braceClose])) := by
    decide +kernel
  obtain ⟨cut, line, pad, carets, shown, hidden, -, hcovers, hpoints, hshown, -, -, hpad, hcarets,
    hiff⟩ := carets_below_span hread ""
  obtain rfl : cut = "\"a\"" := String.toList_inj.1 (hcovers.cut.trans (by decide))
  obtain rfl : line = "\t\"a\" b".toList :=
    Option.some.inj (hpoints.line_eq.symm.trans (by decide +kernel))
  obtain rfl : shown = "\"a\"".toList := hshown.trans (by decide)
  obtain rfl : pad = 4 := hpad.trans (by decide)
  obtain rfl : carets = 3 := hcarets.trans (by decide)
  have hreport : (Fault.report (.unexpectedToken ⟨.string, "\"a\"", ⟨⟨2, 2, 6⟩, ⟨2, 5, 9⟩⟩⟩
      [.name, .atSign, .braceClose]) ⟨"a", "@M \x7b\n\t\"a\" b\n\x7d\n"⟩).renderAs "" =
      "error: unexpected string '\"a\"', expected name, '@', '\x7d'\n" ++
        "  --> a:2:2\n  |\n2 |     \"a\" b\n  |     ^^^" := by
    decide +kernel
  rw [hreport] at hpoints
  exact ⟨hread, hpoints, hiff.2 (by decide)⟩

/-- A tab at fault takes four columns, and there is one caret below it. -/
theorem tab_outreaches_caret :
    Document.read ⟨"a", "@M \x7b\n@\tuse N\n\x7d\n"⟩ = .error (.fault
      (.unexpectedToken ⟨.blank, "\t", ⟨⟨2, 2, 6⟩, ⟨2, 3, 7⟩⟩⟩ [.name])) ∧
    (Fault.report (.unexpectedToken ⟨.blank, "\t", ⟨⟨2, 2, 6⟩, ⟨2, 3, 7⟩⟩⟩ [.name])
      ⟨"a", "@M \x7b\n@\tuse N\n\x7d\n"⟩).render =
      "error: unexpected whitespace '\\t', expected name\n" ++
        "  --> a:2:2\n  |\n" ++ Excerpt.quoted "2" "@\tuse N".toList ++ "\n" ++
        Excerpt.marked "2" 1 1 ∧
    Excerpt.quoted "2" "@\tuse N".toList = "2 | @    use N" ∧
    Excerpt.marked "2" 1 1 = "  |  ^" ∧
    Excerpt.columns "@\tuse N".toList 1 2 = {1, 2, 3, 4} ∧
    ¬ Excerpt.Underlines "@\tuse N".toList 1 2 1 1 := by
  refine ⟨by decide +kernel, by decide +kernel, by decide +kernel, by decide +kernel,
    by decide +kernel, ?_⟩
  unfold Excerpt.Underlines
  decide +kernel

end MacroModules
