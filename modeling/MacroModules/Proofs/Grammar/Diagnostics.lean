import MacroModules.Proofs.Grammar.ListLines
import MacroModules.Proofs.Report

/-!
# Faults point at the text

A fault is made of tokens, and tokens know their places. So what is said about tokens carries over
to faults, with one exception: the fault of a template that is to be exported has a span of its own,
from the name of the template to the end of the line.

* `Span.Covers`, `Fault.Concerns`: what a span says about a text, and which part of it a fault is
  about.
* `fault_cases`: the faults that there are, with the tokens they are made of.
* `fault_points_at_text`: **the span of a fault covers what the fault is about, and the report shows
  that place**.
-/

namespace MacroModules

open Reader Grammar

/-- A span is a stretch of one line of a text. It says truly where it begins, and `cut` is what
stands there. -/
structure Span.Covers (text : String) (span : Span) (cut : String) : Prop where
  start_nonneg : 0 ≤ span.start.offset
  start_le_stop : span.start.offset ≤ span.stop.offset
  stop_le : span.stop.offset ≤ text.length
  stop_line : span.stop.line = span.start.line
  line : span.start.line = 1 + (text.toList.take span.start.offset.toNat).count '\n'
  column : span.start.column =
    span.start.offset - lastLineStart (text.toList.take span.start.offset.toNat) + 1
  cut : cut.toList = (text.toList.take span.stop.offset.toNat).drop span.start.offset.toNat

/-- The part of a text that a fault is about: the token, the command, the end of the text, or the
rest of the line from the name of a template on. -/
def Fault.Concerns (text cut : String) : Fault → Prop
  | unexpectedToken got _ => got ∈ tokens text ∧ cut = got.text
  | unexpectedEnd span _ => span.start.offset = text.length ∧ cut = ""
  | wrongArgument _ _ _ span => ∃ sign word gap name us,
      sign :: word :: gap ++ name :: us <:+ tokens text ∧ Command "export" sign word ∧ Skip gap ∧
      name.kind = .name ∧ span.start = name.span.start ∧
      cut.toList = (text.toList.drop span.start.offset.toNat).take
        (Lexeme.lineLength (text.toList.drop span.start.offset.toNat))
  | unknownCommand command => command ∈ tokens text ∧ cut = command.text

theorem Token.Placed.covers {text : String} {t : Token} (h : t.Placed text) :
    t.span.Covers text t.text := by
  have := h.stop_offset
  exact ⟨h.start_nonneg, by omega, h.stop_le, h.stop_line, h.line, h.column, h.cut⟩

theorem Span.covers_of_behind {text : String} {span : Span} {front cut back : List Char}
    (htext : text.toList = front ++ cut ++ back)
    (hspan : span = ⟨.behind front, (Position.behind front).advance cut.length⟩) :
    span.Covers text (String.ofList cut) := by
  have hplaced : Token.Placed text ⟨.unknown, String.ofList cut, span⟩ :=
    Token.placed_of_behind (by simpa using htext) (by simpa using hspan)
  exact hplaced.covers

/-- A span that covers a part of a text begins behind what stands in front of that part. -/
theorem Span.Covers.start_eq {text cut : String} {span : Span} (h : span.Covers text cut) :
    span.start = .behind (text.toList.take span.start.offset.toNat) := by
  have hoffset : span.start.offset = (text.toList.take span.start.offset.toNat).length := by
    have := h.start_nonneg
    have := h.start_le_stop
    have := h.stop_le
    rw [List.length_take_of_le (by rw [String.length_toList]; omega)]
    omega
  have hcolumn := h.column
  change Position.mk span.start.line span.start.column span.start.offset = _
  rw [Position.behind, Position.mk.injEq]
  exact ⟨h.line, by omega, hoffset⟩

/-! ## Which faults there are -/

namespace Grammar

theorem Head.ne_newline {head : List Token} {h : Header} (hd : Head head h) :
    ∀ t ∈ head, t.kind ≠ .newline := by
  have hbracketed : ∀ (b : Brackets) {ts : List Token} {es : List (List String)},
      Bracketed b.opener b.closer b.shapes.all ts es → ∀ t ∈ ts, t.kind ≠ .newline := by
    intro b ts es hts t ht
    cases hts with
    | intro ho hus =>
      rcases List.mem_cons.1 ht with rfl | ht
      · rw [ho]
        cases b <;> decide
      · exact hus.ne_newline t ht
  cases hd with
  | plain => simp
  | args hargs => exact hbracketed .args hargs
  | params hparams => exact hbracketed .params hparams
  | both hparams hargs =>
    intro t ht
    rcases List.mem_append.1 ht with ht | ht
    · exact hbracketed .params hparams t ht
    · exact hbracketed .args hargs t ht

variable {stop : Position} {us : List Token}

/-- In a list, a token is at fault or the end of the text is. -/
theorem fault_of_list {b : Brackets} {f : Fault}
    (h : list stop b.closer b.shapes us = .error (.fault f)) :
    (∃ got expected, f = .unexpectedToken got expected ∧ got ∈ us) ∨
      ∃ expected, f = .unexpectedEnd (.point stop) expected := by
  obtain ⟨-, vs, hpassed, hfails⟩ := (list_eq_error_iff b.separable).1 h
  obtain ⟨done, rfl, -⟩ := hpassed.split
  generalize he : ReadFailure.fault f = e at hfails
  cases hfails with
  | unended =>
    cases he
    exact .inr ⟨_, rfl⟩
  | @misfit group rest t =>
    cases he
    obtain ⟨fit, more, expected, hgroup, -, hmisfit⟩ := exists_misfit_eq t b.shapes.main
      (b.shapes.all.filterMap List.head?) (trimmed group)
    refine .inl ⟨_, expected, hmisfit, ?_⟩
    have hgot := headD_mem t hgroup
    generalize more.headD t = got at hgot ⊢
    rcases List.mem_append.1 hgot with hgot | hgot
    · simp [hgot]
    · simp [List.mem_singleton.1 hgot]

theorem fault_of_expect {kinds : List Kind} {f : Fault}
    (h : expect stop kinds us = .error (.fault f)) :
    (∃ got expected, f = .unexpectedToken got expected ∧ got ∈ us) ∨
      ∃ expected, f = .unexpectedEnd (.point stop) expected := by
  obtain ⟨-, hrefuse⟩ := expect_eq_error_iff.1 h
  cases us with
  | nil =>
    cases hrefuse
    exact .inr ⟨kinds, rfl⟩
  | cons t us =>
    cases hrefuse
    exact .inl ⟨t, kinds, rfl, List.mem_cons_self⟩

/-- The faults that there are, with the tokens they are made of. -/
theorem fault_cases {source : Source} {f : Fault}
    (h : Document.read source = .error (.fault f)) :
    (∃ got expected, f = .unexpectedToken got expected ∧ got ∈ tokens source.text) ∨
    (∃ expected, f = .unexpectedEnd (.point (endOf source.text)) expected) ∨
    (∃ command ∈ tokens source.text, f = .unknownCommand command) ∨
    ∃ name us, (Demand.object name).Stands (tokens source.text) us ∧
      f = .wrongArgument "@export" "template" ["object"]
        ⟨name.span.start, lineEnd (endOf source.text) us⟩ := by
  obtain ⟨d, us, hmeets, hfails⟩ := read_eq_error_iff.1 h
  have hstands := hmeets.stands
  cases d with
  | token kinds =>
    rcases fault_of_expect hfails with ⟨got, expected, rfl, hgot⟩ | ⟨expected, rfl⟩
    · exact .inl ⟨got, expected, rfl, hstands.1.subset hgot⟩
    · exact .inr (.inl ⟨expected, rfl⟩)
  | list b o =>
    rcases fault_of_list hfails with ⟨got, expected, rfl, hgot⟩ | ⟨expected, rfl⟩
    · exact .inl ⟨got, expected, rfl, hstands.1.subset (List.mem_cons_of_mem o hgot)⟩
    · exact .inr (.inl ⟨expected, rfl⟩)
  | bounds es => exact absurd hfails intervals_ne_fault
  | object name =>
    cases hfails
    exact .inr (.inr (.inr ⟨name, us, hstands, rfl⟩))
  | known command =>
    cases hfails
    obtain ⟨sign, hsuffix, -⟩ := hstands
    exact .inr (.inr (.inl ⟨command, hsuffix.subset (by simp), rfl⟩))

theorem lineEnd_eq (ts : List Token) : lineEnd stop ts =
    ((ts.dropWhile (·.kind != .newline)).head?.map (·.span.start)).getD stop := by
  unfold lineEnd
  rw [List.find?_eq_head?_dropWhile_not]
  have hnot : (fun t : Token => !(t.kind == .newline)) = fun t => t.kind != .newline := rfl
  rw [hnot]
  cases (ts.dropWhile (·.kind != .newline)).head? <;> rfl

/-- A template that is to be exported is at fault from its name to the end of the line. -/
theorem covers_of_object {text : String} {name : Token}
    (h : (Demand.object name).Stands (tokens text) us) :
    ∃ cut, Fault.Concerns text cut (.wrongArgument "@export" "template" ["object"]
        ⟨name.span.start, lineEnd (endOf text) us⟩) ∧
      Span.Covers text ⟨name.span.start, lineEnd (endOf text) us⟩ cut := by
  obtain ⟨sign, word, gap, head, hd, hsuffix, hcommand, hgap, hname, hhead, -⟩ := h
  obtain ⟨before, htokens⟩ := hsuffix
  have hcut : tokens text = (before ++ sign :: word :: gap) ++
      (name :: (head ++ line us) ++ us.dropWhile (·.kind != .newline)) := by
    have hline : line us ++ us.dropWhile (·.kind != .newline) = us :=
      List.takeWhile_append_dropWhile
    rw [← htokens]
    simp only [List.cons_append, List.append_assoc, hline]
  have hbody : ∀ t ∈ name :: (head ++ line us), t.kind ≠ .newline := by
    intro t ht
    rcases List.mem_cons.1 ht with rfl | ht
    · rw [hname]
      decide
    rcases List.mem_append.1 ht with ht | ht
    · exact hhead.ne_newline t ht
    · simpa using List.all_eq_true.1 List.all_takeWhile t ht
  have hend : ∀ t, (us.dropWhile (·.kind != .newline)).head? = some t → t.kind = .newline := by
    intro t ht
    have hnot := List.head?_dropWhile_not (·.kind != .newline) us
    rw [ht] at hnot
    simpa using hnot
  obtain ⟨front, cut, back, htext, hstart, hstop, hline⟩ := exists_stretch hcut hbody hend
  rw [← lineEnd_eq] at hstop
  have hfront : text.toList.drop front.length = cut ++ back := by
    rw [htext, List.append_assoc, List.drop_left]
  refine ⟨String.ofList cut,
    ⟨sign, word, gap, name, head ++ us, ?_, hcommand, hgap, hname, rfl, ?_⟩, ?_⟩
  · exact ⟨before, by rw [← htokens]; simp⟩
  · rw [hstart]
    simpa [Position.behind, hfront] using hline
  · exact Span.covers_of_behind htext (by rw [hstart, hstop])

end Grammar

/-! ## Reports -/

theorem report_renderAs (f : Fault) (source : Source) (name : String) : ∃ above name',
    (f.report source).renderAs name = above ++ Excerpt.render name' source.text f.span := by
  refine ⟨"error: " ++ f.message ++ "\n", if name = "" then source.name else name, ?_⟩
  simp [Report.renderAs, Fault.report, String.append_assoc]

/-- **Faults point at the text.** Whatever fault a text has, the span of the fault covers the part
of the text that it is about, on one line. The report of the fault ends with that line and with
carets, the first of them below the first character of that part. -/
theorem fault_points_at_text {source : Source} {f : Fault}
    (h : Document.read source = .error (.fault f)) (name : String) :
    ∃ cut, f.Concerns source.text cut ∧ f.span.Covers source.text cut ∧
      ∃ line pad carets, Excerpt.Points source.text f.span ((f.report source).renderAs name)
        line pad carets := by
  have hcovers : ∃ cut, f.Concerns source.text cut ∧ f.span.Covers source.text cut := by
    rcases fault_cases h with ⟨got, expected, rfl, hgot⟩ | ⟨expected, rfl⟩ | ⟨command, hmem, rfl⟩ |
      ⟨name, us, hstands, rfl⟩
    · exact ⟨got.text, ⟨hgot, rfl⟩, (placed_of_mem_tokens hgot).covers⟩
    · refine ⟨"", ⟨?_, rfl⟩, (placed_endAt source.text).covers⟩
      rw [endOf_eq, ← String.length_toList]
      rfl
    · exact ⟨command.text, ⟨hmem, rfl⟩, (placed_of_mem_tokens hmem).covers⟩
    · exact covers_of_object hstands
  obtain ⟨cut, hconcerns, hcovers⟩ := hcovers
  obtain ⟨above, name', hreport⟩ := report_renderAs f source name
  have hpoints := Excerpt.points_render name'
    (List.take_append_drop f.span.start.offset.toNat source.text.toList).symm hcovers.start_eq
  rw [hreport]
  exact ⟨cut, hconcerns, hcovers, _, _, _, hpoints.append_left above⟩

/-- A template behind a tab, with a tab in its body, on a line that a carriage return ends too. -/
theorem fault_points_at_text_tabs :
    Document.read ⟨"a", "@M \x7b\n\t@export T<a>\tx\r\n\x7d\n"⟩ = .error (.fault
      (.wrongArgument "@export" "template" ["object"] ⟨⟨2, 10, 14⟩, ⟨2, 16, 20⟩⟩)) ∧
    Span.Covers "@M \x7b\n\t@export T<a>\tx\r\n\x7d\n" ⟨⟨2, 10, 14⟩, ⟨2, 16, 20⟩⟩ "T<a>\tx" ∧
    ∃ line pad carets, Excerpt.Points "@M \x7b\n\t@export T<a>\tx\r\n\x7d\n"
      ⟨⟨2, 10, 14⟩, ⟨2, 16, 20⟩⟩
      ("error: wrong argument for @export: got template, expected object\n" ++
        "  --> a:2:10\n  |\n2 |     @export T<a>    x\n  |             ^^^^^^")
      line pad carets := by
  have hread : Document.read ⟨"a", "@M \x7b\n\t@export T<a>\tx\r\n\x7d\n"⟩ = .error (.fault
      (.wrongArgument "@export" "template" ["object"] ⟨⟨2, 10, 14⟩, ⟨2, 16, 20⟩⟩)) := by
    decide +kernel
  obtain ⟨cut, -, hcovers, hpoints⟩ := fault_points_at_text hread ""
  have hcut : cut = "T<a>\tx" := String.toList_inj.1 (hcovers.cut.trans (by decide))
  have hreport : (Fault.report (.wrongArgument "@export" "template" ["object"]
      ⟨⟨2, 10, 14⟩, ⟨2, 16, 20⟩⟩) ⟨"a", "@M \x7b\n\t@export T<a>\tx\r\n\x7d\n"⟩).renderAs "" =
      "error: wrong argument for @export: got template, expected object\n" ++
        "  --> a:2:10\n  |\n2 |     @export T<a>    x\n  |             ^^^^^^" := by
    decide +kernel
  rw [hcut] at hcovers
  rw [hreport] at hpoints
  exact ⟨hread, hcovers, hpoints⟩

end MacroModules
