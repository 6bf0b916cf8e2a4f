import Mathlib.Data.List.Chain
import MacroModules.Proofs.Token.Lexeme

/-!
# Tokens stand where they say

A position is worked out from the position before it, character by character; here it is compared
with the text itself. `Position.behind` reads the position behind a text off the text: lines by
counting line feeds, columns by looking back for the last one.

* `after_behind`: placing one lexeme keeps to `Position.behind`. This is the invariant of the scan.
* `mem_place`: every token is a lexeme placed behind the text before it.
* `Token.Placed`: what a token's span says about the text, and `tokenize_faithful`: **the tokens of
  a text are the text, cut into pieces, each with its true place.**
-/

namespace MacroModules

/-- The offset at which the last line of a text begins: just behind its last line feed, or zero. -/
def lastLineStart (cs : List Char) : Nat :=
  cs.length - (cs.reverse.takeWhile (· != '\n')).length

theorem lastLineStart_append_lf (cs : List Char) :
    lastLineStart (cs ++ ['\n']) = (cs ++ ['\n']).length := by
  simp [lastLineStart]

/-- Text without a line feed does not begin a line. -/
theorem lastLineStart_append {cs ds : List Char} (h : '\n' ∉ ds) :
    lastLineStart (cs ++ ds) = lastLineStart cs := by
  have hds : ∀ c ∈ ds.reverse, (c != '\n') = true := by
    intro c hc
    rw [bne_iff_ne]
    rintro rfl
    exact h (List.mem_reverse.1 hc)
  rw [lastLineStart, List.reverse_append, List.takeWhile_append_of_pos hds]
  simp only [lastLineStart, List.length_append, List.length_reverse]
  omega

theorem lastLineStart_le (cs : List Char) : lastLineStart cs ≤ cs.length :=
  Nat.sub_le _ _

/-- The position behind a text, read off the text. -/
def Position.behind (cs : List Char) : Position :=
  ⟨1 + cs.count '\n', cs.length - lastLineStart cs + 1, cs.length⟩

namespace Lexeme

/-! ## One lexeme after another -/

/-- **The invariant of the scan:** from the position behind a text, a lexeme leads to the position
behind the text and the lexeme. -/
theorem after_behind {l : Lexeme} (h : l.ClosesLine) (cs : List Char) :
    l.after (.behind cs) = .behind (cs ++ l.text) := by
  unfold after
  by_cases hk : l.kind = .newline
  · -- a newline of either form ends in the line feed, and the next line begins there
    have hlast : ∃ init, l.text = init ++ ['\n'] ∧ '\n' ∉ init := by
      rcases h.newline hk with ht | ht
      · exact ⟨[], ht, by simp⟩
      · exact ⟨['\r'], ht, by simp⟩
    obtain ⟨init, ht, hinit⟩ := hlast
    rw [if_pos hk, ht, ← List.append_assoc]
    simp only [Position.behind, Position.advance, Position.nextLine, lastLineStart_append_lf]
    simp only [List.count_append, List.count_eq_zero_of_not_mem hinit, List.length_append,
      Position.mk.injEq]
    refine ⟨?_, ?_, ?_⟩ <;> simp <;> omega
  · have hlf := h.other hk
    rw [if_neg hk]
    simp only [Position.behind, Position.advance, lastLineStart_append hlf, List.count_append,
      List.count_eq_zero_of_not_mem hlf, List.length_append, Position.mk.injEq]
    have := lastLineStart_le cs
    refine ⟨?_, ?_, ?_⟩ <;> omega

/-- Lexemes in a row lead to the position behind all of them. -/
theorem finish_behind {ls : List Lexeme} (h : ∀ l ∈ ls, l.ClosesLine) (cs : List Char) :
    finish (.behind cs) ls = .behind (cs ++ ls.flatMap text) := by
  induction ls generalizing cs with
  | nil => simp [finish]
  | cons l ls ih =>
    have hrest := ih (fun x hx => h x (List.mem_cons_of_mem _ hx)) (cs ++ l.text)
    unfold finish at hrest ⊢
    rw [List.foldl_cons, after_behind (h l List.mem_cons_self), hrest, List.flatMap_cons,
      List.append_assoc]

/-- **Every token is a lexeme placed behind the text before it.** -/
theorem mem_place {ls : List Lexeme} (h : ∀ l ∈ ls, l.ClosesLine) (cs : List Char) {t : Token}
    (ht : t ∈ place (.behind cs) ls) : ∃ before l after, ls = before ++ l :: after ∧
      t = l.toToken (.behind (cs ++ before.flatMap text)) := by
  induction ls generalizing cs with
  | nil => cases ht
  | cons l ls ih =>
    rw [place, List.mem_cons] at ht
    rcases ht with rfl | ht
    · exact ⟨[], l, ls, rfl, by simp⟩
    · rw [after_behind (h l List.mem_cons_self)] at ht
      obtain ⟨before, m, after, rfl, rfl⟩ := ih (fun x hx => h x (List.mem_cons_of_mem _ hx)) _ ht
      exact ⟨l :: before, m, after, rfl, by simp⟩

/-- The texts of placed lexemes are theirs, wherever the first of them stands. -/
theorem join_place (p : Position) (ls : List Lexeme) :
    String.join ((place p ls).map (·.text)) = String.ofList (ls.flatMap text) := by
  induction ls generalizing p with
  | nil => rfl
  | cons l ls ih => simp [place, toToken, ih]

theorem offset_after (l : Lexeme) (p : Position) :
    (l.after p).offset = p.offset + l.text.length := by
  unfold after
  split <;> rfl

/-- Each token begins where the one before it stops, the end of the text included. -/
theorem isChain_place (p : Position) (ls : List Lexeme) :
    (place p ls ++ [Token.endAt (finish p ls)]).IsChain
      (fun t u => u.span.start.offset = t.span.stop.offset) := by
  induction ls generalizing p with
  | nil => exact .singleton _
  | cons l ls ih =>
    have hrest := ih (l.after p)
    cases ls with
    | nil => exact .cons_cons (offset_after l p) hrest
    | cons m ls => exact .cons_cons (offset_after l p) hrest

end Lexeme

/-! ## The tokens of a text -/

/-- What the span of a token says about a text: where the token's own text stands in it, and on
which line and from which column on. -/
structure Token.Placed (text : String) (t : Token) : Prop where
  start_nonneg : 0 ≤ t.span.start.offset
  stop_le : t.span.stop.offset ≤ text.length
  /-- The token's text is the text between its offsets. -/
  cut : t.text.toList =
    (text.toList.take t.span.stop.offset.toNat).drop t.span.start.offset.toNat
  stop_offset : t.span.stop.offset = t.span.start.offset + t.text.length
  line : t.span.start.line = 1 + (text.toList.take t.span.start.offset.toNat).count '\n'
  column : t.span.start.column =
    t.span.start.offset - lastLineStart (text.toList.take t.span.start.offset.toNat) + 1
  lineStart : t.span.start.lineStart =
    lastLineStart (text.toList.take t.span.start.offset.toNat)
  /-- The token ends on the line on which it begins. -/
  stop_line : t.span.stop.line = t.span.start.line
  stop_column : t.span.stop.column = t.span.start.column + t.text.length

/-- A token is placed if it begins at the position behind the text before it and runs along the
line. -/
theorem Token.placed_of_behind {text : String} {t : Token} {before after : List Char}
    (htext : text.toList = before ++ t.text.toList ++ after)
    (hspan : t.span = ⟨.behind before, (Position.behind before).advance t.text.length⟩) :
    t.Placed text := by
  have hlen : text.length = before.length + t.text.length + after.length := by
    rw [← String.length_toList, htext]
    simp [Nat.add_assoc, String.length_toList]
  have hstart : t.span.start.offset.toNat = before.length := by
    rw [hspan]; simp [Position.behind]
  have hstop : t.span.stop.offset.toNat = before.length + t.text.length := by
    rw [hspan]; simp only [Position.behind, Position.advance]; omega
  have hbefore : text.toList.take before.length = before := by
    rw [htext, List.append_assoc, List.take_left]
  constructor
  case cut =>
    rw [hstop, hstart, htext, ← String.length_toList, ← List.length_append, List.take_left,
      List.drop_left]
  case start_nonneg => rw [hspan]; simp [Position.behind]
  case stop_le => rw [hspan]; simp only [Position.behind, Position.advance]; omega
  case stop_offset => rw [hspan]; rfl
  case line => rw [hstart, hbefore, hspan]; rfl
  case column => rw [hstart, hbefore, hspan]; rfl
  case lineStart =>
    have := lastLineStart_le before
    rw [hstart, hbefore, hspan]
    simp only [Position.behind, Position.lineStart]
    omega
  case stop_line => rw [hspan]; rfl
  case stop_column => rw [hspan]; rfl

theorem closesLine_split (text : String) : ∀ l ∈ Lexeme.split text.toList, l.ClosesLine :=
  fun _ h => Lexeme.closesLine_of_mem_split h

theorem first_eq_behind : Position.first = .behind [] := rfl

/-- The end of a text stands behind all of it. -/
theorem endOf_eq (text : String) : endOf text = .behind text.toList := by
  rw [endOf, first_eq_behind, Lexeme.finish_behind (closesLine_split text), List.nil_append,
    Lexeme.split_flatten]

/-- The token of a lexeme, between the lexemes before and after it. -/
theorem mem_tokens {text : String} {t : Token} (h : t ∈ tokens text) : ∃ before l after,
    Lexeme.split text.toList = before ++ l :: after ∧
      t = l.toToken (.behind (before.flatMap Lexeme.text)) := by
  obtain ⟨before, l, after, hls, rfl⟩ := Lexeme.mem_place (closesLine_split text) [] h
  exact ⟨before, l, after, hls, by simp⟩

theorem placed_of_mem_tokens {text : String} {t : Token} (h : t ∈ tokens text) :
    t.Placed text := by
  obtain ⟨before, l, after, hls, rfl⟩ := mem_tokens h
  have htext : text.toList =
      before.flatMap Lexeme.text ++ l.text ++ after.flatMap Lexeme.text := by
    rw [← Lexeme.split_flatten text.toList, hls]
    simp
  exact Token.placed_of_behind (by simpa [Lexeme.toToken] using htext) (by simp [Lexeme.toToken])

theorem placed_endAt (text : String) : (Token.endAt (endOf text)).Placed text := by
  rw [endOf_eq]
  have htext : text.toList =
      text.toList ++ (Token.endAt (.behind text.toList)).text.toList ++ [] := by
    simp [Token.endAt]
  exact Token.placed_of_behind htext (by simp [Token.endAt, Span.point])

/-- A token of a text covers at least one character and does not stand for the end; a newline is a
line feed, alone or behind a carriage return. -/
theorem text_of_mem_tokens {text : String} {t : Token} (h : t ∈ tokens text) :
    t.kind ≠ .endOfInput ∧ t.text ≠ "" ∧
      (t.kind = .newline → t.text = "\n" ∨ t.text = "\r\n") := by
  obtain ⟨before, l, after, hls, rfl⟩ := mem_tokens h
  have hl : l ∈ Lexeme.split text.toList := by rw [hls]; simp
  refine ⟨Lexeme.kind_ne_endOfInput_of_mem_split hl, ?_, ?_⟩
  · intro he
    exact Lexeme.text_ne_nil_of_mem_split hl (String.ofList_eq_empty_iff.1 he)
  · intro hk
    rcases (closesLine_split text l hl).newline hk with ht | ht
    · left; simp [Lexeme.toToken, ht]
    · right; simp [Lexeme.toToken, ht]

/-- **Lexing is lossless and places are true.** The last token, and no other, stands for the end, is
empty and lies behind the whole text. All others are not empty. Put together, the tokens are the
text; each begins where the one before it stops, and its span agrees with the text (`Token.Placed`),
also for newlines of either form. -/
theorem tokenize_faithful (text : String) :
    ∃ (ts : List Token) (stop : Token), tokenize text = ts ++ [stop] ∧
    stop.kind = .endOfInput ∧ stop.text = "" ∧ stop.span.start.offset = text.length ∧
    (∀ t ∈ ts, t.kind ≠ .endOfInput ∧ t.text ≠ "") ∧
    String.join ((tokenize text).map (·.text)) = text ∧
    (tokenize text).head?.map (·.span.start.offset) = some 0 ∧
    (tokenize text).IsChain (fun t u => u.span.start.offset = t.span.stop.offset) ∧
    (∀ t ∈ tokenize text, t.Placed text) ∧
    (∀ t ∈ tokenize text, t.kind = .newline → t.text = "\n" ∨ t.text = "\r\n") := by
  refine ⟨tokens text, .endAt (endOf text), rfl, rfl, rfl, ?_, ?_, ?_, ?_, ?_, ?_, ?_⟩
  · rw [endOf_eq, ← String.length_toList]; rfl
  · exact fun t ht => ⟨(text_of_mem_tokens ht).1, (text_of_mem_tokens ht).2.1⟩
  · rw [tokenize, List.map_append, String.join_append, tokens, Lexeme.join_place,
      Lexeme.split_flatten]
    simp [Token.endAt]
  · unfold tokenize tokens endOf
    cases Lexeme.split text.toList <;> rfl
  · exact Lexeme.isChain_place _ _
  · intro t ht
    rcases List.mem_append.1 ht with ht | ht
    · exact placed_of_mem_tokens ht
    · rw [List.mem_singleton.1 ht]; exact placed_endAt text
  · intro t ht hk
    rcases List.mem_append.1 ht with ht | ht
    · exact (text_of_mem_tokens ht).2.2 hk
    · rw [List.mem_singleton.1 ht] at hk; cases hk

end MacroModules
