import MacroModules.Proofs.Token.Lexeme

/-!
# Texts with other line ends

A line may end in LF or in CR LF. In a text without carriage returns, CR LF may be put for each LF
(`withCrLf`): the tokens stay the same, newlines apart, and stand on the same lines in the same
columns. Only offsets grow, by one for each line end before them (`Position.stretch`).

* `shape_crlf`: the lexeme a text begins with, if it is no newline, is the same in both texts.
* `split_crlf`: the lexemes of the new text, from those of the old one.
* `place_crlf`: where they stand. The invariant of the scan is that its position is the old one,
  stretched.
* `tokenize_withCrLf`: **the tokens of the new text are those of the old one**, with newlines
  replaced and offsets stretched (`Token.relined`).
-/

namespace MacroModules

/-- CR LF in the place of each LF. -/
def crlf (cs : List Char) : List Char :=
  cs.flatMap fun c => if c = '\n' then ['\r', '\n'] else [c]

/-- The text with CR LF in the place of each LF. -/
def withCrLf (text : String) : String := String.ofList (crlf text.toList)

/-- The same line and column, when each line before has so many more characters. -/
def Position.stretch (extra : Int) (p : Position) : Position :=
  ⟨p.line, p.column, p.offset + extra * (p.line - 1)⟩

/-- By how much a token grows when line ends do. -/
def Token.growth (extra : Int) (t : Token) : Int := if t.kind = .newline then extra else 0

/-- The token in a text with other line ends, which have so many more characters. -/
def Token.relined (lineEnd : String) (extra : Int) (t : Token) : Token where
  kind := t.kind
  text := if t.kind = .newline then lineEnd else t.text
  span :=
    ⟨t.span.start.stretch extra,
      ⟨t.span.stop.line, t.span.stop.column + t.growth extra,
        (t.span.stop.stretch extra).offset + t.growth extra⟩⟩

theorem Position.advance_stretch (extra : Int) (p : Position) (n : Nat) :
    (p.stretch extra).advance n = (p.advance n).stretch extra := by
  simp only [stretch, advance, Position.mk.injEq, true_and]
  omega

/-! ## Characters -/

theorem crlf_cons_lf (cs : List Char) : crlf ('\n' :: cs) = '\r' :: '\n' :: crlf cs := rfl

theorem crlf_cons_of_ne {c : Char} (hc : c ≠ '\n') (cs : List Char) :
    crlf (c :: cs) = c :: crlf cs := by
  unfold crlf
  rw [List.flatMap_cons, if_neg hc, List.singleton_append]

theorem crlf_append (cs ds : List Char) : crlf (cs ++ ds) = crlf cs ++ crlf ds :=
  List.flatMap_append

/-- Without line feeds there is nothing to replace. -/
theorem crlf_eq_self {cs : List Char} (h : '\n' ∉ cs) : crlf cs = cs := by
  induction cs with
  | nil => rfl
  | cons c cs ih =>
    rw [List.mem_cons, not_or] at h
    rw [crlf_cons_of_ne (Ne.symm h.1), ih h.2]

/-- A text that begins with another character than LF begins with it still. -/
theorem head?_crlf {cs : List Char} {x : Char} (hlf : x ≠ '\n') (hcr : x ≠ '\r') :
    (crlf cs).head? = some x ↔ cs.head? = some x := by
  cases cs with
  | nil => exact Iff.rfl
  | cons c cs =>
    by_cases hc : c = '\n'
    · subst hc
      rw [crlf_cons_lf, List.head?_cons, List.head?_cons, Option.some_inj, Option.some_inj]
      constructor
      · intro h; exact absurd h.symm hcr
      · intro h; exact absurd h.symm hlf
    · rw [crlf_cons_of_ne hc, List.head?_cons, List.head?_cons]

theorem takeWhile_crlf {p : Char → Bool} (hlf : p '\n' = false) (hcr : p '\r' = false)
    (cs : List Char) : (crlf cs).takeWhile p = cs.takeWhile p := by
  induction cs with
  | nil => rfl
  | cons c cs ih =>
    by_cases hc : c = '\n'
    · subst hc
      rw [crlf_cons_lf, List.takeWhile_cons_of_neg (by simp [hcr]),
        List.takeWhile_cons_of_neg (by simp [hlf])]
    · rw [crlf_cons_of_ne hc, List.takeWhile_cons, List.takeWhile_cons, ih]

namespace Lexeme

/-! ## Lexemes -/

variable {cs : List Char}

theorem dots_crlf (cs : List Char) : dots (crlf cs) = dots cs := by
  rcases cs with _ | ⟨c, cs⟩
  · rfl
  by_cases hc : c = '\n'
  · subst hc; rfl
  rw [crlf_cons_of_ne hc]
  rcases cs with _ | ⟨d, cs⟩
  · rfl
  by_cases hd : d = '\n'
  · subst hd
    rw [crlf_cons_lf]
    by_cases hdot : c = '.' <;> simp [dots, hdot]
  · rw [crlf_cons_of_ne hd]
    by_cases hdot : c = '.' <;> by_cases hdot' : d = '.' <;> simp [dots, hdot, hdot']

/-- A string is closed in the one text if it is in the other. A backslash at the end of a line takes
the carriage return along, and the string still meets the line feed. -/
theorem stringLength_crlf (h : '\r' ∉ cs) : stringLength? (crlf cs) = stringLength? cs := by
  fun_induction stringLength? cs with
  | case1 => rfl
  | case2 cs => simp [crlf_cons_of_ne, stringLength?]
  | case3 cs => simp [crlf_cons_of_ne, crlf_cons_lf, stringLength?]
  | case4 c cs hc ih =>
    have hcs : '\r' ∉ cs := fun hmem => h (by simp [hmem])
    rw [crlf_cons_of_ne (by decide), crlf_cons_of_ne hc, stringLength?, if_neg hc, ih hcs]
  | case5 c cs hq hb hc =>
    have hlf : c = '\n' := by
      refine hc.resolve_left fun hcr => h ?_
      rw [hcr]
      exact List.mem_cons_self
    subst hlf
    simp [crlf_cons_lf, stringLength?]
  | case6 c cs hq hb hc ih =>
    have hcs : '\r' ∉ cs := fun hmem => h (List.mem_cons_of_mem c hmem)
    have hlf : c ≠ '\n' := fun he => hc (.inr he)
    rw [crlf_cons_of_ne hlf]
    by_cases hbs : c = '\\'
    · -- a backslash that takes nothing along is the last character
      subst hbs
      cases cs with
      | nil => rfl
      | cons x xs => exact absurd rfl (hb x xs rfl)
    · rw [stringLength?, if_neg hc, ih hcs]
      · exact hq
      · intro x xs he; exact absurd he hbs

theorem lineLength_crlf (h : '\r' ∉ cs) : lineLength (crlf cs) = lineLength cs := by
  fun_induction lineLength cs with
  | case1 => rfl
  | case2 => simp at h
  | case3 cs => simp [crlf_cons_lf, lineLength]
  | case4 c cs hcr hc ih =>
    have hcs : '\r' ∉ cs := fun hmem => h (List.mem_cons_of_mem c hmem)
    rw [crlf_cons_of_ne hc, lineLength, if_neg hc, ih hcs]
    rintro tail rfl
    exact absurd List.mem_cons_self h

/-- **The lexeme a line goes on with does not depend on how the line ends.** -/
theorem shape_crlf {c : Char} (hc : c ≠ '\n') (h : '\r' ∉ c :: cs) :
    shape c (crlf cs) = shape c cs := by
  have hcr : c ≠ '\r' := fun he => h (by simp [he])
  have hcs : '\r' ∉ cs := fun hmem => h (List.mem_cons_of_mem c hmem)
  have hblank := takeWhile_crlf (p := isBlank) (by decide) (by decide) cs
  have hword := takeWhile_crlf (p := isWordChar) (by decide) (by decide) cs
  have hdigit := takeWhile_crlf (p := Char.isDigit) (by decide) (by decide) cs
  have hslash := @head?_crlf cs '/' (by decide) (by decide)
  have hcolon := @head?_crlf cs ':' (by decide) (by decide)
  unfold shape
  simp only [hc, hcr, false_and, if_false, hblank, hword, hdigit, hslash, hcolon, dots_crlf,
    stringLength_crlf hcs, lineLength_crlf hcs]

/-- The lexeme with CR LF in the place of LF. -/
def withCrLf (l : Lexeme) : Lexeme := ⟨l.kind, crlf l.text⟩

/-- What a lexeme takes of a line is the same in both texts, and so is what it leaves. -/
theorem cut_crlf {n : Nat} (hn : n ≤ cs.length) (h : '\n' ∉ cs.take n) :
    (crlf cs).take n = cs.take n ∧ (crlf cs).drop n = crlf (cs.drop n) := by
  have hcut : crlf cs = cs.take n ++ crlf (cs.drop n) := by
    rw [← crlf_eq_self h, ← crlf_append, List.take_append_drop]
  have hlen : (cs.take n).length = n := List.length_take_of_le hn
  rw [hcut]
  exact ⟨List.take_left' hlen, List.drop_left' hlen⟩

/-- **The lexemes of a text stay the same, newlines apart.** -/
theorem split_crlf (h : '\r' ∉ cs) : split (crlf cs) = (split cs).map withCrLf := by
  fun_induction split cs with
  | case1 => simp [crlf, split]
  | case2 c cs ih =>
    have hrest : '\r' ∉ cs.drop (shape c cs).2 :=
      fun hmem => h (List.mem_cons_of_mem c (List.mem_of_mem_drop hmem))
    have ih := ih hrest
    by_cases hc : c = '\n'
    · -- the one place where the texts differ
      subst hc
      have hold : shape '\n' cs = (.newline, 0) := by simp [shape]
      have hnew : shape '\r' ('\n' :: crlf cs) = (.newline, 1) := by simp [shape]
      rw [hold] at ih ⊢
      rw [crlf_cons_lf, split, hnew]
      simpa [withCrLf, crlf] using ih
    · have hkind : (shape c cs).1 ≠ .newline := by
        intro hk
        rcases shape_newline hk with he | he
        · exact hc (List.cons_eq_cons.1 he).1
        · exact h (by rw [(List.cons_eq_cons.1 he).1]; exact List.mem_cons_self)
      have hlf := lf_notMem_of_shape hkind
      obtain ⟨htake, hdrop⟩ :=
        cut_crlf (shape_le c cs) fun hmem => hlf (List.mem_cons_of_mem c hmem)
      rw [crlf_cons_of_ne hc, split, shape_crlf hc h, htake, hdrop, ih, List.map_cons]
      congr 1
      rw [withCrLf, crlf_eq_self hlf]

/-! ## Places -/

/-- The lexeme of a text in which lines end in LF alone. -/
def EndsInLf (l : Lexeme) : Prop :=
  (l.kind = .newline → l.text = ['\n']) ∧ (l.kind ≠ .newline → '\n' ∉ l.text)

theorem endsInLf_of_mem_split {l : Lexeme} (h : '\r' ∉ cs) (hl : l ∈ split cs) : l.EndsInLf := by
  have hclose := closesLine_of_mem_split hl
  refine ⟨fun hk => ?_, hclose.other⟩
  refine (hclose.newline hk).resolve_right fun ht => h ?_
  rw [← split_flatten cs, List.mem_flatMap]
  exact ⟨l, hl, by simp [ht]⟩

variable {l : Lexeme}

theorem toToken_withCrLf (h : l.EndsInLf) (p : Position) :
    l.withCrLf.toToken (p.stretch 1) = (l.toToken p).relined "\r\n" 1 := by
  unfold toToken withCrLf Token.relined Token.growth
  by_cases hk : l.kind = .newline
  · simp only [hk, if_true, h.1 hk, Position.stretch, Position.advance]
    have hlen : (crlf ['\n']).length = 2 := rfl
    congr 3
    · rw [hlen, List.length_singleton]; omega
    · rw [hlen, List.length_singleton]; omega
  · simp only [hk, if_false, crlf_eq_self (h.2 hk), Position.advance_stretch, Int.add_zero]
    rfl

theorem after_withCrLf (h : l.EndsInLf) (p : Position) :
    l.withCrLf.after (p.stretch 1) = (l.after p).stretch 1 := by
  unfold after withCrLf
  by_cases hk : l.kind = .newline
  · have hlen : (crlf ['\n']).length = 2 := rfl
    simp only [hk, if_true, h.1 hk, hlen, Position.stretch, Position.advance, Position.nextLine,
      List.length_singleton, Position.mk.injEq, true_and]
    omega
  · simp only [hk, if_false, crlf_eq_self (h.2 hk), Position.advance_stretch]

variable {ls : List Lexeme} (h : ∀ l ∈ ls, l.EndsInLf)

include h

/-- Lexemes in a row stand on the same lines in the same columns. -/
theorem place_crlf (p : Position) :
    place (p.stretch 1) (ls.map withCrLf) = (place p ls).map (Token.relined "\r\n" 1) := by
  induction ls generalizing p with
  | nil => rfl
  | cons l ls ih =>
    have hl := h l List.mem_cons_self
    rw [List.map_cons, place, place, List.map_cons, toToken_withCrLf hl, after_withCrLf hl,
      ih fun x hx => h x (List.mem_cons_of_mem l hx)]

theorem finish_crlf (p : Position) :
    finish (p.stretch 1) (ls.map withCrLf) = (finish p ls).stretch 1 := by
  induction ls generalizing p with
  | nil => rfl
  | cons l ls ih =>
    have hrest := ih (fun x hx => h x (List.mem_cons_of_mem l hx)) (l.after p)
    unfold finish at hrest ⊢
    rw [List.map_cons, List.foldl_cons, List.foldl_cons, after_withCrLf (h l List.mem_cons_self),
      hrest]

end Lexeme

/-! ## Tokens -/

variable {text : String} (h : '\r' ∉ text.toList)

include h

theorem tokens_withCrLf : tokens (withCrLf text) = (tokens text).map (Token.relined "\r\n" 1) := by
  have hls : ∀ l ∈ Lexeme.split text.toList, l.EndsInLf :=
    fun _ hl => Lexeme.endsInLf_of_mem_split h hl
  rw [tokens, withCrLf, String.toList_ofList, Lexeme.split_crlf h]
  exact Lexeme.place_crlf hls .first

/-- **The tokens of a text stay the same**, with newlines replaced and offsets stretched. -/
theorem tokenize_withCrLf :
    tokenize (withCrLf text) = (tokenize text).map (Token.relined "\r\n" 1) := by
  have hls : ∀ l ∈ Lexeme.split text.toList, l.EndsInLf :=
    fun _ hl => Lexeme.endsInLf_of_mem_split h hl
  have hend : endOf (withCrLf text) = (endOf text).stretch 1 := by
    rw [endOf, withCrLf, String.toList_ofList, Lexeme.split_crlf h]
    exact Lexeme.finish_crlf hls .first
  rw [tokenize, tokenize, tokens_withCrLf h, List.map_append, hend]
  simp [Token.endAt, Token.relined, Token.growth, Span.point, Position.stretch]

end MacroModules
