import MacroModules.Token.Lexer

/-!
# Line ends and spelling of lexemes

Of all lexemes only newlines hold a line feed, and a newline holds nothing behind it. Every position
in a text rests on this: a lexeme that is no newline stays on its line.

* `shape_newline`, `lf_notMem_of_shape`: the two halves, for the lexeme a text begins with.
* `ClosesLine`: both together, and `closesLine_of_mem_split`: every lexeme of a text has it.
* `Spelled`, `spelled_of_mem_split`: of which characters names and dots are made.
* `Marked`, `marked_of_mem_split`: the signs around a module.
* `split_append_lf`: **no lexeme looks across a line feed**, so a text cut there has the lexemes of
  its two parts. The one exception is a carriage return that would come to stand before it.
-/

namespace MacroModules.Lexeme

/-! ## How far a lexeme reaches -/

/-- A quoted string does not cross a line feed. -/
theorem lf_notMem_take_stringLength {cs : List Char} {n : Nat} (h : stringLength? cs = some n) :
    '\n' ∉ cs.take n := by
  fun_induction stringLength? cs generalizing n with
  | case1 => cases h
  | case2 => cases h; simp
  | case3 => cases h
  | case4 c cs hc ih =>
    obtain ⟨k, hk, rfl⟩ := Option.map_eq_some_iff.1 h
    simp [ih hk, Ne.symm hc]
  | case5 => cases h
  | case6 c cs _ _ hc ih =>
    obtain ⟨k, hk, rfl⟩ := Option.map_eq_some_iff.1 h
    have hlf : ¬ '\n' = c := fun he => hc (Or.inr he.symm)
    simp [ih hk, hlf]

/-- A comment ends before the line feed. -/
theorem lf_notMem_take_lineLength (cs : List Char) : '\n' ∉ cs.take (lineLength cs) := by
  fun_induction lineLength cs with
  | case1 => simp
  | case2 => simp
  | case3 => simp
  | case4 c cs _ hc ih => simp [ih, Ne.symm hc]

theorem lf_notMem_take_dots (cs : List Char) : '\n' ∉ cs.take (dots cs).2 := by
  fun_cases dots cs <;> simp

/-- A run of characters of a class is what lies in front of the first other one. -/
theorem take_takeWhile (p : Char → Bool) (cs : List Char) :
    cs.take (cs.takeWhile p).length = cs.takeWhile p :=
  (List.prefix_iff_eq_take.1 (List.takeWhile_prefix p)).symm

theorem lf_notMem_take_takeWhile {p : Char → Bool} (hp : p '\n' = false) (cs : List Char) :
    '\n' ∉ cs.take (cs.takeWhile p).length := by
  rw [take_takeWhile]
  intro h
  have := List.all_eq_true.1 List.all_takeWhile _ h
  rw [hp] at this
  cases this

theorem dots_kind (cs : List Char) : (dots cs).1 ∈ [Kind.ellipsis, .range, .dot] := by
  fun_cases dots cs <;> simp

theorem punctuation_kind (c : Char) : (Kind.ofPunctuation? c).getD .unknown ∈
    [Kind.angleOpen, .angleClose, .parenOpen, .parenClose, .braceOpen, .braceClose, .atSign, .comma,
      .unknown] := by
  unfold Kind.ofPunctuation?
  repeat' split
  all_goals simp

/-- No lexeme stands for the end of a text. -/
theorem shape_kind_ne_endOfInput (c : Char) (cs : List Char) : (shape c cs).1 ≠ .endOfInput := by
  fun_cases shape c cs with
  | case4 => dsimp only; split <;> simp
  | case9 => intro h; simpa [h] using dots_kind cs
  | case11 => intro h; dsimp only at h; simpa [h] using punctuation_kind c
  | case1 | case2 | case3 | case5 | case6 | case7 | case8 | case10 => simp

/-! ## Newlines -/

/-- A newline is a line feed, with or without a carriage return before it. -/
theorem shape_newline {c : Char} {cs : List Char} (h : (shape c cs).1 = .newline) :
    c :: cs.take (shape c cs).2 = ['\n'] ∨ c :: cs.take (shape c cs).2 = ['\r', '\n'] := by
  revert h
  fun_cases shape c cs with
  | case1 hc => intro _; left; simp [hc]
  | case2 _ hc =>
    intro _; right
    obtain ⟨hc, hcs⟩ := hc
    obtain ⟨ds, rfl⟩ := List.head?_eq_some_iff.1 hcs
    simp [hc]
  | case4 => intro h; dsimp only at h; split at h <;> cases h
  | case9 => intro h; simpa [h] using dots_kind cs
  | case11 => intro h; dsimp only at h; simpa [h] using punctuation_kind c
  | case3 | case5 | case6 | case7 | case8 | case10 => intro h; cases h

/-- A lexeme that is no newline holds no line feed. -/
theorem lf_notMem_of_shape {c : Char} {cs : List Char} (h : (shape c cs).1 ≠ .newline) :
    '\n' ∉ c :: cs.take (shape c cs).2 := by
  have hc : c ≠ '\n' := by
    rintro rfl
    exact h (by simp [shape])
  rw [List.mem_cons, not_or]
  refine ⟨hc.symm, ?_⟩
  revert h
  fun_cases shape c cs with
  | case1 | case2 => intro h; exact absurd rfl h
  | case3 | case4 | case5 => intro _; exact lf_notMem_take_takeWhile (by decide) cs
  | case6 _ _ _ _ _ _ n hn => intro _; exact lf_notMem_take_stringLength hn
  | case8 => intro _; exact lf_notMem_take_lineLength cs
  | case9 => intro _; exact lf_notMem_take_dots cs
  | case10 _ _ _ _ _ _ _ _ hc =>
    intro _
    obtain ⟨ds, rfl⟩ := List.head?_eq_some_iff.1 hc.2
    simp
  | case7 | case11 => intro _; simp

/-- A lexeme holds a line feed only if it is a newline, and then as its last character. -/
structure ClosesLine (l : Lexeme) : Prop where
  newline : l.kind = .newline → l.text = ['\n'] ∨ l.text = ['\r', '\n']
  other : l.kind ≠ .newline → '\n' ∉ l.text

/-- What holds of the lexeme a text begins with holds of all lexemes of a text. -/
theorem forall_mem_split (p : Lexeme → Prop)
    (h : ∀ c cs, p ⟨(shape c cs).1, c :: cs.take (shape c cs).2⟩) {l : Lexeme} {cs : List Char}
    (hl : l ∈ split cs) : p l := by
  fun_induction split cs with
  | case1 => cases hl
  | case2 c cs ih =>
    rcases List.mem_cons.1 hl with rfl | hl
    · exact h c cs
    · exact ih hl

/-- **Only newlines end lines**, in every text. -/
theorem closesLine_of_mem_split {l : Lexeme} {cs : List Char} (h : l ∈ split cs) : l.ClosesLine :=
  forall_mem_split _ (fun _ _ => ⟨shape_newline, lf_notMem_of_shape⟩) h

theorem kind_ne_endOfInput_of_mem_split {l : Lexeme} {cs : List Char} (h : l ∈ split cs) :
    l.kind ≠ .endOfInput :=
  forall_mem_split (·.kind ≠ .endOfInput) shape_kind_ne_endOfInput h

/-! ## Names and dots -/

/-- A digit is no letter. -/
theorem isAlpha_eq_false_of_isDigit {c : Char} (h : c.isDigit) : c.isAlpha = false := by
  have hdigit : c.val ≤ '9'.val := of_decide_eq_true (Bool.and_eq_true_iff.1 h).2
  rw [Bool.eq_false_iff]
  intro halpha
  rcases Bool.or_eq_true_iff.1 halpha with hupper | hlower
  · have hle : 'A'.val ≤ c.val := (of_decide_eq_true hupper).1
    exact absurd (UInt32.le_trans hle hdigit) (by decide)
  · have hle : 'a'.val ≤ c.val := of_decide_eq_true (Bool.and_eq_true_iff.1 hlower).1
    exact absurd (UInt32.le_trans hle hdigit) (by decide)

/-- A name is made of letters and digits. -/
theorem isAlphanum_of_shape {c : Char} {cs : List Char} (h : (shape c cs).1 = .name) :
    ∀ x ∈ c :: cs.take (shape c cs).2, x.isAlphanum := by
  revert h
  fun_cases shape c cs with
  | case4 _ _ _ hc tail =>
    intro h x hx
    dsimp only at h hx
    have hno : '_' ∉ c :: tail := by
      intro hmem
      rw [if_pos hmem] at h
      cases h
    rw [take_takeWhile] at hx
    have hword : x.isAlphanum || x == '_' := by
      rcases List.mem_cons.1 hx with rfl | hx
      · rcases Bool.or_eq_true_iff.1 hc with hc | hc
        · simp [Char.isAlphanum, hc]
        · simp [hc]
      · exact List.all_eq_true.1 List.all_takeWhile x hx
    rcases Bool.or_eq_true_iff.1 hword with hword | hword
    · exact hword
    · rw [beq_iff_eq] at hword
      exact absurd (hword ▸ hx) hno
  | case9 => intro h; simpa [h] using dots_kind cs
  | case11 => intro h; dsimp only at h; simpa [h] using punctuation_kind c
  | case1 | case2 | case3 | case5 | case6 | case7 | case8 | case10 => intro h; cases h

/-- A name begins with a letter. -/
theorem isAlpha_of_shape {c : Char} {cs : List Char} (h : (shape c cs).1 = .name) : c.isAlpha := by
  revert h
  fun_cases shape c cs with
  | case4 _ _ _ hc tail =>
    intro h
    dsimp only at h
    have hno : c ≠ '_' := by
      rintro rfl
      rw [if_pos List.mem_cons_self] at h
      cases h
    simpa [hno] using hc
  | case9 => intro h; simpa [h] using dots_kind cs
  | case11 => intro h; dsimp only at h; simpa [h] using punctuation_kind c
  | case1 | case2 | case3 | case5 | case6 | case7 | case8 | case10 => intro h; cases h

theorem isAlpha_of_mem_split {l : Lexeme} {cs : List Char} (h : l ∈ split cs)
    (hkind : l.kind = .name) : ∃ c ds, l.text = c :: ds ∧ c.isAlpha :=
  forall_mem_split (fun l => l.kind = .name → ∃ c ds, l.text = c :: ds ∧ c.isAlpha)
    (fun c _ hshape => ⟨c, _, rfl, isAlpha_of_shape hshape⟩) h hkind

/-- An ellipsis is three dots. -/
theorem shape_ellipsis {c : Char} {cs : List Char} (h : (shape c cs).1 = .ellipsis) :
    c :: cs.take (shape c cs).2 = ['.', '.', '.'] := by
  revert h
  fun_cases shape c cs with
  | case4 => intro h; dsimp only at h; split at h <;> cases h
  | case9 _ _ _ _ _ _ _ hc =>
    fun_cases dots cs with
    | case1 => intro _; simp [hc]
    | case2 => intro h; cases h
    | case3 => intro h; cases h
  | case11 => intro h; dsimp only at h; simpa [h] using punctuation_kind c
  | case1 | case2 | case3 | case5 | case6 | case7 | case8 | case10 => intro h; cases h

/-- Names and dots are spelled as their kind says. -/
structure Spelled (l : Lexeme) : Prop where
  name : l.kind = .name → ∀ c ∈ l.text, c.isAlphanum
  ellipsis : l.kind = .ellipsis → l.text = ['.', '.', '.']

theorem spelled_of_mem_split {l : Lexeme} {cs : List Char} (h : l ∈ split cs) : l.Spelled :=
  forall_mem_split _ (fun _ _ => ⟨isAlphanum_of_shape, shape_ellipsis⟩) h

/-! ## Marks -/

/-- A mark that stands for itself is one character long. -/
theorem shape_mark {c : Char} {cs : List Char} {k : Kind} (h : (shape c cs).1 = k)
    (hk : k ∈ [Kind.angleOpen, .angleClose, .parenOpen, .parenClose, .braceOpen, .braceClose,
      .atSign, .comma]) : Kind.ofPunctuation? c = some k ∧ (shape c cs).2 = 0 := by
  subst h
  revert hk
  fun_cases shape c cs with
  | case4 => intro hk; dsimp only at hk; split at hk <;> simp at hk
  | case9 =>
    intro hk
    have hdots := dots_kind cs
    generalize (dots cs).1 = d at hk hdots
    rcases List.mem_cons.1 hdots with rfl | hdots
    · simp at hk
    rcases List.mem_cons.1 hdots with rfl | hdots
    · simp at hk
    · rw [List.mem_singleton.1 hdots] at hk; simp at hk
  | case11 =>
    intro hk
    cases hc : Kind.ofPunctuation? c with
    | none => simp [hc] at hk
    | some d => simp
  | case1 | case2 | case3 | case5 | case6 | case7 | case8 | case10 => intro hk; simp at hk

/-- Each kind of mark has one character. -/
theorem ofPunctuation?_inj {c d : Char} {k : Kind} (hc : Kind.ofPunctuation? c = some k)
    (hd : Kind.ofPunctuation? d = some k) : c = d := by
  unfold Kind.ofPunctuation? at hc hd
  repeat' split at hc
  all_goals grind

/-- The signs that a module begins and ends with are spelled in one way. -/
structure Marked (l : Lexeme) : Prop where
  atSign : l.kind = .atSign → l.text = ['@']
  braceClose : l.kind = .braceClose → l.text = ['\x7d']

theorem marked_of_mem_split {l : Lexeme} {cs : List Char} (h : l ∈ split cs) : l.Marked := by
  refine forall_mem_split _ (fun c cs => ⟨fun hk => ?_, fun hk => ?_⟩) h
  · obtain ⟨hc, hn⟩ := shape_mark hk (by decide)
    rw [hn, ofPunctuation?_inj hc (d := '@') (by decide), List.take_zero]
  · obtain ⟨hc, hn⟩ := shape_mark hk (by decide)
    rw [hn, ofPunctuation?_inj hc (d := '\x7d') (by decide), List.take_zero]

/-! ## Texts cut at a line feed -/

theorem head?_append_lf (cs ds : List Char) (x : Char) (hx : x ≠ '\n') :
    (cs ++ '\n' :: ds).head? = some x ↔ cs.head? = some x := by
  cases cs with
  | nil => simpa using hx.symm
  | cons c cs => rfl

theorem takeWhile_append_lf (cs ds : List Char) (p : Char → Bool) (hp : p '\n' = false) :
    (cs ++ '\n' :: ds).takeWhile p = cs.takeWhile p := by
  induction cs with
  | nil => simp [hp]
  | cons c cs ih => rw [List.cons_append, List.takeWhile_cons, List.takeWhile_cons, ih]

variable {cs : List Char} (ds : List Char)

theorem dots_append_lf : dots (cs ++ '\n' :: ds) = dots cs := by
  rcases cs with _ | ⟨c, _ | ⟨d, cs⟩⟩
  · rfl
  · by_cases hc : c = '.' <;> simp [dots, hc]
  · by_cases hc : c = '.' <;> by_cases hd : d = '.' <;> simp [dots, hc, hd]

/-- A string that is not closed before a line feed is not closed behind it either. -/
theorem stringLength_append_lf : stringLength? (cs ++ '\n' :: ds) = stringLength? cs := by
  fun_induction stringLength? cs with
  | case1 => simp [stringLength?]
  | case2 => simp [stringLength?]
  | case3 => simp [stringLength?]
  | case4 c cs hc ih => simp [stringLength?, hc, ih]
  | case5 c cs hq hb hc =>
    rw [List.cons_append, stringLength?]
    · simp [hc]
    · exact hq
    · rintro x xs rfl; simp at hc
  | case6 c cs hq hb hc ih =>
    by_cases hbs : c = '\\'
    · subst hbs
      cases cs with
      | nil => simp [stringLength?]
      | cons x xs => exact absurd rfl (hb x xs rfl)
    · rw [List.cons_append, stringLength?]
      · simp [hc, ih]
      · exact hq
      · intro x xs he; exact absurd he hbs

/-- A comment ends at a line feed, unless the carriage return before it makes it end earlier. -/
theorem lineLength_append_lf (h : cs.getLast? ≠ some '\r') :
    lineLength (cs ++ '\n' :: ds) = lineLength cs := by
  fun_induction lineLength cs with
  | case1 => simp [lineLength]
  | case2 => simp [lineLength]
  | case3 => simp [lineLength]
  | case4 c cs hcr hc ih =>
    have hlast : cs.getLast? ≠ some '\r' := by
      cases cs with
      | nil => simp
      | cons d cs => simpa [List.getLast?_cons_cons] using h
    rw [List.cons_append, lineLength, if_neg hc, ih hlast]
    rintro tail rfl htail
    cases cs with
    | nil => simp at h
    | cons d cs => cases htail; exact hcr cs rfl rfl

/-- The lexeme a text begins with does not depend on what follows the line. -/
theorem shape_append_lf {c : Char} (h : (c :: cs).getLast? ≠ some '\r') :
    shape c (cs ++ '\n' :: ds) = shape c cs := by
  have hlast : cs.getLast? ≠ some '\r' := by
    cases cs with
    | nil => simp
    | cons d cs => simpa [List.getLast?_cons_cons] using h
  have hcr : (c = '\r' ∧ (cs ++ '\n' :: ds).head? = some '\n') ↔
      (c = '\r' ∧ cs.head? = some '\n') := by
    cases cs with
    | nil =>
      have : c ≠ '\r' := by simpa using h
      simp [this]
    | cons d cs => rfl
  have hword := takeWhile_append_lf cs ds isWordChar (by decide)
  have hblank := takeWhile_append_lf cs ds isBlank (by decide)
  have hdigit := takeWhile_append_lf cs ds Char.isDigit (by decide)
  have hslash := head?_append_lf cs ds '/' (by decide)
  have hcolon := head?_append_lf cs ds ':' (by decide)
  unfold shape
  simp only [hcr, hword, hblank, hdigit, hslash, hcolon, stringLength_append_lf,
    lineLength_append_lf ds hlast, dots_append_lf]

theorem stringLength_le {n : Nat} (h : stringLength? cs = some n) : n ≤ cs.length := by
  fun_induction stringLength? cs generalizing n with
  | case1 => cases h
  | case2 => cases h; simp
  | case3 => cases h
  | case4 c cs hc ih =>
    obtain ⟨k, hk, rfl⟩ := Option.map_eq_some_iff.1 h
    have := ih hk
    simp only [List.length_cons]; omega
  | case5 => cases h
  | case6 c cs _ _ hc ih =>
    obtain ⟨k, hk, rfl⟩ := Option.map_eq_some_iff.1 h
    have := ih hk
    simp only [List.length_cons]; omega

theorem lineLength_le (cs : List Char) : lineLength cs ≤ cs.length := by
  fun_induction lineLength cs with
  | case1 | case2 | case3 => exact Nat.zero_le _
  | case4 c cs _ _ ih => simp only [List.length_cons]; omega

theorem dots_le (cs : List Char) : (dots cs).2 ≤ cs.length := by
  fun_cases dots cs <;> simp

/-- A lexeme does not reach beyond the text. -/
theorem shape_le (c : Char) (cs : List Char) : (shape c cs).2 ≤ cs.length := by
  have htake := fun p => (List.takeWhile_prefix (l := cs) p).length_le
  fun_cases shape c cs with
  | case2 _ hc =>
    obtain ⟨ds, rfl⟩ := List.head?_eq_some_iff.1 hc.2
    simp
  | case3 => exact htake _
  | case4 => exact htake _
  | case5 => exact htake _
  | case6 _ _ _ _ _ _ n hn => exact stringLength_le hn
  | case8 => exact lineLength_le cs
  | case9 => exact dots_le cs
  | case10 _ _ _ _ _ _ _ _ hc =>
    obtain ⟨ds, rfl⟩ := List.head?_eq_some_iff.1 hc.2
    simp
  | case1 | case7 | case11 => exact Nat.zero_le _

/-- **No lexeme looks across a line feed.** -/
theorem split_append_lf (h : cs.getLast? ≠ some '\r') :
    split (cs ++ '\n' :: ds) = split cs ++ ⟨.newline, ['\n']⟩ :: split ds := by
  fun_induction split cs with
  | case1 => simp [split, shape]
  | case2 c cs ih =>
    have hle := shape_le c cs
    have hrest : (cs.drop (shape c cs).2).getLast? ≠ some '\r' := by
      rw [List.getLast?_drop]
      split
      · simp
      · rw [List.getLast?_cons] at h
        cases hl : cs.getLast? with
        | none => simp
        | some x => simpa [hl] using h
    rw [List.cons_append, split, shape_append_lf ds h, List.take_append_of_le_length hle,
      List.drop_append_of_le_length hle, ih hrest]
    rfl

end MacroModules.Lexeme
