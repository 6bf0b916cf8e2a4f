import MacroModules.Proofs.Grammar.Join
import MacroModules.Proofs.Token.Lines
import MacroModules.Proofs.Token.Words

/-!
# The lexical grammar

Which texts are tokens of which kind, said without a scan: a class of tokens is a relation between
the text of a token and what follows it. The text that follows matters, because most classes take
the longest match. Everywhere in a text at most one class begins, and where there is none a single
character is unknown.

* `Longest`, `IsString`, `BeginsWithLineEnd`, `marks`: what the classes are made of.
* `Matches`, `Classified`: the classes, without and with the unknown characters.
* `Matches.shape_eq`, `classified_shape`: the scan finds a class if there is one, and only then.
* `Classified.unique`: **a text begins with one token at most**, whichever way it is cut.
* `split_dots`, `exists_dotRun`: dots in a row are cut into threes.
* `tokens_classified`: **the tokens of a text are those of the lexical grammar**.
-/

namespace MacroModules

namespace Lexeme

/-! ## The classes -/

/-- The longest text of characters of a class with which `cs` begins. -/
structure Longest (p : Char → Bool) (cs x : List Char) : Prop where
  front : x <+: cs
  all : ∀ c ∈ x, p c
  length_le : ∀ y, y <+: cs → (∀ c ∈ y, p c) → y.length ≤ x.length

/-- A piece of a quoted string: a character that neither ends nor escapes anything, or a backslash
with the character behind it, whatever that is except a line feed. -/
inductive StringItem : List Char → Prop
  | plain {c : Char} : c ≠ '"' → c ≠ '\\' → c ≠ '\r' → c ≠ '\n' → StringItem [c]
  | escaped {c : Char} : c ≠ '\n' → StringItem ['\\', c]

/-- A quoted string: items between two quotes. -/
inductive IsString : List Char → Prop
  | intro {items : List (List Char)} :
      (∀ item ∈ items, StringItem item) → IsString ('"' :: (items.flatten ++ ['"']))

/-- A line end of either form comes next. -/
def BeginsWithLineEnd (cs : List Char) : Prop := ['\n'] <+: cs ∨ ['\r', '\n'] <+: cs

/-- The characters that are tokens by themselves. -/
def marks : List (Char × Kind) :=
  [('<', .angleOpen), ('>', .angleClose), ('(', .parenOpen), (')', .parenClose),
   ('\x7b', .braceOpen), ('\x7d', .braceClose), ('@', .atSign), (',', .comma)]

/-- `text`, with `rest` behind it, is a token of a kind that means something. -/
inductive Matches : Kind → (text rest : List Char) → Prop
  | name {text rest : List Char} : text ≠ [] → Longest isWordChar (text ++ rest) text →
      text.head?.any Char.isDigit = false → '_' ∉ text → Matches .name text rest
  | identifier {text rest : List Char} : text ≠ [] → Longest isWordChar (text ++ rest) text →
      text.head?.any Char.isDigit = false → '_' ∈ text → Matches .identifier text rest
  | number {text rest : List Char} : text ≠ [] → Longest Char.isDigit (text ++ rest) text →
      Matches .number text rest
  | blank {text rest : List Char} : text ≠ [] → Longest isBlank (text ++ rest) text →
      Matches .blank text rest
  /-- A comment goes on up to the first line end. -/
  | comment {text rest : List Char} : ['/', '/'] <+: text →
      (∀ i < text.length, ¬ BeginsWithLineEnd ((text ++ rest).drop i)) →
      rest = [] ∨ BeginsWithLineEnd rest → Matches .comment text rest
  | string {text rest : List Char} : IsString text → Matches .string text rest
  | lf {rest : List Char} : Matches .newline ['\n'] rest
  | crlf {rest : List Char} : Matches .newline ['\r', '\n'] rest
  | scope {rest : List Char} : Matches .scope [':', ':'] rest
  | ellipsis {rest : List Char} : Matches .ellipsis ['.', '.', '.'] rest
  | range {rest : List Char} : rest.head? ≠ some '.' → Matches .range ['.', '.'] rest
  | dot {rest : List Char} : rest.head? ≠ some '.' → Matches .dot ['.'] rest
  | mark {c : Char} {k : Kind} {rest : List Char} : (c, k) ∈ marks → Matches k [c] rest

/-- `text`, with `rest` behind it, is a token of the kind. An unknown token is a single character
with which no other token begins. -/
inductive Classified : Kind → (text rest : List Char) → Prop
  | known {k : Kind} {text rest : List Char} : Matches k text rest → Classified k text rest
  | unknown {c : Char} {rest : List Char} :
      (∀ k x y, x ++ y = c :: rest → ¬ Matches k x y) → Classified .unknown [c] rest

/-! ## Longest matches -/

theorem Longest.eq_takeWhile {p : Char → Bool} {cs x : List Char} (h : Longest p cs x) :
    x = cs.takeWhile p := by
  have hfront := List.takeWhile_prefix (l := cs) p
  have hle := h.length_le _ hfront (List.all_eq_true.1 List.all_takeWhile)
  have hback : x <+: cs.takeWhile p := by
    obtain ⟨rest, rfl⟩ := h.front
    rw [List.takeWhile_append_of_pos h.all]
    exact List.prefix_append _ _
  exact hback.eq_of_length_le hle

theorem longest_takeWhile (p : Char → Bool) (cs : List Char) : Longest p cs (cs.takeWhile p) := by
  refine ⟨List.takeWhile_prefix p, List.all_eq_true.1 List.all_takeWhile, fun y hy hall => ?_⟩
  obtain ⟨rest, rfl⟩ := hy
  rw [List.takeWhile_append_of_pos hall, List.length_append]
  exact Nat.le_add_right _ _

/-- A longest match that is not empty, by its first character. -/
theorem Longest.cons {p : Char → Bool} {c : Char} {x rest : List Char}
    (h : Longest p (c :: x ++ rest) (c :: x)) : p c ∧ (x ++ rest).takeWhile p = x := by
  have hc : p c := h.all c List.mem_cons_self
  have htake := h.eq_takeWhile
  rw [List.cons_append, List.takeWhile_cons_of_pos hc] at htake
  exact ⟨hc, (List.cons.inj htake).2.symm⟩

theorem longest_cons {p : Char → Bool} {c : Char} (hc : p c) (cs : List Char) :
    Longest p (c :: cs.take (cs.takeWhile p).length ++ cs.drop (cs.takeWhile p).length)
      (c :: cs.take (cs.takeWhile p).length) := by
  rw [List.cons_append, List.take_append_drop, take_takeWhile]
  have hlongest := longest_takeWhile p (c :: cs)
  rwa [List.takeWhile_cons_of_pos hc] at hlongest

/-! ## Strings -/

theorem stringLength?_item {item : List Char} (h : StringItem item) (cs : List Char) :
    stringLength? (item ++ cs) = (stringLength? cs).map (· + item.length) := by
  cases h with
  | plain hquote hbackslash hcr hlf =>
    rw [List.singleton_append, stringLength?]
    · simp [hcr, hlf]
    · exact hquote
    · intro _ _ h; exact absurd h hbackslash
  | escaped hlf => simp [stringLength?, hlf]

/-- The scan of a string ends at the quote behind its items. -/
theorem stringLength?_items {items : List (List Char)} (h : ∀ item ∈ items, StringItem item)
    (rest : List Char) :
    stringLength? (items.flatten ++ '"' :: rest) = some (items.flatten.length + 1) := by
  induction items with
  | nil => rfl
  | cons item items ih =>
    obtain ⟨hitem, hitems⟩ := List.forall_mem_cons.1 h
    rw [List.flatten_cons, List.append_assoc, stringLength?_item hitem, ih hitems,
      Option.map_some, List.length_append]
    congr 1
    omega

/-- What the scan of a string takes is made of items and the closing quote. -/
theorem exists_items {cs : List Char} {n : Nat} (h : stringLength? cs = some n) :
    ∃ items : List (List Char), (∀ item ∈ items, StringItem item) ∧
      cs.take n = items.flatten ++ ['"'] := by
  fun_induction stringLength? cs generalizing n with
  | case1 => cases h
  | case2 cs =>
    cases h
    exact ⟨[], by simp, by simp⟩
  | case3 => cases h
  | case4 c cs hc ih =>
    obtain ⟨k, hk, rfl⟩ := Option.map_eq_some_iff.1 h
    obtain ⟨items, hitems, htake⟩ := ih hk
    exact ⟨['\\', c] :: items, List.forall_mem_cons.2 ⟨.escaped hc, hitems⟩, by simp [htake]⟩
  | case5 => cases h
  | case6 c cs hquote hbackslash hc ih =>
    obtain ⟨k, hk, rfl⟩ := Option.map_eq_some_iff.1 h
    obtain ⟨items, hitems, htake⟩ := ih hk
    rw [not_or] at hc
    have hplain : c ≠ '\\' := by
      rintro rfl
      -- a backslash at the very end is followed by no quote
      cases cs with
      | nil => cases hk
      | cons d cs => exact hbackslash d cs rfl rfl
    refine ⟨[c] :: items, List.forall_mem_cons.2 ⟨?_, hitems⟩, by simp [htake]⟩
    exact .plain (fun he => hquote he) hplain hc.1 hc.2

/-! ## Comments -/

theorem lineLength_eq_zero_iff {cs : List Char} :
    lineLength cs = 0 ↔ cs = [] ∨ BeginsWithLineEnd cs := by
  unfold BeginsWithLineEnd
  fun_cases lineLength cs with
  | case1 => simp
  | case2 cs => simp [List.cons_prefix_cons]
  | case3 cs => simp [List.cons_prefix_cons]
  | case4 c cs hcr hc =>
    have hnot : ¬ ['\r', '\n'] <+: c :: cs := by
      rintro ⟨tail, htail⟩
      obtain ⟨rfl, rfl⟩ := List.cons.inj htail
      exact hcr tail rfl rfl
    simp [hnot, List.cons_prefix_cons, Ne.symm hc]

/-- A line is as long as the text up to its end, where the first line end is. -/
theorem lineLength_append {text rest : List Char}
    (h : ∀ i < text.length, ¬ BeginsWithLineEnd ((text ++ rest).drop i))
    (hrest : rest = [] ∨ BeginsWithLineEnd rest) : lineLength (text ++ rest) = text.length := by
  induction text with
  | nil => exact lineLength_eq_zero_iff.2 hrest
  | cons c text ih =>
    have hfirst : ¬ BeginsWithLineEnd (c :: (text ++ rest)) := h 0 (Nat.zero_lt_succ _)
    have hlf : c ≠ '\n' := by
      rintro rfl
      exact hfirst (.inl (by simp [List.cons_prefix_cons]))
    have hcr : ¬ (c = '\r' ∧ (text ++ rest).head? = some '\n') := by
      rintro ⟨rfl, hhead⟩
      obtain ⟨tail, htail⟩ := List.head?_eq_some_iff.1 hhead
      exact hfirst (.inr ⟨tail, by rw [htail]; rfl⟩)
    rw [List.cons_append, lineLength_cons hlf hcr, List.length_cons]
    exact congrArg (· + 1) (ih fun i hi => h (i + 1) (Nat.succ_lt_succ hi))

theorem lineLength_drop_self (cs : List Char) :
    cs.drop (lineLength cs) = [] ∨ BeginsWithLineEnd (cs.drop (lineLength cs)) := by
  have hcut := lineLength_drop (Nat.le_refl (lineLength cs))
  exact lineLength_eq_zero_iff.1 (by omega)

theorem not_beginsWithLineEnd {cs : List Char} {i : Nat} (h : i < lineLength cs) :
    ¬ BeginsWithLineEnd (cs.drop i) := by
  intro hend
  have hcut := lineLength_drop (Nat.le_of_lt h)
  have hzero := lineLength_eq_zero_iff.2 (.inr hend)
  omega

/-! ## The scan keeps to the classes -/

theorem ofPunctuation?_eq_some_iff {c : Char} {k : Kind} :
    Kind.ofPunctuation? c = some k ↔ (c, k) ∈ marks := by
  constructor
  · intro h
    unfold Kind.ofPunctuation? at h
    repeat' split at h
    all_goals simp_all [marks]
  · intro h
    simp only [marks, List.mem_cons, Prod.mk.injEq, List.not_mem_nil, or_false] at h
    rcases h with ⟨rfl, rfl⟩ | ⟨rfl, rfl⟩ | ⟨rfl, rfl⟩ | ⟨rfl, rfl⟩ | ⟨rfl, rfl⟩ | ⟨rfl, rfl⟩ |
      ⟨rfl, rfl⟩ | ⟨rfl, rfl⟩ <;> rfl

theorem isBlank_iff {c : Char} : isBlank c ↔ c = ' ' ∨ c = '\t' := by
  simp [isBlank]

theorem shape_of_isBlank {c : Char} (h : isBlank c) (cs : List Char) :
    shape c cs = (.blank, (cs.takeWhile isBlank).length) := by
  rcases isBlank_iff.1 h with rfl | rfl <;> simp [shape, isBlank]

/-- Letters, digits and the underscore are neither blanks nor part of a line end. -/
theorem not_isBlank_of_isWordChar {c : Char} (h : isWordChar c) :
    c ≠ '\n' ∧ c ≠ '\r' ∧ isBlank c = false := by
  refine ⟨?_, ?_, Bool.eq_false_iff.2 fun hblank => ?_⟩
  · rintro rfl
    exact absurd h (by decide)
  · rintro rfl
    exact absurd h (by decide)
  · rcases isBlank_iff.1 hblank with rfl | rfl <;> exact absurd h (by decide)

theorem shape_of_isWordChar {c : Char} (h : isWordChar c) (hdigit : c.isDigit = false)
    (cs : List Char) : shape c cs =
      (if '_' ∈ c :: cs.takeWhile isWordChar then .identifier else .name,
        (cs.takeWhile isWordChar).length) := by
  obtain ⟨hlf, hcr, hblank⟩ := not_isBlank_of_isWordChar h
  have hstart : (c.isAlpha || c == '_') = true := by
    simpa [isWordChar, Char.isAlphanum, hdigit] using h
  simp only [shape, hlf, hcr, hblank, hstart, false_and, if_false, if_true, Bool.false_eq_true]

theorem shape_of_isDigit {c : Char} (h : c.isDigit) (cs : List Char) :
    shape c cs = (.number, (cs.takeWhile Char.isDigit).length) := by
  have hword : isWordChar c := by simp [isWordChar, Char.isAlphanum, h]
  obtain ⟨hlf, hcr, hblank⟩ := not_isBlank_of_isWordChar hword
  have hstart : (c.isAlpha || c == '_') = false := by
    rw [Bool.or_eq_false_iff]
    constructor
    · exact isAlpha_eq_false_of_isDigit h
    · refine beq_false_of_ne ?_
      rintro rfl
      exact absurd h (by decide)
  simp only [shape, hlf, hcr, hblank, hstart, h, false_and, if_false, if_true, Bool.false_eq_true]

/-- **The scan finds a class if there is one.** -/
theorem Matches.shape_eq {k : Kind} {x rest : List Char} (h : Matches k x rest) :
    ∃ c y, x = c :: y ∧ shape c (y ++ rest) = (k, y.length) := by
  cases h with
  | name hne hlongest hdigit hunderscore | identifier hne hlongest hdigit hunderscore =>
    obtain ⟨c, y, rfl⟩ := List.exists_cons_of_ne_nil hne
    obtain ⟨hc, htake⟩ := hlongest.cons
    refine ⟨c, y, rfl, ?_⟩
    rw [shape_of_isWordChar hc (by simpa using hdigit), htake]
    simp [hunderscore]
  | number hne hlongest =>
    obtain ⟨c, y, rfl⟩ := List.exists_cons_of_ne_nil hne
    obtain ⟨hc, htake⟩ := hlongest.cons
    exact ⟨c, y, rfl, by rw [shape_of_isDigit hc, htake]⟩
  | blank hne hlongest =>
    obtain ⟨c, y, rfl⟩ := List.exists_cons_of_ne_nil hne
    obtain ⟨hc, htake⟩ := hlongest.cons
    exact ⟨c, y, rfl, by rw [shape_of_isBlank hc, htake]⟩
  | comment hslashes hinside hend =>
    obtain ⟨z, rfl⟩ := hslashes
    refine ⟨'/', '/' :: z, rfl, ?_⟩
    have hline : lineLength ('/' :: z ++ rest) = ('/' :: z).length :=
      lineLength_append (fun i hi => hinside (i + 1) (Nat.succ_lt_succ hi)) hend
    rw [List.cons_append] at hline ⊢
    simp [shape, isBlank, hline]
  | string hstring =>
    cases hstring with
    | @intro items hitems =>
      refine ⟨'"', items.flatten ++ ['"'], rfl, ?_⟩
      have hscan := stringLength?_items hitems rest
      rw [List.append_assoc, List.singleton_append]
      simp [shape, isBlank, hscan]
  | lf => exact ⟨'\n', [], rfl, by simp [shape]⟩
  | crlf => exact ⟨'\r', ['\n'], rfl, by simp [shape]⟩
  | scope => exact ⟨':', [':'], rfl, by simp [shape, isBlank]⟩
  | ellipsis => exact ⟨'.', ['.', '.'], rfl, by simp [shape, isBlank, dots]⟩
  | range hrest =>
    refine ⟨'.', ['.'], rfl, ?_⟩
    cases rest with
    | nil => simp [shape, isBlank, dots]
    | cons d rest =>
      have hd : d ≠ '.' := by simpa using hrest
      simp [shape, isBlank, dots, hd]
  | dot hrest =>
    refine ⟨'.', [], rfl, ?_⟩
    cases rest with
    | nil => simp [shape, isBlank, dots]
    | cons d rest =>
      have hd : d ≠ '.' := by simpa using hrest
      simp [shape, isBlank, dots, hd]
  | @mark c _ _ hmark =>
    refine ⟨c, [], rfl, ?_⟩
    simp only [marks, List.mem_cons, Prod.mk.injEq, List.not_mem_nil, or_false] at hmark
    rcases hmark with ⟨rfl, rfl⟩ | ⟨rfl, rfl⟩ | ⟨rfl, rfl⟩ | ⟨rfl, rfl⟩ | ⟨rfl, rfl⟩ | ⟨rfl, rfl⟩ |
      ⟨rfl, rfl⟩ | ⟨rfl, rfl⟩ <;> simp [shape, isBlank, Kind.ofPunctuation?]

theorem Matches.ne_unknown {k : Kind} {x rest : List Char} (h : Matches k x rest) :
    k ≠ .unknown := by
  rintro rfl
  cases h with
  | mark hmark => simp [marks] at hmark

/-- **A text begins with one token at most**, whichever way it is cut. -/
theorem Matches.unique {k k' : Kind} {x x' y y' : List Char} (h : Matches k x y)
    (h' : Matches k' x' y') (hcut : x ++ y = x' ++ y') : k = k' ∧ x = x' := by
  obtain ⟨c, z, rfl, hshape⟩ := h.shape_eq
  obtain ⟨c', z', rfl, hshape'⟩ := h'.shape_eq
  obtain ⟨rfl, htail⟩ : c = c' ∧ z ++ y = z' ++ y' := List.cons.inj hcut
  rw [htail] at hshape
  obtain ⟨hk, hlength⟩ := Prod.mk.inj (hshape.symm.trans hshape')
  exact ⟨hk, congrArg (c :: ·) (List.append_inj_left htail hlength)⟩

theorem Classified.unique {k k' : Kind} {x x' y y' : List Char} (h : Classified k x y)
    (h' : Classified k' x' y') (hcut : x ++ y = x' ++ y') : k = k' ∧ x = x' := by
  cases h with
  | known h =>
    cases h' with
    | known h' => exact h.unique h' hcut
    | unknown hnone => exact absurd h (hnone _ _ _ hcut)
  | unknown hnone =>
    cases h' with
    | known h' => exact absurd h' (hnone _ _ _ hcut.symm)
    | unknown _ => exact ⟨rfl, congrArg (fun c => [c]) (List.cons.inj hcut).1⟩

theorem matches_dots (cs : List Char) :
    Matches (dots cs).1 ('.' :: cs.take (dots cs).2) (cs.drop (dots cs).2) := by
  fun_cases dots cs with
  | case1 cs => exact .ellipsis
  | case2 cs hnot =>
    refine .range fun hhead => ?_
    obtain ⟨tail, htail⟩ := List.head?_eq_some_iff.1 hhead
    exact hnot tail htail
  | case3 cs hnot' hnot =>
    refine .dot fun hhead => ?_
    obtain ⟨tail, htail⟩ := List.head?_eq_some_iff.1 hhead
    exact hnot tail htail

theorem matches_comment (cs : List Char) :
    Matches .comment ('/' :: ('/' :: cs).take (lineLength ('/' :: cs)))
      (('/' :: cs).drop (lineLength ('/' :: cs))) := by
  have hline : lineLength ('/' :: '/' :: cs) = lineLength ('/' :: cs) + 1 :=
    lineLength_cons (by decide) (by simp)
  have hslash : lineLength ('/' :: cs) = lineLength cs + 1 :=
    lineLength_cons (by decide) (by simp)
  refine .comment ?_ (fun i hi => ?_) (lineLength_drop_self _)
  · rw [hslash]
    simp [List.cons_prefix_cons]
  · rw [List.cons_append, List.take_append_drop]
    refine not_beginsWithLineEnd ?_
    rw [List.length_cons, List.length_take_of_le (lineLength_le _)] at hi
    omega

/-- A word begins with a letter or an underscore, which is no digit. -/
theorem isWordChar_of_start {c : Char} (h : (c.isAlpha || c == '_') = true) :
    isWordChar c ∧ c.isDigit = false := by
  rcases Bool.or_eq_true_iff.1 h with hc | hc
  · refine ⟨by simp [isWordChar, Char.isAlphanum, hc], ?_⟩
    rw [Bool.eq_false_iff]
    intro hdigit
    rw [isAlpha_eq_false_of_isDigit hdigit] at hc
    cases hc
  · rw [beq_iff_eq.1 hc]
    decide

/-- What the scan finds is of the class that it says. -/
theorem matches_shape {c : Char} {cs : List Char} (h : (shape c cs).1 ≠ .unknown) :
    Matches (shape c cs).1 (c :: cs.take (shape c cs).2) (cs.drop (shape c cs).2) := by
  revert h
  fun_cases shape c cs with
  | case1 hc =>
    intro _
    rw [hc]
    exact .lf
  | case2 _ hc =>
    intro _
    obtain ⟨rfl, hhead⟩ := hc
    obtain ⟨tail, rfl⟩ := List.head?_eq_some_iff.1 hhead
    exact .crlf
  | case3 _ _ hc => intro _; exact .blank (List.cons_ne_nil _ _) (longest_cons hc cs)
  | case4 _ _ _ hc tail =>
    intro _
    obtain ⟨hword, hdigit⟩ := isWordChar_of_start hc
    have hlongest := longest_cons hword cs
    dsimp only
    split
    · next hmem =>
      refine .identifier (List.cons_ne_nil _ _) hlongest (by simpa using hdigit) ?_
      rwa [take_takeWhile]
    · next hmem =>
      refine .name (List.cons_ne_nil _ _) hlongest (by simpa using hdigit) ?_
      rwa [take_takeWhile]
  | case5 _ _ _ _ hc => intro _; exact .number (List.cons_ne_nil _ _) (longest_cons hc cs)
  | case6 _ _ _ _ _ hc n hn =>
    intro _
    obtain ⟨items, hitems, htake⟩ := exists_items hn
    rw [hc, htake]
    exact .string (.intro hitems)
  | case7 => intro h; exact absurd rfl h
  | case8 _ _ _ _ _ _ hc =>
    intro _
    obtain ⟨rfl, hhead⟩ := hc
    obtain ⟨tail, rfl⟩ := List.head?_eq_some_iff.1 hhead
    exact matches_comment tail
  | case9 _ _ _ _ _ _ _ hc =>
    intro _
    rw [hc]
    exact matches_dots cs
  | case10 _ _ _ _ _ _ _ _ hc =>
    intro _
    obtain ⟨rfl, hhead⟩ := hc
    obtain ⟨tail, rfl⟩ := List.head?_eq_some_iff.1 hhead
    exact .scope
  | case11 =>
    intro h
    cases hmark : Kind.ofPunctuation? c with
    | none => exact absurd (by rw [hmark]; rfl) h
    | some k => exact .mark (ofPunctuation?_eq_some_iff.1 hmark)

theorem shape_of_unknown {c : Char} {cs : List Char} (h : (shape c cs).1 = .unknown) :
    shape c cs = (.unknown, 0) := by
  revert h
  fun_cases shape c cs with
  | case4 => intro h; dsimp only at h; split at h <;> cases h
  | case7 => intro _; rfl
  | case9 => intro h; simpa [h] using dots_kind cs
  | case11 => intro h; exact Prod.ext h rfl
  | case1 | case2 | case3 | case5 | case6 | case8 | case10 => intro h; cases h

/-- **Every text begins with a token of the lexical grammar**, and the scan finds it. -/
theorem classified_shape (c : Char) (cs : List Char) :
    Classified (shape c cs).1 (c :: cs.take (shape c cs).2) (cs.drop (shape c cs).2) := by
  by_cases h : (shape c cs).1 = .unknown
  · rw [shape_of_unknown h]
    refine .unknown fun k x y hcut hmatch => ?_
    obtain ⟨d, z, rfl, hshape⟩ := hmatch.shape_eq
    obtain ⟨rfl, htail⟩ : d = c ∧ z ++ y = cs := List.cons.inj hcut
    rw [htail] at hshape
    rw [hshape] at h
    exact hmatch.ne_unknown h
  · exact .known (matches_shape h)

/-- Each lexeme of a text is classified by itself and what follows it. -/
theorem classified_of_split {cs : List Char} {before after : List Lexeme} {l : Lexeme}
    (h : split cs = before ++ l :: after) : Classified l.kind l.text (after.flatMap text) := by
  have hrest := split_flatMap_of_append h
  generalize hds : (l :: after).flatMap text = ds at hrest
  cases ds with
  | nil => simp [split] at hrest
  | cons d ds =>
    rw [split] at hrest
    obtain ⟨rfl, rfl⟩ := List.cons.inj hrest
    rw [split_flatten]
    exact classified_shape d ds

/-! ## Quotes and dots -/

/-- Only a string begins with a quote. -/
theorem Matches.isString {k : Kind} {x rest : List Char} (h : Matches k x rest)
    (hquote : x.head? = some '"') : k = .string ∧ IsString x := by
  obtain ⟨y, rfl⟩ := List.head?_eq_some_iff.1 hquote
  cases h with
  | name _ hlongest | identifier _ hlongest | number _ hlongest | blank _ hlongest =>
    exact absurd hlongest.cons.1 (by decide)
  | comment hslashes => simp [List.cons_prefix_cons] at hslashes
  | string hstring => exact ⟨rfl, hstring⟩
  | mark hmark => simp [marks] at hmark

/-- A quote is unknown exactly if no string begins with it. -/
theorem Classified.quote {k : Kind} {x rest : List Char} (h : Classified k x rest)
    (hquote : x.head? = some '"') : k = .unknown ↔ ¬ ∃ y, IsString y ∧ y <+: x ++ rest := by
  constructor
  · rintro rfl ⟨y, hstring, z, hcut⟩
    have hkind := (Classified.known (.string hstring)).unique h hcut
    cases hkind.1
  · intro hnone
    cases h with
    | known h => exact absurd ⟨x, (h.isString hquote).2, List.prefix_append x rest⟩ hnone
    | unknown _ => rfl

/-- The lexemes that dots in a row are cut into: three dots as often as possible, and what is left
over. -/
def dotRun (n : Nat) : List Lexeme :=
  List.replicate (n / 3) ⟨.ellipsis, ['.', '.', '.']⟩ ++
    if n % 3 = 2 then [⟨.range, ['.', '.']⟩]
    else if n % 3 = 1 then [⟨.dot, ['.']⟩]
    else []

theorem dotRun_add_three (n : Nat) : dotRun (n + 3) = ⟨.ellipsis, ['.', '.', '.']⟩ :: dotRun n := by
  rw [dotRun, dotRun, Nat.add_div_right n (by decide), Nat.add_mod_right, List.replicate_succ]
  rfl

/-- **Dots in a row are cut into threes**, from the left. -/
theorem split_dots {back : List Char} (h : back.head? ≠ some '.') (n : Nat) :
    split (List.replicate n '.' ++ back) = dotRun n ++ split back := by
  induction n using Nat.strongRecOn with
  | ind n ih =>
    rcases n with _ | _ | _ | n
    · rfl
    · obtain ⟨c, y, hy, hshape⟩ := (Matches.dot h).shape_eq
      obtain ⟨rfl, rfl⟩ := List.cons.inj hy
      rw [List.nil_append, List.length_nil] at hshape
      change split ('.' :: back) = _
      rw [split, hshape]
      rfl
    · obtain ⟨c, y, hy, hshape⟩ := (Matches.range h).shape_eq
      obtain ⟨rfl, rfl⟩ := List.cons.inj hy
      rw [List.singleton_append, List.length_singleton] at hshape
      change split ('.' :: '.' :: back) = _
      rw [split, hshape]
      rfl
    · have hshape : shape '.' ('.' :: '.' :: (List.replicate n '.' ++ back)) = (.ellipsis, 2) := by
        simp [shape, isBlank, dots]
      change split ('.' :: '.' :: '.' :: (List.replicate n '.' ++ back)) = dotRun (n + 3) ++ _
      rw [split, hshape, dotRun_add_three, List.cons_append, ← ih n (by omega)]
      rfl

/-- Besides strings and comments, only lexemes made of dots have a dot in them. -/
theorem eq_dot_of_mem {l : Lexeme} {cs : List Char} (hl : l ∈ split cs) (hdot : '.' ∈ l.text) :
    l.kind = .string ∨ l.kind = .comment ∨ ∀ c ∈ l.text, c = '.' := by
  obtain ⟨rest, h⟩ : ∃ rest, Classified l.kind l.text rest :=
    forall_mem_split (fun l => ∃ rest, Classified l.kind l.text rest)
      (fun c cs => ⟨_, classified_shape c cs⟩) hl
  obtain ⟨kind, x⟩ := l
  dsimp only at h hdot ⊢
  cases h with
  | known h =>
    cases h with
    | name _ hlongest | identifier _ hlongest | number _ hlongest | blank _ hlongest =>
      exact absurd (hlongest.all '.' hdot) (by decide)
    | string => exact .inl rfl
    | comment => exact .inr (.inl rfl)
    | lf | crlf | scope => simp at hdot
    | ellipsis | range | dot => exact .inr (.inr (by simp))
    | mark hmark =>
      rw [← List.mem_singleton.1 hdot] at hmark
      simp [marks] at hmark
  | unknown hnone =>
    rw [← List.mem_singleton.1 hdot] at hnone
    refine absurd (matches_dots rest) (hnone _ _ _ ?_)
    rw [List.cons_append, List.take_append_drop]

/-- Each character of a text stands in one of its lexemes. -/
theorem exists_lexeme_at {ls : List Lexeme} {front rest : List Char} {c : Char}
    (h : ls.flatMap text = front ++ c :: rest) : ∃ before l after left right,
      ls = before ++ l :: after ∧ front = before.flatMap text ++ left ∧
      l.text = left ++ c :: right ∧ rest = right ++ after.flatMap text := by
  induction ls generalizing front with
  | nil => simp at h
  | cons l ls ih =>
    have hcases : (∃ front', front = l.text ++ front' ∧ ls.flatMap text = front' ++ c :: rest) ∨
        ∃ right, l.text = front ++ c :: right ∧ rest = right ++ ls.flatMap text := by
      rw [List.flatMap_cons, List.append_eq_append_iff] at h
      rcases h with hlater | ⟨tail, htext, hcut⟩
      · exact .inl hlater
      · cases tail with
        | nil => exact .inl ⟨[], by simpa using htext.symm, by simpa using hcut.symm⟩
        | cons d right =>
          obtain ⟨rfl, hrest⟩ := List.cons.inj hcut
          exact .inr ⟨right, htext, hrest⟩
    rcases hcases with ⟨front', rfl, hcut⟩ | ⟨right, htext, hrest⟩
    · obtain ⟨before, m, after, left, right, rfl, rfl, hm, hrest⟩ := ih hcut
      exact ⟨l :: before, m, after, left, right, rfl, by simp, hm, hrest⟩
    · exact ⟨[], l, ls, front, right, rfl, rfl, htext, hrest⟩

end Lexeme

/-! ## Tokens -/

open Lexeme

/-- No string and no comment in the text reaches over the character at the offset. -/
def Outside (text : String) (offset : Nat) : Prop :=
  ∀ t ∈ tokens text, t.kind = .string ∨ t.kind = .comment →
    ¬ (t.span.start.offset ≤ offset ∧ offset < t.span.stop.offset)

theorem tokens_of_split {text : String} {before after : List Lexeme}
    (h : split text.toList = before ++ after) : tokens text =
      place .first before ++ place (.behind (before.flatMap Lexeme.text)) after := by
  have hcloses : ∀ l ∈ before, l.ClosesLine := fun l hl =>
    closesLine_split text l (by simp [h, hl])
  rw [tokens, h, place_append, first_eq_behind, finish_behind hcloses, List.nil_append]

/-- A token begins where a run of dots does, unless a string or comment is around it. -/
theorem exists_dotRun {text : String} {front back : List Char} {n : Nat}
    (htext : text.toList = front ++ List.replicate n '.' ++ back) (hn : 0 < n)
    (hfront : front.getLast? ≠ some '.') (hback : back.head? ≠ some '.')
    (houtside : Outside text front.length) : ∃ before, before.flatMap Lexeme.text = front ∧
      split text.toList = before ++ (dotRun n ++ split back) := by
  obtain ⟨m, rfl⟩ := Nat.exists_eq_succ_of_ne_zero (Nat.ne_of_gt hn)
  have hflat : (split text.toList).flatMap Lexeme.text =
      front ++ '.' :: (List.replicate m '.' ++ back) := by
    rw [split_flatten, htext, List.replicate_succ]
    simp
  obtain ⟨before, l, after, left, right, hsplit, hleft, hl, hright⟩ := exists_lexeme_at hflat
  have hmem : l ∈ split text.toList := by
    rw [hsplit]
    simp
  have htoken : l.toToken (.behind (before.flatMap Lexeme.text)) ∈ tokens text := by
    rw [tokens_of_split hsplit]
    exact List.mem_append_right _ List.mem_cons_self
  have hreaches : (before.flatMap Lexeme.text).length ≤ front.length ∧
      front.length < (before.flatMap Lexeme.text).length + l.text.length := by
    rw [hleft, hl]
    simp only [List.length_append, List.length_cons]
    omega
  have hover : ¬ (l.kind = .string ∨ l.kind = .comment) := by
    intro hkind
    refine houtside _ htoken hkind ?_
    simp only [toToken, Position.behind, Position.advance]
    omega
  have hdots : ∀ c ∈ l.text, c = '.' := by
    rcases eq_dot_of_mem hmem (by simp [hl]) with hkind | hkind | hdots
    · exact absurd (.inl hkind) hover
    · exact absurd (.inr hkind) hover
    · exact hdots
  -- a dot in front of the run would belong to it
  obtain rfl : left = [] := by
    by_contra hne
    refine hfront ?_
    rw [hleft, List.getLast?_append_of_ne_nil _ hne, List.getLast?_eq_some_getLast hne]
    have hlast : left.getLast hne ∈ l.text := by simp [hl]
    rw [hdots _ hlast]
  rw [List.append_nil] at hleft
  refine ⟨before, hleft.symm, ?_⟩
  have hrest := split_flatMap_of_append hsplit
  rw [List.flatMap_cons, hl, List.nil_append, List.cons_append, ← hright, ← List.cons_append,
    ← List.replicate_succ, split_dots hback] at hrest
  rw [hsplit, hrest]

/-- **The tokens of a text are those of the lexical grammar.** Each token is of its class
(`Classified`), given what follows it in the text. This says which tokens there are, because no text
begins with tokens of two classes or of two lengths. A quote is unknown exactly if no string begins
with it. Dots in a row, outside of strings and comments, are cut into threes, and what is left over
is a range or a dot. -/
theorem tokens_classified (text : String) :
    (∀ t ∈ tokenize text, t.kind ≠ .endOfInput → ∃ rest,
      text.toList.drop t.span.start.offset.toNat = t.text.toList ++ rest ∧
      Classified t.kind t.text.toList rest) ∧
    (∀ k k' x x' y y', Classified k x y → Classified k' x' y' → x ++ y = x' ++ y' →
      k = k' ∧ x = x') ∧
    (∀ t ∈ tokenize text, t.text.toList.head? = some '"' → (t.kind = .unknown ↔
      ¬ ∃ x, IsString x ∧ x <+: text.toList.drop t.span.start.offset.toNat)) ∧
    ∀ front back n, text.toList = front ++ List.replicate n '.' ++ back → 0 < n →
      front.getLast? ≠ some '.' → back.head? ≠ some '.' → Outside text front.length →
      ∃ before run after, tokens text = before ++ (run ++ after) ∧
        String.join (before.map (·.text)) = String.ofList front ∧
        run.map (fun t => (t.kind, t.text)) =
          (dotRun n).map fun l => (l.kind, String.ofList l.text) := by
  have hclassified : ∀ t ∈ tokens text, ∃ rest,
      text.toList.drop t.span.start.offset.toNat = t.text.toList ++ rest ∧
      Classified t.kind t.text.toList rest := by
    intro t ht
    obtain ⟨before, l, after, hsplit, rfl⟩ := mem_tokens ht
    refine ⟨after.flatMap Lexeme.text, ?_, ?_⟩
    · have hstart : (l.toToken (.behind (before.flatMap Lexeme.text))).span.start.offset.toNat =
          (before.flatMap Lexeme.text).length := rfl
      rw [hstart, ← split_flatten text.toList, hsplit, List.flatMap_append, List.flatMap_cons,
        List.drop_left, toToken, String.toList_ofList]
    · simpa [toToken] using classified_of_split hsplit
  have htokens : ∀ t ∈ tokenize text, t ∈ tokens text ∨ t = .endAt (endOf text) := by
    intro t ht
    rw [tokenize, List.mem_append, List.mem_singleton] at ht
    exact ht
  refine ⟨fun t ht hkind => ?_, fun k k' x x' y y' h h' hcut => h.unique h' hcut,
    fun t ht hquote => ?_, fun front back n htext hn hfront hback houtside => ?_⟩
  · rcases htokens t ht with ht | rfl
    · exact hclassified t ht
    · exact absurd rfl hkind
  · rcases htokens t ht with ht | rfl
    · obtain ⟨rest, hrest, hclass⟩ := hclassified t ht
      rw [hrest]
      exact hclass.quote hquote
    · cases hquote
  · obtain ⟨before, hbefore, hsplit⟩ := exists_dotRun htext hn hfront hback houtside
    rw [tokens_of_split hsplit, place_append]
    refine ⟨_, _, _, rfl, ?_, map_place _ _⟩
    rw [join_place, hbefore]

/-- Five dots behind a word are cut in two, those in the string are not, and the last quote is
unknown. -/
theorem tokens_classified_dots :
    let text := "f_1.....\"...\"\"."
    (tokens text).map (fun t => (t.kind, t.text)) = [(.identifier, "f_1"), (.ellipsis, "..."),
      (.range, ".."), (.string, "\"...\""), (.unknown, "\""), (.dot, ".")] ∧
    Outside text 3 ∧
    (∃ before run after, tokens text = before ++ (run ++ after) ∧
      String.join (before.map (·.text)) = "f_1" ∧
      run.map (fun t => (t.kind, t.text)) = [(.ellipsis, "..."), (.range, "..")]) ∧
    ¬ ∃ x, IsString x ∧ x <+: ['"', '.'] := by
  intro text
  obtain ⟨-, -, hquote, hdots⟩ := tokens_classified text
  have houtside : Outside text 3 := by
    unfold Outside
    decide +kernel
  have hlast : (⟨.unknown, "\"", ⟨⟨1, 14, 13⟩, ⟨1, 15, 14⟩⟩⟩ : Token) ∈ tokenize text := by
    decide +kernel
  have hnone : ¬ ∃ x, IsString x ∧ x <+: text.toList.drop 13 :=
    (hquote _ hlast (by decide)).1 rfl
  rw [show text.toList.drop 13 = ['"', '.'] by decide] at hnone
  refine ⟨by decide +kernel, houtside, ?_, hnone⟩
  exact hdots ['f', '_', '1'] ['"', '.', '.', '.', '"', '"', '.'] 5 (by decide) (by decide)
    (by decide) (by decide) houtside

end MacroModules
