import Mathlib.Data.List.DropRight
import MacroModules.Proofs.Document.Pieces

/-!
# Lines of a text

A line has two views. For the text it is what stands between two line feeds; for the lexemes it is
a run without newlines, which the scan follows by adding up columns.

* `lineLength_split`: the lexemes up to the first newline are the text up to the line end.
* `finish_along`: how the position moves along a run of lexemes without a newline.
* `exists_stretch`: both together, for the tokens from some place up to the end of its line.
* `getElem?_splitOn_count`: the line that the text before a place ends in.
-/

namespace MacroModules

namespace Lexeme

/-! ## The length of a line -/

theorem lineLength_cons {c : Char} {cs : List Char} (hc : c ≠ '\n')
    (hcr : ¬ (c = '\r' ∧ cs.head? = some '\n')) : lineLength (c :: cs) = lineLength cs + 1 := by
  rw [lineLength, if_neg hc]
  rintro tail rfl rfl
  exact hcr ⟨rfl, rfl⟩

theorem head?_ne_of_lineLength_pos {cs : List Char} (h : 0 < lineLength cs) :
    cs.head? ≠ some '\n' := by
  intro hhead
  obtain ⟨tail, rfl⟩ := List.head?_eq_some_iff.1 hhead
  rw [lineLength, if_pos rfl] at h
  · exact Nat.lt_irrefl _ h
  · rintro _ ⟨⟩

theorem length_takeWhile_le_lineLength {p : Char → Bool} (hlf : p '\n' = false)
    (hcr : p '\r' = false) (cs : List Char) : (cs.takeWhile p).length ≤ lineLength cs := by
  induction cs with
  | nil => exact Nat.le_refl _
  | cons c cs ih =>
    by_cases hc : p c = true
    · have hne : c ≠ '\n' ∧ c ≠ '\r' := by
        constructor <;> rintro rfl <;> simp_all
      rw [List.takeWhile_cons_of_pos hc, lineLength_cons hne.1 fun h => hne.2 h.1]
      exact Nat.succ_le_succ ih
    · rw [List.takeWhile_cons_of_neg hc]
      exact Nat.zero_le _

/-- A quoted string is closed on its line. -/
theorem stringLength_le_lineLength {cs : List Char} {n : Nat} (h : stringLength? cs = some n) :
    0 < n ∧ n ≤ lineLength cs := by
  fun_induction stringLength? cs generalizing n with
  | case1 => cases h
  | case2 =>
    cases h
    rw [lineLength_cons (by decide) (by simp)]
    omega
  | case3 => cases h
  | case4 c cs hc ih =>
    obtain ⟨k, hk, rfl⟩ := Option.map_eq_some_iff.1 h
    obtain ⟨hpos, hle⟩ := ih hk
    have hhead := head?_ne_of_lineLength_pos (Nat.lt_of_lt_of_le hpos hle)
    rw [lineLength_cons (by decide) (by simp), lineLength_cons hc fun h => hhead h.2]
    omega
  | case5 => cases h
  | case6 c cs _ _ hc ih =>
    obtain ⟨k, hk, rfl⟩ := Option.map_eq_some_iff.1 h
    obtain ⟨hpos, hle⟩ := ih hk
    rw [lineLength_cons (fun he => hc (.inr he)) fun h => hc (.inl h.1)]
    omega

theorem dots_le_lineLength (cs : List Char) : (dots cs).2 ≤ lineLength cs := by
  fun_cases dots cs with
  | case1 tail =>
    rw [lineLength_cons (by decide) (by simp), lineLength_cons (by decide) (by simp)]
    omega
  | case2 tail =>
    rw [lineLength_cons (by decide) (by simp)]
    omega
  | case3 => exact Nat.zero_le _

/-- A lexeme that is no newline ends on the line. -/
theorem shape_le_lineLength {c : Char} {cs : List Char} (h : (shape c cs).1 ≠ .newline) :
    (shape c cs).2 + 1 ≤ lineLength (c :: cs) := by
  have hlf : c ≠ '\n' := by
    rintro rfl
    exact h (by simp [shape])
  have hcr : ¬ (c = '\r' ∧ cs.head? = some '\n') := by
    intro hcr
    exact h (by simp [shape, hcr])
  rw [lineLength_cons hlf hcr]
  refine Nat.succ_le_succ ?_
  revert h
  fun_cases shape c cs with
  | case1 | case2 => intro h; exact absurd rfl h
  | case3 | case4 | case5 =>
    intro _
    exact length_takeWhile_le_lineLength (by decide) (by decide) cs
  | case6 _ _ _ _ _ _ n hn => intro _; exact (stringLength_le_lineLength hn).2
  | case8 => intro _; exact Nat.le_refl _
  | case9 => intro _; exact dots_le_lineLength cs
  | case10 _ _ _ _ _ _ _ _ hc =>
    intro _
    obtain ⟨ds, rfl⟩ := List.head?_eq_some_iff.1 hc.2
    rw [lineLength_cons (by decide) (by simp)]
    omega
  | case7 | case11 => intro _; exact Nat.zero_le _

theorem lineLength_drop {cs : List Char} {n : Nat} (h : n ≤ lineLength cs) :
    lineLength cs = n + lineLength (cs.drop n) := by
  fun_induction lineLength cs generalizing n with
  | case1 => simp_all [lineLength]
  | case2 => simp_all [lineLength]
  | case3 => simp_all [lineLength]
  | case4 c cs hcr hc ih =>
    cases n with
    | zero =>
      rw [List.drop_zero, Nat.zero_add, lineLength_cons hc]
      rintro ⟨rfl, hhead⟩
      obtain ⟨tail, rfl⟩ := List.head?_eq_some_iff.1 hhead
      exact hcr tail rfl rfl
    | succ n =>
      have := ih (Nat.le_of_succ_le_succ h)
      rw [List.drop_succ_cons]
      omega

theorem lineLength_of_newline {c : Char} {cs : List Char} (h : (shape c cs).1 = .newline) :
    lineLength (c :: cs) = 0 := by
  rcases shape_newline h with htext | htext
  · obtain ⟨rfl, -⟩ := List.cons_eq_cons.1 htext
    rw [lineLength, if_pos rfl]
    rintro _ ⟨⟩
  · obtain ⟨rfl, htake⟩ := List.cons_eq_cons.1 htext
    cases cs with
    | nil => simp at htake
    | cons d cs =>
      cases hn : (shape '\r' (d :: cs)).2 with
      | zero => simp [hn] at htake
      | succ n =>
        rw [hn, List.take_succ_cons] at htake
        rw [(List.cons_eq_cons.1 htake).1, lineLength]

/-- **A line, as lexemes and as text:** the lexemes before the first newline reach up to the line
end. -/
theorem lineLength_split (cs : List Char) :
    (((split cs).takeWhile (·.kind != .newline)).flatMap text).length = lineLength cs := by
  fun_induction split cs with
  | case1 => rfl
  | case2 c cs ih =>
    by_cases hk : (shape c cs).1 = .newline
    · rw [List.takeWhile_cons_of_neg (by simp [hk]), lineLength_of_newline hk]
      rfl
    · have hle := shape_le_lineLength hk
      have hlength : (c :: cs.take (shape c cs).2).length = (shape c cs).2 + 1 := by
        rw [List.length_cons, List.length_take_of_le (shape_le c cs)]
      rw [List.takeWhile_cons_of_pos (by simpa using hk), List.flatMap_cons, List.length_append,
        ih, lineLength_drop hle, List.drop_succ_cons]
      dsimp only
      omega

/-- Behind some of its lexemes a text goes on with the lexemes of the rest. -/
theorem split_flatMap_of_append {cs : List Char} {ms ns : List Lexeme} (h : split cs = ms ++ ns) :
    split (ns.flatMap text) = ns := by
  induction ms generalizing cs with
  | nil =>
    rw [List.nil_append] at h
    rw [← h, split_flatten]
  | cons m ms ih =>
    cases cs with
    | nil => simp [split] at h
    | cons c cs =>
      rw [split] at h
      exact ih (List.cons_eq_cons.1 h).2

/-! ## Positions along a line -/

theorem exists_mem_place {ls : List Lexeme} {l : Lexeme} (h : l ∈ ls) (p : Position) :
    ∃ q, l.toToken q ∈ place p ls := by
  induction ls generalizing p with
  | nil => cases h
  | cons m ls ih =>
    rcases List.mem_cons.1 h with rfl | h
    · exact ⟨p, List.mem_cons_self⟩
    · obtain ⟨q, hq⟩ := ih h (m.after p)
      exact ⟨q, List.mem_cons_of_mem _ hq⟩

/-- Without newlines the position moves along the line. -/
theorem finish_along {ls : List Lexeme} (h : ∀ l ∈ ls, l.kind ≠ .newline) (p : Position) :
    finish p ls = p.advance (ls.flatMap text).length := by
  induction ls generalizing p with
  | nil => simp [finish]
  | cons l ls ih =>
    have hafter : l.after p = p.advance l.text.length := by
      unfold after
      rw [if_neg (h l List.mem_cons_self)]
    have hrest := ih (fun k hk => h k (List.mem_cons_of_mem _ hk)) (l.after p)
    unfold finish at hrest ⊢
    rw [List.foldl_cons, hrest, hafter, ← Position.advance_add, List.flatMap_cons,
      List.length_append]

end Lexeme

/-- **Tokens up to the end of a line** are the text up to the end of that line, and the position at
which the line ends is as many columns further on. -/
theorem exists_stretch {text : String} {pre body post : List Token} {t : Token}
    (h : tokens text = pre ++ (t :: body ++ post)) (hbody : ∀ u ∈ t :: body, u.kind ≠ .newline)
    (hpost : ∀ u, post.head? = some u → u.kind = .newline) :
    ∃ front cut back, text.toList = front ++ cut ++ back ∧ t.span.start = .behind front ∧
      (post.head?.map (·.span.start)).getD (endOf text) =
        (Position.behind front).advance cut.length ∧
      cut = (cut ++ back).take (Lexeme.lineLength (cut ++ back)) := by
  obtain ⟨ms, ls, hsplit, -, hls⟩ := Lexeme.place_eq_append h
  obtain ⟨ns, ks, rfl, hns, hks⟩ := Lexeme.place_eq_append hls.symm
  have hfront : Lexeme.finish .first ms = .behind (ms.flatMap Lexeme.text) := by
    have hcloses : ∀ l ∈ ms, l.ClosesLine := fun l hl =>
      closesLine_split text l (by simp [hsplit, hl])
    rw [first_eq_behind, Lexeme.finish_behind hcloses, List.nil_append]
  rw [hfront] at hns hks
  have hline : ∀ l ∈ ns, l.kind ≠ .newline := by
    intro l hl
    obtain ⟨q, hq⟩ := Lexeme.exists_mem_place hl (.behind (ms.flatMap Lexeme.text))
    rw [← hns] at hq
    exact hbody _ hq
  rw [Lexeme.finish_along hline] at hks
  refine ⟨ms.flatMap Lexeme.text, ns.flatMap Lexeme.text, ks.flatMap Lexeme.text, ?_, ?_, ?_, ?_⟩
  · rw [← Lexeme.split_flatten text.toList, hsplit]
    simp
  · cases ns with
    | nil => cases hns
    | cons l ns => rw [(List.cons_eq_cons.1 hns).1]; rfl
  · cases ks with
    | nil =>
      have hend : endOf text = Lexeme.finish (Lexeme.finish .first ms) ns := by
        rw [endOf, hsplit, List.append_nil]
        exact List.foldl_append
      rw [hks, hend, hfront, Lexeme.finish_along hline]
      rfl
    | cons k ks => rw [hks]; rfl
  · have hrest : ks.takeWhile (·.kind != .newline) = [] := by
      cases ks with
      | nil => rfl
      | cons k ks =>
        have hk : k.kind = .newline := hpost _ (by rw [hks]; rfl)
        rw [List.takeWhile_cons_of_neg (by simp [hk])]
    have hlength := Lexeme.lineLength_split ((ns ++ ks).flatMap Lexeme.text)
    rw [Lexeme.split_flatMap_of_append hsplit,
      List.takeWhile_append_of_pos (fun l hl => by simpa using hline l hl), hrest, List.append_nil,
      List.flatMap_append] at hlength
    rw [← hlength, List.take_left]

/-! ## Lines between line feeds -/

theorem length_splitOn_lf (cs : List Char) : (cs.splitOn '\n').length = cs.count '\n' + 1 := by
  induction cs with
  | nil => rfl
  | cons c cs ih =>
    rw [List.splitOn] at ih ⊢
    rw [List.splitOnP_cons_eq_if_modifyHead]
    by_cases hc : c = '\n'
    · simp [hc, ih]
    · simp [hc, ih]

theorem head?_splitOn_lf (cs : List Char) :
    (cs.splitOn '\n').head? = some (cs.takeWhile (· != '\n')) := by
  induction cs with
  | nil => rfl
  | cons c cs ih =>
    rw [List.splitOn] at ih ⊢
    rw [List.splitOnP_cons_eq_if_modifyHead]
    by_cases hc : c = '\n'
    · simp [hc]
    · simp [hc, ih]

/-- The last line of a text, and what stands in front of it. -/
theorem exists_lastLine (cs : List Char) : ∃ lines last, cs = lines ++ last ∧ '\n' ∉ last ∧
    lastLineStart cs = lines.length ∧ (lines = [] ∨ ∃ init, lines = init ++ ['\n']) := by
  induction cs using List.reverseRecOn with
  | nil => exact ⟨[], [], rfl, by simp, rfl, .inl rfl⟩
  | append_singleton cs c ih =>
    by_cases hc : c = '\n'
    · subst hc
      exact ⟨cs ++ ['\n'], [], by simp, by simp, lastLineStart_append_lf cs, .inr ⟨cs, rfl⟩⟩
    · obtain ⟨lines, last, rfl, hlast, hstart, hlines⟩ := ih
      have hc' : '\n' ∉ [c] := by simpa using Ne.symm hc
      refine ⟨lines, last ++ [c], by simp, by simp [hlast, Ne.symm hc], ?_, hlines⟩
      rw [lastLineStart_append hc', hstart]

/-- **The line that a place is on:** it begins where the last line in front of the place does, and
its number is that of the line feeds before it. -/
theorem getElem?_splitOn_count (before rest : List Char) :
    ((before ++ rest).splitOn '\n')[before.count '\n']? =
      some (((before ++ rest).drop (lastLineStart before)).takeWhile (· != '\n')) := by
  obtain ⟨lines, last, rfl, hlast, hstart, hlines⟩ := exists_lastLine before
  rw [hstart, List.append_assoc, List.drop_left, List.count_append,
    List.count_eq_zero_of_not_mem hlast, Nat.add_zero, ← head?_splitOn_lf]
  rcases hlines with rfl | ⟨init, rfl⟩
  · rw [List.head?_eq_getElem?]
    rfl
  · have hlength : (init ++ ['\n']).count '\n' = (init.splitOn '\n').length := by
      rw [length_splitOn_lf, List.count_append]
      rfl
    rw [List.append_assoc, List.singleton_append, List.splitOn,
      List.splitOnP_append_cons _ _ (by simp), hlength, List.splitOn,
      List.getElem?_append_right (Nat.le_refl _), Nat.sub_self, List.head?_eq_getElem?]
    rfl

end MacroModules
