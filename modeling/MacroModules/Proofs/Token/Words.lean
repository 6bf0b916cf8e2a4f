import MacroModules.Proofs.Token.Place

/-!
# Words end where they end

A name or an identifier takes along all characters that may stand in a word, so what follows it
begins with some other character.

* `Lexeme.shape_word`: how far a word reaches.
* `isChain_tokens`: **nothing behind a word goes on with it**.
* `isWordChar_of_mem_tokens`: a word is made of the characters of words.
-/

namespace MacroModules

/-- The text begins with a character that may stand in a word. -/
def beginsWithWordChar (text : String) : Bool := text.toList.head?.any isWordChar

namespace Lexeme

/-- A word takes all characters that may stand in it. -/
theorem shape_word {c : Char} {cs : List Char}
    (h : (shape c cs).1 = .name ∨ (shape c cs).1 = .identifier) :
    isWordChar c ∧ (shape c cs).2 = (cs.takeWhile isWordChar).length := by
  revert h
  fun_cases shape c cs with
  | case4 _ _ _ hc tail =>
    intro _
    refine ⟨?_, rfl⟩
    rcases Bool.or_eq_true_iff.1 hc with hc | hc
    · simp [isWordChar, Char.isAlphanum, hc]
    · simp [isWordChar, hc]
  | case9 =>
    intro h
    have hdots := dots_kind cs
    rcases h with h | h <;> simp [h] at hdots
  | case11 =>
    intro h
    have hmark := punctuation_kind c
    dsimp only at h
    rcases h with h | h <;> simp [h] at hmark
  | case1 | case2 | case3 | case5 | case6 | case7 | case8 | case10 =>
    intro h
    rcases h with h | h <;> cases h

theorem isWordChar_of_mem_split {l : Lexeme} {cs : List Char} (h : l ∈ split cs)
    (hkind : l.kind = .name ∨ l.kind = .identifier) : ∀ c ∈ l.text, isWordChar c := by
  revert hkind
  refine forall_mem_split (fun l => l.kind = .name ∨ l.kind = .identifier →
    ∀ c ∈ l.text, isWordChar c) (fun c cs hkind => ?_) h
  obtain ⟨hc, hlength⟩ := shape_word hkind
  dsimp only
  rw [hlength, take_takeWhile]
  exact List.forall_mem_cons.2 ⟨hc, List.all_eq_true.1 List.all_takeWhile⟩

theorem head?_split (cs : List Char) : ∀ l ∈ (split cs).head?, l.text.head? = cs.head? := by
  intro l hl
  cases cs with
  | nil => simp [split] at hl
  | cons c cs =>
    rw [split, List.head?_cons, Option.mem_some_iff] at hl
    rw [← hl]
    rfl

theorem isChain_split (cs : List Char) : (split cs).IsChain fun l k =>
    l.kind = .name ∨ l.kind = .identifier → k.text.head?.any isWordChar = false := by
  fun_induction split cs with
  | case1 => exact .nil
  | case2 c cs ih =>
    refine List.IsChain.cons ih fun k hk hkind => ?_
    rw [head?_split _ k hk, (shape_word hkind).2]
    -- behind the last character of a word stands the first that is none of it
    have hdrop : cs.drop (cs.takeWhile isWordChar).length = cs.dropWhile isWordChar := by
      have hcut := List.take_append_drop (cs.takeWhile isWordChar).length cs
      rw [take_takeWhile] at hcut
      exact List.append_cancel_left (hcut.trans List.takeWhile_append_dropWhile.symm)
    rw [hdrop]
    have hnot := List.head?_dropWhile_not isWordChar cs
    cases hhead : (cs.dropWhile isWordChar).head? with
    | none => rfl
    | some x => simpa [hhead] using hnot

/-- Placing lexemes does not change them. -/
theorem map_place (p : Position) (ls : List Lexeme) :
    (place p ls).map (fun t => (t.kind, t.text)) =
      ls.map fun l => (l.kind, String.ofList l.text) := by
  induction ls generalizing p with
  | nil => rfl
  | cons l ls ih => rw [place, List.map_cons, List.map_cons, ih]; rfl

end Lexeme

variable {text : String}

/-- **Nothing behind a word goes on with it.** -/
theorem isChain_tokens (text : String) : (tokens text).IsChain fun t u =>
    t.kind = .name ∨ t.kind = .identifier → beginsWithWordChar u.text = false := by
  let follows : Kind × String → Kind × String → Prop := fun x y =>
    x.1 = .name ∨ x.1 = .identifier → beginsWithWordChar y.2 = false
  have hchain : ((tokens text).map fun t => (t.kind, t.text)).IsChain follows := by
    rw [tokens, Lexeme.map_place, List.isChain_map]
    refine (Lexeme.isChain_split text.toList).imp fun l k hlk hkind => ?_
    rw [beginsWithWordChar, String.toList_ofList]
    exact hlk hkind
  exact (List.isChain_map _).1 hchain

theorem isWordChar_of_mem_tokens {t : Token} (ht : t ∈ tokens text)
    (hkind : t.kind = .name ∨ t.kind = .identifier) : ∀ c ∈ t.text.toList, isWordChar c := by
  obtain ⟨before, l, after, hsplit, rfl⟩ := mem_tokens ht
  have hl : l ∈ Lexeme.split text.toList := by
    rw [hsplit]
    simp
  rw [Lexeme.toToken, String.toList_ofList]
  exact Lexeme.isWordChar_of_mem_split hl hkind

end MacroModules
