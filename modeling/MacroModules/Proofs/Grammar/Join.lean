import MacroModules.Proofs.Grammar.Reading
import MacroModules.Proofs.Grammar.Relabel
import MacroModules.Proofs.Token.Lexeme

/-!
# Documents one after another

Two texts with a line feed between them have the tokens of both, and if both are documents then so
is the whole: no token and no module reaches across the line feed. What stands behind it is only
further down (`Token.shift`), and raw text that meets at the seam becomes one section (`mergeRaw`).

* `tokens_append_lf`: the tokens of the whole.
* `File.append`: documents can be put one after another.
* `read_append_lf`: **the whole is read as the sections of both parts**.
-/

namespace MacroModules

/-! ## Tokens further down -/

/-- The place as many lines and characters further down, in the same column. -/
def Position.shift (lines offset : Int) (p : Position) : Position :=
  ⟨p.line + lines, p.column, p.offset + offset⟩

/-- The token as many lines and characters further down. -/
def Token.shift (lines offset : Int) (t : Token) : Token :=
  { t with span := ⟨t.span.start.shift lines offset, t.span.stop.shift lines offset⟩ }

variable {lines offset : Int}

theorem Position.advance_shift (p : Position) (n : Nat) :
    (p.shift lines offset).advance n = (p.advance n).shift lines offset := by
  simp only [shift, advance, Position.mk.injEq, true_and]
  omega

theorem Position.nextLine_shift (p : Position) :
    (p.shift lines offset).nextLine = p.nextLine.shift lines offset := by
  simp only [shift, nextLine, Position.mk.injEq, and_true]
  omega

namespace Lexeme

theorem after_shift (l : Lexeme) (p : Position) :
    l.after (p.shift lines offset) = (l.after p).shift lines offset := by
  unfold after
  rw [Position.advance_shift]
  split
  · exact Position.nextLine_shift _
  · rfl

/-- Lexemes that begin further down stand further down. -/
theorem place_shift (p : Position) (ls : List Lexeme) :
    place (p.shift lines offset) ls = (place p ls).map (Token.shift lines offset) := by
  induction ls generalizing p with
  | nil => rfl
  | cons l ls ih =>
    rw [place, place, List.map_cons, after_shift, ih]
    simp only [toToken, Token.shift, Position.advance_shift]

theorem place_append (p : Position) (ls ms : List Lexeme) :
    place p (ls ++ ms) = place p ls ++ place (finish p ls) ms := by
  induction ls generalizing p with
  | nil => rfl
  | cons l ls ih =>
    rw [List.cons_append, place, place, ih, List.cons_append, finish, finish, List.foldl_cons]

end Lexeme

/-- **A line feed keeps texts apart.** Behind it the tokens are those of the second text, only
further down. -/
theorem tokens_append_lf {a : String} (b : String) (h : a.toList.getLast? ≠ some '\r') :
    ∃ t lines offset, t.kind = .newline ∧ t.text = "\n" ∧
      tokens (a ++ "\n" ++ b) = tokens a ++ t :: (tokens b).map (Token.shift lines offset) := by
  -- what follows the newline begins a line, as a text does
  have hnext : ∀ p : Position, Lexeme.after ⟨.newline, ['\n']⟩ p =
      Position.first.shift p.line (p.offset + 1) := by
    intro p
    simp only [Lexeme.after, Position.advance, Position.nextLine, Position.shift, Position.first,
      if_true, Position.mk.injEq, true_and, List.length_singleton]
    omega
  have htext : (a ++ "\n" ++ b).toList = a.toList ++ '\n' :: b.toList := by simp
  refine ⟨Lexeme.toToken ⟨.newline, ['\n']⟩ (endOf a), (endOf a).line, (endOf a).offset + 1, rfl,
    rfl, ?_⟩
  rw [tokens, htext, Lexeme.split_append_lf _ h, Lexeme.place_append, Lexeme.place, hnext,
    Lexeme.place_shift]
  rfl

namespace Grammar

/-- Moving tokens further down leaves documents what they are. -/
theorem relabels_shift (lines offset : Int) : Relabels (Token.shift lines offset) :=
  ⟨fun _ => rfl, fun _ _ => rfl⟩

/-! ## Sections at a seam -/

/-- Raw text in front of some sections, as part of the first of them if that is raw text too. -/
def pushRaw (text : String) : List Section → List Section
  | .raw next :: ss => .raw (text ++ next) :: ss
  | ss => .raw text :: ss

/-- The sections with no raw text behind raw text. -/
def mergeRaw : List Section → List Section
  | [] => []
  | .raw text :: ss => pushRaw text (mergeRaw ss)
  | c :: ss => c :: mergeRaw ss

theorem pushRaw_of_head {text : String} {ss : List Section}
    (h : ∀ next, ss.head? ≠ some (.raw next)) : pushRaw text ss = .raw text :: ss := by
  unfold pushRaw
  split
  · exact absurd rfl (h _)
  · rfl

variable {numeral : String → Prop} {ts us : List Token} {ss rs : List Section}

/-- In a document there is nothing to merge. -/
theorem File.mergeRaw_eq (h : File numeral ts ss) : mergeRaw ss = ss := by
  induction h with
  | nil => rfl
  | code _ _ ih => rw [mergeRaw, ih]; rintro _ ⟨⟩
  | raw _ _ hhead _ ih => rw [mergeRaw, ih, pushRaw_of_head hhead]

/-- Raw text may stand in front of a document. -/
theorem File.pushRaw (h : File numeral ts ss) {run : List Token} (hne : run ≠ [])
    (hrun : ∀ t ∈ run, t.kind ≠ .atSign) :
    File numeral (run ++ ts) (pushRaw (String.join (run.map (·.text))) ss) := by
  cases h with
  | nil => exact .raw hne hrun (by simp) .nil
  | code hm hss => exact .raw hne hrun (by simp) (.code hm hss)
  | @raw run' ts ss hne' hrun' hhead hss =>
    have hmerged : File numeral ((run ++ run') ++ ts)
        (.raw (String.join ((run ++ run').map (·.text))) :: ss) := by
      refine .raw (by simp [hne]) (fun t ht => ?_) hhead hss
      rcases List.mem_append.1 ht with ht | ht
      · exact hrun t ht
      · exact hrun' t ht
    simpa [Grammar.pushRaw, String.join_append] using hmerged

/-- **Documents can be put one after another.** -/
theorem File.append (h : File numeral ts ss) (h' : File numeral us rs) :
    File numeral (ts ++ us) (mergeRaw (ss ++ rs)) := by
  induction h with
  | nil => rw [List.nil_append, List.nil_append, h'.mergeRaw_eq]; exact h'
  | code hm _ ih =>
    rw [List.append_assoc, List.cons_append, mergeRaw]
    · exact .code hm ih
    · rintro _ ⟨⟩
  | raw hne hrun _ _ ih =>
    rw [List.append_assoc, List.cons_append, mergeRaw]
    exact ih.pushRaw hne hrun

/-! ## Reading -/

/-- **A text with a line feed between two documents is read as the sections of both.** -/
theorem read_append_lf {a b f₁ f₂ : String} (f : String) {d₁ d₂ : Document}
    (ha : Document.read ⟨f₁, a⟩ = .ok d₁) (hb : Document.read ⟨f₂, b⟩ = .ok d₂)
    (hcr : a.toList.getLast? ≠ some '\r') :
    ∃ rs, List.Forall₂ (SectionRel Eq) d₂.sections rs ∧
      Document.read ⟨f, a ++ "\n" ++ b⟩ = .ok ⟨⟨f, a ++ "\n" ++ b⟩,
        mergeRaw (d₁.sections ++ mergeRaw (.raw "\n" :: rs))⟩ := by
  obtain ⟨-, ha⟩ := read_eq_ok_iff.1 ha
  obtain ⟨-, hb⟩ := read_eq_ok_iff.1 hb
  obtain ⟨t, lines, offset, hkind, htext, htokens⟩ := tokens_append_lf b hcr
  obtain ⟨rs, hrs, halike⟩ := hb.map (relabels_shift lines offset)
  refine ⟨rs, halike.imp ?_, read_eq_ok_iff.2 ⟨rfl, ?_⟩⟩
  · intro c c' h
    cases h with
    | raw h => obtain ⟨run, rfl, rfl⟩ := h; exact .raw (by rw [List.map_map]; rfl)
    | code hname hbody => exact .code hname hbody
    | unknown label => exact .unknown label
  · have hline : File ShortNumeral ([t] ++ []) [.raw (String.join ([t].map (·.text)))] :=
      .raw (by simp) (by simp [hkind]) (by simp) .nil
    have hwhole := ha.append (hline.append hrs)
    rw [htokens]
    simpa [htext] using hwhole

end Grammar

end MacroModules
