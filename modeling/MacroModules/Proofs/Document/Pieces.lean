import MacroModules.Proofs.Grammar.Reading
import MacroModules.Proofs.Token.Place

/-!
# Where the sections of a document stand in its text

A document is read from tokens, not from its text. Here its sections are put back into the text:
each of them has a piece of it, the pieces lie one behind the other, and there is nothing between
them.

* `Section.ReadFrom`, `Laid`: what a section says about its piece, and the pieces in a row.
* `place_eq_append`: tokens in a row can be cut anywhere, and so can the lexemes they come from.
* `standsIn_of_moduleForm`: a module reaches from its `@` to its brace, and its span is that of its
  name.
* `read_laid`: **the pieces of a document make up its text**.
* `raw_not_adjacent`: no raw text is cut in two.
-/

namespace MacroModules

/-! ## Pieces -/

/-- A module takes up a piece of a text that begins at the offset: from `@` to the closing brace,
with the module's name at its span, and on the line that the module says. -/
structure Module.StandsIn (text : String) (offset : Nat) (m : Module) (piece : String) : Prop where
  first : piece.toList.head? = some '@'
  last : piece.toList.getLast? = some '\x7d'
  start_le : offset ≤ m.span.start.offset
  le_stop : m.span.start.offset ≤ m.span.stop.offset
  stop_le : m.span.stop.offset ≤ offset + piece.length
  name : m.name.toList =
    (text.toList.take m.span.stop.offset.toNat).drop m.span.start.offset.toNat
  line : m.line = m.span.start.line

/-- A section and the piece of a text it is read from, which begins at the offset. -/
inductive Section.ReadFrom (text : String) (offset : Nat) : Section → String → Prop
  | raw {value : String} : value ≠ "" → ReadFrom text offset (.raw value) value
  | code {m : Module} {piece : String} :
      m.StandsIn text offset piece → ReadFrom text offset (.code m) piece

/-- The sections stand one behind the other in a text, from an offset on, each in its own piece. -/
inductive Laid (text : String) : Nat → List Section → List String → Prop
  | nil {offset : Nat} : Laid text offset [] []
  | cons {offset : Nat} {c : Section} {piece : String} {cs : List Section} {pieces : List String} :
      c.ReadFrom text offset piece → Laid text (offset + piece.length) cs pieces →
      Laid text offset (c :: cs) (piece :: pieces)

/-! ## Tokens in a row -/

namespace Lexeme

variable {p : Position} {ls : List Lexeme}

theorem place_eq_append {ts us : List Token} (h : place p ls = ts ++ us) :
    ∃ ms ns, ls = ms ++ ns ∧ ts = place p ms ∧ us = place (finish p ms) ns := by
  induction ts generalizing p ls with
  | nil => exact ⟨[], ls, rfl, rfl, h.symm⟩
  | cons t ts ih =>
    cases ls with
    | nil => cases h
    | cons l ls =>
      obtain ⟨rfl, hrest⟩ := List.cons_eq_cons.1 h
      obtain ⟨ms, ns, rfl, rfl, rfl⟩ := ih hrest
      exact ⟨l :: ms, ns, rfl, rfl, rfl⟩

theorem offset_finish (p : Position) (ls : List Lexeme) :
    (finish p ls).offset = p.offset + (ls.flatMap text).length := by
  induction ls generalizing p with
  | nil => simp [finish]
  | cons l ls ih =>
    have hrest := ih (l.after p)
    rw [offset_after] at hrest
    rw [List.flatMap_cons, List.length_append]
    unfold finish at hrest ⊢
    rw [List.foldl_cons, hrest]
    omega

/-- What follows a piece begins behind it. -/
theorem offset_finish_eq {offset : Nat} (hp : p.offset = offset) :
    (finish p ls).offset = ((offset + (String.ofList (ls.flatMap text)).length : Nat) : Int) := by
  rw [offset_finish, String.length_ofList, hp]
  omega

theorem join_piece {ms ns : List Lexeme} {pieces : List String}
    (h : String.join pieces = String.ofList (ns.flatMap text)) :
    String.join (String.ofList (ms.flatMap text) :: pieces) =
      String.ofList ((ms ++ ns).flatMap text) := by
  rw [String.join_cons, h, List.flatMap_append, String.ofList_append]

/-- Without newlines the line stays the same. -/
theorem line_finish (p : Position) (h : ∀ t ∈ place p ls, t.kind ≠ .newline) :
    (finish p ls).line = p.line := by
  induction ls generalizing p with
  | nil => rfl
  | cons l ls ih =>
    have hl : l.kind ≠ .newline := h (l.toToken p) List.mem_cons_self
    have hafter : (l.after p).line = p.line := by
      unfold after
      rw [if_neg hl]
      rfl
    have hrest := ih (l.after p) fun t ht => h t (List.mem_cons_of_mem _ ht)
    unfold finish at hrest ⊢
    rw [List.foldl_cons, hrest, hafter]

end Lexeme

/-- The signs that a module begins and ends with. -/
theorem text_of_mark {text : String} {t : Token} (h : t ∈ tokens text) :
    (t.kind = .atSign → t.text = "@") ∧ (t.kind = .braceClose → t.text = "\x7d") := by
  obtain ⟨before, l, after, hls, rfl⟩ := mem_tokens h
  have hmarked : l.Marked := Lexeme.marked_of_mem_split (by rw [hls]; simp)
  constructor
  · intro hk
    simp [Lexeme.toToken, hmarked.atSign hk]
  · intro hk
    simp [Lexeme.toToken, hmarked.braceClose hk]

namespace Grammar

open Lexeme

variable {numeral : String → Prop} {text : String} {p : Position} {offset : Nat}

/-- **A module stands in the tokens it is read from.** Between its `@` and its name there is no line
end, because only blanks and comments are skipped there. -/
theorem standsIn_of_moduleForm {ls : List Lexeme} {m : Module}
    (h : ModuleForm numeral (place p ls) m) (hin : ∀ t ∈ place p ls, t ∈ tokens text)
    (hp : p.offset = offset) :
    m.StandsIn text offset (String.ofList (ls.flatMap Lexeme.text)) := by
  generalize hts : place p ls = ts at h hin
  cases h with
  | @intro sign name o c gap gap' us body hsign hgap hmod hgap' ho hus hc =>
    have hjoin := join_place p ls
    rw [hts] at hjoin
    have hat : sign.text = "@" := (text_of_mark (hin sign (by simp))).1 hsign
    have hbrace : c.text = "\x7d" := (text_of_mark (hin c (by simp))).2 hc
    have hplaced := placed_of_mem_tokens (hin name (by simp))
    -- the lexemes up to the name, and those from the name on
    have hcut : place p ls = (sign :: gap) ++ (name :: gap' ++ o :: us ++ [c]) := by
      rw [hts]; simp
    obtain ⟨ms, ns, rfl, hms, hns⟩ := place_eq_append hcut
    have hstart : sign.span.start = p := by
      cases ms with
      | nil => cases hms
      | cons l ms => rw [(List.cons_eq_cons.1 hms).1]; rfl
    have hname : name.span.start = finish p ms ∧
        name.text.length ≤ (ns.flatMap Lexeme.text).length := by
      cases ns with
      | nil => cases hns
      | cons l ns =>
        rw [(List.cons_eq_cons.1 hns).1]
        refine ⟨rfl, ?_⟩
        simp [toToken]
    have hline : (finish p ms).line = p.line := by
      refine line_finish p fun t ht => ?_
      rw [← hms] at ht
      rcases List.mem_cons.1 ht with rfl | ht
      · rw [hsign]; decide
      · intro hk
        have hskip := hgap t ht
        rw [hk] at hskip
        cases hskip
    have hoffset := offset_finish p ms
    have hstop := hplaced.stop_offset
    rw [hname.1] at hstop
    have hlen : (String.ofList ((ms ++ ns).flatMap Lexeme.text)).length =
        (ms.flatMap Lexeme.text).length + (ns.flatMap Lexeme.text).length := by
      rw [String.length_ofList, List.flatMap_append, List.length_append]
    constructor
    case first => rw [← hjoin]; simp [hat]
    case last => rw [← hjoin]; simp [hbrace]
    case start_le => rw [hname.1]; omega
    case le_stop => dsimp only; rw [hname.1]; omega
    case stop_le => dsimp only; rw [hlen]; omega
    case name => exact hplaced.cut
    case line => rw [hstart, hname.1, hline]

/-- The tokens of a document make up its pieces. -/
theorem File.laid {ts : List Token} {ss : List Section} (h : File numeral ts ss)
    {ls : List Lexeme} (hts : place p ls = ts) (hin : ∀ t ∈ ts, t ∈ tokens text)
    (hp : p.offset = offset) :
    ∃ pieces, String.join pieces = String.ofList (ls.flatMap Lexeme.text) ∧
      Laid text offset ss pieces := by
  -- by the sections; what is left of the tokens begins behind the piece of the first one
  induction h generalizing p ls offset with
  | nil =>
    cases ls with
    | nil => exact ⟨[], rfl, .nil⟩
    | cons l ls => cases hts
  | @code us ts m ss hm _ ih =>
    obtain ⟨ms, ns, rfl, rfl, rfl⟩ := place_eq_append hts
    have hstands := standsIn_of_moduleForm hm (fun t ht => hin t (List.mem_append_left _ ht)) hp
    obtain ⟨pieces, hjoin, hlaid⟩ :=
      ih rfl (fun t ht => hin t (List.mem_append_right _ ht)) (offset_finish_eq hp)
    exact ⟨_ :: pieces, join_piece hjoin, .cons (.code hstands) hlaid⟩
  | @raw run ts ss hne hrun hhead _ ih =>
    obtain ⟨ms, ns, rfl, rfl, rfl⟩ := place_eq_append hts
    have hnonempty : String.ofList (ms.flatMap Lexeme.text) ≠ "" := by
      cases ms with
      | nil => exact absurd rfl hne
      | cons l ms =>
        have hl := (text_of_mem_tokens (hin (l.toToken p) (by simp [place]))).2.1
        rw [toToken, ne_eq, String.ofList_eq_empty_iff] at hl
        rw [ne_eq, String.ofList_eq_empty_iff, List.flatMap_cons, List.append_eq_nil_iff]
        exact fun he => hl he.1
    obtain ⟨pieces, hjoin, hlaid⟩ :=
      ih rfl (fun t ht => hin t (List.mem_append_right _ ht)) (offset_finish_eq hp)
    rw [join_place]
    exact ⟨_ :: pieces, join_piece hjoin, .cons (.raw hnonempty) hlaid⟩

/-- No raw text is cut in two. -/
theorem File.raw_not_adjacent {ts : List Token} {ss : List Section} (h : File numeral ts ss)
    (before after : List Section) (a b : String) : ss ≠ before ++ .raw a :: .raw b :: after := by
  induction h generalizing before with
  | nil => intro he; cases before <;> cases he
  | code _ _ ih =>
    intro he
    cases before with
    | nil => cases he
    | cons c before => exact ih before (List.cons_eq_cons.1 he).2
  | raw _ _ hhead _ ih =>
    intro he
    cases before with
    | nil => exact hhead b (by rw [(List.cons_eq_cons.1 he).2]; rfl)
    | cons c before => exact ih before (List.cons_eq_cons.1 he).2

/-- Nothing but raw text and modules is read. -/
theorem File.unknown_notMem {ts : List Token} {ss : List Section} (h : File numeral ts ss)
    (label : String) : Section.unknown label ∉ ss := by
  induction h with
  | nil => exact List.not_mem_nil
  | code _ _ ih => simpa using ih
  | raw _ _ _ _ ih => simpa using ih

end Grammar

/-! ## Documents -/

/-- **The pieces of a document make up its text.** -/
theorem read_laid {source : Source} {d : Document} (h : Document.read source = .ok d) :
    ∃ pieces, String.join pieces = source.text ∧ Laid source.text 0 d.sections pieces := by
  obtain ⟨-, hfile⟩ := Grammar.read_eq_ok_iff.1 h
  have hfirst : Position.first.offset = ((0 : Nat) : Int) := rfl
  obtain ⟨pieces, hjoin, hlaid⟩ := hfile.laid rfl (fun _ ht => ht) hfirst
  refine ⟨pieces, ?_, hlaid⟩
  rw [hjoin, Lexeme.split_flatten, String.ofList_toList]

end MacroModules
