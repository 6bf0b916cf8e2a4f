import MacroModules.Proofs.Expansion.Verbatim
import MacroModules.Proofs.Token.LineEnds

/-!
# Both conventions for line ends compile alike

CR LF in the place of each LF changes newlines and offsets (`Token.relined`), and neither counts for
the form of a document. So the new text has the same modules at the same lines and columns, and raw
text is converted as the text is (`Section.withCrLf`). In the output the text of modules stays what
it was: its line ends are not those of the source.

* `text_relined`: converting a text converts its tokens, one by one.
* `relined_relined`: the conversion of tokens can be undone, so nothing becomes a document by it.
* `read_withCrLf`, `exists_read_withCrLf_iff`: a text is a document if its conversion is one, with
  the same sections.
* `compile_withCrLf`: **the outputs differ in the raw text, and only there**.
-/

namespace MacroModules

/-- The module in the converted text: on the same line, with its name in the same columns. -/
def Module.withCrLf (m : Module) : Module :=
  { m with span := ⟨m.span.start.stretch 1, m.span.stop.stretch 1⟩ }

/-- The section in the converted text. -/
def Section.withCrLf : Section → Section
  | .raw text => .raw (MacroModules.withCrLf text)
  | .code m => .code m.withCrLf
  | .unknown label => .unknown label

/-- The source with CR LF in the place of each LF. -/
def Source.withCrLf (s : Source) : Source := ⟨s.name, MacroModules.withCrLf s.text⟩

/-- The document in the converted text. -/
def Document.withCrLf (d : Document) : Document :=
  ⟨d.source.withCrLf, d.sections.map Section.withCrLf⟩

/-! ## Texts of tokens -/

theorem withCrLf_append (a b : String) : withCrLf (a ++ b) = withCrLf a ++ withCrLf b := by
  unfold withCrLf
  rw [String.toList_append, crlf_append, String.ofList_append]

theorem withCrLf_join (xs : List String) :
    withCrLf (String.join xs) = String.join (xs.map withCrLf) := by
  induction xs with
  | nil => rfl
  | cons x xs ih => rw [String.join_cons, withCrLf_append, ih, List.map_cons, String.join_cons]

variable {text : String} {t : Token}

/-- In a text without carriage returns a newline is a line feed, and no other token holds one. -/
theorem endsInLf_of_mem_tokens (h : '\r' ∉ text.toList) (ht : t ∈ tokens text) :
    (t.kind = .newline → t.text = "\n") ∧ (t.kind ≠ .newline → '\n' ∉ t.text.toList) := by
  obtain ⟨before, l, after, hls, rfl⟩ := mem_tokens ht
  have hl : l.EndsInLf := Lexeme.endsInLf_of_mem_split h (by rw [hls]; simp)
  constructor
  · intro hk
    rw [Lexeme.toToken, hl.1 hk]
  · intro hk
    rw [Lexeme.toToken, String.toList_ofList]
    exact hl.2 hk

theorem text_relined (h : '\r' ∉ text.toList) (ht : t ∈ tokens text) :
    (t.relined "\r\n" 1).text = withCrLf t.text := by
  obtain ⟨hlf, hother⟩ := endsInLf_of_mem_tokens h ht
  unfold Token.relined
  by_cases hk : t.kind = .newline
  · rw [if_pos hk, hlf hk]
    rfl
  · rw [if_neg hk, withCrLf, crlf_eq_self (hother hk), String.ofList_toList]

/-- Back to line feeds. -/
theorem relined_relined (h : t.kind = .newline → t.text = "\n") :
    (t.relined "\r\n" 1).relined "\n" (-1) = t := by
  obtain ⟨kind, value, ⟨start, stop⟩⟩ := t
  by_cases hk : kind = .newline
  · have htext : value = "\n" := h hk
    simp only [Token.relined, Token.growth, Position.stretch, hk, htext, if_true]
    congr 3 <;> omega
  · simp only [Token.relined, Token.growth, Position.stretch, hk, if_false]
    congr 3 <;> omega

/-! ## Documents -/

namespace Grammar

theorem relabels_relined (lineEnd : String) (extra : Int) :
    Relabels (Token.relined lineEnd extra) :=
  ⟨fun _ => rfl, fun _ hk => if_neg hk⟩

/-- What becomes of a section is that it is converted. -/
theorem Relabelled.eq_withCrLf (h : '\r' ∉ text.toList) {c c' : Section}
    (hc : Relabelled (Token.relined "\r\n" 1) (tokens text) c c') : c.withCrLf = c' := by
  cases hc with
  | @raw run hrun =>
    have htexts : (run.map (Token.relined "\r\n" 1)).map (·.text) =
        (run.map (·.text)).map withCrLf := by
      rw [List.map_map, List.map_map]
      exact List.map_congr_left fun t ht => text_relined h (hrun t ht)
    rw [Section.withCrLf, withCrLf_join, htexts]
  | @code m sign name _ _ _ hmod hline hspan =>
    have hname : name.kind ≠ .newline := by
      rcases hmod with hk | hk <;> rw [hk] <;> decide
    rw [Section.withCrLf, Module.withCrLf, hspan, hline]
    simp only [Token.relined, Token.growth, if_neg hname, Int.add_zero, Position.stretch]

/-- **A document stays one when it is converted**, with the same sections. -/
theorem File.withCrLf {ss : List Section} (h : '\r' ∉ text.toList)
    (hfile : File ShortNumeral (tokens text) ss) :
    File ShortNumeral (tokens (withCrLf text)) (ss.map Section.withCrLf) := by
  obtain ⟨ss', hss, hrel⟩ := hfile.relabel (relabels_relined "\r\n" 1)
  have heq : List.Forall₂ (· = ·) (ss.map Section.withCrLf) ss' := by
    rw [List.forall₂_map_left_iff]
    exact hrel.imp fun _ _ hc => hc.eq_withCrLf h
  rw [List.forall₂_eq_eq_eq] at heq
  rw [heq, tokens_withCrLf h]
  exact hss

end Grammar

theorem read_withCrLf {s : Source} {d : Document} (h : '\r' ∉ s.text.toList)
    (hd : Document.read s = .ok d) : Document.read s.withCrLf = .ok d.withCrLf := by
  obtain ⟨hsource, hfile⟩ := Grammar.read_eq_ok_iff.1 hd
  refine Grammar.read_eq_ok_iff.2 ⟨?_, hfile.withCrLf h⟩
  rw [Document.withCrLf, hsource]

theorem exists_read_withCrLf_iff {s : Source} (h : '\r' ∉ s.text.toList) :
    (∃ d, Document.read s.withCrLf = .ok d) ↔ ∃ d, Document.read s = .ok d := by
  constructor
  · rintro ⟨d, hd⟩
    obtain ⟨-, hfile⟩ := Grammar.read_eq_ok_iff.1 hd
    -- the tokens of the text come back from those of the converted text
    have htokens : (tokens (withCrLf s.text)).map (Token.relined "\n" (-1)) = tokens s.text := by
      rw [tokens_withCrLf h, List.map_map]
      conv_rhs => rw [← List.map_id (tokens s.text)]
      exact List.map_congr_left fun t ht => relined_relined (endsInLf_of_mem_tokens h ht).1
    obtain ⟨ss, hss, -⟩ := hfile.relabel (Grammar.relabels_relined "\n" (-1))
    rw [Source.withCrLf, htokens] at hss
    exact ⟨⟨s, ss⟩, Grammar.read_eq_ok_iff.2 ⟨rfl, hss⟩⟩
  · rintro ⟨d, hd⟩
    exact ⟨_, read_withCrLf h hd⟩

/-! ## Expansions -/

namespace Expansion

theorem modules_withCrLf (d : Document) : d.withCrLf.modules = d.modules.map Module.withCrLf := by
  unfold Document.modules Document.withCrLf
  rw [List.filterMap_map, List.map_filterMap]
  refine congrArg (fun f => d.sections.filterMap f) (funext fun c => ?_)
  cases c <;> rfl

/-- A module expands to the same text in the converted sources. -/
theorem moduleText_withCrLf (ds : List Document) (m : Module) :
    moduleText (Registry.ofDocuments (ds.map Document.withCrLf)) m.withCrLf =
      moduleText (Registry.ofDocuments ds) m := by
  have hmodules : List.Forall₂ Module.Agree (ds.flatMap Document.modules)
      ((ds.map Document.withCrLf).flatMap Document.modules) := by
    have hmap : (ds.map Document.withCrLf).flatMap Document.modules =
        (ds.flatMap Document.modules).map Module.withCrLf := by
      rw [List.flatMap_map, List.map_flatMap]
      exact congrArg (fun f => ds.flatMap f) (funext modules_withCrLf)
    rw [hmap, List.forall₂_map_right_iff, List.forall₂_same]
    exact fun m _ => ⟨rfl, fun _ => rfl⟩
  exact moduleText_agree (Registry.agreeOn_of_modules hmodules _) rfl rfl

/-- The text of a converted document: raw text is converted, and the texts of modules are those of
the document. -/
theorem join_withCrLf (d : Document) {f g : Module → String}
    (h : ∀ m ∈ d.modules, f m.withCrLf = g m) :
    String.join (d.withCrLf.sections.map (Section.textWith id f)) =
      String.join (d.sections.map (Section.textWith withCrLf g)) := by
  rw [Document.withCrLf, List.map_map]
  refine congrArg String.join (List.map_congr_left fun c hc => ?_)
  cases c with
  | raw | unknown => rfl
  | code m => exact h m (Document.mem_modules.2 hc)

/-- The converted sources are compiled module by module as the sources are, and raw text is
converted. -/
theorem compile_withCrLf_eq_ok_iff {sources : List Source} {ds : List Document}
    (h : ∀ s ∈ sources, '\r' ∉ s.text.toList)
    (hread : List.Forall₂ (fun s d => Document.read s = .ok d) sources ds) {ys : List String} :
    compile (sources.map Source.withCrLf) = .ok ys ↔ ∃ f : Module → String,
      (∀ d ∈ ds, ∀ m ∈ d.modules, moduleText (Registry.ofDocuments ds) m = .ok (f m)) ∧
        ys = ds.map fun d => String.join (d.sections.map (Section.textWith withCrLf f)) := by
  have hread' : List.Forall₂ (fun s d => Document.read s = .ok d) (sources.map Source.withCrLf)
      (ds.map Document.withCrLf) := by
    rw [List.forall₂_map_left_iff, List.forall₂_map_right_iff]
    have hboth := (List.forall₂_and_left _ _).2 ⟨h, hread⟩
    exact hboth.imp fun s d hsd => read_withCrLf hsd.1 hsd.2
  have hmem : ∀ {d : Document} {m : Module}, m ∈ d.modules → m.withCrLf ∈ d.withCrLf.modules := by
    intro d m hm
    rw [modules_withCrLf]
    exact List.mem_map_of_mem hm
  rw [compile_eq_ok_iff_modules hread']
  constructor
  · rintro ⟨f, hf, rfl⟩
    refine ⟨fun m => f m.withCrLf, fun d hd m hm => ?_, ?_⟩
    · rw [← moduleText_withCrLf]
      exact hf _ (List.mem_map_of_mem hd) _ (hmem hm)
    · rw [List.map_map]
      exact List.map_congr_left fun d _ => join_withCrLf d fun _ _ => rfl
  · rintro ⟨f, hf, rfl⟩
    let r := Registry.ofDocuments (ds.map Document.withCrLf)
    have hf' : ∀ d ∈ ds, ∀ m ∈ d.modules, moduleText r m.withCrLf = .ok (f m) := by
      intro d hd m hm
      rw [moduleText_withCrLf]
      exact hf d hd m hm
    refine ⟨fun m => (moduleText r m).toOption.getD "", ?_, ?_⟩
    · intro d' hd' m' hm'
      obtain ⟨d, hd, rfl⟩ := List.mem_map.1 hd'
      rw [modules_withCrLf] at hm'
      obtain ⟨m, hm, rfl⟩ := List.mem_map.1 hm'
      exact eq_ok_toOption ⟨_, hf' d hd m hm⟩ ""
    · rw [List.map_map]
      refine List.map_congr_left fun d hd => (join_withCrLf d fun m hm => ?_).symm
      rw [hf' d hd m hm]
      rfl

/-- **Both line-ending conventions compile identically.** In sources without carriage returns let
CR LF be put for each LF. The tokens stay the same, newlines apart, on the same lines and in the
same columns; a source is read if it was before, with the same sections, in which raw text is
converted; the sources compile if they did before, and the outputs differ in the raw text alone. -/
theorem compile_withCrLf (sources : List Source) (h : ∀ s ∈ sources, '\r' ∉ s.text.toList) :
    (∀ s ∈ sources,
      tokenize s.withCrLf.text = (tokenize s.text).map (Token.relined "\r\n" 1) ∧
      ((∃ d, Document.read s.withCrLf = .ok d) ↔ ∃ d, Document.read s = .ok d) ∧
      ∀ d, Document.read s = .ok d → Document.read s.withCrLf = .ok d.withCrLf) ∧
    ((∃ ys, compile (sources.map Source.withCrLf) = .ok ys) ↔ ∃ xs, compile sources = .ok xs) ∧
    ∀ ds xs, readAll sources = .ok ds → compile sources = .ok xs → ∃ f : Module → String,
      (∀ d ∈ ds, ∀ m ∈ d.modules, moduleText (Registry.ofDocuments ds) m = .ok (f m)) ∧
      xs = ds.map (fun d => String.join (d.sections.map (Section.textWith id f))) ∧
      compile (sources.map Source.withCrLf) =
        .ok (ds.map fun d => String.join (d.sections.map (Section.textWith withCrLf f))) := by
  refine ⟨fun s hs => ⟨tokenize_withCrLf (h s hs), exists_read_withCrLf_iff (h s hs),
    fun d => read_withCrLf (h s hs)⟩, ?_, ?_⟩
  · constructor
    · rintro ⟨ys, hys⟩
      obtain ⟨ds', hds', -⟩ := compile_eq_ok_iff.1 hys
      have hreads : ∀ s ∈ sources, ∃ d, Document.read s = .ok d := by
        intro s hs
        obtain ⟨d', -, hd'⟩ := exists_of_mem_left (readAll_eq_ok_iff.1 hds')
          (List.mem_map_of_mem hs)
        exact (exists_read_withCrLf_iff (h s hs)).1 ⟨d', hd'⟩
      obtain ⟨ds, hds⟩ := exists_mapM_eq_ok_iff.2 hreads
      have hread := mapM_eq_ok_iff.1 hds
      obtain ⟨f, hf, -⟩ := (compile_withCrLf_eq_ok_iff h hread).1 hys
      exact ⟨_, (compile_eq_ok_iff_modules hread).2 ⟨f, hf, rfl⟩⟩
    · rintro ⟨xs, hxs⟩
      obtain ⟨ds, hds, -⟩ := compile_eq_ok_iff.1 hxs
      have hread := readAll_eq_ok_iff.1 hds
      obtain ⟨f, hf, -⟩ := (compile_eq_ok_iff_modules hread).1 hxs
      exact ⟨_, (compile_withCrLf_eq_ok_iff h hread).2 ⟨f, hf, rfl⟩⟩
  · intro ds xs hread hxs
    have hread := readAll_eq_ok_iff.1 hread
    obtain ⟨f, hf, hout⟩ := (compile_eq_ok_iff_modules hread).1 hxs
    exact ⟨f, hf, hout, (compile_withCrLf_eq_ok_iff h hread).2 ⟨f, hf, rfl⟩⟩

/-- A backslash before a line end in an open string, a comment in the raw text and one in a
module. -/
theorem compile_withCrLf_escape :
    let s : Source := ⟨"a", "s \"x\\\n// c\n@ M \x7b// d\nA 1\n\x7d\nend\n"⟩
    '\r' ∉ s.text.toList ∧ ∃ d xs, readAll [s] = .ok [d] ∧ compile [s] = .ok xs ∧
      Document.read s.withCrLf = .ok d.withCrLf ∧ ∃ f : Module → String,
        xs = [String.join (d.sections.map (Section.textWith id f))] ∧
        compile [s.withCrLf] =
          .ok [String.join (d.sections.map (Section.textWith withCrLf f))] := by
  intro s
  have hs : '\r' ∉ s.text.toList := by decide
  have hsources : ∀ s' ∈ [s], '\r' ∉ s'.text.toList := by simpa using hs
  obtain ⟨d, hd⟩ := exists_eq_ok_of_isOk (by decide +kernel : (Document.read s).isOk)
  obtain ⟨xs, hxs⟩ := exists_eq_ok_of_isOk (by decide +kernel : (compile [s]).isOk)
  have hread : readAll [s] = .ok [d] := readAll_eq_ok_iff.2 (.cons hd .nil)
  obtain ⟨htokens, -, hcompile⟩ := compile_withCrLf [s] hsources
  obtain ⟨f, -, hout, hconverted⟩ := hcompile [d] xs hread hxs
  exact ⟨hs, d, xs, hread, hxs, (htokens s (by simp)).2.2 d hd, f, hout, hconverted⟩

end Expansion

end MacroModules
