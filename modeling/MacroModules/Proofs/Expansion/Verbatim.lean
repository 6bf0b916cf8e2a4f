import MacroModules.Proofs.Document.Pieces
import MacroModules.Proofs.Expansion.Join

/-!
# Raw text passes through

The expansion of a document is its text, with the piece of each module replaced by the expansion of
the module (`Section.textWith`).

* `document_eq_ok_of_modules`, `document_eq_ok_iff`: a document is expanded section by section.
* `compile_eq_ok_iff_modules`: several sources together.
* `compile_eq_self`: a text without modules is its own expansion.
* `document_verbatim`: **all that is not in a module comes out as it is**.
-/

namespace MacroModules

/-- The text for a section, given what raw text and modules become. -/
def Section.textWith (onRaw : String → String) (onModule : Module → String) : Section → String
  | .raw text => onRaw text
  | .code m => onModule m
  | .unknown _ => ""

theorem Document.mem_modules {d : Document} {m : Module} :
    m ∈ d.modules ↔ .code m ∈ d.sections := by
  unfold Document.modules
  rw [List.mem_filterMap]
  constructor
  · rintro ⟨c, hc, hm⟩
    cases c <;> cases hm
    exact hc
  · intro hm
    exact ⟨_, hm, rfl⟩

/-- The piece of raw text is the raw text. -/
theorem Laid.map_textWith {text : String} {offset : Nat} {ss : List Section}
    {pieces : List String} (h : Laid text offset ss pieces) (f : Module → String) :
    ss.map (Section.textWith id f) =
      List.zipWith (fun c piece => c.textWith (fun _ => piece) f) ss pieces := by
  induction h with
  | nil => rfl
  | cons hc _ ih =>
    rw [List.map_cons, List.zipWith_cons_cons, ih]
    cases hc with
    | raw => rfl
    | code => rfl

namespace Expansion

variable {r : Registry} {source : Source}

/-- If each module can be expanded, so can the document. -/
theorem document_eq_ok_of_modules {ss : List Section} (hknown : ∀ label, .unknown label ∉ ss)
    {f : Module → String} (hf : ∀ m, .code m ∈ ss → moduleText r m = .ok (f m)) :
    document r ⟨source, ss⟩ = .ok (String.join (ss.map (Section.textWith id f))) := by
  induction ss with
  | nil => rfl
  | cons c ss ih =>
    have hrest := ih (fun label hmem => hknown label (List.mem_cons_of_mem c hmem))
      fun m hm => hf m (List.mem_cons_of_mem c hm)
    have hc : sectionText r source c = .ok (c.textWith id f) := by
      cases c with
      | raw text => rfl
      | code m => rw [sectionText, hf m List.mem_cons_self]; rfl
      | unknown label => exact absurd List.mem_cons_self (hknown label)
    rw [document_cons, hc, hrest, List.map_cons, String.join_cons]
    rfl

/-- If the document can be expanded, so can each module. -/
theorem exists_moduleText_of_document {ss : List Section} {x : String}
    (h : document r ⟨source, ss⟩ = .ok x) {m : Module} (hm : .code m ∈ ss) :
    ∃ y, moduleText r m = .ok y := by
  induction ss generalizing x with
  | nil => cases hm
  | cons c ss ih =>
    rw [document_cons] at h
    obtain ⟨y, hy, h⟩ := bind_eq_ok_iff.1 h
    obtain ⟨z, hz, -⟩ := bind_eq_ok_iff.1 h
    rcases List.mem_cons.1 hm with rfl | hm
    · rw [sectionText] at hy
      cases hmod : moduleText r m with
      | error e => rw [hmod] at hy; cases hy
      | ok x => exact ⟨x, rfl⟩
    · exact ih hz hm

/-- **A document is expanded section by section.** -/
theorem document_eq_ok_iff {d : Document} (hknown : ∀ label, .unknown label ∉ d.sections)
    {x : String} : document r d = .ok x ↔ ∃ f : Module → String,
      (∀ m ∈ d.modules, moduleText r m = .ok (f m)) ∧
        x = String.join (d.sections.map (Section.textWith id f)) := by
  constructor
  · intro h
    have hf : ∀ m ∈ d.modules, moduleText r m = .ok ((moduleText r m).toOption.getD "") :=
      fun m hm => eq_ok_toOption (exists_moduleText_of_document h (Document.mem_modules.1 hm)) ""
    have hx : document r d = .ok _ :=
      document_eq_ok_of_modules hknown fun m hm => hf m (Document.mem_modules.2 hm)
    exact ⟨_, hf, Except.ok.inj (h.symm.trans hx)⟩
  · rintro ⟨f, hf, rfl⟩
    exact document_eq_ok_of_modules hknown fun m hm => hf m (Document.mem_modules.2 hm)

/-- **Sources are compiled module by module.** -/
theorem compile_eq_ok_iff_modules {sources : List Source} {ds : List Document}
    (hread : List.Forall₂ (fun s d => Document.read s = .ok d) sources ds) {xs : List String} :
    compile sources = .ok xs ↔ ∃ f : Module → String,
      (∀ d ∈ ds, ∀ m ∈ d.modules, moduleText (Registry.ofDocuments ds) m = .ok (f m)) ∧
        xs = ds.map fun d => String.join (d.sections.map (Section.textWith id f)) := by
  have hcompile : compile sources = .ok xs ↔
      ds.mapM (document (Registry.ofDocuments ds)) = .ok xs := by
    rw [compile_eq_ok_iff, readAll_eq_ok_iff.2 hread]
    constructor
    · rintro ⟨_, ⟨⟩, h⟩
      exact h
    · intro h
      exact ⟨ds, rfl, h⟩
  have hknown : ∀ d ∈ ds, ∀ label, .unknown label ∉ d.sections := by
    intro d hd
    obtain ⟨s, -, hs⟩ := exists_of_mem_left hread.flip hd
    exact (Grammar.read_eq_ok_iff.1 hs).2.unknown_notMem
  have hexpand : ∀ f : Module → String,
      (∀ d ∈ ds, ∀ m ∈ d.modules, moduleText (Registry.ofDocuments ds) m = .ok (f m)) →
      ds.mapM (document (Registry.ofDocuments ds)) =
        .ok (ds.map fun d => String.join (d.sections.map (Section.textWith id f))) := by
    intro f hf
    rw [mapM_eq_ok_iff, List.forall₂_map_right_iff, List.forall₂_same]
    intro d hd
    exact (document_eq_ok_iff (hknown d hd)).2 ⟨f, hf d hd, rfl⟩
  rw [hcompile]
  constructor
  · intro h
    -- what a module expands to does not depend on the document it stands in
    have hf : ∀ d ∈ ds, ∀ m ∈ d.modules, moduleText (Registry.ofDocuments ds) m =
        .ok ((moduleText (Registry.ofDocuments ds) m).toOption.getD "") := by
      intro d hd m hm
      obtain ⟨x, -, hx⟩ := exists_of_mem_left (mapM_eq_ok_iff.1 h) hd
      exact eq_ok_toOption (exists_moduleText_of_document hx (Document.mem_modules.1 hm)) ""
    exact ⟨_, hf, Except.ok.inj (h.symm.trans (hexpand _ hf))⟩
  · rintro ⟨f, hf, rfl⟩
    exact hexpand f hf

/-- In sources that compile, each module can be expanded. -/
theorem exists_blocks_of_compile {sources : List Source} {xs : List String}
    (h : compile sources = .ok xs) : ∃ ds, readAll sources = .ok ds ∧
      ∀ m ∈ ds.flatMap Document.modules, ∃ bs, blocks (Registry.ofDocuments ds) m = .ok bs := by
  obtain ⟨ds, hread, h⟩ := compile_eq_ok_iff.1 h
  refine ⟨ds, hread, fun m hm => ?_⟩
  obtain ⟨d, hd, hm⟩ := List.mem_flatMap.1 hm
  obtain ⟨x, -, hx⟩ := exists_of_mem_left (mapM_eq_ok_iff.1 h) hd
  obtain ⟨y, hy⟩ := exists_moduleText_of_document hx (Document.mem_modules.1 hm)
  obtain ⟨bs, hbs, -⟩ := bind_eq_ok_iff.1 hy
  exact ⟨bs, hbs⟩

/-- A text without modules is its own expansion. -/
theorem compile_eq_self (h : ∀ t ∈ tokenize source.text, t.kind ≠ .atSign) :
    compile [source] = .ok [source.text] := by
  have htokens : ∀ t ∈ tokens source.text, t.kind ≠ .atSign :=
    fun t ht => h t (List.mem_append_left _ ht)
  have hjoin : String.join ((tokens source.text).map (·.text)) = source.text := by
    rw [tokens, Lexeme.join_place, Lexeme.split_flatten, String.ofList_toList]
  obtain ⟨ss, hfile, hdoc⟩ : ∃ ss, Grammar.File Grammar.ShortNumeral (tokens source.text) ss ∧
      ∀ r, document r ⟨source, ss⟩ = .ok source.text := by
    by_cases hempty : tokens source.text = []
    · rw [hempty] at hjoin ⊢
      exact ⟨[], .nil, fun r => congrArg Except.ok hjoin⟩
    · have hraw : Grammar.File Grammar.ShortNumeral (tokens source.text ++ [])
          [.raw (String.join ((tokens source.text).map (·.text)))] :=
        .raw hempty htokens (by simp) .nil
      rw [List.append_nil, hjoin] at hraw
      have hone : String.join [source.text] = source.text := by simp
      exact ⟨[.raw source.text], hraw, fun r => congrArg Except.ok hone⟩
  have hread : Document.read source = .ok ⟨source, ss⟩ := Grammar.read_eq_ok_iff.2 ⟨rfl, hfile⟩
  rw [compile_eq (.cons hread .nil), List.mapM_cons, hdoc]
  rfl

/-- **Raw text passes through verbatim.** The sections of a document stand in pieces of its text
that make up all of it. Raw text is not empty and not cut in two, and a module reaches from `@` to
its closing brace, with its name at its span (`Laid`). The expansion is the text with the piece of
each module replaced by what the module expands to. So a text without `@` is its own expansion. -/
theorem document_verbatim (source : Source) :
    (∀ d, Document.read source = .ok d →
      (∀ before after a b, d.sections ≠ before ++ .raw a :: .raw b :: after) ∧
      ∃ pieces, String.join pieces = source.text ∧ Laid source.text 0 d.sections pieces ∧
        ∀ r x, document r d = .ok x ↔ ∃ f : Module → String,
          (∀ m ∈ d.modules, moduleText r m = .ok (f m)) ∧
            x = String.join (List.zipWith (fun c piece => c.textWith (fun _ => piece) f)
              d.sections pieces)) ∧
    ((∀ t ∈ tokenize source.text, t.kind ≠ .atSign) →
      compile [source] = .ok [source.text]) := by
  refine ⟨fun d hd => ?_, compile_eq_self⟩
  obtain ⟨-, hfile⟩ := Grammar.read_eq_ok_iff.1 hd
  obtain ⟨pieces, hjoin, hlaid⟩ := read_laid hd
  refine ⟨hfile.raw_not_adjacent, pieces, hjoin, hlaid, fun r x => ?_⟩
  rw [document_eq_ok_iff hfile.unknown_notMem]
  simp only [hlaid.map_textWith]

/-- Signs in a string and in a comment begin no module; a module follows another directly, and one
ends the text. -/
theorem document_verbatim_signs :
    let source : Source :=
      ⟨"a", "s \"@\"; // @\n@ M \x7b\nA 1\n\x7d@N\x7b\x7d\n@K_1 \x7b// c\n\x7d"⟩
    (∃ d pieces, Document.read source = .ok d ∧ String.join pieces = source.text ∧
      Laid source.text 0 d.sections pieces) ∧
    (∀ t ∈ tokenize "s \"@\"; // @\n", t.kind ≠ .atSign) ∧
    compile [⟨"b", "s \"@\"; // @\n"⟩] = .ok ["s \"@\"; // @\n"] := by
  intro source
  obtain ⟨d, hd⟩ := exists_eq_ok_of_isOk (by decide +kernel : (Document.read source).isOk)
  obtain ⟨-, pieces, hjoin, hlaid, -⟩ := (document_verbatim source).1 d hd
  have hsigns : ∀ t ∈ tokenize "s \"@\"; // @\n", t.kind ≠ .atSign := by decide +kernel
  exact ⟨⟨d, pieces, hd, hjoin, hlaid⟩, hsigns, (document_verbatim ⟨"b", _⟩).2 hsigns⟩

end Expansion

end MacroModules
