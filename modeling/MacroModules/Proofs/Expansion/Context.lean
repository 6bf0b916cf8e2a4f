import MacroModules.Proofs.Document.Named
import MacroModules.Proofs.Expansion.Batch
import MacroModules.Proofs.Expansion.Stuck

/-!
# The way to an error

An error says what was being compiled when it was met: a module, a definition of it, and the objects
that were being inlined, each into the one before. The names are put in front one by one while the
expansion is given up. Here the way is described from its beginning, together with all that has to
succeed before it is taken, and the two are the same.

* `Scope.FailsAlong`: the objects that are inlined on the way to a fragment that is at fault.
* `define_eq_error_iff`: **a definition fails along such a way, and names it**.
* `Scope.FailsAt`, `statement_eq_failsAt_iff`: the same for a statement.
* `moduleText_eq_error_iff`, `document_eq_error_iff`: modules, and documents, which say where.
* `error_names_its_way`: all this for sources that have been read.
-/

namespace MacroModules.Expansion

variable {inline : Definition → Target → Result (List Define)} {r : Registry} {m : Module}
  {s : Scope} {d : Definition} {t : Target} {name : String} {cause : Cause}
  {path context : List String} {place : Option (Span × Source)}

/-! ## Definitions -/

theorem within_eq_error_iff {α : Type} {x : Result α} :
    within name x = .error (.error ⟨cause, context, place⟩) ↔
      ∃ rest, x = .error (.error ⟨cause, rest, place⟩) ∧ context = name :: rest := by
  unfold within
  rw [mapError_eq_error_iff]
  constructor
  · rintro ⟨e, rfl, he⟩
    cases e with
    | stuck => cases he
    | error e =>
      cases he
      exact ⟨e.context, rfl, rfl⟩
  · rintro ⟨rest, rfl, rfl⟩
    exact ⟨_, rfl, rfl⟩

/-- **A definition fails at its first fragment that does**, and puts its name in front. -/
theorem defineWith_eq_error_iff :
    defineWith inline s d t = .error (.error ⟨cause, context, place⟩) ↔
      ∃ before f after rest, d.body = before ++ f :: after ∧
        (∀ g ∈ before, ∃ y, fragment inline s d.name t g = .ok y) ∧
        fragment inline s d.name t f = .error (.error ⟨cause, rest, place⟩) ∧
        context = Binding.frame d.name t.binding :: rest := by
  unfold defineWith
  simp only [within_eq_error_iff, bind_pure_eq_error_iff, fragments_eq_error_iff]
  constructor
  · rintro ⟨rest, ⟨before, f, after, hbody, hbefore, hf⟩, rfl⟩
    exact ⟨before, f, after, rest, hbody, hbefore, hf, rfl⟩
  · rintro ⟨before, f, after, rest, hbody, hbefore, hf, rfl⟩
    exact ⟨rest, ⟨before, f, after, hbody, hbefore, hf⟩, rfl⟩

/-- The definition fails for this cause, and the path names the objects that are being inlined then:
the first into the definition, each of the others into the one before it. Everything in front has
been expanded. -/
inductive Scope.FailsAlong (s : Scope) : Definition → Target → Cause → List String → Prop
  /-- A fragment of the definition itself is at fault. -/
  | own {d : Definition} {t : Target} {before after : List Fragment} {f : Fragment}
      {cause : Cause} : d.body = before ++ f :: after →
      (∀ g ∈ before, ∃ y, fragment (define s) s d.name t g = .ok y) →
      s.Raises t f cause → FailsAlong s d t cause []
  /-- It is an object that the definition inlines. -/
  | inlined {d e : Definition} {t : Target} {before after : List Fragment} {owner object : String}
      {cause : Cause} {path : List String} :
      d.body = before ++ .foreign owner object true :: after →
      (∀ g ∈ before, ∃ y, fragment (define s) s d.name t g = .ok y) →
      s.object? (owner, object) = some e →
      FailsAlong s e ⟨t.inlineStem d.name owner, false, none⟩ cause path →
      FailsAlong s d t cause (e.name :: path)

theorem failsAlong_of_inlineAt {n : Nat}
    (h : inlineAt s n d t = .error (.error ⟨cause, context, place⟩)) :
    ∃ path, s.FailsAlong d t cause path ∧ context = Binding.frame d.name t.binding :: path ∧
      place = none := by
  -- each step of the way takes one level of the limit
  induction n generalizing d t context with
  | zero => cases h
  | succ n ih =>
    rw [inlineAt_succ] at h
    obtain ⟨before, f, after, rest, hbody, hbefore, hf, rfl⟩ := defineWith_eq_error_iff.1 h
    have hdone : ∀ g ∈ before, ∃ y, fragment (define s) s d.name t g = .ok y := by
      intro g hg
      obtain ⟨y, hy⟩ := hbefore g hg
      have hbelow : (fragment (inlineAt s n) s d.name t g).Below
          (fragment (define s) s d.name t g) := below_fragment (below_define n) d.name t g
      refine ⟨y, (hbelow.eq ?_).trans hy⟩
      rw [hy]
      exact fun hexceeded => by cases hexceeded
    rcases fragment_eq_error_iff.1 hf with
      ⟨_, hraises, he⟩ | ⟨_, _, -, -, -, -, he⟩ | ⟨p, e, rfl, hp, he⟩
    · cases he
      exact ⟨[], .own hbody hdone hraises, rfl, rfl⟩
    · cases he
    · obtain ⟨path, hpath, rfl, rfl⟩ := ih he
      exact ⟨e.name :: path, .inlined hbody hdone hp hpath, rfl, rfl⟩

theorem Scope.FailsAlong.define_eq (h : s.FailsAlong d t cause path) :
    define s d t = .error (.error ⟨cause, Binding.frame d.name t.binding :: path, none⟩) := by
  induction h with
  | own hbody hbefore hraises =>
    rw [define_eq_defineWith]
    exact defineWith_eq_error_iff.2
      ⟨_, _, _, [], hbody, hbefore, fragment_eq_error_iff.2 (.inl ⟨_, hraises, rfl⟩), rfl⟩
  | @inlined d e t before after owner object cause path hbody hbefore hobject _ ih =>
    rw [define_eq_defineWith]
    exact defineWith_eq_error_iff.2 ⟨_, _, _, e.name :: path, hbody, hbefore,
      fragment_eq_error_iff.2 (.inr (.inr ⟨(owner, object), e, rfl, hobject, ih⟩)), rfl⟩

/-- **A definition fails along a way of inlining, and names it.** -/
theorem define_eq_error_iff : define s d t = .error (.error ⟨cause, context, place⟩) ↔
    ∃ path, s.FailsAlong d t cause path ∧ context = Binding.frame d.name t.binding :: path ∧
      place = none := by
  constructor
  · intro h
    rw [define_eq] at h
    exact failsAlong_of_inlineAt (n := s.inlinable.card + 1) h
  · rintro ⟨path, hpath, rfl, rfl⟩
    exact hpath.define_eq

/-! ## Statements -/

variable (r) in
/-- The statement fails for this cause, and the path names what is being compiled then: nothing, if
a module or a template is missing or the number of ranges is wrong; otherwise a definition of the
statement, with its values if it is an instance, and the objects that are being inlined. All
instances in front have been expanded. -/
inductive Scope.FailsAt (s : Scope) : Statement → Cause → List String → Prop
  | refused {c : Statement} {cause : Cause} :
      s.Refuses r c (.ofCause cause) → FailsAt s c cause []
  | object {d : Definition} {cause : Cause} {path : List String} :
      s.FailsAlong d ⟨s.owner.name, true, none⟩ cause path →
      FailsAt s (.object d) cause (d.name :: path)
  | exported {d : Definition} {cause : Cause} {path : List String} :
      s.FailsAlong d ⟨s.owner.name, false, none⟩ cause path →
      FailsAt s (.exported d) cause (d.name :: path)
  | instances {name : String} {t : Template} {ranges : List Interval}
      {choices before after : List (List Int)} {values : List Int} {cause : Cause}
      {path : List String} : s.template? name = some t → ranges.length = t.slotNames.length →
      ranges.mapM layOut = .ok choices → rangeTuples ranges = before ++ values :: after →
      (∀ ws ∈ before, ∃ ls, define s t.definition (t.target s.owner.name ws) = .ok ls) →
      s.FailsAlong t.definition (t.target s.owner.name values) cause path →
      FailsAt s (.instances name ranges) cause
        ((name ++ "<" ++ ", ".intercalate (values.map Int.repr) ++ ">") :: path)

theorem name_of_template? {e : Template} (h : s.template? name = some e) :
    e.definition.name = name := by
  simpa using List.find?_some h

/-- An instance is named by its template and its values. -/
theorem frame_target {e : Template} {owner : String} {ranges : List Interval} {values : List Int}
    (hcount : ranges.length = e.slotNames.length) (hvalues : values ∈ rangeTuples ranges) :
    Binding.frame name (e.target owner values).binding =
      name ++ "<" ++ ", ".intercalate (values.map Int.repr) ++ ">" := by
  have hlength : values.length = e.slotNames.length :=
    (length_of_mem_rangeTuples hvalues).trans hcount
  have hsame : Binding.values (e.slotNames.zip values) = values :=
    List.map_snd_zip (Nat.le_of_eq hlength)
  simp only [Template.target, Binding.frame, hsame]

/-- **A statement fails with the names of what is being compiled.** -/
theorem statement_eq_failsAt_iff {c : Statement} :
    statement r s c = .error (.error ⟨cause, context, place⟩) ↔
      s.FailsAt r c cause context ∧ place = none := by
  rw [statement_eq_error_iff]
  constructor
  · rintro (h | ⟨d, t, hreach, h⟩)
    · generalize hfailure : Failure.error ⟨cause, context, place⟩ = failure at h
      cases h with
      | unknownModule hm =>
        cases hfailure
        exact ⟨.refused (.unknownModule hm), rfl⟩
      | templateNotFound ht =>
        cases hfailure
        exact ⟨.refused (.templateNotFound ht), rfl⟩
      | rangeCount ht hne =>
        cases hfailure
        exact ⟨.refused (.rangeCount ht hne), rfl⟩
      | layOut _ _ h =>
        -- a range that is too large is no error
        rw [eq_of_mapM_layOut h] at hfailure
        cases hfailure
    · obtain ⟨path, hpath, rfl, rfl⟩ := define_eq_error_iff.1 h
      refine ⟨?_, rfl⟩
      cases hreach with
      | object => exact .object hpath
      | exported => exact .exported hpath
      | @instances name e ranges _ before after values ht hcount hchoices hsplit hbefore =>
        have hmem : values ∈ rangeTuples ranges := by
          rw [hsplit]
          exact List.mem_append_right _ List.mem_cons_self
        rw [frame_target hcount hmem, name_of_template? ht]
        exact .instances ht hcount hchoices hsplit hbefore hpath
  · rintro ⟨h, rfl⟩
    cases h with
    | refused h => exact .inl h
    | object hpath | exported hpath => exact .inr ⟨_, _, by constructor, hpath.define_eq⟩
    | @instances name e ranges _ _ _ values _ path ht hcount hchoices hsplit hbefore hpath =>
      have hmem : values ∈ rangeTuples ranges := by
        rw [hsplit]
        exact List.mem_append_right _ List.mem_cons_self
      refine .inr ⟨_, _, .instances ht hcount hchoices hsplit hbefore, ?_⟩
      rw [hpath.define_eq, frame_target hcount hmem, name_of_template? ht]

/-! ## Modules and documents -/

/-- **A module fails at its first statement that does**, and puts its name in front. -/
theorem moduleText_eq_error_iff :
    moduleText r m = .error (.error ⟨cause, context, place⟩) ↔
      ∃ before c after s path, m.body = before ++ c :: after ∧
        scopeBehind r (Scope.start m) before = .ok s ∧ s.FailsAt r c cause path ∧
        context = m.name :: path ∧ place = none := by
  unfold moduleText blocks
  rw [bind_pure_eq_error_iff, within_eq_error_iff]
  simp only [statements_eq_error_iff, statement_eq_failsAt_iff]
  constructor
  · rintro ⟨path, ⟨before, c, after, s, hbody, hscope, hc, rfl⟩, rfl⟩
    exact ⟨before, c, after, s, path, hbody, hscope, hc, rfl, rfl⟩
  · rintro ⟨before, c, after, s, path, hbody, hscope, hc, rfl, rfl⟩
    exact ⟨path, ⟨before, c, after, s, hbody, hscope, hc, rfl⟩, rfl⟩

/-- **A document fails at its first module that does**, and says where the name of it stands. -/
theorem document_eq_error_iff {d : Document} :
    document r d = .error (.error ⟨cause, context, place⟩) ↔
      ∃ m, ReachesModule r d m ∧ moduleText r m = .error (.error ⟨cause, context, none⟩) ∧
        place = some (m.span, d.source) := by
  have hsection : ∀ c, sectionText r d.source c = .error (.error ⟨cause, context, place⟩) ↔
      ∃ m, c = .code m ∧ moduleText r m = .error (.error ⟨cause, context, none⟩) ∧
        place = some (m.span, d.source) := by
    intro c
    cases c with
    | raw | unknown => simp [sectionText]
    | code m =>
      rw [sectionText, mapError_eq_error_iff]
      constructor
      · rintro ⟨e, he, hlocate⟩
        cases e with
        | stuck => cases hlocate
        | error e =>
          obtain ⟨cause', context', place'⟩ := e
          obtain ⟨-, -, -, -, -, -, -, -, -, rfl⟩ := moduleText_eq_error_iff.1 he
          cases hlocate
          exact ⟨m, rfl, he, rfl⟩
      · rintro ⟨m', hm, he, rfl⟩
        cases hm
        exact ⟨_, he, rfl⟩
  unfold document
  rw [sectionTexts_eq_mapM, bind_pure_eq_error_iff, mapM_eq_error_iff]
  constructor
  · rintro ⟨before, c, after, hsections, hbefore, hc⟩
    obtain ⟨m, rfl, hm, hplace⟩ := (hsection c).1 hc
    exact ⟨m, ⟨before, after, hsections, hbefore⟩, hm, hplace⟩
  · rintro ⟨m, ⟨before, after, hsections, hbefore⟩, hm, hplace⟩
    exact ⟨before, .code m, after, hsections, hbefore, (hsection _).2 ⟨m, rfl, hm, hplace⟩⟩

/-- The name of a module that has been read is a token of the text, at the place that the module
says. -/
theorem exists_name_of_read {source : Source} {d : Document} (h : Document.read source = .ok d)
    (hm : .code m ∈ d.sections) :
    ∃ token ∈ tokens source.text, token.span = m.span ∧ token.text = m.name := by
  obtain ⟨-, hfile⟩ := Grammar.read_eq_ok_iff.1 h
  obtain ⟨us, hus, hform⟩ := hfile.moduleForm_of_mem hm
  cases hform with
  | @intro _ token _ _ _ _ _ _ _ _ _ _ _ _ _ =>
    exact ⟨token, hus.subset (by simp), rfl, rfl⟩

/-- **An error names the way to the place where it was met, and nothing else.** Of sources that have
been read, one fails with an error exactly if the following is so. The documents in front of it have
been expanded, and so have its sections in front of a module and the statements of this module in
front of one that fails (`Scope.FailsAt`). The error names the module, the definition of the
statement that is being expanded, and the objects that are being inlined, from the outside to the
inside. It is placed where the name of the module stands in the text, and its offsets cut out this
name. -/
theorem error_names_its_way {sources : List Source} {ds : List Document}
    (hread : readAll sources = .ok ds) (texts : List String) (cause : Cause)
    (context : List String) (place : Option (Span × Source)) :
    let r := Registry.ofDocuments ds
    documents ds = (texts, some (.error ⟨cause, context, place⟩)) ↔
      ∃ before d after m done c rest s path, ds = before ++ d :: after ∧
        List.Forall₂ (fun d x => document r d = .ok x) before texts ∧ ReachesModule r d m ∧
        m.body = done ++ c :: rest ∧ scopeBehind r (Scope.start m) done = .ok s ∧
        s.FailsAt r c cause path ∧ context = m.name :: path ∧ place = some (m.span, d.source) ∧
        d.source ∈ sources ∧
        (∃ token ∈ tokens d.source.text, token.span = m.span ∧ token.text = m.name) ∧
        (d.source.text.toList.take m.span.stop.offset.toNat).drop m.span.start.offset.toNat =
          m.name.toList := by
  intro r
  rw [documents, documentsWith_eq_error_iff]
  constructor
  · rintro ⟨before, d, after, hsplit, hbefore, hd⟩
    obtain ⟨m, hm, htext, hplace⟩ := document_eq_error_iff.1 hd
    obtain ⟨done, c, rest, s, path, hbody, hscope, hc, hcontext, -⟩ :=
      moduleText_eq_error_iff.1 htext
    have hmem : d ∈ ds := by
      rw [hsplit]
      exact List.mem_append_right _ List.mem_cons_self
    obtain ⟨source, hsource, hreadd⟩ := exists_of_mem_left (readAll_eq_ok_iff.1 hread).flip hmem
    have hsame : d.source = source := (Grammar.read_eq_ok_iff.1 hreadd).1
    obtain ⟨token, htoken, hspan, hname⟩ := exists_name_of_read hreadd hm.code_mem
    have hcut := (placed_of_mem_tokens htoken).cut
    rw [hname, hspan, ← hsame] at hcut
    rw [← hsame] at hsource htoken
    exact ⟨before, d, after, m, done, c, rest, s, path, hsplit, hbefore, hm, hbody, hscope, hc,
      hcontext, hplace, hsource, ⟨token, htoken, hspan, hname⟩, hcut.symm⟩
  · rintro ⟨before, d, after, m, done, c, rest, s, path, hsplit, hbefore, hm, hbody, hscope, hc,
      hcontext, hplace, -⟩
    have htext := moduleText_eq_error_iff.2
      ⟨done, c, rest, s, path, hbody, hscope, hc, hcontext, rfl⟩
    exact ⟨before, d, after, hsplit, hbefore, document_eq_error_iff.2 ⟨m, hm, htext, hplace⟩⟩

/-- The second source fails, in an instance of a template, two levels of inlining deep, at an object
of the third source. -/
theorem error_names_its_way_nested :
    let source : Source := ⟨"a", "\n@A \x7b\n@use M\n@use N\nT<i> i M.f\n@impl T<1..2>\n\x7d"⟩
    let sources : List Source := [⟨"g", "@G \x7b\nx 1\n\x7d"⟩, source,
      ⟨"b", "@N \x7b\nc Q.x\n\x7d\n@M \x7b\nf 1 N.c\n\x7d"⟩]
    ∃ ds, readAll sources = .ok ds ∧
      documents ds = (["#define __G_x 1\n\n"], some (.error ⟨.notImported "Q",
        ["A", "T<1>", "f", "c"], some (⟨⟨2, 2, 2⟩, ⟨2, 3, 3⟩⟩, source)⟩)) ∧
      ∃ d m done c rest s, ReachesModule (Registry.ofDocuments ds) d m ∧
        m.body = done ++ c :: rest ∧
        scopeBehind (Registry.ofDocuments ds) (Scope.start m) done = .ok s ∧
        s.FailsAt (Registry.ofDocuments ds) c (.notImported "Q") ["T<1>", "f", "c"] := by
  intro source sources
  obtain ⟨ds, hread⟩ := exists_eq_ok_of_isOk (by decide +kernel : (readAll sources).isOk)
  have hdocuments : (readAll sources).toOption.map documents = some (["#define __G_x 1\n\n"],
      some (.error ⟨.notImported "Q", ["A", "T<1>", "f", "c"],
        some (⟨⟨2, 2, 2⟩, ⟨2, 3, 3⟩⟩, source)⟩)) := by decide +kernel
  rw [hread] at hdocuments
  have hfails := Option.some.inj hdocuments
  obtain ⟨_, d, _, m, done, c, rest, s, path, -, -, hm, hbody, hscope, hc, hcontext, -⟩ :=
    (error_names_its_way hread _ _ _ _).1 hfails
  obtain ⟨-, rfl⟩ := List.cons.inj hcontext
  exact ⟨ds, hread, hfails, d, m, done, c, rest, s, hm, hbody, hscope, hc⟩

end MacroModules.Expansion
