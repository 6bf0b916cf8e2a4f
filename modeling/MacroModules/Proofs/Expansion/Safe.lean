import MacroModules.Proofs.Document.Typed
import MacroModules.Proofs.Expansion.Agree
import MacroModules.Proofs.Expansion.Batch

/-!
# Which failures a text can lead to

Expansion can fail in ways that no text brings about: a slot without a value, or something that is
no section. In a typed document every slot has one, because a template is expanded with as many
values as it has slots (`Target.Fits`), and an object that is inlined has no slots at all.

* `Cause.OfText`, `Failure.OfText`: what is left.
* `Result.Safe`: an outcome that is no other failure.
* `safe_defineAt`, `safe_instances`: definitions and templates, in a scope of typed modules.
* `safe_statement`, `safe_statements`: one statement, and from it a run of them.
* `failure_of_text`: **text leads to exactly these failures**.
-/

namespace MacroModules.Expansion

/-- The causes that a text can lead to. -/
def Cause.OfText : Cause → Prop
  | unknownModule _ | notImported _ | objectNotFound _ _ => True
  | templateNotFound _ | rangeCount _ _ => True
  | noParameters | slotOutOfRange _ _ => False

/-- The causes differ in the names and numbers they mention only. -/
def Cause.SameKind (c c' : Cause) : Prop := c.ctorIdx = c'.ctorIdx

theorem Cause.SameKind.ofText {c c' : Cause} (h : c.SameKind c') (hc : c.OfText) : c'.OfText := by
  -- either both are admitted or both are not, or they are of different kinds
  cases c <;> cases c' <;> first | exact hc | cases h

/-- The failures that a text can lead to. -/
def Failure.OfText : Failure → Prop
  | error e => e.cause.OfText
  | stuck .endless | stuck .uncountableRange => True
  | stuck .missingSlot | stuck (.notSection _) => False

/-- If this fails, then in a way that a text can lead to. -/
def Result.Safe {α : Type} (x : Result α) : Prop := ∀ e, x = .error e → e.OfText

section

variable {α β : Type}

theorem safe_ok (a : α) : Result.Safe (.ok a) := fun _ h => by cases h

theorem safe_error {e : Failure} (h : e.OfText) : Result.Safe (.error e : Result α) :=
  fun _ he => by cases he; exact h

theorem Result.Safe.bind {x : Result α} {f : α → Result β} (hx : x.Safe)
    (hf : ∀ a, x = .ok a → (f a).Safe) : Result.Safe (x >>= f) := by
  intro e he
  rcases bind_eq_error_iff.1 he with he | ⟨a, ha, he⟩
  · exact hx e he
  · exact hf a ha e he

theorem Result.Safe.mapError {x : Result α} {g : Failure → Failure} (hx : x.Safe)
    (hg : ∀ e, e.OfText → (g e).OfText) : Result.Safe (x.mapError g) := by
  intro e he
  cases x with
  | ok a => cases he
  | error f => cases he; exact hg f (hx f rfl)

theorem Failure.OfText.within (name : String) (e : Failure) (h : e.OfText) :
    (e.within name).OfText := by
  cases e <;> exact h

theorem Failure.OfText.locate (span : Span) (source : Source) (e : Failure) (h : e.OfText) :
    (e.locate span source).OfText := by
  cases e <;> exact h

theorem safe_mapM {f : α → Result β} {xs : List α} (h : ∀ x ∈ xs, (f x).Safe) :
    Result.Safe (xs.mapM f) := by
  induction xs with
  | nil => exact safe_ok []
  | cons x xs ih =>
    rw [List.mapM_cons]
    refine (h x List.mem_cons_self).bind fun y _ => ?_
    exact (ih fun x hx => h x (List.mem_cons_of_mem _ hx)).bind fun ys _ => safe_ok _

end

/-! ## Definitions -/

/-- There are as many values as slots. -/
def Target.Fits (t : Target) (slots : List String) : Prop :=
  match t.binding with
  | none => slots = []
  | some b => b.length = slots.length

/-- Everything in the scope is typed. -/
structure Scope.Typed (s : Scope) : Prop where
  imports : ∀ m ∈ s.imports, m.Typed
  templates : ∀ t ∈ s.templates, t.Typed

/-- An object that others may refer to has no slots. -/
theorem typed_of_object {m : Module} {name : String} {d : Definition} (hm : m.Typed)
    (h : m.object? name = some d) : d.Typed [] := by
  obtain ⟨c, hc, hd⟩ := List.mem_filterMap.1 (List.mem_of_find?_eq_some h)
  have hc := hm c hc
  cases c with
  | object e | exported e => cases hd; exact hc
  | template | imports | instances | comment | unknown => cases hd

variable {s : Scope} (hs : s.Typed)

/-- A slot below the number of values has a value. -/
theorem value?_isSome {b : Binding} {index : Int} (h : 0 ≤ index) (hlt : index < b.length) :
    ∃ v, b.value? index = some v := by
  have hlt : index.toNat < b.values.length := by
    rw [Binding.values, List.length_map]
    omega
  exact ⟨_, by rw [Binding.value?, if_pos h, List.getElem?_eq_getElem hlt]⟩

include hs in
theorem safe_fragment {inline : Definition → Target → Result (List Define)}
    (hinline : ∀ d stem, d.Typed [] → (inline d ⟨stem, false, none⟩).Safe) (name : String)
    {t : Target} {slots args : List String} (ht : t.Fits slots) {f : Fragment}
    (hf : f.Typed slots args) : (fragment inline s name t f).Safe := by
  intro e he
  rcases fragment_eq_error_iff.1 he with
    ⟨cause, hraises, rfl⟩ | ⟨index, b, rfl, -, hneg, -, -⟩ | ⟨p, d, rfl, hp, he⟩
  · cases hraises with
    | notImported | objectNotFound => trivial
    | noParameters hnone =>
      simp only [Target.Fits, hnone] at ht
      subst ht
      exact absurd hf.2 (by simpa using hf.1)
    | slotOutOfRange hsome _ hvalue =>
      simp only [Target.Fits, hsome] at ht
      obtain ⟨v, hv⟩ := value?_isSome hf.1 (ht ▸ hf.2)
      rw [hvalue] at hv
      cases hv
  · exact absurd hf.1 (Int.not_le.2 hneg)
  · obtain ⟨m, hm, hd⟩ := Scope.object?_eq_some_iff.1 hp
    have hd := typed_of_object (hs.imports m (List.mem_of_find?_eq_some hm)) hd
    exact hinline d _ hd e he

include hs in
theorem safe_defineWith {inline : Definition → Target → Result (List Define)}
    (hinline : ∀ d stem, d.Typed [] → (inline d ⟨stem, false, none⟩).Safe) {d : Definition}
    {t : Target} {slots : List String} (hd : d.Typed slots) (ht : t.Fits slots) :
    (defineWith inline s d t).Safe := by
  have hbody : (fragments inline s d.name t d.body).Safe := by
    intro e he
    obtain ⟨before, f, after, hbody, -, hf⟩ := fragments_eq_error_iff.1 he
    obtain ⟨args, htyped⟩ := hd.fragment f (by simp [hbody])
    exact safe_fragment hs hinline d.name ht htyped e hf
  exact Result.Safe.mapError (hbody.bind fun _ _ => safe_ok _) (Failure.OfText.within _)

include hs in
/-- A typed definition is safe at every depth: what it inlines has no slots. -/
theorem safe_defineAt (depth : Nat) {d : Definition} {t : Target} {slots : List String}
    (hd : d.Typed slots) (ht : t.Fits slots) : (defineAt s depth d t).Safe := by
  -- an inlined object is expanded without values, which fits because it has no slots
  induction depth generalizing d t slots with
  | zero => exact safe_defineWith hs (fun _ _ _ => safe_error (e := .stuck .endless) trivial) hd ht
  | succ depth ih => exact safe_defineWith hs (fun _ _ he => ih he rfl) hd ht

include hs in
theorem safe_define {d : Definition} {t : Target} {slots : List String} (hd : d.Typed slots)
    (ht : t.Fits slots) : (define s d t).Safe := by
  unfold define
  split
  · exact safe_defineAt hs _ hd ht
  · exact safe_defineAt hs _ hd ht

/-! ## Templates -/

theorem safe_layOut (r : Interval) : (layOut r).Safe := by
  unfold layOut
  split
  · exact safe_error (e := .stuck .uncountableRange) trivial
  · exact safe_ok _

theorem safe_product {α : Type} {choices : List (List Int)} {f : List Int → Result (List α)}
    (h : ∀ values, values.length = choices.length → (f values).Safe) :
    (product choices f).Safe := by
  induction choices generalizing f with
  | nil => exact h [] rfl
  | cons vs choices ih =>
    rw [product]
    refine (safe_mapM fun v _ => ih fun values hlen => ?_).bind fun _ _ => safe_ok _
    exact h (v :: values) (by simp [hlen])

include hs in
/-- A template is expanded with one value for each of its slots. -/
theorem safe_instances (name : String) (ranges : List Interval) :
    (instances s name ranges).Safe := by
  unfold instances
  split
  · exact safe_error trivial
  · next t ht =>
    have ht := hs.templates t (List.mem_of_find?_eq_some ht)
    split
    · next hlen =>
      refine (safe_mapM fun r _ => safe_layOut r).bind fun choices hchoices => ?_
      refine safe_product fun values hvalues => safe_define hs ht.definition ?_
      -- one choice for each range, and as many ranges as slots
      have := (mapM_eq_ok_iff.1 hchoices).length_eq
      simp only [Target.Fits, List.length_zip]
      omega
    · exact safe_error trivial

/-! ## Statements and documents -/

variable {r : Registry} (hr : ∀ name m, r.find? name = some m → m.Typed)

include hs hr in
/-- A typed statement is safe, and what is in scope behind it is typed again. -/
theorem safe_statement {c : Statement} (hc : c.Typed) :
    (statement r s c).Safe ∧ ∀ b s', statement r s c = .ok (b, s') → s'.Typed := by
  have hlines : ∀ {x : Result (List Define)}, x.Safe →
      Result.Safe (x >>= fun ds => .ok (Block.defines ds, s)) ∧
      ∀ b s', (x >>= fun ds => .ok (Block.defines ds, s)) = .ok (b, s') → s'.Typed := by
    intro x hx
    refine ⟨hx.bind fun _ _ => safe_ok _, fun b s' h => ?_⟩
    obtain ⟨ds, _, h⟩ := bind_eq_ok_iff.1 h
    cases h
    exact hs
  cases c with
  | object d | exported d => exact hlines (safe_define hs hc rfl)
  | instances name ranges => exact hlines (safe_instances hs name ranges)
  | template t =>
    refine ⟨safe_ok _, fun b s' h => ?_⟩
    cases h
    exact ⟨hs.imports, List.forall_mem_append.2 ⟨hs.templates, List.forall_mem_singleton.2 hc⟩⟩
  | imports name =>
    rw [statement, findModule]
    cases hm : r.find? name with
    | none => exact ⟨safe_error trivial, fun b s' h => by cases h⟩
    | some m =>
      refine ⟨safe_ok _, fun b s' h => ?_⟩
      cases h
      exact ⟨List.forall_mem_append.2 ⟨hs.imports, List.forall_mem_singleton.2 (hr name m hm)⟩,
        hs.templates⟩
  | comment value => exact ⟨safe_ok _, fun b s' h => by cases h; exact hs⟩
  | unknown => cases hc

include hr

include hs in
theorem safe_statements {cs : List Statement} (hcs : ∀ c ∈ cs, c.Typed) :
    (statements r s cs).Safe := by
  induction cs generalizing s with
  | nil => exact safe_ok _
  | cons c cs ih =>
    obtain ⟨hsafe, hnext⟩ := safe_statement hs hr (hcs c List.mem_cons_self)
    rw [statements]
    refine hsafe.bind fun p hp => ?_
    refine (ih (hnext p.1 p.2 hp) fun c hc => ?_).bind fun _ _ => safe_ok _
    exact hcs c (List.mem_cons_of_mem _ hc)

theorem safe_document {d : Document} (hd : d.Typed) : (document r d).Safe := by
  have hmodule : ∀ m : Module, m.Typed → (moduleText r m).Safe := by
    intro m hm
    refine Result.Safe.bind (Result.Safe.mapError ?_ (Failure.OfText.within _)) fun _ _ => safe_ok _
    exact safe_statements ⟨by simp [Scope.start], by simp [Scope.start]⟩ hr hm
  have hsection : ∀ c : Section, c.Typed → (sectionText r d.source c).Safe := by
    intro c hc
    cases c with
    | raw text => exact safe_ok _
    | code m => exact (hmodule m hc).mapError (Failure.OfText.locate _ _)
    | unknown => cases hc
  have hsections : ∀ cs : List Section, (∀ c ∈ cs, c.Typed) →
      (sectionTexts r d.source cs).Safe := by
    intro cs hcs
    induction cs with
    | nil => exact safe_ok _
    | cons c cs ih =>
      refine (hsection c (hcs c List.mem_cons_self)).bind fun _ _ => ?_
      exact (ih fun c hc => hcs c (List.mem_cons_of_mem _ hc)).bind fun _ _ => safe_ok _
  exact (hsections d.sections hd).bind fun _ _ => safe_ok _

omit hr

theorem typed_of_readAll {sources : List Source} {ds : List Document}
    (h : List.Forall₂ (fun s d => Document.read s = .ok d) sources ds) : ∀ d ∈ ds, d.Typed := by
  induction h with
  | nil => simp
  | cons hd _ ih => exact List.forall_mem_cons.2 ⟨read_typed hd, ih⟩

/-- A registered module stands in one of the documents. -/
theorem typed_of_registered {ds : List Document} (h : ∀ d ∈ ds, d.Typed) :
    ∀ name m, (Registry.ofDocuments ds).find? name = some m → m.Typed := by
  intro name m hm
  rw [Registry.find?_ofDocuments] at hm
  obtain ⟨d, hd, hm⟩ := List.mem_flatMap.1 (List.mem_of_find?_eq_some hm)
  obtain ⟨c, hc, hm⟩ := List.mem_filterMap.1 hm
  have hc := h d hd c hc
  cases c with
  | code n => cases hm; exact hc
  | raw | unknown => cases hm

/-- **Text leads to no other failures.** -/
theorem ofText_of_compile {sources : List Source} {e : Failure}
    (h : compile sources = .error (.unexpanded e)) : e.OfText := by
  cases hread : readAll sources with
  | error p => rw [compile, hread] at h; cases h
  | ok ds =>
    have hds := readAll_eq_ok_iff.1 hread
    have htyped := typed_of_readAll hds
    have hr := typed_of_registered htyped
    have hsafe := safe_mapM fun d hd => safe_document hr (htyped d hd)
    rw [compile_eq hds] at h
    cases hx : ds.mapM (document (Registry.ofDocuments ds)) with
    | error f => rw [hx] at h; cases h; exact hsafe _ hx
    | ok texts => rw [hx] at h; cases h

/-- Every cause that text can lead to has a text that leads to one of its kind. -/
theorem exists_text_of_ofText {c : Cause} (h : c.OfText) :
    ∃ sources e, compile sources = .error (.unexpanded (.error e)) ∧ e.cause.SameKind c := by
  have hfound : ∀ (text : String) (cause : Cause) (context : List String), cause.SameKind c →
      compile [⟨"a", text⟩] = .error (.unexpanded (.error ⟨cause, context,
        some (⟨⟨1, 2, 1⟩, ⟨1, 3, 2⟩⟩, ⟨"a", text⟩)⟩)) →
      ∃ sources e, compile sources = .error (.unexpanded (.error e)) ∧ e.cause.SameKind c :=
    fun _ _ _ hkind hcompile => ⟨_, _, hcompile, hkind⟩
  cases c with
  | unknownModule =>
    exact hfound "@M \x7b\n@use N\n\x7d" (.unknownModule "N") ["M"] rfl
      (by decide +kernel)
  | notImported =>
    exact hfound "@M \x7b\nA N.B\n\x7d" (.notImported "N") ["M", "A"] rfl
      (by decide +kernel)
  | objectNotFound =>
    exact hfound "@M \x7b\n@use M\nA M.B\n\x7d" (.objectNotFound "M" "B") ["M", "A"] rfl
      (by decide +kernel)
  | templateNotFound =>
    exact hfound "@M \x7b\n@impl T<>\n\x7d" (.templateNotFound "T") ["M"] rfl
      (by decide +kernel)
  | rangeCount =>
    exact hfound "@M \x7b\nT<>\n@impl T<1..2>\n\x7d" (.rangeCount 1 0) ["M"] rfl
      (by decide +kernel)
  | noParameters | slotOutOfRange => cases h

/-- **Text leads to exactly these failures.** What has been read is typed, so that slots and the
arguments of templates are bound where they stand; expansion never meets a slot without a value, an
outline never a fragment without a line; and of the causes of an error just the kinds of
`Cause.OfText` occur. -/
theorem failure_of_text :
    (∀ sources ds, readAll sources = .ok ds → ∀ d ∈ ds, d.Typed ∧ Outline.refused? d = none) ∧
    (∀ sources e, compile sources = .error (.unexpanded e) → e.OfText) ∧
    ∀ c : Cause, c.OfText ↔
      ∃ sources e, compile sources = .error (.unexpanded (.error e)) ∧ e.cause.SameKind c := by
  refine ⟨fun sources ds h d hd => ?_, fun _ _ => ofText_of_compile, fun c => ⟨fun h => ?_, ?_⟩⟩
  · have htyped := typed_of_readAll (readAll_eq_ok_iff.1 h) d hd
    exact ⟨htyped, Outline.refused?_eq_none htyped⟩
  · exact exists_text_of_ofText h
  · rintro ⟨sources, e, he, hkind⟩
    exact hkind.ofText (ofText_of_compile he : e.cause.OfText)

/-- A template with a repeated parameter and with arguments: its slots are bound, and what makes it
fail is a module that is not imported. -/
theorem failure_of_text_template :
    (∃ ds, readAll [⟨"a", "@M \x7b\nT<x,x,y>(a, ...) F<y,a> x + U.B\n@impl T<0..1,2..2>\n\x7d"⟩] =
      .ok ds ∧ ∀ d ∈ ds, d.Typed ∧ Outline.refused? d = none) ∧
    ∃ e, compile [⟨"a", "@M \x7b\nT<x,x,y>(a, ...) F<y,a> x + U.B\n@impl T<0..1,2..2>\n\x7d"⟩] =
      .error (.unexpanded (.error e)) ∧ e.cause = .notImported "U" ∧ e.cause.OfText := by
  obtain ⟨ds, hread⟩ := exists_eq_ok_of_isOk (by decide +kernel :
    (readAll [⟨"a", "@M \x7b\nT<x,x,y>(a, ...) F<y,a> x + U.B\n@impl T<0..1,2..2>\n\x7d"⟩]).isOk)
  have hcompile : compile
      [⟨"a", "@M \x7b\nT<x,x,y>(a, ...) F<y,a> x + U.B\n@impl T<0..1,2..2>\n\x7d"⟩] =
      .error (.unexpanded (.error ⟨.notImported "U", ["M", "T<0, 2>"], some (⟨⟨1, 2, 1⟩, ⟨1, 3, 2⟩⟩,
        ⟨"a", "@M \x7b\nT<x,x,y>(a, ...) F<y,a> x + U.B\n@impl T<0..1,2..2>\n\x7d"⟩)⟩)) := by
    decide +kernel
  exact ⟨⟨ds, hread, failure_of_text.1 _ ds hread⟩,
    ⟨_, hcompile, rfl, failure_of_text.2.1 _ _ hcompile⟩⟩

end MacroModules.Expansion
