import MacroModules.Proofs.Expansion.Agree
import MacroModules.Proofs.Expansion.Batch
import MacroModules.Proofs.Grammar.Join

/-!
# Expanding sources apart and together

It makes no difference whether two sources are compiled side by side or as one, with a line feed
between them. The modules are registered in the same order, raw text passes through, and what
depends on places is nothing but the place of an error (`Failure.unplaced`).

* `document_append`, `document_mergeRaw`: documents by parts.
* `document_rel`: sections that are alike up to places have expansions that are, too.
* `compile_append_lf`: **the outcome for two sources joined by a line feed is that for the two**.
-/

namespace MacroModules.Expansion

variable {α β : Type}

/-! ## Failures without their place -/

/-- The failure without the place it was met at. -/
def Failure.unplaced : Failure → Failure
  | error e => error { e with place := none }
  | stuck i => stuck i

/-- The outcome without the place of a failure. -/
def unplaced (x : Result α) : Result α := x.mapError Failure.unplaced

theorem unplaced_bind (x : Result α) (f : α → Result β) :
    unplaced (x >>= f) = unplaced x >>= fun a => unplaced (f a) := by
  cases x <;> rfl

theorem unplaced_locate (x : Result α) (span : Span) (source : Source) :
    unplaced (x.mapError (·.locate span source)) = unplaced x := by
  rcases x with (_ | _) | _ <;> rfl

/-! ## Documents by parts -/

variable (r : Registry) (source : Source)

theorem document_cons (c : Section) (ss : List Section) :
    document r ⟨source, c :: ss⟩ = do
      let x ← sectionText r source c
      let y ← document r ⟨source, ss⟩
      return x ++ y := by
  simp only [document, sectionTexts]
  cases sectionText r source c with
  | error e => rfl
  | ok x =>
    cases sectionTexts r source ss with
    | error e => rfl
    | ok ys => exact congrArg Except.ok (String.join_cons)

/-- The parts of a document are expanded one after the other. -/
theorem document_append (ss rs : List Section) :
    document r ⟨source, ss ++ rs⟩ = do
      let x ← document r ⟨source, ss⟩
      let y ← document r ⟨source, rs⟩
      return x ++ y := by
  induction ss with
  | nil =>
    cases h : document r ⟨source, rs⟩ with
    | error e => exact h
    | ok y => exact h.trans (congrArg Except.ok (String.empty_append).symm)
  | cons c ss ih =>
    rw [List.cons_append, document_cons, document_cons, ih]
    cases sectionText r source c with
    | error e => rfl
    | ok x =>
      cases document r ⟨source, ss⟩ with
      | error e => rfl
      | ok y =>
        cases document r ⟨source, rs⟩ with
        | error e => rfl
        | ok z => exact congrArg Except.ok (String.append_assoc).symm

open Grammar

/-- Raw text is passed through, in one section or in two. -/
theorem document_mergeRaw (ss : List Section) :
    document r ⟨source, mergeRaw ss⟩ = document r ⟨source, ss⟩ := by
  fun_induction mergeRaw ss with
  | case1 => rfl
  | case2 text ss ih =>
    rw [document_cons, ← ih]
    generalize mergeRaw ss = rs
    fun_cases pushRaw text rs with
    | case1 next rs =>
      rw [document_cons, document_cons]
      cases document r ⟨source, rs⟩ with
      | error e => rfl
      | ok y => exact congrArg Except.ok String.append_assoc
    | case2 => rw [document_cons]
  | case3 c ss _ ih => rw [document_cons, document_cons, ih]

theorem modules_mergeRaw (ss : List Section) :
    (mergeRaw ss).filterMap Section.module? = ss.filterMap Section.module? := by
  fun_induction mergeRaw ss with
  | case1 => rfl
  | case2 text ss ih =>
    rw [List.filterMap_cons, ← ih]
    fun_cases pushRaw text (mergeRaw ss) <;> rfl
  | case3 c ss _ ih => rw [List.filterMap_cons, List.filterMap_cons, ih]

/-! ## Sections alike up to places -/

variable {r source}

/-- Sections alike up to places have expansions alike up to places. -/
theorem document_rel {q : Registry} (hr : ∀ names, Registry.AgreeOn names r q)
    {ss rs : List Section} (source' : Source) (h : List.Forall₂ (SectionRel Eq) ss rs) :
    unplaced (document q ⟨source', rs⟩) = unplaced (document r ⟨source, ss⟩) := by
  have hsection : ∀ {c c' : Section}, SectionRel Eq c c' →
      unplaced (sectionText q source' c') = unplaced (sectionText r source c) := by
    intro c c' hc
    cases hc with
    | raw htext => rw [htext]; rfl
    | code hname hbody =>
      rw [sectionText, sectionText, unplaced_locate, unplaced_locate,
        moduleText_agree (hr _) hname hbody]
    | unknown label => rfl
  induction h with
  | nil => rfl
  | cons hc _ ih =>
    rw [document_cons, document_cons, unplaced_bind, unplaced_bind, hsection hc]
    congr 1
    funext x
    rw [unplaced_bind, unplaced_bind, ih]

theorem sectionRel_refl (ss : List Section) : List.Forall₂ (SectionRel Eq) ss ss :=
  List.forall₂_same.2 fun c _ => by
    cases c with
    | raw text => exact .raw rfl
    | code m => exact .code rfl rfl
    | unknown label => exact .unknown label

theorem modules_rel {ss rs : List Section} (h : List.Forall₂ (SectionRel Eq) ss rs) :
    List.Forall₂ Module.Agree (ss.filterMap Section.module?) (rs.filterMap Section.module?) := by
  induction h with
  | nil => exact .nil
  | cons hc _ ih =>
    cases hc with
    | raw | unknown => exact ih
    | code hname hbody =>
      refine .cons ⟨hname, fun name => ?_⟩ ih
      rw [Module.object?, Module.object?, Module.objects, Module.objects, hbody]

/-- The expansion of a document that consists of two with a line feed between them, when the second
has been moved. -/
theorem document_joined (d₁ : Document) {d₂ : Document} {rs : List Section} (source : Source)
    (hrs : List.Forall₂ (SectionRel Eq) d₂.sections rs) :
    let d : Document := ⟨source, mergeRaw (d₁.sections ++ mergeRaw (.raw "\n" :: rs))⟩
    unplaced (document (Registry.ofDocuments [d]) d) = unplaced do
      let x ← document (Registry.ofDocuments [d₁, d₂]) d₁
      let y ← document (Registry.ofDocuments [d₁, d₂]) d₂
      return x ++ "\n" ++ y := by
  intro d
  have hmodules : List.Forall₂ Module.Agree ([d₁, d₂].flatMap Document.modules)
      ([d].flatMap Document.modules) := by
    have := List.rel_append (modules_rel (sectionRel_refl d₁.sections)) (modules_rel hrs)
    simpa [d, Document.modules, modules_mergeRaw, List.filterMap_cons, Section.module?] using this
  have hr := Registry.agreeOn_of_modules hmodules
  rw [document_mergeRaw, document_append, document_mergeRaw, document_cons]
  simp only [unplaced_bind]
  rw [document_rel hr source (sectionRel_refl d₁.sections), document_rel hr source hrs]
  cases document (Registry.ofDocuments [d₁, d₂]) d₁ with
  | error e => rfl
  | ok x =>
    cases document (Registry.ofDocuments [d₁, d₂]) d₂ with
    | error e => rfl
    | ok y => exact congrArg Except.ok String.append_assoc.symm

/-- Outcomes equal up to a place are both texts, both errors or both stuck. -/
theorem unplaced_eq {x y : Result α} (h : unplaced x = unplaced y) :
    (∃ a, x = .ok a ∧ y = .ok a) ∨
    (∃ cause context p p', x = .error (.error ⟨cause, context, p⟩) ∧
      y = .error (.error ⟨cause, context, p'⟩)) ∨
    ∃ i, x = .error (.stuck i) ∧ y = .error (.stuck i) := by
  rcases x with (⟨cause, context, p⟩ | i) | a <;>
  rcases y with (⟨cause', context', p'⟩ | i') | a' <;>
  cases h
  · exact .inr (.inl ⟨cause, context, p, p', rfl, rfl⟩)
  · exact .inr (.inr ⟨i, rfl, rfl⟩)
  · exact .inl ⟨a, rfl, rfl⟩

/-- The three ways in which two documents are compiled, and compiled with a line feed between
them. -/
theorem compile_joined {a b f₁ f₂ : String} (f : String) {d₁ d₂ : Document}
    (ha : Document.read ⟨f₁, a⟩ = .ok d₁) (hb : Document.read ⟨f₂, b⟩ = .ok d₂)
    (hcr : a.toList.getLast? ≠ some '\r') :
    (∃ x y, compile [⟨f₁, a⟩, ⟨f₂, b⟩] = .ok [x, y] ∧
      compile [⟨f, a ++ "\n" ++ b⟩] = .ok [x ++ "\n" ++ y]) ∨
    (∃ cause context p p',
      compile [⟨f₁, a⟩, ⟨f₂, b⟩] = .error (.unexpanded (.error ⟨cause, context, p⟩)) ∧
      compile [⟨f, a ++ "\n" ++ b⟩] = .error (.unexpanded (.error ⟨cause, context, p'⟩))) ∨
    ∃ i, compile [⟨f₁, a⟩, ⟨f₂, b⟩] = .error (.unexpanded (.stuck i)) ∧
      compile [⟨f, a ++ "\n" ++ b⟩] = .error (.unexpanded (.stuck i)) := by
  obtain ⟨rs, hrs, hread⟩ := read_append_lf f ha hb hcr
  have hfails : ∀ e, (do
      let x ← document (Registry.ofDocuments [d₁, d₂]) d₁
      let y ← document (Registry.ofDocuments [d₁, d₂]) d₂
      return x ++ "\n" ++ y) = .error e →
      [d₁, d₂].mapM (document (Registry.ofDocuments [d₁, d₂])) = .error e := by
    intro e he
    rw [List.mapM_cons, List.mapM_cons]
    rcases bind_eq_error_iff.1 he with hx | ⟨x, hx, he⟩
    · rw [hx]; rfl
    · rcases bind_eq_error_iff.1 he with hy | ⟨y, hy, he⟩
      · rw [hx, hy]; rfl
      · cases he
  rw [compile_eq (.cons hread .nil), compile_eq (.cons ha (.cons hb .nil))]
  rcases unplaced_eq (document_joined d₁ ⟨f, a ++ "\n" ++ b⟩ hrs) with
    ⟨z, hd, hz⟩ | ⟨cause, context, p, p', hd, hz⟩ | ⟨i, hd, hz⟩
  · obtain ⟨x, hx, hz⟩ := bind_eq_ok_iff.1 hz
    obtain ⟨y, hy, hz⟩ := bind_eq_ok_iff.1 hz
    cases hz
    refine .inl ⟨x, y, ?_, ?_⟩
    · rw [List.mapM_cons, List.mapM_cons, hx, hy]; rfl
    · rw [List.mapM_cons, hd]; rfl
  · refine .inr (.inl ⟨cause, context, p', p, ?_, ?_⟩)
    · rw [hfails _ hz]; rfl
    · rw [List.mapM_cons, hd]; rfl
  · refine .inr (.inr ⟨i, ?_, ?_⟩)
    · rw [hfails _ hz]; rfl
    · rw [List.mapM_cons, hd]; rfl

/-- **A line end outside of modules is a seam.** Two documents with a line feed between them are a
document. Compiled as one they succeed if they do side by side, with the same text; and they fail
alike, up to the place. -/
theorem compile_append_lf {a b f₁ f₂ : String} (f : String) {d₁ d₂ : Document}
    (ha : Document.read ⟨f₁, a⟩ = .ok d₁) (hb : Document.read ⟨f₂, b⟩ = .ok d₂)
    (hcr : a.toList.getLast? ≠ some '\r') :
    (∃ d, Document.read ⟨f, a ++ "\n" ++ b⟩ = .ok d) ∧
    ((∃ xs, compile [⟨f, a ++ "\n" ++ b⟩] = .ok xs) ↔
      ∃ xs, compile [⟨f₁, a⟩, ⟨f₂, b⟩] = .ok xs) ∧
    (∀ x y, compile [⟨f₁, a⟩, ⟨f₂, b⟩] = .ok [x, y] →
      compile [⟨f, a ++ "\n" ++ b⟩] = .ok [x ++ "\n" ++ y]) ∧
    (∀ cause context,
      (∃ p, compile [⟨f, a ++ "\n" ++ b⟩] = .error (.unexpanded (.error ⟨cause, context, p⟩))) ↔
        ∃ p, compile [⟨f₁, a⟩, ⟨f₂, b⟩] = .error (.unexpanded (.error ⟨cause, context, p⟩))) ∧
    ∀ i, compile [⟨f, a ++ "\n" ++ b⟩] = .error (.unexpanded (.stuck i)) ↔
      compile [⟨f₁, a⟩, ⟨f₂, b⟩] = .error (.unexpanded (.stuck i)) := by
  obtain ⟨rs, -, hread⟩ := read_append_lf f ha hb hcr
  refine ⟨⟨_, hread⟩, ?_⟩
  rcases compile_joined f ha hb hcr with
    ⟨x, y, hapart, hjoined⟩ | ⟨cause, context, p, p', hapart, hjoined⟩ | ⟨i, hapart, hjoined⟩ <;>
  rw [hapart, hjoined] <;> simp

/-- A quote in the last line of the first text and one in the first line of the second do not make a
string, and the first text uses a module of the second. -/
theorem compile_append_lf_quotes :
    (∃ d, Document.read ⟨"a", "@M \x7b\n@use N\nA N.B\n\x7d // \"a"⟩ = .ok d) ∧
    (∃ d, Document.read ⟨"b", "b\" @N \x7b\nB 1\n\x7d"⟩ = .ok d) ∧
    "@M \x7b\n@use N\nA N.B\n\x7d // \"a".toList.getLast? ≠ some '\r' ∧
    compile [⟨"ab", "@M \x7b\n@use N\nA N.B\n\x7d // \"a" ++ "\n" ++ "b\" @N \x7b\nB 1\n\x7d"⟩] =
      .ok ["\n#define __M_A_IMPL_N_B 1\n#define __M_A __M_A_IMPL_N\n\n // \"a" ++ "\n" ++
        "b\" #define __N_B 1\n\n"] := by
  obtain ⟨d₁, ha⟩ := exists_eq_ok_of_isOk
    (by decide +kernel : (Document.read ⟨"a", "@M \x7b\n@use N\nA N.B\n\x7d // \"a"⟩).isOk)
  obtain ⟨d₂, hb⟩ := exists_eq_ok_of_isOk
    (by decide +kernel : (Document.read ⟨"b", "b\" @N \x7b\nB 1\n\x7d"⟩).isOk)
  have hcr : "@M \x7b\n@use N\nA N.B\n\x7d // \"a".toList.getLast? ≠ some '\r' := by decide +kernel
  exact ⟨⟨_, ha⟩, ⟨_, hb⟩, hcr,
    (compile_append_lf "ab" ha hb hcr).2.2.1 _ _ (by decide +kernel)⟩

end MacroModules.Expansion
