import MacroModules.Proofs.Expansion.Context
import MacroModules.Proofs.Expansion.Order
import MacroModules.Proofs.Expansion.Safe
import MacroModules.Workspace

/-!
# Checking and compiling

An open document is checked against a registry of its own: its modules come first, then those of the
other documents that can be read. Compiling has one registry for all documents and stops at the
first error. The two agree all the same. What is found in a document is what compiling it in front
of the others would say about it, and if documents share no module names, then the registries differ
in their order only.

* `located_of_document`: an error is placed at a module and names what was being compiled.
* `perm_cons_others`: a document and the others are all documents.
* `readable_eq_readAll`: the other documents that count are those that can be read.
* `notifications_eq_nil_iff`: when there is nothing to find.
* `notifications_agree_with_compile`: **an editor is told what compiling would say**.
-/

namespace MacroModules

/-! ## Errors of a document -/

namespace Expansion

variable {r : Registry}

/-- An error is placed at the name of a module of the document and names what was being compiled,
beginning with that module. -/
theorem located_of_document {d : Document} {e : CompileError}
    (h : document r d = .error (.error e)) : ∃ m ∈ d.modules,
      e.place = some (m.span, d.source) ∧ ∃ rest, e.context = m.name :: rest := by
  obtain ⟨cause, context, place⟩ := e
  obtain ⟨m, hm, htext, hplace⟩ := document_eq_error_iff.1 h
  obtain ⟨-, -, -, -, path, -, -, -, hcontext, -⟩ := moduleText_eq_error_iff.1 htext
  exact ⟨m, List.mem_filterMap.2 ⟨.code m, hm.code_mem, rfl⟩, hplace, path, hcontext⟩

/-- Documents that share no names lead to the same expansions in every order. -/
theorem document_perm {ds es : List Document} (hapart : ∀ d ∈ ds, ∀ e ∈ ds, d ≠ e → d.Apart e)
    (h : es.Perm ds) (d : Document) :
    document (Registry.ofDocuments es) d = document (Registry.ofDocuments ds) d := by
  have hfind := Registry.find?_ofDocuments_perm hapart h
  exact document_agree (Registry.agreeOn_of_object? fun name _ => by rw [hfind name])

theorem documents_of_ok {d : Document} {ds : List Document} {x : String}
    (h : document (Registry.ofDocuments (d :: ds)) d = .ok x) :
    ∃ xs failure, documents (d :: ds) = (x :: xs, failure) := by
  rw [documents, documentsWith, h]
  exact ⟨_, _, rfl⟩

theorem documents_of_error {d : Document} {ds : List Document} {failure : Failure}
    (h : document (Registry.ofDocuments (d :: ds)) d = .error failure) :
    documents (d :: ds) = ([], some failure) := by
  rw [documents, documentsWith, h]

end Expansion

namespace Workspace

open Expansion

/-! ## Open documents -/

variable {w : Workspace} {uri text : String}

/-- The documents around an open document are at other URIs. -/
theorem exists_around (h : (uri, text) ∈ w.documents) : ∃ before after,
    w.documents = before ++ (uri, text) :: after ∧ (∀ a ∈ before, a.1 ≠ uri) ∧
      ∀ a ∈ after, a.1 ≠ uri := by
  obtain ⟨before, after, hsplit⟩ := List.append_of_mem h
  have hdistinct := w.distinct
  rw [hsplit, List.map_append, List.map_cons, List.nodup_append, List.nodup_cons] at hdistinct
  obtain ⟨-, ⟨hafter, -⟩, hbefore⟩ := hdistinct
  refine ⟨before, after, hsplit, fun a ha => ?_, fun a ha huri => hafter ?_⟩
  · exact hbefore a.1 (List.mem_map_of_mem ha) uri List.mem_cons_self
  · exact List.mem_map.2 ⟨a, ha, huri⟩

theorem lookup_eq_some (h : (uri, text) ∈ w.documents) : w.documents.lookup uri = some text := by
  obtain ⟨before, after, hsplit, hbefore, -⟩ := exists_around h
  refine List.lookup_eq_some_iff.2 ⟨before, after, hsplit, fun a ha => ?_⟩
  simpa using (hbefore a ha).symm

theorem findings_eq_check (h : (uri, text) ∈ w.documents) : w.findings uri = w.check uri text := by
  rw [findings, lookup_eq_some h]

/-- The documents at other URIs. -/
def others (w : Workspace) (uri : String) : List (String × String) :=
  w.documents.filter (·.1 != uri)

/-- A document and the others are all documents. -/
theorem perm_cons_others (h : (uri, text) ∈ w.documents) :
    ((uri, text) :: w.others uri).Perm w.documents := by
  obtain ⟨before, after, hsplit, hbefore, hafter⟩ := exists_around h
  have hothers : w.others uri = before ++ after := by
    rw [others, hsplit, List.filter_append, List.filter_cons_of_neg (by simp),
      List.filter_eq_self.2 (by simpa using hbefore), List.filter_eq_self.2 (by simpa using hafter)]
  rw [hothers, hsplit]
  exact List.perm_middle.symm

/-! ## Reading the other documents -/

/-- The other documents that can be read, as sources. -/
def readableOthers (w : Workspace) (uri : String) : List Source :=
  ((w.others uri).map source).filter fun s => (Document.read s).isOk

/-- Unless a bound is too long, the documents that count are those that can be read. -/
theorem readable_eq_readAll {as : List (String × String)}
    (hshort : ∀ a ∈ as, ∀ n, Document.read (source a) ≠ .error (.longBound n)) :
    ∃ ds, readable as = .ok ds ∧
      readAll ((as.map source).filter fun s => (Document.read s).isOk) = .ok ds := by
  induction as with
  | nil => exact ⟨[], rfl, rfl⟩
  | cons a as ih =>
    obtain ⟨hhead, htail⟩ := List.forall_mem_cons.1 hshort
    obtain ⟨ds, hreadable, hall⟩ := ih htail
    cases hread : Document.read (source a) with
    | error failure =>
      cases failure with
      | longBound n => exact absurd hread (hhead n)
      | fault f =>
        refine ⟨ds, ?_, ?_⟩
        · rw [readable, hread]
          exact hreadable
        · rw [List.map_cons, List.filter_cons_of_neg (by rw [hread]; exact Bool.false_ne_true)]
          exact hall
    | ok d =>
      refine ⟨d :: ds, ?_, ?_⟩
      · rw [readable, hread, hreadable]
        rfl
      · rw [List.map_cons, List.filter_cons_of_pos (by rw [hread]; rfl), readAll_eq_ok_iff]
        exact .cons hread (readAll_eq_ok_iff.1 hall)

theorem readable_of_reads {as : List (String × String)} {docOf : String × String → Document}
    (h : ∀ a ∈ as, Document.read (source a) = .ok (docOf a)) :
    readable as = .ok (as.map docOf) := by
  induction as with
  | nil => rfl
  | cons a as ih =>
    obtain ⟨hhead, htail⟩ := List.forall_mem_cons.1 h
    rw [readable, hhead, ih htail]
    rfl

/-! ## Checking a document -/

/-- The finding for an error stands at the name of a module and says what was being compiled. -/
theorem ofError_of_document {r : Registry} {d : Document} {e : CompileError}
    (h : document r d = .error (.error e)) : ∃ m ∈ d.modules,
      e.place = some (m.span, d.source) ∧ Finding.ofError e = ⟨.ofSpan m.span, .warning,
        e.cause.message ++ " (while compiling: " ++ " -> ".intercalate e.context ++ ")"⟩ := by
  obtain ⟨m, hm, hplace, rest, hcontext⟩ := located_of_document h
  refine ⟨m, hm, hplace, ?_⟩
  rw [Finding.ofError, hplace, if_neg (by rw [hcontext]; exact List.cons_ne_nil _ _)]
  simp only [Option.map_some, Option.getD_some, String.append_assoc]

section

variable {d : Document} {ds : List Document}
  (hd : Document.read (source (uri, text)) = .ok d) (hothers : readable (w.others uri) = .ok ds)

include hd hothers

theorem check_of_ok {x : String} (h : document (Registry.ofDocuments (d :: ds)) d = .ok x) :
    w.check uri text = .ok [] := by
  rw [others] at hothers
  simp only [check, hd, hothers, h]

theorem check_of_error {e : CompileError}
    (h : document (Registry.ofDocuments (d :: ds)) d = .error (.error e)) :
    w.check uri text = .ok [.ofError e] := by
  rw [others] at hothers
  simp only [check, hd, hothers, h]

theorem check_of_stuck {i : Impasse}
    (h : document (Registry.ofDocuments (d :: ds)) d = .error (.stuck i)) :
    w.check uri text = .error (.stuck i) := by
  rw [others] at hothers
  simp only [check, hd, hothers, h]

end

theorem exists_read_of_check (h : w.check uri text = .ok []) :
    ∃ d, Document.read (source (uri, text)) = .ok d := by
  cases hread : Document.read (source (uri, text)) with
  | ok d => exact ⟨d, rfl⟩
  | error failure =>
    rw [check, hread] at h
    cases failure <;> cases h

theorem notifications_eq_ok_iff {found : List Finding} (h : (uri, text) ∈ w.documents) :
    w.notifications uri = .ok [⟨uri, found⟩] ↔ w.check uri text = .ok found := by
  rw [notifications, findings_eq_check h]
  cases w.check uri text with
  | error e => exact ⟨fun h => (by cases h), fun h => (by cases h)⟩
  | ok found' => simp [Except.map]

/-! ## All documents -/

/-- No module name occurs in two documents. -/
def Apart (w : Workspace) : Prop :=
  ∀ a ∈ w.documents, ∀ b ∈ w.documents, a.1 ≠ b.1 → ∀ d e, Document.read (source a) = .ok d →
    Document.read (source b) = .ok e → d.Apart e

section

variable {docOf : String × String → Document}
  (hread : ∀ a ∈ w.documents, Document.read (source a) = .ok (docOf a)) (hapart : w.Apart)

include hread hapart

/-- With whichever documents in front, an expansion is the same. -/
theorem document_order {order : List (String × String)} (h : order.Perm w.documents)
    (d : Document) : document (Registry.ofDocuments (order.map docOf)) d =
      document (Registry.ofDocuments (w.documents.map docOf)) d := by
  refine document_perm ?_ (h.map docOf) d
  intro d hd e he hne
  obtain ⟨a, ha, rfl⟩ := List.mem_map.1 hd
  obtain ⟨b, hb, rfl⟩ := List.mem_map.1 he
  refine hapart a ha b hb (fun huri => hne ?_) _ _ (hread a ha) (hread b hb)
  rw [List.inj_on_of_nodup_map w.distinct ha hb huri]

/-- The documents can be compiled if each of them has an expansion. -/
theorem exists_compile_iff {order : List (String × String)} (h : order.Perm w.documents) :
    (∃ xs, compile (order.map source) = .ok xs) ↔ ∀ a ∈ w.documents, ∃ x,
      document (Registry.ofDocuments (w.documents.map docOf)) (docOf a) = .ok x := by
  have hall : List.Forall₂ (fun s d => Document.read s = .ok d) (order.map source)
      (order.map docOf) := by
    rw [List.forall₂_map_left_iff, List.forall₂_map_right_iff, List.forall₂_same]
    exact fun a ha => hread a (h.mem_iff.1 ha)
  have hexpand : (∃ xs, compile (order.map source) = .ok xs) ↔
      ∃ xs, (order.map docOf).mapM (document (Registry.ofDocuments (order.map docOf))) =
        .ok xs := by
    simp only [compile_eq hall, mapError_eq_ok_iff]
  rw [hexpand, exists_mapM_eq_ok_iff, List.forall_mem_map]
  simp only [document_order hread hapart h, h.mem_iff]

/-- There is nothing to find in a document if it has an expansion. -/
theorem notifications_eq_nil_iff {a : String × String} (ha : a ∈ w.documents) :
    w.notifications a.1 = .ok [⟨a.1, []⟩] ↔ ∃ x,
      document (Registry.ofDocuments (w.documents.map docOf)) (docOf a) = .ok x := by
  have hperm : (a :: w.others a.1).Perm w.documents := perm_cons_others ha
  have hothers : readable (w.others a.1) = .ok ((w.others a.1).map docOf) :=
    readable_of_reads fun b hb => hread b (List.mem_of_mem_filter hb)
  rw [notifications_eq_ok_iff ha, ← document_order hread hapart hperm, List.map_cons]
  constructor
  · intro h
    cases hx : document (Registry.ofDocuments (docOf a :: (w.others a.1).map docOf)) (docOf a) with
    | ok x => exact ⟨x, rfl⟩
    | error failure =>
      cases failure with
      | error e =>
        rw [check_of_error (hread a ha) hothers hx] at h
        cases h
      | stuck i =>
        rw [check_of_stuck (hread a ha) hothers hx] at h
        cases h
  · rintro ⟨x, hx⟩
    exact check_of_ok (hread a ha) hothers hx

end

/-- The documents can be compiled if nothing is found in any of them. -/
theorem exists_compile_iff_notifications (hapart : w.Apart) {order : List (String × String)}
    (horder : order.Perm w.documents) : (∃ xs, compile (order.map source) = .ok xs) ↔
      ∀ a ∈ w.documents, w.notifications a.1 = .ok [⟨a.1, []⟩] := by
  by_cases hall : ∀ a ∈ w.documents, ∃ d, Document.read (source a) = .ok d
  · have hread : ∀ a ∈ w.documents, Document.read (source a) =
        .ok ((Document.read (source a)).toOption.getD ⟨source a, []⟩) :=
      fun a ha => eq_ok_toOption (hall a ha) _
    rw [exists_compile_iff hread hapart horder]
    exact forall₂_congr fun a ha => (notifications_eq_nil_iff hread hapart ha).symm
  · -- a document that cannot be read stands in the way of both
    constructor
    · rintro ⟨xs, hxs⟩
      obtain ⟨ds, hds, -⟩ := compile_eq_ok_iff.1 hxs
      refine absurd (fun a ha => ?_) hall
      have hmem : source a ∈ order.map source := List.mem_map_of_mem (horder.mem_iff.2 ha)
      obtain ⟨d, -, hd⟩ := exists_of_mem_left (readAll_eq_ok_iff.1 hds) hmem
      exact ⟨d, hd⟩
    · intro hempty
      refine absurd (fun a ha => ?_) hall
      exact exists_read_of_check ((notifications_eq_ok_iff ha).1 (hempty a ha))

/-- **An editor is told what compiling would say.** If no module name occurs in two documents, they
can be compiled, in whatever order, exactly if nothing is found in any of them. Whatever the names
are, there is one notification for a document: with its fault, if it cannot be read; else with the
error that compiling it in front of the other readable documents meets in it, placed at the name of
a module; else with no findings. There is none only if a bound is too long in some document or if
the expansion gets stuck, where compiling gets stuck as well. -/
theorem notifications_agree_with_compile (w : Workspace) :
    (w.Apart → ∀ order : List (String × String), order.Perm w.documents →
      ((∃ xs, compile (order.map source) = .ok xs) ↔
        ∀ a ∈ w.documents, w.notifications a.1 = .ok [⟨a.1, []⟩])) ∧
    ∀ uri text, (uri, text) ∈ w.documents →
      (∀ f, Document.read (source (uri, text)) = .error (.fault f) →
        w.notifications uri = .ok [⟨uri, [⟨.ofSpan f.span, .error, f.message⟩]⟩]) ∧
      ((∀ a ∈ w.documents, ∀ n, Document.read (source a) ≠ .error (.longBound n)) →
        ∀ d, Document.read (source (uri, text)) = .ok d → ∃ ds,
          readAll (source (uri, text) :: w.readableOthers uri) = .ok (d :: ds) ∧
          ((∃ e, Expansion.documents (d :: ds) = ([], some (.error e)) ∧ ∃ m ∈ d.modules,
              e.place = some (m.span, source (uri, text)) ∧
              w.notifications uri = .ok [⟨uri, [⟨.ofSpan m.span, .warning, e.cause.message ++
                " (while compiling: " ++ " -> ".intercalate e.context ++ ")"⟩]⟩]) ∨
            (∃ x xs failure, Expansion.documents (d :: ds) = (x :: xs, failure) ∧
              w.notifications uri = .ok [⟨uri, []⟩]) ∨
            ∃ i, Expansion.documents (d :: ds) = ([], some (.stuck i)) ∧ (Failure.stuck i).OfText ∧
              w.notifications uri = .error (.stuck i))) := by
  refine ⟨fun hapart order => exists_compile_iff_notifications hapart, fun uri text hopen =>
    ⟨fun f hfault => ?_, fun hshort d hd => ?_⟩⟩
  · rw [notifications_eq_ok_iff hopen, check, hfault]
    rfl
  · have hothersShort : ∀ a ∈ w.others uri, ∀ n, Document.read (source a) ≠ .error (.longBound n) :=
      fun a ha => hshort a (List.mem_of_mem_filter ha)
    obtain ⟨ds, hothers, hall⟩ := readable_eq_readAll hothersShort
    have hreadAll : readAll (source (uri, text) :: w.readableOthers uri) = .ok (d :: ds) :=
      readAll_eq_ok_iff.2 (.cons hd (readAll_eq_ok_iff.1 hall))
    refine ⟨ds, hreadAll, ?_⟩
    cases hx : document (Registry.ofDocuments (d :: ds)) d with
    | ok x =>
      obtain ⟨xs, failure, hdocuments⟩ := documents_of_ok hx
      have hcheck := check_of_ok hd hothers hx
      exact .inr (.inl ⟨x, xs, failure, hdocuments, (notifications_eq_ok_iff hopen).2 hcheck⟩)
    | error failure =>
      have hdocuments := documents_of_error hx
      cases failure with
      | error e =>
        obtain ⟨m, hm, hplace, hfinding⟩ := ofError_of_document hx
        rw [(Grammar.read_eq_ok_iff.1 hd).1] at hplace
        refine .inl ⟨e, hdocuments, m, hm, hplace, (notifications_eq_ok_iff hopen).2 ?_⟩
        rw [← hfinding]
        exact check_of_error hd hothers hx
      | stuck i =>
        have hcompile : compile (source (uri, text) :: w.readableOthers uri) =
            .error (.unexpanded (.stuck i)) := by
          rw [compile, hreadAll]
          dsimp only
          rw [hdocuments]
        refine .inr (.inr ⟨i, hdocuments, ofText_of_compile hcompile, ?_⟩)
        rw [notifications, findings_eq_check hopen, check_of_stuck hd hothers hx]
        rfl

/-- Two documents of which the one uses the other, compiled the other way round; then the object
that is used is gone, and a third document that cannot be read declares the same module. -/
theorem notifications_agree_with_compile_renamed :
    let w := (empty.put "p/a" "@M \x7b\n@use N\nA N.B\n\x7d").put "p/b" "@N \x7b\nB 1\n\x7d"
    let v := (w.put "p/b" "@N \x7b\nC 1\n\x7d").put "p/c" "@N \x7b\nB 1\n"
    w.Apart ∧ (∃ xs, compile (w.documents.reverse.map source) = .ok xs) ∧
    (∀ a ∈ w.documents, w.notifications a.1 = .ok [⟨a.1, []⟩]) ∧
    (∀ a ∈ v.documents, ∀ n, Document.read (source a) ≠ .error (.longBound n)) ∧
    ∃ d ds e, readAll (⟨"a", "@M \x7b\n@use N\nA N.B\n\x7d"⟩ :: v.readableOthers "p/a") =
        .ok (d :: ds) ∧ Expansion.documents (d :: ds) = ([], some (.error e)) ∧
      v.notifications "p/a" = .ok [⟨"p/a", [⟨⟨0, 1, 0, 2⟩, .warning,
        "object B not found in module N (while compiling: M -> A)"⟩]⟩] := by
  intro w v
  have hapart : w.Apart := by
    intro a ha b hb hab d e hd he m hm k hk hmk
    have hnames : ∀ a ∈ w.documents, ∀ b ∈ w.documents, a.1 ≠ b.1 → ∀ name ∈
        ((Document.read (source a)).map fun d => d.modules.map (·.name)).toOption.getD [], name ∉
        ((Document.read (source b)).map fun d => d.modules.map (·.name)).toOption.getD [] := by
      decide +kernel
    have hne := hnames a ha b hb hab
    rw [hd, he] at hne
    exact hne m.name (List.mem_map_of_mem hm) (hmk ▸ List.mem_map_of_mem hk)
  have hcompile : ∃ xs, compile (w.documents.reverse.map source) = .ok xs :=
    exists_eq_ok_of_isOk (by decide +kernel)
  have hshort : ∀ a ∈ v.documents, ∀ n, Document.read (source a) ≠ .error (.longBound n) := by
    have hreadable : ∀ a ∈ v.documents, (readable [a]).isOk := by decide +kernel
    intro a ha n hn
    have hisOk := hreadable a ha
    rw [readable, hn] at hisOk
    cases hisOk
  have hopen : ("p/a", "@M \x7b\n@use N\nA N.B\n\x7d") ∈ v.documents := by decide +kernel
  have hsource : source ("p/a", "@M \x7b\n@use N\nA N.B\n\x7d") =
      ⟨"a", "@M \x7b\n@use N\nA N.B\n\x7d"⟩ := by decide +kernel
  obtain ⟨d, hd⟩ := exists_eq_ok_of_isOk (by decide +kernel :
    (Document.read (source ("p/a", "@M \x7b\n@use N\nA N.B\n\x7d"))).isOk)
  obtain ⟨ds, hall, hcases⟩ :=
    ((notifications_agree_with_compile v).2 _ _ hopen).2 hshort d hd
  have hfound : v.notifications "p/a" = .ok [⟨"p/a", [⟨⟨0, 1, 0, 2⟩, .warning,
      "object B not found in module N (while compiling: M -> A)"⟩]⟩] := by decide +kernel
  refine ⟨hapart, hcompile, ?_, hshort, d, ds, ?_⟩
  · exact ((notifications_agree_with_compile w).1 hapart _ (List.reverse_perm _)).1 hcompile
  · rcases hcases with ⟨e, he, -⟩ | ⟨x, xs, failure, -, hnone⟩ | ⟨i, -, -, hstuck⟩
    · exact ⟨e, hsource ▸ hall, he, hfound⟩
    · rw [hfound] at hnone
      cases hnone
    · rw [hfound] at hstuck
      cases hstuck

/-- A range that cannot be counted: the document can be read and inlines nothing, compiling it ends
without an error to report, and yet the editor is told nothing. -/
theorem no_notification_for_uncountable_range :
    let text := "@M \x7b\nT<a> a\n@impl T<0..99999999999999999999>\n\x7d\n"
    let w := empty.put "p/a" text
    (∀ a ∈ w.documents, ∀ n, Document.read (source a) ≠ .error (.longBound n)) ∧
    (∃ d, Document.read (source ("p/a", text)) = .ok d ∧
      document (Registry.ofDocuments [d]) d ≠ .error (.stuck .endless)) ∧
    (∀ e, compile [source ("p/a", text)] ≠ .error (.unexpanded (.error e))) ∧
    ¬ ∃ found, w.notifications "p/a" = .ok [⟨"p/a", found⟩] := by
  intro text w
  have hcompile : compile [source ("p/a", text)] =
      .error (.unexpanded (.stuck .uncountableRange)) := by decide +kernel
  have hnone : w.notifications "p/a" = .error (.stuck .uncountableRange) := by decide +kernel
  obtain ⟨d, hd⟩ := exists_eq_ok_of_isOk
    (by decide +kernel : (Document.read (source ("p/a", text))).isOk)
  refine ⟨fun a ha n hn => ?_, ⟨d, hd, fun hendless => ?_⟩, fun e he => ?_, ?_⟩
  · obtain rfl : a = ("p/a", text) := List.mem_singleton.1 ha
    rw [hd] at hn
    cases hn
  · rw [compile_eq (.cons hd .nil), List.mapM_cons, hendless] at hcompile
    cases hcompile
  · rw [hcompile] at he
    cases he
  · rintro ⟨found, hfound⟩
    rw [hnone] at hfound
    cases hfound

end Workspace

end MacroModules
