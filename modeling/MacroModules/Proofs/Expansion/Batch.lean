import MacroModules.Expansion.Batch
import MacroModules.Proofs.Except

/-!
# Compiling several sources

* `readAll_eq_ok_iff`: sources are read one by one.
* `compile_eq`, `compile_eq_ok_iff`: **compiling is the expansion of each document with the registry
  of all**.
* `documentsWith_eq_error_iff`: which document it is that fails.
-/

namespace MacroModules.Expansion

theorem readAll_eq (sources : List Source) :
    readAll sources = sources.mapM fun s => (Document.read s).mapError (s, ·) := by
  induction sources with
  | nil => rfl
  | cons s sources ih => rw [readAll, ih, List.mapM_cons]

theorem readAll_eq_ok_iff {sources : List Source} {ds : List Document} :
    readAll sources = .ok ds ↔ List.Forall₂ (fun s d => Document.read s = .ok d) sources ds := by
  have hread : (fun (s : Source) d => (Document.read s).mapError (s, ·) = .ok d) =
      fun s d => Document.read s = .ok d := by
    funext s d
    cases Document.read s <;> simp [Except.mapError]
  rw [readAll_eq, mapM_eq_ok_iff, hread]

theorem documentsWith_eq (r : Registry) (ds : List Document) :
    (match documentsWith r ds with
      | (texts, none) => .ok texts
      | (_, some e) => .error e) = ds.mapM (document r) := by
  induction ds with
  | nil => rfl
  | cons d ds ih =>
    rw [List.mapM_cons, ← ih, documentsWith]
    cases document r d with
    | error e => rfl
    | ok text => rcases documentsWith r ds with ⟨texts, _ | e⟩ <;> rfl

/-- **Compiling is the expansion of each document with the registry of all.** -/
theorem compile_eq {sources : List Source} {ds : List Document}
    (h : List.Forall₂ (fun s d => Document.read s = .ok d) sources ds) :
    compile sources =
      (ds.mapM (document (Registry.ofDocuments ds))).mapError BatchFailure.unexpanded := by
  rw [compile, readAll_eq_ok_iff.2 h, ← documentsWith_eq]
  simp only [documents]
  rcases documentsWith _ ds with ⟨texts, _ | e⟩ <;> rfl

theorem compile_eq_ok_iff {sources : List Source} {xs : List String} :
    compile sources = .ok xs ↔ ∃ ds, readAll sources = .ok ds ∧
      ds.mapM (document (Registry.ofDocuments ds)) = .ok xs := by
  have hexpand : ∀ x : Result (List String),
      x.mapError BatchFailure.unexpanded = .ok xs ↔ x = .ok xs := by
    intro x
    cases x <;> simp [Except.mapError]
  constructor
  · intro h
    cases hread : readAll sources with
    | error e => rw [compile, hread] at h; cases h
    | ok ds =>
      rw [compile_eq (readAll_eq_ok_iff.1 hread), hexpand] at h
      exact ⟨ds, rfl, h⟩
  · rintro ⟨ds, hread, h⟩
    rw [compile_eq (readAll_eq_ok_iff.1 hread), hexpand]
    exact h

/-- **Documents are expanded up to the first that fails.** -/
theorem documentsWith_eq_error_iff {r : Registry} {ds : List Document} {xs : List String}
    {e : Failure} : documentsWith r ds = (xs, some e) ↔ ∃ before d after,
      ds = before ++ d :: after ∧ List.Forall₂ (fun d x => document r d = .ok x) before xs ∧
        document r d = .error e := by
  constructor
  · intro h
    induction ds generalizing xs with
    | nil => cases h
    | cons d ds ih =>
      rw [documentsWith] at h
      cases hd : document r d with
      | error e' =>
        rw [hd] at h
        cases h
        exact ⟨[], d, ds, rfl, .nil, hd⟩
      | ok x =>
        rw [hd] at h
        obtain ⟨rfl, he⟩ := Prod.mk.inj h
        obtain ⟨before, d', after, rfl, hbefore, hd'⟩ := ih (Prod.ext rfl he)
        exact ⟨d :: before, d', after, rfl, .cons hd hbefore, hd'⟩
  · rintro ⟨before, d, after, rfl, hbefore, hd⟩
    induction hbefore with
    | nil => rw [List.nil_append, documentsWith, hd]
    | cons hx _ ih => rw [List.cons_append, documentsWith, hx, ih]

/-- The documents of which each can be expanded come first in the output. -/
theorem documentsWith_append {r : Registry} {ds : List Document} {xs : List String}
    (h : ds.mapM (document r) = .ok xs) (es : List Document) :
    (documentsWith r (ds ++ es)).1 = xs ++ (documentsWith r es).1 := by
  rw [mapM_eq_ok_iff] at h
  induction h with
  | nil => rfl
  | cons hd _ ih => rw [List.cons_append, documentsWith, hd, List.cons_append, ← ih]

end MacroModules.Expansion
