import MacroModules.Proofs.Expansion.Depth
import MacroModules.Proofs.Expansion.Steps

/-!
# Where an expansion gets stuck

An expansion that is not over with an error may still get stuck: it inlines without end, or a range
has too many members to be counted. Both happen at the first place where nothing in front has
failed, and what is met there can be said without saying how it is expanded.

* `mapM_layOut_eq_stuck_iff`: ranges that cannot be laid out.
* `define_eq_endless_iff`: a definition that inlines without end, whatever the limit.
* `moduleText_eq_stuck_iff`, `document_eq_stuck_iff`: the place in a module and in a document.
* `MeetsEndless`, `MeetsUncountable`, `document_eq_endless_iff`, `document_eq_uncountable_iff`: **a
  document gets stuck exactly where it meets one of the two**.
-/

namespace MacroModules.Expansion

variable {r : Registry} {m : Module} {s : Scope} {i : Impasse}

/-! ## What gets stuck -/

theorem eq_of_mapM_layOut {ranges : List Interval} {e : Failure}
    (h : ranges.mapM layOut = .error e) : e = .stuck .uncountableRange := by
  obtain ⟨-, range, -, -, -, hrange⟩ := mapM_eq_error_iff.1 h
  unfold layOut at hrange
  split at hrange
  · exact (Except.error.inj hrange).symm
  · cases hrange

/-- Ranges cannot be laid out if one of them has too many members to be counted. -/
theorem mapM_layOut_eq_stuck_iff {ranges : List Interval} :
    ranges.mapM layOut = .error (.stuck i) ↔
      i = .uncountableRange ∧ ∃ range ∈ ranges, countLimit ≤ range.size := by
  have hok : (∃ choices, ranges.mapM layOut = .ok choices) ↔ _ := exists_mapM_layOut_iff
  cases hlaid : ranges.mapM layOut with
  | ok choices =>
    rw [hlaid] at hok
    have hall := hok.1 ⟨choices, rfl⟩
    constructor
    · rintro ⟨⟩
    · rintro ⟨-, range, hrange, hsize⟩
      exact absurd (hall range hrange) (Nat.not_lt.2 hsize)
  | error e =>
    obtain rfl := eq_of_mapM_layOut hlaid
    have hlarge : ∃ range ∈ ranges, countLimit ≤ range.size := by
      by_contra hnone
      push Not at hnone
      obtain ⟨choices, hchoices⟩ := hok.2 hnone
      rw [hlaid] at hchoices
      cases hchoices
    constructor
    · intro h
      cases h
      exact ⟨rfl, hlarge⟩
    · rintro ⟨rfl, -⟩
      rfl

/-- A definition is endless if no limit to the depth of inlining is enough. -/
theorem define_eq_endless_iff {d : Definition} {t : Target} :
    define s d t = .error (.stuck .endless) ↔ ∀ n, (defineAt s n d t).Exceeded := by
  rw [define_eq]
  exact ⟨exceeded_of_card, fun h => h _⟩

theorem stuck_of_define {d : Definition} {t : Target} (h : define s d t = .error (.stuck i)) :
    i = .endless ∨ i = .missingSlot := by
  rw [define_eq, defineAt_eq] at h
  rcases stuck_defineWith (fun _ _ _ => stuck_inlineAt _) h with rfl | ⟨rfl, -, -⟩
  · exact .inl rfl
  · exact .inr rfl

/-- Without a definition, a statement gets stuck only at a range. -/
theorem refuses_stuck_iff {c : Statement} : s.Refuses r c (.stuck i) ↔ ∃ name ranges t,
    c = .instances name ranges ∧ s.template? name = some t ∧
      ranges.length = t.slotNames.length ∧ ranges.mapM layOut = .error (.stuck i) := by
  constructor
  · intro h
    cases h with
    | layOut ht hcount h => exact ⟨_, _, _, rfl, ht, hcount, h⟩
  · rintro ⟨name, ranges, t, rfl, ht, hcount, h⟩
    exact .layOut ht hcount h

/-! ## Modules and documents -/

theorem mapError_eq_stuck_iff {α : Type} {x : Result α} {g : Failure → Failure}
    (hg : ∀ e, g e = .stuck i ↔ e = .stuck i) :
    x.mapError g = .error (.stuck i) ↔ x = .error (.stuck i) := by
  simp only [mapError_eq_error_iff, hg, exists_eq_right]

/-- **A module gets stuck at the first statement that fails**, at a range or at a definition. -/
theorem moduleText_eq_stuck_iff : moduleText r m = .error (.stuck i) ↔ ∃ before c after s,
    m.body = before ++ c :: after ∧ scopeBehind r (Scope.start m) before = .ok s ∧
      (s.Refuses r c (.stuck i) ∨ ∃ d t, s.Reaches c d t ∧ define s d t = .error (.stuck i)) := by
  have hwithin : ∀ e : Failure, e.within m.name = .stuck i ↔ e = .stuck i := by
    intro e
    cases e <;> simp [Failure.within]
  unfold moduleText blocks within
  rw [bind_pure_eq_error_iff, mapError_eq_stuck_iff hwithin]
  simp only [statements_eq_error_iff, statement_eq_error_iff]

variable (r) in
/-- The expansion of a document gets to a module: nothing in front of it fails. -/
def ReachesModule (d : Document) (m : Module) : Prop :=
  ∃ before after, d.sections = before ++ .code m :: after ∧
    ∀ c ∈ before, ∃ x, sectionText r d.source c = .ok x

theorem ReachesModule.code_mem {d : Document} (h : ReachesModule r d m) : .code m ∈ d.sections := by
  obtain ⟨before, after, hsections, -⟩ := h
  rw [hsections]
  exact List.mem_append_right _ List.mem_cons_self

theorem sectionTexts_eq_mapM (source : Source) (cs : List Section) :
    sectionTexts r source cs = cs.mapM (sectionText r source) := by
  induction cs with
  | nil => rfl
  | cons c cs ih => rw [sectionTexts, List.mapM_cons, ih]

/-- **A document gets stuck at the first module that fails.** -/
theorem document_eq_stuck_iff {d : Document} (hi : ∀ label, i ≠ .notSection label) :
    document r d = .error (.stuck i) ↔
      ∃ m, ReachesModule r d m ∧ moduleText r m = .error (.stuck i) := by
  have htexts : document r d = .error (.stuck i) ↔
      d.sections.mapM (sectionText r d.source) = .error (.stuck i) := by
    unfold document
    rw [sectionTexts_eq_mapM, bind_pure_eq_error_iff]
  have hsection : ∀ c, sectionText r d.source c = .error (.stuck i) ↔
      ∃ m, c = .code m ∧ moduleText r m = .error (.stuck i) := by
    intro c
    cases c with
    | raw text => simp [sectionText]
    | unknown label => simpa [sectionText] using (hi label).symm
    | code m =>
      have hlocate : ∀ e : Failure, e.locate m.span d.source = .stuck i ↔ e = .stuck i := by
        intro e
        cases e <;> simp [Failure.locate]
      rw [sectionText, mapError_eq_stuck_iff hlocate]
      simp
  rw [htexts, mapM_eq_error_iff]
  constructor
  · rintro ⟨before, c, after, hsections, hbefore, hc⟩
    obtain ⟨m, rfl, hm⟩ := (hsection c).1 hc
    exact ⟨m, ⟨before, after, hsections, hbefore⟩, hm⟩
  · rintro ⟨m, ⟨before, after, hsections, hbefore⟩, hm⟩
    exact ⟨before, .code m, after, hsections, hbefore, (hsection _).2 ⟨m, rfl, hm⟩⟩

variable (r) in
/-- The expansion of a document gets to a definition that inlines without end. -/
def MeetsEndless (d : Document) : Prop :=
  ∃ m s e t, ReachesModule r d m ∧ Reaches r m s e t ∧ ∀ n, (defineAt s n e t).Exceeded

variable (r) in
/-- The expansion of a document gets to instances of a template over a range that has too many
members to be counted. -/
def MeetsUncountable (d : Document) : Prop :=
  ∃ m before name ranges after s t, ReachesModule r d m ∧
    m.body = before ++ .instances name ranges :: after ∧
    scopeBehind r (Scope.start m) before = .ok s ∧ s.template? name = some t ∧
    ranges.length = t.slotNames.length ∧ ∃ range ∈ ranges, countLimit ≤ range.size

theorem document_eq_endless_iff {d : Document} :
    document r d = .error (.stuck .endless) ↔ MeetsEndless r d := by
  rw [document_eq_stuck_iff (fun _ => (by simp))]
  constructor
  · rintro ⟨m, hm, h⟩
    obtain ⟨before, c, after, s, hbody, hscope, h⟩ := moduleText_eq_stuck_iff.1 h
    rcases h with h | ⟨e, t, hreach, h⟩
    · obtain ⟨_, ranges, _, _, _, _, h⟩ := refuses_stuck_iff.1 h
      obtain ⟨⟨⟩, -⟩ := mapM_layOut_eq_stuck_iff.1 h
    · exact ⟨m, s, e, t, hm, ⟨before, c, after, hbody, hscope, hreach⟩, define_eq_endless_iff.1 h⟩
  · rintro ⟨m, s, e, t, hm, ⟨before, c, after, hbody, hscope, hreach⟩, h⟩
    exact ⟨m, hm, moduleText_eq_stuck_iff.2
      ⟨before, c, after, s, hbody, hscope, .inr ⟨e, t, hreach, define_eq_endless_iff.2 h⟩⟩⟩

theorem document_eq_uncountable_iff {d : Document} :
    document r d = .error (.stuck .uncountableRange) ↔ MeetsUncountable r d := by
  rw [document_eq_stuck_iff (fun _ => (by simp))]
  constructor
  · rintro ⟨m, hm, h⟩
    obtain ⟨before, c, after, s, hbody, hscope, h⟩ := moduleText_eq_stuck_iff.1 h
    rcases h with h | ⟨e, t, -, h⟩
    · obtain ⟨name, ranges, t, rfl, ht, hcount, h⟩ := refuses_stuck_iff.1 h
      exact ⟨m, before, name, ranges, after, s, t, hm, hbody, hscope, ht, hcount,
        (mapM_layOut_eq_stuck_iff.1 h).2⟩
    · rcases stuck_of_define h with h | h <;> cases h
  · rintro ⟨m, before, name, ranges, after, s, t, hm, hbody, hscope, ht, hcount, h⟩
    refine ⟨m, hm, moduleText_eq_stuck_iff.2 ⟨before, _, after, s, hbody, hscope, .inl ?_⟩⟩
    exact refuses_stuck_iff.2
      ⟨name, ranges, t, rfl, ht, hcount, mapM_layOut_eq_stuck_iff.2 ⟨rfl, h⟩⟩

end MacroModules.Expansion
