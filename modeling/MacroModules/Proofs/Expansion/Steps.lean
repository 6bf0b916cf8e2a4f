import MacroModules.Expansion.Module
import MacroModules.Proofs.Expansion.Product

/-!
# One statement after another

The expansion of a module goes through its statements, and those that make lines get to one or more
definitions. What it gets to, and in which scope, is said here without saying what becomes of it, so
that it can be used for expansions that succeed and for those that fail.

* `statement_scope`, `scopeBehind_eq`: what statements add to the scope.
* `Scope.Reaches`, `Scope.Refuses`: a statement gets to a definition, or fails before it.
* `statement_eq_error_iff`, `statements_eq_error_iff`: **a run of statements fails at the first that
  does**.
* `Reaches`, `blocks_lines`, `define_of_blocks`: the lines of a module are those of the definitions
  that its expansion gets to.
-/

namespace MacroModules

/-- The template that a statement declares. -/
def Statement.template? : Statement → Option Template
  | template t => some t
  | _ => none

theorem Statement.template?_eq_some_iff {c : Statement} {t : Template} :
    c.template? = some t ↔ c = .template t := by
  cases c <;> simp [template?]

namespace Expansion

/-- The lines of a block. -/
def Block.lines : Block → List Define
  | defines ds => ds
  | comment _ => []

variable {r : Registry} {m : Module} {s s' : Scope} {c : Statement} {cs : List Statement}

/-! ## Scopes -/

variable (r) in
/-- The scope behind some statements, if they can be expanded. -/
def scopeBehind (s : Scope) : List Statement → Result Scope
  | [] => .ok s
  | c :: cs => do
    let (_, s) ← statement r s c
    scopeBehind s cs

/-- **One statement** adds a template or a registered module to the scope, or nothing. -/
theorem statement_scope {y : Block × Scope} (h : statement r s c = .ok y) : ∃ ks : List Module,
    (∀ k ∈ ks, r.find? k.name = some k) ∧
      y.2 = ⟨s.owner, s.imports ++ ks, s.templates ++ c.template?.toList⟩ := by
  have hsame : s = ⟨s.owner, s.imports ++ [], s.templates ++ []⟩ := by
    simp only [List.append_nil]
  cases c with
  | object d | exported d | instances name ranges =>
    obtain ⟨ds, -, h⟩ := bind_eq_ok_iff.1 h
    cases h
    exact ⟨[], by simp, hsame⟩
  | comment | unknown =>
    cases h
    exact ⟨[], by simp, hsame⟩
  | template t =>
    cases h
    refine ⟨[], by simp, ?_⟩
    rw [List.append_nil]
    rfl
  | imports name =>
    obtain ⟨k, hk, h⟩ := bind_eq_ok_iff.1 h
    cases h
    unfold findModule at hk
    split at hk
    · next hfound =>
      cases hk
      have hname : k.name = name := by simpa using List.find?_some hfound
      refine ⟨[k], ?_, ?_⟩
      · rw [List.forall_mem_singleton, hname, hfound]
      · simp [Scope.addImport, Statement.template?]
    · cases hk

/-- **A run of statements** adds the templates it declares and some registered modules. -/
theorem scopeBehind_eq (h : scopeBehind r s cs = .ok s') : ∃ ks : List Module,
    (∀ k ∈ ks, r.find? k.name = some k) ∧
      s' = ⟨s.owner, s.imports ++ ks, s.templates ++ cs.filterMap Statement.template?⟩ := by
  induction cs generalizing s with
  | nil =>
    cases h
    refine ⟨[], by simp, ?_⟩
    simp only [List.filterMap_nil, List.append_nil]
  | cons c cs ih =>
    rw [scopeBehind] at h
    obtain ⟨y, hy, h⟩ := bind_eq_ok_iff.1 h
    obtain ⟨ks, hks, hscope⟩ := statement_scope hy
    obtain ⟨ls, hls, rfl⟩ := ih h
    refine ⟨ks ++ ls, List.forall_mem_append.2 ⟨hks, hls⟩, ?_⟩
    rw [hscope]
    cases ht : c.template? <;> simp [ht]

/-- What a module imports has been registered, and its templates stand in front. -/
theorem scope_of_start {before : List Statement}
    (h : scopeBehind r (Scope.start m) before = .ok s) :
    s.owner = m ∧ (∀ k ∈ s.imports, r.find? k.name = some k) ∧
      s.templates = before.filterMap Statement.template? := by
  obtain ⟨ks, hks, rfl⟩ := scopeBehind_eq h
  exact ⟨rfl, by simpa [Scope.start] using hks, by simp [Scope.start]⟩

/-! ## Statements -/

/-- Expanding a statement gets to a definition, for this target: nothing in front of it fails. -/
inductive Scope.Reaches (s : Scope) : Statement → Definition → Target → Prop
  | object (d : Definition) : Reaches s (.object d) d ⟨s.owner.name, true, none⟩
  | exported (d : Definition) : Reaches s (.exported d) d ⟨s.owner.name, false, none⟩
  | instances {name : String} {t : Template} {ranges : List Interval}
      {choices before after : List (List Int)} {values : List Int} :
      s.template? name = some t → ranges.length = t.slotNames.length →
      ranges.mapM layOut = .ok choices → rangeTuples ranges = before ++ values :: after →
      (∀ ws ∈ before, ∃ ds, define s t.definition (t.target s.owner.name ws) = .ok ds) →
      Reaches s (.instances name ranges) t.definition (t.target s.owner.name values)

/-- A statement fails before it gets to a definition. -/
inductive Scope.Refuses (r : Registry) (s : Scope) : Statement → Failure → Prop
  | unknownModule {name : String} : r.find? name = none →
      Refuses r s (.imports name) (.ofCause (.unknownModule name))
  | templateNotFound {name : String} {ranges : List Interval} : s.template? name = none →
      Refuses r s (.instances name ranges) (.ofCause (.templateNotFound name))
  | rangeCount {name : String} {t : Template} {ranges : List Interval} :
      s.template? name = some t → ranges.length ≠ t.slotNames.length →
      Refuses r s (.instances name ranges)
        (.ofCause (.rangeCount ranges.length t.slotNames.length))
  | layOut {name : String} {t : Template} {ranges : List Interval} {e : Failure} :
      s.template? name = some t → ranges.length = t.slotNames.length →
      ranges.mapM Expansion.layOut = .error e → Refuses r s (.instances name ranges) e

/-- Each line of a statement belongs to a definition that it gets to. -/
theorem statement_lines {y : Block × Scope} (h : statement r s c = .ok y) :
    ∀ x ∈ y.1.lines, ∃ d t ds, s.Reaches c d t ∧ define s d t = .ok ds ∧ x ∈ ds := by
  intro x hx
  cases c with
  | object d | exported d =>
    obtain ⟨ds, hds, h⟩ := bind_eq_ok_iff.1 h
    cases h
    exact ⟨d, _, ds, by constructor, hds, hx⟩
  | instances name ranges =>
    obtain ⟨ds, hds, h⟩ := bind_eq_ok_iff.1 h
    cases h
    obtain ⟨t, choices, parts, ht, hcount, hchoices, hparts, rfl⟩ := instances_eq_ok_iff.1 hds
    obtain ⟨part, hpart, hx⟩ := List.mem_flatten.1 hx
    obtain ⟨values, hvalues, hdefine⟩ := exists_of_mem_left hparts.flip hpart
    obtain ⟨before, after, hsplit⟩ := List.append_of_mem hvalues
    refine ⟨_, _, part, .instances ht hcount hchoices hsplit fun ws hws => ?_, hdefine, hx⟩
    obtain ⟨ds, -, hds⟩ := exists_of_mem_left hparts (hsplit ▸ List.mem_append_left _ hws)
    exact ⟨ds, hds⟩
  | template | imports | comment | unknown =>
    have hnone : y.1.lines = [] := by
      first
        | cases h; rfl
        | obtain ⟨k, -, h⟩ := bind_eq_ok_iff.1 h; cases h; rfl
    rw [hnone] at hx
    cases hx

/-- A definition that a statement gets to has its lines among those of the statement. -/
theorem define_of_statement {y : Block × Scope} (h : statement r s c = .ok y) {d : Definition}
    {t : Target} (hreach : s.Reaches c d t) :
    ∃ ds, define s d t = .ok ds ∧ ∀ x ∈ ds, x ∈ y.1.lines := by
  cases hreach with
  | object | exported =>
    obtain ⟨ds, hds, h⟩ := bind_eq_ok_iff.1 h
    cases h
    exact ⟨ds, hds, fun x hx => hx⟩
  | @instances name t ranges _ before after values ht _ _ hsplit _ =>
    obtain ⟨ds, hds, h⟩ := bind_eq_ok_iff.1 h
    cases h
    obtain ⟨t', _, parts, ht', _, _, hparts, rfl⟩ := instances_eq_ok_iff.1 hds
    obtain rfl : t = t' := Option.some.inj (ht.symm.trans ht')
    have hmem : values ∈ rangeTuples ranges := by
      rw [hsplit]
      exact List.mem_append_right _ List.mem_cons_self
    obtain ⟨part, hpart, hdefine⟩ := exists_of_mem_left hparts hmem
    exact ⟨part, hdefine, fun x hx => List.mem_flatten.2 ⟨part, hpart, hx⟩⟩

theorem instances_eq_error_iff {name : String} {ranges : List Interval} {e : Failure} :
    instances s name ranges = .error e ↔ s.Refuses r (.instances name ranges) e ∨
      ∃ d t, s.Reaches (.instances name ranges) d t ∧ define s d t = .error e := by
  cases ht : s.template? name with
  | none =>
    have hinstances : instances s name ranges = .error (.ofCause (.templateNotFound name)) := by
      unfold instances
      rw [ht]
    rw [hinstances]
    constructor
    · rintro ⟨⟩
      exact .inl (.templateNotFound ht)
    · rintro (h | ⟨_, _, h, -⟩)
      · cases h with
        | templateNotFound => rfl
        | rangeCount ht' | layOut ht' => rw [ht] at ht'; cases ht'
      · cases h with
        | instances ht' => rw [ht] at ht'; cases ht'
  | some t =>
    by_cases hcount : ranges.length = t.slotNames.length
    · rw [instances_eq ht hcount]
      constructor
      · intro h
        rcases bind_eq_error_iff.1 h with h | ⟨choices, hchoices, h⟩
        · exact .inl (.layOut ht hcount h)
        rcases bind_eq_error_iff.1 h with h | ⟨parts, -, h⟩
        · obtain ⟨before, values, after, hsplit, hbefore, hvalues⟩ := mapM_eq_error_iff.1 h
          exact .inr ⟨_, _, .instances ht hcount hchoices hsplit hbefore, hvalues⟩
        · cases h
      · rintro (h | ⟨_, _, h, hdefine⟩)
        · cases h with
          | templateNotFound ht' => rw [ht] at ht'; cases ht'
          | rangeCount ht' hne =>
            obtain rfl := Option.some.inj (ht.symm.trans ht')
            exact absurd hcount hne
          | layOut _ _ h => exact bind_eq_error_iff.2 (.inl h)
        · cases h with
          | instances ht' _ hchoices hsplit hbefore =>
            obtain rfl := Option.some.inj (ht.symm.trans ht')
            have hfails := mapM_eq_error_iff.2 ⟨_, _, _, hsplit, hbefore, hdefine⟩
            exact bind_eq_error_iff.2 (.inr ⟨_, hchoices, bind_eq_error_iff.2 (.inl hfails)⟩)
    · have hinstances : instances s name ranges =
          .error (.ofCause (.rangeCount ranges.length t.slotNames.length)) := by
        unfold instances
        rw [ht]
        exact if_neg hcount
      rw [hinstances]
      constructor
      · rintro ⟨⟩
        exact .inl (.rangeCount ht hcount)
      · rintro (h | ⟨_, _, h, -⟩)
        · cases h with
          | templateNotFound ht' => rw [ht] at ht'; cases ht'
          | rangeCount ht' =>
            obtain rfl := Option.some.inj (ht.symm.trans ht')
            rfl
          | layOut ht' heq =>
            obtain rfl := Option.some.inj (ht.symm.trans ht')
            exact absurd heq hcount
        · cases h with
          | instances ht' heq =>
            obtain rfl := Option.some.inj (ht.symm.trans ht')
            exact absurd heq hcount

/-- **A statement fails** before it gets to a definition, or at the first definition that does. -/
theorem statement_eq_error_iff {e : Failure} : statement r s c = .error e ↔
    s.Refuses r c e ∨ ∃ d t, s.Reaches c d t ∧ define s d t = .error e := by
  cases c with
  | object d | exported d =>
    refine bind_pure_eq_error_iff.trans ⟨fun h => .inr ⟨_, _, by constructor, h⟩, ?_⟩
    rintro (h | ⟨_, _, h, hdefine⟩)
    · cases h
    · cases h
      exact hdefine
  | instances name ranges => exact bind_pure_eq_error_iff.trans instances_eq_error_iff
  | imports name =>
    rw [statement, findModule]
    cases hm : r.find? name with
    | none =>
      refine ⟨fun h => ?_, ?_⟩
      · cases h
        exact .inl (.unknownModule hm)
      · rintro (h | ⟨_, _, h, -⟩)
        · cases h
          rfl
        · cases h
    | some k =>
      refine ⟨fun h => (by cases h), ?_⟩
      rintro (h | ⟨_, _, h, -⟩)
      · cases h with
        | unknownModule hnone => rw [hm] at hnone; cases hnone
      · cases h
  | template | comment | unknown =>
    refine ⟨fun h => (by cases h), ?_⟩
    rintro (h | ⟨_, _, h, -⟩) <;> cases h

/-! ## Runs of statements -/

/-- Each statement of a run has its block. -/
theorem exists_block_of_statements {before after : List Statement} {bs : List Block}
    (h : statements r s (before ++ c :: after) = .ok bs) : ∃ s' y,
      scopeBehind r s before = .ok s' ∧ statement r s' c = .ok y ∧ y.1 ∈ bs := by
  induction before generalizing s bs with
  | nil =>
    rw [List.nil_append, statements] at h
    obtain ⟨y, hy, h⟩ := bind_eq_ok_iff.1 h
    obtain ⟨rest, -, h⟩ := bind_eq_ok_iff.1 h
    cases h
    exact ⟨s, y, rfl, hy, List.mem_cons_self⟩
  | cons a before ih =>
    rw [List.cons_append, statements] at h
    obtain ⟨x, hx, h⟩ := bind_eq_ok_iff.1 h
    obtain ⟨rest, hrest, h⟩ := bind_eq_ok_iff.1 h
    cases h
    obtain ⟨s', y, hscope, hy, hmem⟩ := ih hrest
    exact ⟨s', y, bind_eq_ok_iff.2 ⟨x, hx, hscope⟩, hy, List.mem_cons_of_mem _ hmem⟩

/-- Each block of a run has its statement. -/
theorem exists_statement_of_block {bs : List Block} (h : statements r s cs = .ok bs) {b : Block}
    (hb : b ∈ bs) : ∃ before c after s' s'', cs = before ++ c :: after ∧
      scopeBehind r s before = .ok s' ∧ statement r s' c = .ok (b, s'') := by
  induction cs generalizing s bs with
  | nil =>
    cases h
    cases hb
  | cons c cs ih =>
    rw [statements] at h
    obtain ⟨y, hy, h⟩ := bind_eq_ok_iff.1 h
    obtain ⟨rest, hrest, h⟩ := bind_eq_ok_iff.1 h
    cases h
    rcases List.mem_cons.1 hb with rfl | hb
    · exact ⟨[], c, cs, s, y.2, rfl, rfl, hy⟩
    · obtain ⟨before, c', after, s', s'', rfl, hscope, hc'⟩ := ih hrest hb
      exact ⟨c :: before, c', after, s', s'', rfl, bind_eq_ok_iff.2 ⟨y, hy, hscope⟩, hc'⟩

/-- **A run of statements fails at the first that does.** -/
theorem statements_eq_error_iff {e : Failure} : statements r s cs = .error e ↔
    ∃ before c after s', cs = before ++ c :: after ∧ scopeBehind r s before = .ok s' ∧
      statement r s' c = .error e := by
  constructor
  · intro h
    induction cs generalizing s with
    | nil => cases h
    | cons c cs ih =>
      rw [statements] at h
      rcases bind_eq_error_iff.1 h with h | ⟨y, hy, h⟩
      · exact ⟨[], c, cs, s, rfl, rfl, h⟩
      rcases bind_eq_error_iff.1 h with h | ⟨rest, -, h⟩
      · obtain ⟨before, c', after, s', rfl, hscope, hc'⟩ := ih h
        exact ⟨c :: before, c', after, s', rfl, bind_eq_ok_iff.2 ⟨y, hy, hscope⟩, hc'⟩
      · cases h
  · rintro ⟨before, c, after, s', rfl, hscope, h⟩
    induction before generalizing s with
    | nil =>
      cases hscope
      exact bind_eq_error_iff.2 (.inl h)
    | cons a before ih =>
      rw [scopeBehind] at hscope
      obtain ⟨y, hy, hscope⟩ := bind_eq_ok_iff.1 hscope
      rw [List.cons_append, statements]
      exact bind_eq_error_iff.2 (.inr ⟨y, hy, bind_eq_error_iff.2 (.inl (ih hscope))⟩)

/-! ## Modules -/

/-- The expansion of a module gets to a definition, for this target and in this scope: nothing in
front of it fails. What it inlines is not counted. -/
def Reaches (r : Registry) (m : Module) (s : Scope) (d : Definition) (t : Target) : Prop :=
  ∃ before c after, m.body = before ++ c :: after ∧
    scopeBehind r (Scope.start m) before = .ok s ∧ s.Reaches c d t

/-- Each line of a module belongs to a definition that its expansion gets to. -/
theorem blocks_lines {bs : List Block} (h : blocks r m = .ok bs) :
    ∀ x ∈ bs.flatMap Block.lines,
      ∃ s d t ds, Reaches r m s d t ∧ define s d t = .ok ds ∧ x ∈ ds := by
  intro x hx
  obtain ⟨b, hb, hx⟩ := List.mem_flatMap.1 hx
  obtain ⟨before, c, after, s, s', hbody, hscope, hc⟩ :=
    exists_statement_of_block (within_eq_ok_iff.1 h) hb
  obtain ⟨d, t, ds, hreach, hds, hx⟩ := statement_lines hc x hx
  exact ⟨s, d, t, ds, ⟨before, c, after, hbody, hscope, hreach⟩, hds, hx⟩

/-- A definition that the expansion of a module gets to has its lines in the output. -/
theorem define_of_blocks {bs : List Block} (h : blocks r m = .ok bs) {d : Definition} {t : Target}
    (hreach : Reaches r m s d t) :
    ∃ ds, define s d t = .ok ds ∧ ∀ x ∈ ds, x ∈ bs.flatMap Block.lines := by
  obtain ⟨before, c, after, hbody, hscope, hreach⟩ := hreach
  unfold blocks at h
  rw [within_eq_ok_iff, hbody] at h
  obtain ⟨s', y, hscope', hy, hmem⟩ := exists_block_of_statements h
  obtain rfl : s = s' := Except.ok.inj (hscope.symm.trans hscope')
  obtain ⟨ds, hds, hlines⟩ := define_of_statement hy hreach
  exact ⟨ds, hds, fun x hx => List.mem_flatMap.2 ⟨y.1, hmem, hlines x hx⟩⟩

end Expansion

end MacroModules
