import MacroModules.Proofs.Grammar.Reading

/-!
# Where reading stops

Reading stops at the first place where something is demanded that the tokens do not meet. Which
places there are, and how reading gets to them, is said here once. All that is known about faults
follows from it, since a fault tells of the demand and of the tokens at that place, and of nothing
else.

* `Brackets`: the three kinds of lists in brackets.
* `Demand`, `Demand.Fails`: what is demanded at a place, and the failure if it is not met.
* `HeaderMeets`, `CommandMeets`, `StatementMeets`, `BodyMeets`, `ModuleMeets`, `Meets`: reading gets
  to a demand, because everything in front of it has been read.
* `sections_eq_error_iff`: **reading fails with the failure of a demand that it gets to**.
* `Demand.Stands`, `Meets.stands`: where in a text such a demand stands.
-/

namespace MacroModules.Grammar

open Reader

/-- The lists in brackets: the parameters and arguments of a definition and the ranges of an
`@impl`. -/
inductive Brackets where
  | params
  | args
  | ranges
  deriving DecidableEq

namespace Brackets

def opener : Brackets → Kind
  | params | ranges => .angleOpen
  | args => .parenOpen

def closer : Brackets → Kind
  | params | ranges => .angleClose
  | args => .parenClose

/-- The forms that an entry may take. -/
def shapes : Brackets → Shapes
  | params => ⟨[.name], []⟩
  | args => ⟨[.name], [[.ellipsis]]⟩
  | ranges => ⟨[.number, .range, .number], []⟩

theorem separable (b : Brackets) : Separable b.closer b.shapes.all := by
  cases b with
  | params => exact separable_params
  | args => exact separable_args
  | ranges => exact separable_ranges

end Brackets

/-! ## Demands -/

/-- What is demanded of the tokens that are left at some place. -/
inductive Demand where
  /-- The next token is of one of these kinds. -/
  | token (kinds : List Kind)
  /-- A list follows, behind its opening bracket. -/
  | list (b : Brackets) (opener : Token)
  /-- The bounds in a list of ranges, which has just been read, are not too long. -/
  | bounds (entries : List (List String))
  /-- The definition of this name, whose header has just been read, is no template. -/
  | object (name : Token)
  /-- There is a command of this name. -/
  | known (command : Token)

variable (stop : Position)

/-- The demand is not met by these tokens, and reading stops with this failure. -/
def Demand.Fails : Demand → List Token → ReadFailure → Prop
  | token kinds, us, e => expect stop kinds us = .error e
  | list b _, us, e => Reader.list stop b.closer b.shapes us = .error e
  | bounds entries, _, e => intervals entries = .error e
  | object name, us, e => e = .fault (.wrongArgument "@export" "template" ["object"]
      ⟨name.span.start, lineEnd stop us⟩)
  | known command, _, e => e = .fault (.unknownCommand command)

/-! ## How reading gets to a demand -/

/-- Reading a header gets to a list. -/
inductive HeaderMeets : List Token → Brackets → Token → List Token → Prop
  | params {o : Token} {us : List Token} : o.kind = .angleOpen → HeaderMeets (o :: us) .params o us
  | args {ts us : List Token} {o : Token} {params : Option (List String)} :
      optionalList stop .angleClose ⟨[.name], []⟩ .angleOpen ts = .ok (params, o :: us) →
      o.kind = .parenOpen → HeaderMeets ts .args o us

/-- Reading what follows the name of a command gets to a demand. -/
inductive CommandMeets (word : Token) : List Token → Demand → List Token → Prop
  | imports {ts : List Token} : word.text = "use" →
      CommandMeets word ts (.token [.identifier, .name]) (skip ts)
  | exportedName {ts : List Token} : word.text = "export" →
      CommandMeets word ts (.token [.name]) (skip ts)
  | exportedHeader {ts us vs : List Token} {name o : Token} {b : Brackets} :
      word.text = "export" → expect stop [.name] (skip ts) = .ok (name, us) →
      HeaderMeets stop us b o vs → CommandMeets word ts (.list b o) vs
  | exportedObject {ts us vs : List Token} {name : Token} {h : Header} :
      word.text = "export" → expect stop [.name] (skip ts) = .ok (name, us) →
      header stop us = .ok (h, vs) → h.params.isSome → CommandMeets word ts (.object name) vs
  | instancesName {ts : List Token} : word.text = "impl" →
      CommandMeets word ts (.token [.name]) (skip ts)
  | instancesOpener {ts us : List Token} {name : Token} :
      word.text = "impl" → expect stop [.name] (skip ts) = .ok (name, us) →
      CommandMeets word ts (.token [.angleOpen]) us
  | instancesList {ts us vs : List Token} {name o : Token} :
      word.text = "impl" → expect stop [.name] (skip ts) = .ok (name, us) →
      expect stop [.angleOpen] us = .ok (o, vs) → CommandMeets word ts (.list .ranges o) vs
  | instancesBounds {ts us vs ws : List Token} {name o : Token} {es : List (List String)} :
      word.text = "impl" → expect stop [.name] (skip ts) = .ok (name, us) →
      expect stop [.angleOpen] us = .ok (o, vs) →
      Reader.list stop .angleClose ⟨[.number, .range, .number], []⟩ vs = .ok (es, ws) →
      CommandMeets word ts (.bounds es) ws
  | instancesEnd {ts us vs ws : List Token} {name o : Token} {es : List (List String)}
      {rs : List Interval} :
      word.text = "impl" → expect stop [.name] (skip ts) = .ok (name, us) →
      expect stop [.angleOpen] us = .ok (o, vs) →
      Reader.list stop .angleClose ⟨[.number, .range, .number], []⟩ vs = .ok (es, ws) →
      intervals es = .ok rs → CommandMeets word ts (.token [.newline]) (skip ws)
  | unknown {ts : List Token} : word.text ≠ "use" → word.text ≠ "export" → word.text ≠ "impl" →
      CommandMeets word ts (.known word) ts

/-- Reading the statement that a name or `@` begins gets to a demand. -/
inductive StatementMeets (t : Token) : List Token → Demand → List Token → Prop
  | header {ts us : List Token} {b : Brackets} {o : Token} :
      t.kind = .name → HeaderMeets stop ts b o us → StatementMeets t ts (.list b o) us
  | word {ts : List Token} : t.kind = .atSign → StatementMeets t ts (.token [.name]) ts
  | command {ts us : List Token} {word : Token} {d : Demand} :
      t.kind = .atSign → word.kind = .name → CommandMeets stop word ts d us →
      StatementMeets t (word :: ts) d us

/-- Reading the body of a module gets to a demand. -/
inductive BodyMeets : List Token → Demand → List Token → Prop
  | first {ts : List Token} :
      (∀ t, ts.head? = some t → t.kind ∉ [Kind.blank, .newline, .comment]) →
      BodyMeets ts (.token [.name, .atSign, .braceClose]) ts
  | space {t : Token} {ts us : List Token} {d : Demand} :
      t.kind ∈ [Kind.blank, .newline, .comment] → BodyMeets ts d us → BodyMeets (t :: ts) d us
  | inside {t : Token} {ts us : List Token} {d : Demand} :
      t.kind = .name ∨ t.kind = .atSign → StatementMeets stop t ts d us → BodyMeets (t :: ts) d us
  | behind {t : Token} {ts us vs : List Token} {s : Statement} {d : Demand} :
      t.kind = .name ∨ t.kind = .atSign → statement stop t ts = .ok (s, vs) →
      BodyMeets vs d us → BodyMeets (t :: ts) d us

/-- Reading a module behind its `@` gets to a demand. -/
inductive ModuleMeets : List Token → Demand → List Token → Prop
  | name {ts : List Token} : ModuleMeets ts (.token [.identifier, .name]) (skip ts)
  | opener {ts us : List Token} {name : Token} : moduleName stop ts = .ok (name, us) →
      ModuleMeets ts (.token [.braceOpen]) (skip us)
  | body {ts us vs ws : List Token} {name o : Token} {d : Demand} :
      moduleName stop ts = .ok (name, us) → expect stop [.braceOpen] (skip us) = .ok (o, vs) →
      BodyMeets stop vs d ws → ModuleMeets ts d ws

/-- Reading a document gets to a demand, with these tokens left: everything in front has been
read. -/
inductive Meets : List Token → Demand → List Token → Prop
  | inside {t : Token} {ts us : List Token} {d : Demand} :
      t.kind = .atSign → ModuleMeets stop ts d us → Meets (t :: ts) d us
  | behind {t : Token} {ts us vs : List Token} {m : Module} {d : Demand} :
      t.kind = .atSign → moduleAt stop t ts = .ok (m, vs) → Meets vs d us → Meets (t :: ts) d us
  | raw {t : Token} {ts us : List Token} {d : Demand} :
      t.kind ≠ .atSign → Meets (ts.dropWhile (·.kind != .atSign)) d us → Meets (t :: ts) d us

variable {stop} {ts : List Token} {e : ReadFailure}

/-! ## Reading fails where a demand does -/

theorem expect_eq_error_iff {kinds : List Kind} : expect stop kinds ts = .error e ↔
    (∀ t, ts.head? = some t → t.kind ∉ kinds) ∧ e = refuse stop ts kinds := by
  cases ts with
  | nil =>
    constructor
    · rintro ⟨⟩
      exact ⟨by simp, rfl⟩
    · rintro ⟨-, rfl⟩
      rfl
  | cons t ts =>
    rw [expect]
    split
    · next ht =>
      constructor
      · rintro ⟨⟩
      · rintro ⟨hhead, -⟩
        exact absurd ht (hhead t rfl)
    · next ht =>
      constructor
      · rintro ⟨⟩
        exact ⟨by rintro u ⟨⟩; exact ht, rfl⟩
      · rintro ⟨-, rfl⟩
        rfl

theorem optionalList_eq_error_iff {closer opener : Kind} {shapes : Shapes} :
    optionalList stop closer shapes opener ts = .error e ↔
      ∃ o us, ts = o :: us ∧ o.kind = opener ∧ list stop closer shapes us = .error e := by
  cases ts with
  | nil =>
    constructor
    · rintro ⟨⟩
    · rintro ⟨o, us, ⟨⟩, -⟩
  | cons t ts =>
    rw [optionalList]
    split
    · next ht =>
      rw [bind_pure_eq_error_iff]
      constructor
      · exact fun h => ⟨t, ts, rfl, ht, h⟩
      · rintro ⟨o, us, ⟨⟩, -, h⟩
        exact h
    · next ht =>
      constructor
      · rintro ⟨⟩
      · rintro ⟨o, us, ⟨⟩, ho, -⟩
        exact absurd ho ht

theorem header_eq_error_iff : header stop ts = .error e ↔
    ∃ b o us, HeaderMeets stop ts b o us ∧ list stop b.closer b.shapes us = .error e := by
  constructor
  · intro h
    rcases bind_eq_error_iff.1 h with h | ⟨⟨params, us⟩, hparams, h⟩
    · obtain ⟨o, us, rfl, ho, hlist⟩ := optionalList_eq_error_iff.1 h
      exact ⟨.params, o, us, .params ho, hlist⟩
    rcases bind_eq_error_iff.1 h with h | ⟨_, _, h⟩
    · obtain ⟨o, vs, rfl, ho, hlist⟩ := optionalList_eq_error_iff.1 h
      exact ⟨.args, o, vs, .args hparams ho, hlist⟩
    · cases h
  · rintro ⟨b, o, us, hmeets, hlist⟩
    cases hmeets with
    | params ho =>
      exact bind_eq_error_iff.2 (.inl (optionalList_eq_error_iff.2 ⟨o, us, rfl, ho, hlist⟩))
    | args hparams ho =>
      have hargs := optionalList_eq_error_iff.2 ⟨o, us, rfl, ho, hlist⟩
      exact bind_eq_error_iff.2 (.inr ⟨_, hparams, bind_eq_error_iff.2 (.inl hargs)⟩)

theorem imports_eq_error_iff : imports stop ts = .error e ↔
    expect stop [.identifier, .name] (skip ts) = .error e :=
  bind_pure_eq_error_iff

/-- An `@export` fails at its name or in its header, or because it names a template. -/
theorem exported_eq_error_iff : exported stop ts = .error e ↔
    expect stop [.name] (skip ts) = .error e ∨
    ∃ name us, expect stop [.name] (skip ts) = .ok (name, us) ∧
      (header stop us = .error e ∨ ∃ h vs, header stop us = .ok (h, vs) ∧ h.params.isSome ∧
        e = .fault (.wrongArgument "@export" "template" ["object"]
          ⟨name.span.start, lineEnd stop vs⟩)) := by
  constructor
  · intro h
    rcases bind_eq_error_iff.1 h with h | ⟨⟨name, us⟩, hname, h⟩
    · exact .inl h
    refine .inr ⟨name, us, hname, ?_⟩
    rcases bind_eq_error_iff.1 h with h | ⟨⟨hd, vs⟩, hhead, h⟩
    · exact .inl h
    refine .inr ⟨hd, vs, hhead, ?_⟩
    dsimp only at h
    split at h
    · next hp =>
      cases h
      exact ⟨hp, rfl⟩
    · cases h
  · rintro (h | ⟨name, us, hname, h | ⟨hd, vs, hhead, hp, rfl⟩⟩)
    · exact bind_eq_error_iff.2 (.inl h)
    · exact bind_eq_error_iff.2 (.inr ⟨_, hname, bind_eq_error_iff.2 (.inl h)⟩)
    · refine bind_eq_error_iff.2 (.inr ⟨_, hname, bind_eq_error_iff.2 (.inr ⟨_, hhead, ?_⟩)⟩)
      exact if_pos hp

/-- An `@impl` fails at its name or its opening bracket, in its list, for a bound, or because its
line goes on. -/
theorem instances_eq_error_iff : instances stop ts = .error e ↔
    expect stop [.name] (skip ts) = .error e ∨
    ∃ name us, expect stop [.name] (skip ts) = .ok (name, us) ∧
      (expect stop [.angleOpen] us = .error e ∨
      ∃ o vs, expect stop [.angleOpen] us = .ok (o, vs) ∧
        (list stop .angleClose ⟨[.number, .range, .number], []⟩ vs = .error e ∨
        ∃ es ws, list stop .angleClose ⟨[.number, .range, .number], []⟩ vs = .ok (es, ws) ∧
          (intervals es = .error e ∨
          ∃ rs, intervals es = .ok rs ∧ expect stop [.newline] (skip ws) = .error e))) := by
  constructor
  · intro h
    rcases bind_eq_error_iff.1 h with h | ⟨⟨name, us⟩, hname, h⟩
    · exact .inl h
    refine .inr ⟨name, us, hname, ?_⟩
    rcases bind_eq_error_iff.1 h with h | ⟨⟨o, vs⟩, ho, h⟩
    · exact .inl h
    refine .inr ⟨o, vs, ho, ?_⟩
    rcases bind_eq_error_iff.1 h with h | ⟨⟨es, ws⟩, hes, h⟩
    · exact .inl h
    refine .inr ⟨es, ws, hes, ?_⟩
    rcases bind_eq_error_iff.1 h with h | ⟨rs, hrs, h⟩
    · exact .inl h
    · exact .inr ⟨rs, hrs, bind_pure_eq_error_iff.1 h⟩
  · rintro (h | ⟨name, us, hname, h | ⟨o, vs, ho, h | ⟨es, ws, hes, h | ⟨rs, hrs, h⟩⟩⟩⟩)
    · exact bind_eq_error_iff.2 (.inl h)
    all_goals refine bind_eq_error_iff.2 (.inr ⟨_, hname, ?_⟩)
    · exact bind_eq_error_iff.2 (.inl h)
    all_goals refine bind_eq_error_iff.2 (.inr ⟨_, ho, ?_⟩)
    · exact bind_eq_error_iff.2 (.inl h)
    all_goals refine bind_eq_error_iff.2 (.inr ⟨_, hes, ?_⟩)
    · exact bind_eq_error_iff.2 (.inl h)
    · exact bind_eq_error_iff.2 (.inr ⟨_, hrs, bind_pure_eq_error_iff.2 h⟩)

theorem exists_commandMeets {sign word : Token} (hsign : sign.kind = .atSign)
    (hword : word.kind = .name) (h : statement stop sign (word :: ts) = .error e) :
    ∃ d us, CommandMeets stop word ts d us ∧ d.Fails stop us e := by
  rw [command_eq ⟨hsign, hword, rfl⟩] at h
  split at h
  · next hw => exact ⟨_, _, .imports hw, imports_eq_error_iff.1 h⟩
  split at h
  · next hw =>
    rcases exported_eq_error_iff.1 h with h | ⟨name, us, hname, h | ⟨hd, vs, hhead, hp, he⟩⟩
    · exact ⟨_, _, .exportedName hw, h⟩
    · obtain ⟨b, o, vs, hmeets, hlist⟩ := header_eq_error_iff.1 h
      exact ⟨_, _, .exportedHeader hw hname hmeets, hlist⟩
    · exact ⟨_, _, .exportedObject hw hname hhead hp, he⟩
  split at h
  · next hw =>
    rcases instances_eq_error_iff.1 h with
      h | ⟨name, us, hname, h | ⟨o, vs, ho, h | ⟨es, ws, hes, h | ⟨rs, hrs, h⟩⟩⟩⟩
    · exact ⟨_, _, .instancesName hw, h⟩
    · exact ⟨_, _, .instancesOpener hw hname, h⟩
    · exact ⟨_, _, .instancesList hw hname ho, h⟩
    · exact ⟨_, _, .instancesBounds hw hname ho hes, h⟩
    · exact ⟨_, _, .instancesEnd hw hname ho hes hrs, h⟩
  · next huse hexport himpl =>
    cases h
    exact ⟨_, _, .unknown huse hexport himpl, rfl⟩

theorem statement_eq_error_of_commandMeets {sign word : Token} {us : List Token} {d : Demand}
    (h : CommandMeets stop word ts d us) (hsign : sign.kind = .atSign) (hword : word.kind = .name)
    (he : d.Fails stop us e) : statement stop sign (word :: ts) = .error e := by
  have huse : word.text = "use" → imports stop ts = .error e →
      statement stop sign (word :: ts) = .error e := by
    intro hw h
    rw [command_eq ⟨hsign, hword, hw⟩]
    exact h
  have hexport : word.text = "export" → exported stop ts = .error e →
      statement stop sign (word :: ts) = .error e := by
    intro hw h
    rw [command_eq ⟨hsign, hword, hw⟩]
    exact h
  have himpl : word.text = "impl" → instances stop ts = .error e →
      statement stop sign (word :: ts) = .error e := by
    intro hw h
    rw [command_eq ⟨hsign, hword, hw⟩]
    exact h
  cases h with
  | imports hw => exact huse hw (imports_eq_error_iff.2 he)
  | exportedName hw => exact hexport hw (exported_eq_error_iff.2 (.inl he))
  | exportedHeader hw hname hmeets =>
    have hhead := header_eq_error_iff.2 ⟨_, _, _, hmeets, he⟩
    exact hexport hw (exported_eq_error_iff.2 (.inr ⟨_, _, hname, .inl hhead⟩))
  | exportedObject hw hname hhead hp =>
    exact hexport hw (exported_eq_error_iff.2 (.inr ⟨_, _, hname, .inr ⟨_, _, hhead, hp, he⟩⟩))
  | instancesName hw => exact himpl hw (instances_eq_error_iff.2 (.inl he))
  | instancesOpener hw hname =>
    exact himpl hw (instances_eq_error_iff.2 (.inr ⟨_, _, hname, .inl he⟩))
  | instancesList hw hname ho =>
    exact himpl hw (instances_eq_error_iff.2 (.inr ⟨_, _, hname, .inr ⟨_, _, ho, .inl he⟩⟩))
  | instancesBounds hw hname ho hes =>
    refine himpl hw (instances_eq_error_iff.2 (.inr ⟨_, _, hname, .inr ⟨_, _, ho, .inr ?_⟩⟩))
    exact ⟨_, _, hes, .inl he⟩
  | instancesEnd hw hname ho hes hrs =>
    refine himpl hw (instances_eq_error_iff.2 (.inr ⟨_, _, hname, .inr ⟨_, _, ho, .inr ?_⟩⟩))
    exact ⟨_, _, hes, .inr ⟨_, hrs, he⟩⟩
  | unknown hu hex hi =>
    rw [command_eq ⟨hsign, hword, rfl⟩, if_neg hu, if_neg hex, if_neg hi]
    exact congrArg Except.error (Eq.symm he)

theorem statement_eq_error_iff {t : Token} (ht : t.kind = .name ∨ t.kind = .atSign) :
    statement stop t ts = .error e ↔
      ∃ d us, StatementMeets stop t ts d us ∧ d.Fails stop us e := by
  have hdefinition : t.kind = .name →
      (statement stop t ts = .error e ↔ header stop ts = .error e) := by
    intro hname
    rw [statement, if_pos hname]
    exact bind_pure_eq_error_iff
  have hcommand : t.kind = .atSign → expect stop [.name] ts = .error e →
      statement stop t ts = .error e := by
    intro hsign h
    rw [statement, if_neg (by rw [hsign]; decide)]
    exact bind_eq_error_iff.2 (.inl h)
  constructor
  · intro h
    rcases ht with ht | ht
    · obtain ⟨b, o, us, hmeets, hlist⟩ := header_eq_error_iff.1 ((hdefinition ht).1 h)
      exact ⟨_, _, .header ht hmeets, hlist⟩
    · cases hword : expect stop [.name] ts with
      | error e' =>
        rw [statement, if_neg (by rw [ht]; decide), command, hword] at h
        cases h
        exact ⟨_, _, .word ht, hword⟩
      | ok r =>
        obtain ⟨word, us⟩ := r
        obtain ⟨rfl, hkind⟩ := expect_eq_ok_iff.1 hword
        have hkind := List.mem_singleton.1 hkind
        obtain ⟨d, vs, hmeets, hfails⟩ := exists_commandMeets ht hkind h
        exact ⟨d, vs, .command ht hkind hmeets, hfails⟩
  · rintro ⟨d, us, hmeets, hfails⟩
    cases hmeets with
    | header hname hmeets =>
      exact (hdefinition hname).2 (header_eq_error_iff.2 ⟨_, _, _, hmeets, hfails⟩)
    | word hsign => exact hcommand hsign hfails
    | command hsign hkind hmeets =>
      exact statement_eq_error_of_commandMeets hmeets hsign hkind hfails

theorem statements_eq_error_iff : statements stop ts = .error e ↔
    ∃ d us, BodyMeets stop ts d us ∧ d.Fails stop us e := by
  constructor
  · intro h
    fun_induction statements stop ts with
    | case1 =>
      cases h
      exact ⟨_, _, .first (by simp), rfl⟩
    | case2 => cases h
    | case3 t ts _ ht ih =>
      obtain ⟨d, us, hmeets, hfails⟩ := ih h
      exact ⟨d, us, .space (by rcases ht with ht | ht <;> simp [ht]) hmeets, hfails⟩
    | case4 t ts _ _ ht ih =>
      obtain ⟨d, us, hmeets, hfails⟩ := ih (bind_pure_eq_error_iff.1 h)
      exact ⟨d, us, .space (by simp [ht]) hmeets, hfails⟩
    | case5 t ts _ _ _ ht e' hs =>
      cases h
      obtain ⟨d, us, hmeets, hfails⟩ := (statement_eq_error_iff ht).1 hs
      exact ⟨d, us, .inside ht hmeets, hfails⟩
    | case6 t ts _ _ _ ht s vs hs ih =>
      obtain ⟨d, us, hmeets, hfails⟩ := ih (bind_pure_eq_error_iff.1 h)
      exact ⟨d, us, .behind ht hs hmeets, hfails⟩
    | case7 t ts hbrace hspace hcomment hitem =>
      cases h
      refine ⟨_, t :: ts, .first ?_, expect_eq_error_iff.2 ⟨?_, rfl⟩⟩
      all_goals
        rintro u ⟨⟩
        grind
  · rintro ⟨d, us, hmeets, hfails⟩
    induction hmeets with
    | @first ts hspace =>
      obtain ⟨hkind, rfl⟩ := expect_eq_error_iff.1 hfails
      cases ts with
      | nil => rw [statements]
      | cons t ts =>
        have hspace := hspace t rfl
        have hkind := hkind t rfl
        rw [statements, if_neg (by grind), if_neg (by grind), if_neg (by grind), if_neg (by grind)]
    | @space t ts us d ht _ ih =>
      by_cases hcomment : t.kind = .comment
      · rw [statements, if_neg (by grind), if_neg (by grind), if_pos hcomment]
        exact bind_pure_eq_error_iff.2 (ih hfails)
      · rw [statements, if_neg (by grind), if_pos (by grind)]
        exact ih hfails
    | inside ht hmeets =>
      have hs := (statement_eq_error_iff ht).2 ⟨_, _, hmeets, hfails⟩
      rw [statements, if_neg (by grind), if_neg (by grind), if_neg (by grind), if_pos ht]
      split
      · next h => rw [hs] at h; cases h; rfl
      · next h => rw [hs] at h; cases h
    | behind ht hs _ ih =>
      rw [statements_step ht hs]
      exact bind_pure_eq_error_iff.2 (ih hfails)

theorem moduleAt_eq_error_iff {sign : Token} : moduleAt stop sign ts = .error e ↔
    ∃ d us, ModuleMeets stop ts d us ∧ d.Fails stop us e := by
  constructor
  · intro h
    rcases bind_eq_error_iff.1 h with h | ⟨⟨name, us⟩, hname, h⟩
    · exact ⟨_, _, .name, h⟩
    rcases bind_eq_error_iff.1 h with h | ⟨⟨o, vs⟩, ho, h⟩
    · exact ⟨_, _, .opener hname, h⟩
    obtain ⟨d, ws, hmeets, hfails⟩ := statements_eq_error_iff.1 (bind_pure_eq_error_iff.1 h)
    exact ⟨d, ws, .body hname ho hmeets, hfails⟩
  · rintro ⟨d, us, hmeets, hfails⟩
    cases hmeets with
    | name => exact bind_eq_error_iff.2 (.inl hfails)
    | opener hname => exact bind_eq_error_iff.2 (.inr ⟨_, hname, bind_eq_error_iff.2 (.inl hfails)⟩)
    | body hname ho hmeets =>
      have hbody := statements_eq_error_iff.2 ⟨_, _, hmeets, hfails⟩
      refine bind_eq_error_iff.2 (.inr ⟨_, hname, bind_eq_error_iff.2 (.inr ⟨_, ho, ?_⟩)⟩)
      exact bind_pure_eq_error_iff.2 hbody

/-- **Reading fails with the failure of a demand that it gets to**, and wherever it gets to a demand
that is not met, it fails so. -/
theorem sections_eq_error_iff : sections stop ts = .error e ↔
    ∃ d us, Meets stop ts d us ∧ d.Fails stop us e := by
  constructor
  · intro h
    fun_induction sections stop ts with
    | case1 => cases h
    | case2 t ts ht e' hm =>
      cases h
      obtain ⟨d, us, hmeets, hfails⟩ := moduleAt_eq_error_iff.1 hm
      exact ⟨d, us, .inside ht hmeets, hfails⟩
    | case3 t ts ht m vs hm ih =>
      obtain ⟨d, us, hmeets, hfails⟩ := ih (bind_pure_eq_error_iff.1 h)
      exact ⟨d, us, .behind ht hm hmeets, hfails⟩
    | case4 t ts ht ih =>
      obtain ⟨d, us, hmeets, hfails⟩ := ih (bind_pure_eq_error_iff.1 h)
      exact ⟨d, us, .raw ht hmeets, hfails⟩
  · rintro ⟨d, us, hmeets, hfails⟩
    induction hmeets with
    | @inside t ts us d ht hmeets =>
      have hm : moduleAt stop t ts = .error e := moduleAt_eq_error_iff.2 ⟨_, _, hmeets, hfails⟩
      rw [sections, if_pos ht]
      split
      · next h => rw [hm] at h; cases h; rfl
      · next h => rw [hm] at h; cases h
    | behind ht hm _ ih =>
      rw [sections, if_pos ht]
      split
      · next h => rw [hm] at h; cases h
      · next h =>
        rw [hm] at h
        cases h
        exact bind_pure_eq_error_iff.2 (ih hfails)
    | raw ht _ ih =>
      rw [sections, if_neg ht]
      exact bind_pure_eq_error_iff.2 (ih hfails)

theorem read_eq_error_iff {source : Source} : Document.read source = .error e ↔
    ∃ d us, Meets (endOf source.text) (tokens source.text) d us ∧
      d.Fails (endOf source.text) us e := by
  rw [← sections_eq_error_iff]
  exact bind_pure_eq_error_iff

/-! ## Where demands stand -/

/-- What stands in front of the tokens that are left, as far as the failure of a demand tells of
it. -/
def Demand.Stands (ts : List Token) : Demand → List Token → Prop
  | token kinds, us => us <:+ ts ∧ kinds ≠ [] ∧ kinds.Nodup
  | list b o, us => o :: us <:+ ts ∧ o.kind = b.opener
  | bounds _, us => us <:+ ts
  | object name, us => ∃ sign word gap head h, sign :: word :: gap ++ name :: head ++ us <:+ ts ∧
      Command "export" sign word ∧ Skip gap ∧ name.kind = .name ∧ Head head h ∧ h.params.isSome
  | known word, us => ∃ sign, sign :: word :: us <:+ ts ∧ sign.kind = .atSign ∧ word.kind = .name

variable {us vs : List Token} {d : Demand}

theorem Demand.Stands.of_suffix (h : d.Stands vs us) (hs : vs <:+ ts) : d.Stands ts us := by
  cases d with
  | token kinds => exact ⟨h.1.trans hs, h.2⟩
  | list b o => exact ⟨h.1.trans hs, h.2⟩
  | bounds es => exact List.IsSuffix.trans h hs
  | object name =>
    obtain ⟨sign, word, gap, head, hd, hus, hrest⟩ := h
    exact ⟨sign, word, gap, head, hd, hus.trans hs, hrest⟩
  | known word =>
    obtain ⟨sign, hus, hrest⟩ := h
    exact ⟨sign, hus.trans hs, hrest⟩

theorem HeaderMeets.stands {b : Brackets} {o : Token} (h : HeaderMeets stop ts b o us) :
    (Demand.list b o).Stands ts us := by
  cases h with
  | params ho => exact ⟨List.suffix_rfl, ho⟩
  | args hparams ho => exact ⟨optionalList_shrinks stop _ _ _ _ _ _ hparams, ho⟩

theorem CommandMeets.stands {sign word : Token} (h : CommandMeets stop word ts d us)
    (hsign : sign.kind = .atSign) (hword : word.kind = .name) :
    d.Stands (sign :: word :: ts) us := by
  have hts : ts <:+ sign :: word :: ts := (List.suffix_cons word ts).trans (List.suffix_cons _ _)
  have hskip := (skip_suffix ts).trans hts
  have hname : ∀ {name us}, expect stop [.name] (skip ts) = .ok (name, us) →
      us <:+ sign :: word :: ts := fun h => (expect_skip_shrinks stop _ _ _ _ h).trans hts
  cases h with
  | imports => exact ⟨hskip, by decide, by decide⟩
  | exportedName => exact ⟨hskip, by decide, by decide⟩
  | exportedHeader _ h hmeets => exact hmeets.stands.of_suffix (hname h)
  | exportedObject hw h hhead hp =>
    obtain ⟨gap, hgap, rfl, hkind⟩ := (expect_skip_singleton rfl).1 h
    obtain ⟨head, rfl, hhead, -⟩ := header_eq_ok_iff.1 hhead
    exact ⟨sign, word, gap, head, _, by simp, ⟨hsign, hword, hw⟩, hgap, hkind, hhead, hp⟩
  | instancesName => exact ⟨hskip, by decide, by decide⟩
  | instancesOpener _ h => exact ⟨hname h, by decide, by decide⟩
  | instancesList _ h ho =>
    obtain ⟨rfl, hkind⟩ := expect_eq_ok_iff.1 ho
    exact ⟨hname h, List.mem_singleton.1 hkind⟩
  | instancesBounds _ h ho hes =>
    exact (list_shrinks stop _ _ _ _ _ hes).trans ((expect_shrinks stop _ _ _ _ ho).trans (hname h))
  | instancesEnd _ h ho hes =>
    have hws := list_shrinks stop _ _ _ _ _ hes
    have hvs := (expect_shrinks stop _ _ _ _ ho).trans (hname h)
    exact ⟨(skip_suffix _).trans (hws.trans hvs), by decide, by decide⟩
  | unknown => exact ⟨sign, List.suffix_rfl, hsign, hword⟩

theorem StatementMeets.stands {t : Token} (h : StatementMeets stop t ts d us) :
    d.Stands (t :: ts) us := by
  cases h with
  | header _ hmeets => exact hmeets.stands.of_suffix (List.suffix_cons _ _)
  | word => exact ⟨List.suffix_cons _ _, by decide, by decide⟩
  | command hsign hword hmeets => exact hmeets.stands hsign hword

theorem BodyMeets.stands (h : BodyMeets stop ts d us) : d.Stands ts us := by
  induction h with
  | first => exact ⟨List.suffix_rfl, by decide, by decide⟩
  | space _ _ ih => exact ih.of_suffix (List.suffix_cons _ _)
  | inside _ hmeets => exact hmeets.stands
  | behind _ hs _ ih =>
    exact ih.of_suffix ((statement_shrinks stop _ _ _ _ hs).trans (List.suffix_cons _ _))

theorem ModuleMeets.stands (h : ModuleMeets stop ts d us) : d.Stands ts us := by
  cases h with
  | name => exact ⟨skip_suffix ts, by decide, by decide⟩
  | opener hname =>
    exact ⟨(skip_suffix _).trans (expect_skip_shrinks stop _ _ _ _ hname), by decide, by decide⟩
  | body hname ho hmeets =>
    exact hmeets.stands.of_suffix ((expect_skip_shrinks stop _ _ _ _ ho).trans
      (expect_skip_shrinks stop _ _ _ _ hname))

theorem Meets.stands (h : Meets stop ts d us) : d.Stands ts us := by
  induction h with
  | inside _ hmeets => exact hmeets.stands.of_suffix (List.suffix_cons _ _)
  | behind _ hm _ ih =>
    exact ih.of_suffix ((moduleAt_shrinks stop _ _ _ _ hm).trans (List.suffix_cons _ _))
  | raw _ _ ih => exact ih.of_suffix ((List.dropWhile_suffix _).trans (List.suffix_cons _ _))

end MacroModules.Grammar
