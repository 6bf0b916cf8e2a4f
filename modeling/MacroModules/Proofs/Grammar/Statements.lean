import MacroModules.Proofs.Grammar.Lists

/-!
# Reading statements

The steps that read a statement, against the grammar. The reader lets a definition end with the
text, the grammar wants a line end: a step that leaves no tokens has no form yet, and it is the
missing brace of the module that settles the matter.

* `definition_sound`, `definition_complete`: a definition behind its name.
* `intervals_eq_ok_iff`: ranges, whose bounds must not be too long.
* `statement_sound`, `statement_complete`: any statement.
-/

namespace MacroModules.Grammar

open Reader

variable {stop : Position}

/-! ## Definitions -/

theorem line_append {us rest : List Token} {t : Token} (hus : ∀ u ∈ us, u.kind ≠ .newline)
    (ht : t.kind = .newline) : line (us ++ t :: rest) = us := by
  exact takeWhile_run (fun u hu => by simpa using hus u hu) (by simp [ht])

theorem afterLine_append {us rest : List Token} {t : Token} (hus : ∀ u ∈ us, u.kind ≠ .newline)
    (ht : t.kind = .newline) : afterLine (us ++ t :: rest) = rest := by
  rw [afterLine, dropWhile_run (fun u hu => by simpa using hus u hu) (by simp [ht]), List.tail_cons]

/-- The rest of a line, with its end or without. -/
theorem afterLine_cases (ts : List Token) : afterLine ts = [] ∨
    ∃ t, t.kind = .newline ∧ (∀ u ∈ line ts, u.kind ≠ .newline) ∧
      ts = line ts ++ t :: afterLine ts := by
  unfold afterLine line
  cases h : ts.dropWhile (·.kind != .newline) with
  | nil => exact .inl rfl
  | cons t rest =>
    obtain ⟨ht, hline, hts⟩ := run_of_dropWhile h
    refine .inr ⟨t, by simpa using ht, fun u hu => by simpa using hline u hu, hts⟩

/-- What a header is closed by is the first token behind it. -/
theorem Closed.of_head {h : Header} {us vs : List Token} (hc : Closed h us)
    (he : us.head? = vs.head?) : Closed h vs :=
  ⟨fun ha => he ▸ hc.paren ha, fun ha hp => he ▸ hc.angle ha hp⟩

theorem head?_line {us rest : List Token} {t : Token} :
    (us ++ [t]).head? = (us ++ t :: rest).head? := by
  cases us <;> rfl

theorem definition_sound (name : Token) {ts rest : List Token} {h : Header}
    (hh : header stop ts = .ok (h, rest)) : afterLine rest = [] ∨
      ∃ us, ts = us ++ afterLine rest ∧ Defined name us h (h.define name.text (line rest)) := by
  obtain ⟨head, rfl, hhead, hclosed⟩ := header_eq_ok_iff.1 hh
  rcases afterLine_cases rest with hnil | ⟨t, ht, hline, hrest⟩
  · exact .inl hnil
  · refine .inr ⟨head ++ line rest ++ [t], ?_, .intro hhead hline ht ?_⟩
    · rw [List.append_assoc, List.append_assoc, List.singleton_append, ← hrest]
    · rw [hrest] at hclosed
      exact hclosed.of_head head?_line.symm

theorem definition_complete {name : Token} {us : List Token} {h : Header} {d : Definition}
    (hd : Defined name us h d) (rest : List Token) : ∃ ts, header stop (us ++ rest) = .ok (h, ts) ∧
      d = h.define name.text (line ts) ∧ afterLine ts = rest := by
  cases hd with
  | @intro head ln t h hhead hline ht hclosed =>
    refine ⟨ln ++ t :: rest, header_eq_ok_iff.2 ⟨head, ?_, hhead, ?_⟩, ?_, ?_⟩
    · simp
    · exact hclosed.of_head head?_line
    · rw [line_append hline ht]
    · exact afterLine_append hline ht

/-! ## Ranges -/

theorem bound_eq_ok_iff {digits : String} {n : Int} :
    bound digits = .ok n ↔ ShortNumeral digits ∧ n = decimal digits := by
  unfold bound Numeral.read ShortNumeral decimal
  rw [String.length_toList]
  by_cases h : digits.length ≤ Numeral.maxDigits
  · simp [h, eq_comm]
  · simp [h]

theorem intervals_eq_ok_iff {es : List (List String)} {rs : List Interval}
    (hes : ∀ e ∈ es, e.length = 3) :
    intervals es = .ok rs ↔ List.Forall₂ (Range ShortNumeral) es rs := by
  induction es generalizing rs with
  | nil =>
    rw [intervals, List.forall₂_nil_left_iff]
    · constructor
      · intro h; cases h; rfl
      · rintro rfl; rfl
    · intro lo dots hi es h; cases h
  | cons e es ih =>
    obtain ⟨lo, dots, hi, rfl⟩ := List.length_eq_three.1 (hes e List.mem_cons_self)
    have ih := fun rs => @ih rs fun e he => hes e (List.mem_cons_of_mem _ he)
    rw [intervals]
    constructor
    · intro h
      obtain ⟨l, hl, h⟩ := bind_eq_ok_iff.1 h
      obtain ⟨u, hu, h⟩ := bind_eq_ok_iff.1 h
      obtain ⟨rs', hrs, h⟩ := bind_eq_ok_iff.1 h
      cases h
      obtain ⟨hlo, rfl⟩ := bound_eq_ok_iff.1 hl
      obtain ⟨hhi, rfl⟩ := bound_eq_ok_iff.1 hu
      exact .cons (.intro hlo hhi) ((ih rs').1 hrs)
    · intro h
      cases h with
      | cons hr hrs =>
        cases hr with
        | intro hl hu =>
          refine bind_eq_ok_iff.2 ⟨_, bound_eq_ok_iff.2 ⟨hl, rfl⟩, ?_⟩
          refine bind_eq_ok_iff.2 ⟨_, bound_eq_ok_iff.2 ⟨hu, rfl⟩, ?_⟩
          exact bind_eq_ok_iff.2 ⟨_, (ih _).2 hrs, rfl⟩

theorem Entry.length {shape : List Kind} {ts : List Token} {e : List String}
    (h : Entry shape ts e) : e.length = shape.length := by
  induction h with
  | done => rfl
  | token _ _ _ ih => simp [ih]

theorem Entries.length {shapes : List (List Kind)} {ts : List Token} {es : List (List String)}
    (h : Entries shapes ts es) : ∀ e ∈ es, ∃ shape ∈ shapes, e.length = shape.length := by
  induction h with
  | last hs he =>
    intro e' he'
    rw [List.mem_singleton.1 he']
    exact ⟨_, hs, he.length⟩
  | more hs he _ _ ih =>
    intro e' he'
    rcases List.mem_cons.1 he' with rfl | he'
    · exact ⟨_, hs, he.length⟩
    · exact ih e' he'

/-- An entry of a list of ranges has three parts. -/
theorem length_of_ranges {ts : List Token} {es : List (List String)}
    (h : Enclosed .angleClose [[.number, .range, .number]] ts es) : ∀ e ∈ es, e.length = 3 := by
  intro e he
  cases h with
  | empty => cases he
  | entries hes _ =>
    obtain ⟨shape, hs, hlen⟩ := hes.length e he
    rw [hlen, List.mem_singleton.1 hs]
    rfl

/-! ## Statements -/

theorem mem_moduleName {t : Token} : t.kind ∈ [Kind.identifier, .name] ↔ IsModuleName t := by
  simp [IsModuleName, or_comm]

theorem moduleName_eq_ok_iff {ts rest : List Token} {t : Token} :
    moduleName stop ts = .ok (t, rest) ↔
      ∃ gap, Skip gap ∧ ts = gap ++ t :: rest ∧ IsModuleName t := by
  rw [moduleName, expect_skip_eq_ok_iff (by decide)]
  simp only [mem_moduleName]

/-- The next significant token, which has to be of one kind. -/
theorem expect_skip_singleton {k : Kind} (hk : k.isInsignificant = false) {ts rest : List Token}
    {t : Token} : expect stop [k] (skip ts) = .ok (t, rest) ↔
      ∃ gap, Skip gap ∧ ts = gap ++ t :: rest ∧ t.kind = k := by
  rw [expect_skip_eq_ok_iff (by simpa using hk)]
  simp only [List.mem_singleton]

theorem imports_sound {sign word : Token} {ts rest : List Token} {s : Statement}
    (hc : Command "use" sign word) (h : imports stop ts = .ok (s, rest)) :
    ∃ us, ts = us ++ rest ∧ Item ShortNumeral (sign :: word :: us) s := by
  obtain ⟨⟨name, ts₁⟩, hname, hret⟩ := bind_eq_ok_iff.1 h
  cases hret
  obtain ⟨gap, hgap, rfl, hmod⟩ := moduleName_eq_ok_iff.1 hname
  exact ⟨gap ++ [name], by simp, .imports hc hgap hmod⟩

theorem exported_sound {sign word : Token} {ts rest : List Token} {s : Statement}
    (hc : Command "export" sign word) (h : exported stop ts = .ok (s, rest)) :
    rest = [] ∨ ∃ us, ts = us ++ rest ∧ Item ShortNumeral (sign :: word :: us) s := by
  obtain ⟨⟨name, ts₁⟩, hname, h₁⟩ := bind_eq_ok_iff.1 h
  obtain ⟨⟨hd, ts₂⟩, hhead, h₂⟩ := bind_eq_ok_iff.1 h₁
  obtain ⟨gap, hgap, rfl, hkind⟩ := (expect_skip_singleton rfl).1 hname
  dsimp only at h₂
  split at h₂
  · cases h₂
  · next hparams =>
    cases h₂
    rcases definition_sound name hhead with hnil | ⟨us, rfl, hus⟩
    · exact .inl hnil
    · refine .inr ⟨gap ++ name :: us, by simp, ?_⟩
      exact .exported hc hgap hkind hus (by simpa using hparams)

theorem instances_sound {sign word : Token} {ts rest : List Token} {s : Statement}
    (hc : Command "impl" sign word) (h : instances stop ts = .ok (s, rest)) :
    ∃ us, ts = us ++ rest ∧ Item ShortNumeral (sign :: word :: us) s := by
  obtain ⟨⟨name, ts₁⟩, hname, h₁⟩ := bind_eq_ok_iff.1 h
  obtain ⟨⟨o, ts₂⟩, ho, h₂⟩ := bind_eq_ok_iff.1 h₁
  obtain ⟨⟨es, ts₃⟩, hlist, h₃⟩ := bind_eq_ok_iff.1 h₂
  obtain ⟨rs, hrs, h₄⟩ := bind_eq_ok_iff.1 h₃
  obtain ⟨⟨t, ts₄⟩, ht, hret⟩ := bind_eq_ok_iff.1 h₄
  cases hret
  obtain ⟨gap, hgap, rfl, hkind⟩ := (expect_skip_singleton rfl).1 hname
  obtain ⟨rfl, hopen⟩ := expect_eq_ok_iff.1 ho
  obtain ⟨us, rfl, hus⟩ := (list_eq_ok_iff separable_ranges).1 hlist
  obtain ⟨trail, htrail, rfl, hend⟩ := (expect_skip_singleton rfl).1 ht
  refine ⟨gap ++ name :: (o :: us) ++ trail ++ [t], by simp, ?_⟩
  exact .instances hc hgap hkind (.intro (List.mem_singleton.1 hopen) hus)
    ((intervals_eq_ok_iff (length_of_ranges hus)).1 hrs) htrail hend

/-- **What is read as a statement has the form of one**, unless it has used up all tokens. -/
theorem statement_sound {t : Token} {ts rest : List Token} {s : Statement}
    (ht : t.kind = .name ∨ t.kind = .atSign) (h : statement stop t ts = .ok (s, rest)) :
    rest = [] ∨ ∃ us, ts = us ++ rest ∧ Item ShortNumeral (t :: us) s := by
  rw [statement] at h
  split at h
  · next hname =>
    obtain ⟨⟨hd, ts₁⟩, hhead, hret⟩ := bind_eq_ok_iff.1 h
    cases hret
    rcases definition_sound t hhead with hnil | ⟨us, rfl, hus⟩
    · exact .inl hnil
    · refine .inr ⟨us, rfl, ?_⟩
      cases hp : hd.params with
      | none => exact .object hname hus hp
      | some names => exact .template hname hus (by simp [hp])
  · next hname =>
    have hsign := ht.resolve_left hname
    obtain ⟨⟨word, ts₁⟩, hword, h₁⟩ := bind_eq_ok_iff.1 h
    obtain ⟨rfl, hkind⟩ := expect_eq_ok_iff.1 hword
    have hcommand : ∀ name, word.text = name → Command name t word :=
      fun name htext => ⟨hsign, List.mem_singleton.1 hkind, htext⟩
    -- each command takes up tokens behind its own name
    have hprepend : (∃ us, ts₁ = us ++ rest ∧ Item ShortNumeral (t :: word :: us) s) →
        ∃ us, word :: ts₁ = us ++ rest ∧ Item ShortNumeral (t :: us) s := by
      rintro ⟨us, rfl, hus⟩
      exact ⟨word :: us, rfl, hus⟩
    dsimp only at h₁
    split at h₁
    · next htext => exact .inr (hprepend (imports_sound (hcommand _ htext) h₁))
    split at h₁
    · next htext => exact (exported_sound (hcommand _ htext) h₁).imp_right hprepend
    split at h₁
    · next htext => exact .inr (hprepend (instances_sound (hcommand _ htext) h₁))
    · cases h₁

theorem command_eq {name : String} {sign word : Token} (hc : Command name sign word)
    (ts : List Token) : statement stop sign (word :: ts) =
      if name = "use" then imports stop ts
      else if name = "export" then exported stop ts
      else if name = "impl" then instances stop ts
      else .error (.fault (.unknownCommand word)) := by
  have hne : sign.kind ≠ .name := by rw [hc.sign_kind]; decide
  rw [statement, if_neg hne, command, expect, if_pos (by simp [hc.word_kind])]
  rw [← hc.word_text]
  rfl

/-- **What has the form of a statement is read as that statement.** -/
theorem statement_complete {vs : List Token} {s : Statement} (h : Item ShortNumeral vs s)
    (rest : List Token) : ∃ t us, vs = t :: us ∧ (t.kind = .name ∨ t.kind = .atSign) ∧
      statement stop t (us ++ rest) = .ok (s, rest) := by
  cases h with
  | @object name ts h d hname hd hparams =>
    refine ⟨name, ts, rfl, .inl hname, ?_⟩
    obtain ⟨ts₁, hhead, rfl, rfl⟩ := definition_complete hd rest
    rw [statement, if_pos hname]
    refine bind_eq_ok_iff.2 ⟨_, hhead, ?_⟩
    simp only [hparams]
    rfl
  | @template name ts h d hname hd hparams =>
    refine ⟨name, ts, rfl, .inl hname, ?_⟩
    obtain ⟨ts₁, hhead, rfl, rfl⟩ := definition_complete hd rest
    rw [statement, if_pos hname]
    refine bind_eq_ok_iff.2 ⟨_, hhead, ?_⟩
    simp only [Option.isSome_iff_ne_none.2 hparams]
    rfl
  | @imports sign word name gap hc hgap hname =>
    refine ⟨sign, word :: gap ++ [name], rfl, .inr hc.sign_kind, ?_⟩
    rw [List.append_assoc, List.cons_append, command_eq hc, if_pos rfl]
    exact bind_eq_ok_iff.2 ⟨_, moduleName_eq_ok_iff.2 ⟨gap, hgap, rfl, hname⟩, rfl⟩
  | @exported sign word name gap ts h d hc hgap hname hd hparams =>
    refine ⟨sign, word :: gap ++ name :: ts, rfl, .inr hc.sign_kind, ?_⟩
    obtain ⟨ts₁, hhead, rfl, rfl⟩ := definition_complete hd rest
    rw [List.append_assoc, List.cons_append, command_eq hc, if_neg (by decide), if_pos rfl]
    refine bind_eq_ok_iff.2 ⟨_, (expect_skip_singleton rfl).2 ⟨gap, hgap, rfl, hname⟩, ?_⟩
    refine bind_eq_ok_iff.2 ⟨_, hhead, ?_⟩
    simp only [hparams]
    rfl
  | @instances sign word name t gap ts trail es rs hc hgap hname hts hrs htrail ht =>
    cases hts with
    | @intro o us es ho hus =>
      refine ⟨sign, word :: (gap ++ name :: o :: us ++ trail ++ [t]), rfl, .inr hc.sign_kind, ?_⟩
      rw [List.cons_append, command_eq hc, if_neg (by decide), if_neg (by decide), if_pos rfl]
      refine bind_eq_ok_iff.2 ⟨(name, o :: us ++ trail ++ [t] ++ rest),
        (expect_skip_singleton rfl).2 ⟨gap, hgap, by simp, hname⟩, ?_⟩
      refine bind_eq_ok_iff.2 ⟨(o, us ++ trail ++ [t] ++ rest),
        expect_eq_ok_iff.2 ⟨rfl, by simp [ho]⟩, ?_⟩
      refine bind_eq_ok_iff.2 ⟨(es, trail ++ [t] ++ rest),
        (list_eq_ok_iff separable_ranges).2 ⟨us, by simp, hus⟩, ?_⟩
      refine bind_eq_ok_iff.2 ⟨rs, (intervals_eq_ok_iff (length_of_ranges hus)).2 hrs, ?_⟩
      refine bind_eq_ok_iff.2 ⟨(t, rest),
        (expect_skip_singleton rfl).2 ⟨trail, htrail, by simp, ht⟩, ?_⟩
      rfl

end MacroModules.Grammar
