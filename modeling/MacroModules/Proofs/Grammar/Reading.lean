import MacroModules.Proofs.Grammar.Statements

/-!
# Documents are read by their grammar

* `statements_eq_ok_iff`, `moduleAt_eq_ok_iff`: a step of the reader succeeds exactly on what the
  grammar describes, and gives what the grammar says.
* `sections_sound`, `sections_complete`, `read_eq_ok_iff`: the same for whole documents.
-/

namespace MacroModules.Grammar

open Reader

variable {stop : Position}

/-! ## Bodies of modules -/

theorem statements_step {t : Token} {ts us : List Token} {s : Statement}
    (ht : t.kind = .name ∨ t.kind = .atSign) (hs : statement stop t ts = .ok (s, us)) :
    statements stop (t :: ts) = do
      let (ss, rest) ← statements stop us
      return (s :: ss, rest) := by
  have hkind : t.kind ≠ .braceClose ∧ ¬ (t.kind = .blank ∨ t.kind = .newline) ∧
      t.kind ≠ .comment := by
    rcases ht with ht | ht <;> rw [ht] <;> decide
  rw [statements, if_neg hkind.1, if_neg hkind.2.1, if_neg hkind.2.2, if_pos ht]
  split
  · next h => rw [hs] at h; cases h
  · next h => rw [hs] at h; cases h; rfl

/-- What is read as the body of a module has the form of one. -/
theorem statements_sound {ts rest : List Token} {ss : List Statement}
    (h : statements stop ts = .ok (ss, rest)) :
    ∃ us c, ts = us ++ c :: rest ∧ c.kind = .braceClose ∧ Items ShortNumeral us ss := by
  fun_induction statements stop ts generalizing ss rest with
  | case1 => cases h
  | case2 t ts ht => cases h; exact ⟨[], t, rfl, ht, .nil⟩
  | case3 t ts _ ht ih =>
    obtain ⟨us, c, rfl, hc, hus⟩ := ih h
    exact ⟨t :: us, c, rfl, hc, .space ht hus⟩
  | case4 t ts _ _ ht ih =>
    obtain ⟨⟨ss', rest'⟩, hss, hret⟩ := bind_eq_ok_iff.1 h
    cases hret
    obtain ⟨us, c, rfl, hc, hus⟩ := ih hss
    exact ⟨t :: us, c, rfl, hc, .comment ht hus⟩
  | case5 => cases h
  | case6 t ts _ _ _ ht s us hs ih =>
    obtain ⟨⟨ss', rest'⟩, hss, hret⟩ := bind_eq_ok_iff.1 h
    cases hret
    obtain ⟨vs, c, rfl, hc, hvs⟩ := ih hss
    rcases statement_sound ht hs with hnil | ⟨us, rfl, hus⟩
    · cases vs <;> cases hnil
    · exact ⟨t :: us ++ vs, c, by simp, hc, .item hus hvs⟩
  | case7 => cases h

/-- What has the form of a module's body is read as that body. -/
theorem statements_complete {us rest : List Token} {c : Token} {ss : List Statement}
    (h : Items ShortNumeral us ss) (hc : c.kind = .braceClose) :
    statements stop (us ++ c :: rest) = .ok (ss, rest) := by
  induction h with
  | nil => rw [List.nil_append, statements, if_pos hc]
  | @space t ts ss ht _ ih =>
    have hne : t.kind ≠ .braceClose := by rcases ht with ht | ht <;> rw [ht] <;> decide
    rw [List.cons_append, statements, if_neg hne, if_pos ht]
    exact ih
  | @comment t ts ss ht _ ih =>
    have hne : t.kind ≠ .braceClose ∧ ¬ (t.kind = .blank ∨ t.kind = .newline) := by
      rw [ht]; decide
    rw [List.cons_append, statements, if_neg hne.1, if_neg hne.2, if_pos ht]
    exact bind_eq_ok_iff.2 ⟨_, ih, rfl⟩
  | @item us ts s ss hitem _ ih =>
    obtain ⟨t, us, rfl, ht, hs⟩ := statement_complete hitem (ts ++ c :: rest)
    rw [List.append_assoc, List.cons_append, statements_step ht hs]
    exact bind_eq_ok_iff.2 ⟨_, ih, rfl⟩

theorem statements_eq_ok_iff {ts rest : List Token} {ss : List Statement} :
    statements stop ts = .ok (ss, rest) ↔
      ∃ us c, ts = us ++ c :: rest ∧ c.kind = .braceClose ∧ Items ShortNumeral us ss := by
  constructor
  · exact statements_sound
  · rintro ⟨us, c, rfl, hc, h⟩
    exact statements_complete h hc

/-! ## Modules and documents -/

theorem moduleAt_eq_ok_iff {sign : Token} (hsign : sign.kind = .atSign) {ts rest : List Token}
    {m : Module} : moduleAt stop sign ts = .ok (m, rest) ↔
      ∃ us, ts = us ++ rest ∧ ModuleForm ShortNumeral (sign :: us) m := by
  constructor
  · intro h
    obtain ⟨⟨name, ts₁⟩, hname, h₁⟩ := bind_eq_ok_iff.1 h
    obtain ⟨⟨o, ts₂⟩, ho, h₂⟩ := bind_eq_ok_iff.1 h₁
    obtain ⟨⟨body, ts₃⟩, hbody, hret⟩ := bind_eq_ok_iff.1 h₂
    cases hret
    obtain ⟨gap, hgap, rfl, hmod⟩ := moduleName_eq_ok_iff.1 hname
    obtain ⟨gap', hgap', rfl, hopen⟩ := (expect_skip_singleton rfl).1 ho
    obtain ⟨us, c, rfl, hc, hus⟩ := statements_eq_ok_iff.1 hbody
    refine ⟨gap ++ name :: gap' ++ o :: us ++ [c], by simp, ?_⟩
    exact .intro hsign hgap hmod hgap' hopen hus hc
  · rintro ⟨us, rfl, h⟩
    cases h with
    | @intro _ name o c gap gap' us body _ hgap hmod hgap' ho hus hc =>
      refine bind_eq_ok_iff.2 ⟨(name, gap' ++ o :: us ++ c :: rest),
        moduleName_eq_ok_iff.2 ⟨gap, hgap, by simp, hmod⟩, ?_⟩
      refine bind_eq_ok_iff.2 ⟨(o, us ++ c :: rest),
        (expect_skip_singleton rfl).2 ⟨gap', hgap', by simp, ho⟩, ?_⟩
      exact bind_eq_ok_iff.2 ⟨_, statements_complete hus hc, rfl⟩

theorem sections_code {t : Token} {ts us : List Token} {m : Module} (ht : t.kind = .atSign)
    (hm : moduleAt stop t ts = .ok (m, us)) : sections stop (t :: ts) = do
      let ss ← sections stop us
      return .code m :: ss := by
  rw [sections, if_pos ht]
  split
  · next h => rw [hm] at h; cases h
  · next h => rw [hm] at h; cases h; rfl

/-- A document begins with raw text exactly if its first token is not `@`. -/
theorem File.head_raw_iff {numeral : String → Prop} {ts : List Token} {ss : List Section}
    (h : File numeral ts ss) :
    (∃ text, ss.head? = some (.raw text)) ↔ ∃ t, ts.head? = some t ∧ t.kind ≠ .atSign := by
  cases h with
  | nil => simp
  | code hm _ =>
    cases hm with
    | intro hsign => simp [hsign]
  | @raw run ts ss hne hrun =>
    cases run with
    | nil => exact absurd rfl hne
    | cons t run => simp [hrun t List.mem_cons_self]

theorem sections_sound {ts : List Token} {ss : List Section} (h : sections stop ts = .ok ss) :
    File ShortNumeral ts ss := by
  fun_induction sections stop ts generalizing ss with
  | case1 => cases h; exact .nil
  | case2 => cases h
  | case3 t ts ht m us hm ih =>
    obtain ⟨ss', hss, hret⟩ := bind_eq_ok_iff.1 h
    cases hret
    obtain ⟨vs, rfl, hvs⟩ := (moduleAt_eq_ok_iff ht).1 hm
    exact .code hvs (ih hss)
  | case4 t ts ht ih =>
    obtain ⟨ss', hss, hret⟩ := bind_eq_ok_iff.1 h
    cases hret
    have hrest := ih hss
    have hrun : ∀ u ∈ t :: ts.takeWhile (·.kind != .atSign), u.kind ≠ .atSign := by
      intro u hu
      rcases List.mem_cons.1 hu with rfl | hu
      · exact ht
      · simpa using List.all_eq_true.1 List.all_takeWhile u hu
    -- the run of raw text ends at `@` or at the end, so no raw text follows it
    have hhead : ∀ text, ss'.head? ≠ some (.raw text) := by
      intro text hraw
      obtain ⟨u, hu, hkind⟩ := hrest.head_raw_iff.1 ⟨text, hraw⟩
      obtain ⟨us, hus⟩ := List.head?_eq_some_iff.1 hu
      exact hkind (by simpa using (run_of_dropWhile hus).1)
    have := File.raw (List.cons_ne_nil _ _) hrun hhead hrest
    rwa [List.cons_append, List.takeWhile_append_dropWhile] at this

theorem sections_complete {ts : List Token} {ss : List Section} (h : File ShortNumeral ts ss) :
    sections stop ts = .ok ss := by
  induction h with
  | nil => rw [sections]
  | @code us ts m ss hm _ ih =>
    cases us with
    | nil => cases hm
    | cons t us =>
      have ht : t.kind = .atSign := by cases hm with | intro hsign => exact hsign
      rw [List.cons_append, sections_code ht ((moduleAt_eq_ok_iff ht).2 ⟨us, rfl, hm⟩)]
      exact bind_eq_ok_iff.2 ⟨_, ih, rfl⟩
  | @raw run ts ss hne hrun hhead hrest ih =>
    cases run with
    | nil => exact absurd rfl hne
    | cons t run =>
      have hin : ∀ u ∈ run, (u.kind != Kind.atSign) = true :=
        fun u hu => by simpa using hrun u (List.mem_cons_of_mem _ hu)
      -- what follows the run is a module or nothing
      have hcut : (run ++ ts).takeWhile (·.kind != .atSign) = run ∧
          (run ++ ts).dropWhile (·.kind != .atSign) = ts := by
        cases ts with
        | nil =>
          rw [List.takeWhile_append_of_pos hin, List.dropWhile_append_of_pos hin]
          exact ⟨List.append_nil run, rfl⟩
        | cons u us =>
          have hu : u.kind = .atSign := by
            by_contra hu
            obtain ⟨text, htext⟩ := hrest.head_raw_iff.2 ⟨u, rfl, hu⟩
            exact hhead text htext
          exact ⟨takeWhile_run hin (by simp [hu]), dropWhile_run hin (by simp [hu])⟩
      rw [List.cons_append, sections, if_neg (hrun t List.mem_cons_self), hcut.1, hcut.2]
      exact bind_eq_ok_iff.2 ⟨_, ih, rfl⟩

/-- **A text is read as a document exactly if its tokens have the form of one**, with bounds that
are not too long. -/
theorem read_eq_ok_iff {source : Source} {d : Document} : Document.read source = .ok d ↔
    d.source = source ∧ File ShortNumeral (tokens source.text) d.sections := by
  constructor
  · intro h
    obtain ⟨ss, hss, hret⟩ := bind_eq_ok_iff.1 h
    cases hret
    exact ⟨rfl, sections_sound hss⟩
  · rintro ⟨rfl, h⟩
    exact bind_eq_ok_iff.2 ⟨_, sections_complete h, rfl⟩

end MacroModules.Grammar
