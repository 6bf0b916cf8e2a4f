import MacroModules.Proofs.Document.Pieces
import MacroModules.Proofs.Grammar.Misfits

/-!
# Lists and line ends

No entry of a list has a line end in it, so a list that goes on behind the end of its line cannot be
read. What is said about it depends on what follows: an entry is looked at only when a comma or the
closing bracket ends it.

* `Entry.kind_mem`, `Enclosed.ne_newline`: there is no line end in a list.
* `mem_of_misfit`: of an entry with a line end in it, the line end or something before it is blamed.
* `Unended`: the last entry of a list is not ended, and the ones before it fit.
* `list_over_newline`: **a list that meets the end of its line is at fault on that line**, unless it
  is unended.
-/

namespace MacroModules.Grammar

open Reader

/-! ## No line end in a list -/

theorem Entry.kind_mem {shape : List Kind} {ts : List Token} {e : List String}
    (h : Entry shape ts e) : ∀ t ∈ ts, t.kind ∈ shape ∨ t.kind.isInsignificant = true := by
  induction h with
  | done hgap => exact fun t ht => .inr (hgap t ht)
  | token hgap hk _ ih =>
    intro t ht
    rcases List.mem_append.1 ht with ht | ht
    · exact .inr (hgap t ht)
    rcases List.mem_cons.1 ht with rfl | ht
    · exact .inl (hk ▸ List.mem_cons_self)
    · exact (ih t ht).imp_left (List.mem_cons_of_mem _)

theorem Brackets.newline_notMem (b : Brackets) : ∀ shape ∈ b.shapes.all, Kind.newline ∉ shape := by
  cases b <;> decide

theorem Brackets.closer_ne_newline (b : Brackets) : b.closer ≠ .newline := by
  cases b <;> decide

variable {b : Brackets} {ts us : List Token}

theorem Entry.ne_newline {shape : List Kind} {e : List String} (hs : shape ∈ b.shapes.all)
    (h : Entry shape ts e) : ∀ t ∈ ts, t.kind ≠ .newline := by
  intro t ht hk
  rcases h.kind_mem t ht with hmem | hskip
  · exact b.newline_notMem shape hs (hk ▸ hmem)
  · rw [hk] at hskip
    cases hskip

theorem Entries.ne_newline {es : List (List String)} (h : Entries b.shapes.all ts es) :
    ∀ t ∈ ts, t.kind ≠ .newline := by
  induction h with
  | last hs he => exact he.ne_newline hs
  | more hs he hcomma _ ih =>
    intro t ht
    rcases List.mem_append.1 ht with ht | ht
    · exact he.ne_newline hs t ht
    rcases List.mem_cons.1 ht with rfl | ht
    · rw [hcomma]
      decide
    · exact ih t ht

theorem Enclosed.ne_newline {es : List (List String)} (h : Enclosed b.closer b.shapes.all ts es) :
    ∀ t ∈ ts, t.kind ≠ .newline := by
  have hlast : ∀ {us : List Token} {c : Token}, (∀ t ∈ us, t.kind ≠ .newline) →
      c.kind = b.closer → ∀ t ∈ us ++ [c], t.kind ≠ .newline := by
    intro us c hus hc t ht
    rcases List.mem_append.1 ht with ht | ht
    · exact hus t ht
    · rw [List.mem_singleton.1 ht, hc]
      exact b.closer_ne_newline
  cases h with
  | empty hgap hc =>
    refine hlast (fun t ht hk => ?_) hc
    have hskip := hgap t ht
    rw [hk] at hskip
    cases hskip
  | entries hes hc => exact hlast hes.ne_newline hc

/-- The entries that have been passed lie on the line, and do not close the list. -/
theorem Passed.split (h : Passed b.shapes.all ts us) :
    ∃ done, ts = done ++ us ∧ ∀ t ∈ done, t.kind ≠ .newline ∧ t.kind ≠ b.closer := by
  induction h with
  | none => exact ⟨[], rfl, by simp⟩
  | @entry shape ts us vs comma e hs he hcomma _ ih =>
    obtain ⟨done, rfl, hdone⟩ := ih
    refine ⟨ts ++ comma :: done, by simp, fun t ht => ?_⟩
    rcases List.mem_append.1 ht with ht | ht
    · exact ⟨he.ne_newline hs t ht, (isInner_eq_true.1 (he.inner b.separable hs t ht)).2⟩
    rcases List.mem_cons.1 ht with rfl | ht
    · rw [hcomma]
      exact ⟨by decide, b.separable.closer_ne_comma.symm⟩
    · exact hdone t ht

/-- If a token does not lie in a first part of a list, then it lies in the rest. -/
theorem append_eq_append_cons {α : Type} {done rest head tail : List α} {a : α}
    (h : done ++ rest = head ++ a :: tail) (ha : a ∉ done) :
    ∃ mid, head = done ++ mid ∧ rest = mid ++ a :: tail := by
  rcases List.append_eq_append_iff.1 h with ⟨mid, rfl, rfl⟩ | ⟨mid, rfl, hmid⟩
  · exact ⟨mid, rfl, rfl⟩
  · cases mid with
    | nil => exact ⟨[], by simp, by simpa using hmid.symm⟩
    | cons x mid =>
      obtain ⟨rfl, -⟩ := List.cons_eq_cons.1 hmid
      exact absurd (by simp) ha

/-! ## The token that is blamed -/

theorem exists_misfit_eq (terminator : Token) (shape expected : List Kind) (ts : List Token) :
    ∃ fit rest expected', ts = fit ++ rest ∧ fit.map (·.kind) <+: shape ∧
      misfit terminator shape expected ts =
        .unexpectedToken (rest.headD terminator) expected' := by
  rcases misfit_cases terminator shape expected ts with
    ⟨fit, k, ks, u, rest, hshape, hts, -, h⟩ | ⟨k, ks, hshape, h⟩ | ⟨fit, rest, hshape, hts, h⟩
  · exact ⟨fit, u :: rest, _, hts, hshape ▸ List.prefix_append _ _, h⟩
  · exact ⟨ts, [], _, by simp, hshape ▸ List.prefix_append _ _, h⟩
  · exact ⟨fit, rest, _, hts, hshape ▸ List.prefix_rfl, h⟩

/-- What follows in an entry belongs to it, or is what ends it. -/
theorem headD_mem (t : Token) {group fit rest : List Token} (h : trimmed group = fit ++ rest) :
    rest.headD t ∈ group ++ [t] := by
  cases rest with
  | nil => simp
  | cons got rest =>
    have hgot : got ∈ trimmed group := by simp [h]
    simp [(mem_trimmed.1 hgot).1]

/-- Of an entry that has a line end in it or behind it, the line end or something before it is
blamed. -/
theorem mem_of_misfit {head tail group rest : List Token} {nl t : Token} (hnl : nl.kind = .newline)
    (ht : isInner b.closer t = false) (hcut : group ++ t :: rest = head ++ nl :: tail)
    (expected : List Kind) : ∃ got expected',
      misfit t b.shapes.main expected (trimmed group) = .unexpectedToken got expected' ∧
        got ∈ head ++ [nl] := by
  obtain ⟨fit, more, expected', hgroup, hfit, hmisfit⟩ :=
    exists_misfit_eq t b.shapes.main expected (trimmed group)
  refine ⟨_, expected', hmisfit, ?_⟩
  have htnl : nl ≠ t := by
    rintro rfl
    rw [isInner_eq_false, hnl] at ht
    exact ht.elim (by decide) b.closer_ne_newline.symm
  rcases List.append_eq_append_iff.1 hcut with ⟨mid, rfl, hmid⟩ | ⟨mid, rfl, hmid⟩
  · -- the entry is ended before the line is
    have htmem : t ∈ mid := by
      cases mid with
      | nil => exact absurd (List.cons_eq_cons.1 hmid).1.symm htnl
      | cons x mid => rw [(List.cons_eq_cons.1 hmid).1]; exact List.mem_cons_self
    have hgot := headD_mem t hgroup
    generalize more.headD t = got at hgot ⊢
    rcases List.mem_append.1 hgot with hgot | hgot
    · simp [hgot]
    · simp [List.mem_singleton.1 hgot, htmem]
  · cases mid with
    | nil => exact absurd (List.cons_eq_cons.1 hmid).1 htnl
    | cons x mid =>
      obtain ⟨rfl, -⟩ := List.cons_eq_cons.1 hmid
      -- no shape has a line end in it, so the entry fits at most up to there
      have hnlfit : nl ∉ fit := by
        intro hmem
        have hkind := hfit.subset (List.mem_map_of_mem hmem)
        rw [hnl] at hkind
        exact b.newline_notMem _ List.mem_cons_self hkind
      have htrimmed : fit ++ more = trimmed head ++ nl :: trimmed mid := by
        rw [← hgroup, trimmed, List.filter_append, List.filter_cons_of_pos (by rw [hnl]; rfl)]
        rfl
      obtain ⟨fit', hhead, rfl⟩ := append_eq_append_cons htrimmed hnlfit
      cases fit' with
      | nil => simp
      | cons got fit' =>
        have hgot : got ∈ trimmed head := by simp [hhead]
        simp [(mem_trimmed.1 hgot).1]

/-! ## Lines -/

/-- Tokens with no line end before them are on the line of the first. -/
theorem line_of_tokens {text : String} {before after : List Token} {o t : Token}
    (h : tokens text = before ++ o :: (us ++ t :: after)) (ho : o.kind ≠ .newline)
    (hus : ∀ u ∈ us, u.kind ≠ .newline) : t.span.start.line = o.span.start.line := by
  obtain ⟨ms, ns, -, -, hns⟩ := Lexeme.place_eq_append h
  have hcut : (o :: us) ++ t :: after = Lexeme.place (Lexeme.finish .first ms) ns := hns
  obtain ⟨ks, js, rfl, hks, hjs⟩ := Lexeme.place_eq_append hcut.symm
  generalize Lexeme.finish .first ms = p at hks hjs
  have hline : (Lexeme.finish p ks).line = p.line := by
    refine Lexeme.line_finish p fun u hu => ?_
    rw [← hks] at hu
    rcases List.mem_cons.1 hu with rfl | hu
    · exact ho
    · exact hus u hu
  have ho : o.span.start = p := by
    cases ks with
    | nil => cases hks
    | cons l ks => rw [(List.cons_eq_cons.1 hks).1]; rfl
  have ht : t.span.start = Lexeme.finish p ks := by
    cases js with
    | nil => cases hjs
    | cons l js => rw [(List.cons_eq_cons.1 hjs).1]; rfl
  rw [ho, ht, hline]

/-- The tokens behind one of a line, up to the line end. -/
theorem lines_of_mem {text : String} {before head tail : List Token} {o nl got : Token}
    (h : tokens text = before ++ o :: (head ++ nl :: tail)) (ho : o.kind ≠ .newline)
    (hhead : ∀ t ∈ head, t.kind ≠ .newline) (hgot : got ∈ head ++ [nl]) :
    got.span.start.line = o.span.start.line ∧ got.span.stop.line = o.span.start.line := by
  have hline : got.span.start.line = o.span.start.line := by
    rcases List.mem_append.1 hgot with hgot | hgot
    · obtain ⟨us, rest, rfl⟩ := List.append_of_mem hgot
      rw [List.append_assoc, List.cons_append] at h
      exact line_of_tokens h ho fun u hu => hhead u (by simp [hu])
    · rw [List.mem_singleton.1 hgot]
      exact line_of_tokens h ho hhead
  have hmem : got ∈ tokens text := by
    rw [h]
    rcases List.mem_append.1 hgot with hgot | hgot
    · simp [hgot]
    · simp [List.mem_singleton.1 hgot]
  exact ⟨hline, (placed_of_mem_tokens hmem).stop_line.trans hline⟩

/-! ## Lists that meet a line end -/

/-- The last entry of a list is not ended, and the ones before it fit. -/
def Unended (b : Brackets) (ts : List Token) : Prop :=
  ∃ us, Passed b.shapes.all ts us ∧ ∀ t ∈ us, t.kind ≠ .comma ∧ t.kind ≠ b.closer

/-- Behind a line end an unended list has nothing that would end an entry. -/
theorem Unended.behind_newline (h : Unended b ts) {head tail : List Token} {nl : Token}
    (hts : ts = head ++ nl :: tail) (hnl : nl.kind = .newline) :
    ∀ t ∈ tail, t.kind ≠ .comma ∧ t.kind ≠ b.closer := by
  obtain ⟨us, hpassed, hus⟩ := h
  obtain ⟨done, rfl, hdone⟩ := hpassed.split
  obtain ⟨mid, rfl, rfl⟩ := append_eq_append_cons hts fun hmem => (hdone nl hmem).1 hnl
  exact fun t ht => hus t (by simp [ht])

variable {stop : Position}

theorem Unended.list_eq (h : Unended b ts) : list stop b.closer b.shapes ts =
    .error (.fault (.unexpectedEnd (.point stop) [.comma, b.closer])) := by
  obtain ⟨us, hpassed, hus⟩ := h
  refine (list_eq_error_iff b.separable).2 ⟨?_, us, hpassed, ?_⟩
  · refine Passed.not_closed b hpassed fun t ht => (hus t ?_).2
    exact (skip_suffix us).subset (List.mem_of_mem_head? ht)
  · exact .unended fun t ht => isInner_eq_true.2 (hus t ht)

theorem unended_of_list_eq {span : Span} {expected : List Kind}
    (h : list stop b.closer b.shapes ts = .error (.fault (.unexpectedEnd span expected))) :
    Unended b ts := by
  obtain ⟨-, us, hpassed, hfails⟩ := (list_eq_error_iff b.separable).1 h
  generalize he : ReadFailure.fault (.unexpectedEnd span expected) = e at hfails
  cases hfails with
  | unended hinner => exact ⟨us, hpassed, fun t ht => isInner_eq_true.1 (hinner t ht)⟩
  | @misfit group rest t =>
    obtain ⟨_, _, _, -, -, hmisfit⟩ := exists_misfit_eq t b.shapes.main
      (b.shapes.all.filterMap List.head?) (trimmed group)
    rw [hmisfit] at he
    cases he

/-- A list with a line end before its closing bracket is not read. -/
theorem list_ne_ok_of_newline {head tail rest : List Token} {nl : Token} {es : List (List String)}
    (hts : ts = head ++ nl :: tail) (hnl : nl.kind = .newline)
    (hhead : ∀ t ∈ head, t.kind ≠ b.closer) :
    list stop b.closer b.shapes ts ≠ .ok (es, rest) := by
  intro h
  obtain ⟨us, rfl, hus⟩ := (list_eq_ok_iff b.separable).1 h
  obtain ⟨mid, rfl, -⟩ := append_eq_append_cons hts fun hmem => hus.ne_newline nl hmem hnl
  cases hus with
  | empty _ hc => exact hhead _ (by simp) hc
  | entries _ hc => exact hhead _ (by simp) hc

/-- **A list with a line end before its closing bracket** fails at a token that is not behind the
line end, if it is not unended. -/
theorem list_eq_of_newline (stop : Position) {head tail : List Token} {nl : Token}
    (hts : ts = head ++ nl :: tail) (hnl : nl.kind = .newline)
    (hhead : ∀ t ∈ head, t.kind ≠ b.closer) :
    (∃ got expected, list stop b.closer b.shapes ts =
      .error (.fault (.unexpectedToken got expected)) ∧ got ∈ head ++ [nl]) ∨ Unended b ts := by
  cases h : list stop b.closer b.shapes ts with
  | ok r => exact absurd h (list_ne_ok_of_newline hts hnl hhead)
  | error e =>
    obtain ⟨-, us, hpassed, hfails⟩ := (list_eq_error_iff b.separable).1 h
    cases hfails with
    | unended hinner => exact .inr ⟨us, hpassed, fun t ht => isInner_eq_true.1 (hinner t ht)⟩
    | @misfit group rest t _ ht _ =>
      obtain ⟨done, rfl, hdone⟩ := hpassed.split
      obtain ⟨mid, rfl, hcut⟩ := append_eq_append_cons hts fun hmem => (hdone nl hmem).1 hnl
      obtain ⟨got, expected, hmisfit, hgot⟩ := mem_of_misfit hnl ht hcut
        (b.shapes.all.filterMap List.head?)
      refine .inl ⟨got, expected, by rw [hmisfit], ?_⟩
      rw [List.append_assoc]
      exact List.mem_append_right done hgot

/-- **Lists and the ends of their lines.** If a list that reading has come to meets a line end
before its closing bracket, then some token up to that line end, and so on the line of the opening
bracket, is at fault, unless the list is unended. Of unended lists it is the end of the text that is
reported, and of no others. Behind a line end such a list has neither a comma nor a closing
bracket. -/
theorem list_over_newline (source : Source) {o : Token}
    (h : Meets (endOf source.text) (tokens source.text) (.list b o) us) :
    (∀ head nl tail, us = head ++ nl :: tail → nl.kind = .newline →
      (∀ t ∈ head, t.kind ≠ .newline ∧ t.kind ≠ b.closer) →
      (∃ got expected, Document.read source = .error (.fault (.unexpectedToken got expected)) ∧
        got ∈ head ++ [nl] ∧ got.span.start.line = o.span.start.line ∧
        got.span.stop.line = o.span.start.line) ∨ Unended b us) ∧
    ((∃ span expected, (Demand.list b o).Fails (endOf source.text) us
      (.fault (.unexpectedEnd span expected))) ↔ Unended b us) ∧
    (Unended b us →
      Document.read source = .error (.fault
        (.unexpectedEnd (.point (endOf source.text)) [.comma, b.closer])) ∧
      ∀ head nl tail, us = head ++ nl :: tail → nl.kind = .newline →
        ∀ t ∈ tail, t.kind ≠ .comma ∧ t.kind ≠ b.closer) := by
  have hread : ∀ {e}, list (endOf source.text) b.closer b.shapes us = .error e →
      Document.read source = .error e := fun he => read_eq_error_iff.2 ⟨_, _, h, he⟩
  refine ⟨?_, ?_, fun hu => ⟨hread hu.list_eq, fun _ _ _ hus hnl => hu.behind_newline hus hnl⟩⟩
  · intro head nl tail hus hnl hhead
    refine (list_eq_of_newline (endOf source.text) hus hnl fun t ht => (hhead t ht).2).imp_left ?_
    rintro ⟨got, expected, hlist, hgot⟩
    obtain ⟨⟨before, htokens⟩, hopener⟩ := h.stands
    have ho : o.kind ≠ .newline := by
      rw [hopener]
      cases b <;> decide
    rw [hus] at htokens
    have hlines := lines_of_mem htokens.symm ho (fun t ht => (hhead t ht).1) hgot
    exact ⟨got, expected, hread hlist, hgot, hlines⟩
  · constructor
    · rintro ⟨span, expected, hlist⟩
      exact unended_of_list_eq hlist
    · exact fun hu => ⟨_, _, hu.list_eq⟩

/-- A module may begin with a template, and then its parameters come next. -/
theorem meets_first_params (h : (ts.take 5).map (·.kind) =
    [.atSign, .name, .braceOpen, .name, .angleOpen]) :
    ∃ o, ts[4]? = some o ∧ Meets stop ts (.list .params o) (ts.drop 5) := by
  rcases ts with _ | ⟨sign, _ | ⟨name, _ | ⟨brace, _ | ⟨t, _ | ⟨o, us⟩⟩⟩⟩⟩ <;>
    simp only [List.take_succ_cons, List.take_nil, List.take_zero, List.map_cons, List.map_nil,
      List.cons.injEq, reduceCtorEq, and_true, and_false] at h
  obtain ⟨hsign, hname, hbrace, ht, ho⟩ := h
  have hmodule : moduleName stop (name :: brace :: t :: o :: us) =
      .ok (name, brace :: t :: o :: us) :=
    moduleName_eq_ok_iff.2 ⟨[], by simp [Skip], rfl, .inl hname⟩
  have hopen : expect stop [.braceOpen] (skip (brace :: t :: o :: us)) =
      .ok (brace, t :: o :: us) :=
    (expect_skip_singleton rfl).2 ⟨[], by simp [Skip], rfl, hbrace⟩
  refine ⟨o, rfl, ?_⟩
  exact .inside hsign (.body hmodule hopen (.inside (.inl ht) (.header ht (.params ho))))

/-- A comma on the next line brings the line end to light. -/
theorem list_over_newline_comma : ∃ o head nl tail,
    Meets (endOf "@M\x7bT<a\n,") (tokens "@M\x7bT<a\n,") (.list .params o) (head ++ nl :: tail) ∧
    nl.kind = .newline ∧ (∀ t ∈ head, t.kind ≠ .newline ∧ t.kind ≠ .angleClose) ∧
    ∃ got expected,
      Document.read ⟨"a", "@M\x7bT<a\n,"⟩ = .error (.fault (.unexpectedToken got expected)) ∧
      got.span.start.line = o.span.start.line := by
  obtain ⟨o, -, hmeets⟩ : ∃ o, (tokens "@M\x7bT<a\n,")[4]? = some o ∧
      Meets (endOf "@M\x7bT<a\n,") (tokens "@M\x7bT<a\n,") (.list .params o)
        ((tokens "@M\x7bT<a\n,").drop 5) := meets_first_params (by decide +kernel)
  obtain ⟨head, nl, tail, hus, hnl, hhead, hcomma⟩ : ∃ head nl tail,
      (tokens "@M\x7bT<a\n,").drop 5 = head ++ nl :: tail ∧ nl.kind = .newline ∧
      (∀ t ∈ head, t.kind ≠ .newline ∧ t.kind ≠ .angleClose) ∧ ∃ t ∈ tail, t.kind = .comma :=
    ⟨[⟨.name, "a", ⟨⟨1, 6, 5⟩, ⟨1, 7, 6⟩⟩⟩], ⟨.newline, "\n", ⟨⟨1, 7, 6⟩, ⟨1, 8, 7⟩⟩⟩,
      [⟨.comma, ",", ⟨⟨2, 1, 7⟩, ⟨2, 2, 8⟩⟩⟩], by decide +kernel, rfl, by decide, by simp⟩
  rw [hus] at hmeets
  refine ⟨o, head, nl, tail, hmeets, hnl, hhead, ?_⟩
  have hlist := list_over_newline ⟨"a", "@M\x7bT<a\n,"⟩ hmeets
  rcases hlist.1 head nl tail rfl hnl hhead with ⟨got, expected, hread, -, hstart, -⟩ | hunended
  · exact ⟨got, expected, hread, hstart⟩
  · obtain ⟨t, ht, hkind⟩ := hcomma
    exact absurd hkind ((hlist.2.2 hunended).2 head nl tail rfl hnl t ht).1

/-- Without anything behind it that ends an entry, the line end goes unnoticed. -/
theorem newline_unnoticed_in_list : ∃ source o us nl span expected,
    Meets (endOf source.text) (tokens source.text) (.list .params o) us ∧
    nl ∈ us ∧ nl.kind = .newline ∧
    Document.read source = .error (.fault (.unexpectedEnd span expected)) := by
  obtain ⟨o, -, hmeets⟩ : ∃ o, (tokens "@M\x7bT<a\n")[4]? = some o ∧
      Meets (endOf "@M\x7bT<a\n") (tokens "@M\x7bT<a\n") (.list .params o)
        ((tokens "@M\x7bT<a\n").drop 5) := meets_first_params (by decide +kernel)
  exact ⟨⟨"a", "@M\x7bT<a\n"⟩, o, _, ⟨.newline, "\n", ⟨⟨1, 7, 6⟩, ⟨1, 8, 7⟩⟩⟩, .point ⟨2, 1, 7⟩,
    [.comma, .angleClose], hmeets, by decide +kernel, rfl, by decide +kernel⟩

end MacroModules.Grammar
