import MacroModules.Proofs.Except
import MacroModules.Proofs.Grammar

/-!
# Reading lists

The steps that read one token and the steps that read a list in brackets, against the grammar. Each
step is characterised by an equivalence: it succeeds exactly if the tokens begin with the form it
reads, and it leaves what follows.

* `expect_eq_ok_iff`, `expect_skip_eq_ok_iff`: one token, without or with blanks and comments before
  it.
* `entries_sound`, `entries_complete`, `list_eq_ok_iff`: the entries of a list. No token of an entry
  may be a comma, a closing bracket or a blank (`Separable`), or its end could not be seen.
* `header_eq_ok_iff`: both lists of a header, each of which may be left out.
-/

namespace MacroModules.Grammar

open Reader

variable {stop : Position}

/-! ## Single tokens -/

/-- Where a run of tokens ends, and what it consists of. -/
theorem run_of_dropWhile {p : Token → Bool} {ts rest : List Token} {t : Token}
    (h : ts.dropWhile p = t :: rest) :
    p t = false ∧ (∀ u ∈ ts.takeWhile p, p u = true) ∧ ts = ts.takeWhile p ++ t :: rest := by
  have ht := List.head?_dropWhile_not p ts
  rw [h] at ht
  refine ⟨ht, List.all_eq_true.1 List.all_takeWhile, ?_⟩
  rw [← h, List.takeWhile_append_dropWhile]

theorem dropWhile_run {p : Token → Bool} {run rest : List Token} {t : Token}
    (hrun : ∀ u ∈ run, p u = true) (ht : p t = false) :
    (run ++ t :: rest).dropWhile p = t :: rest := by
  rw [List.dropWhile_append_of_pos hrun, List.dropWhile_cons_of_neg (by simp [ht])]

theorem takeWhile_run {p : Token → Bool} {run rest : List Token} {t : Token}
    (hrun : ∀ u ∈ run, p u = true) (ht : p t = false) :
    (run ++ t :: rest).takeWhile p = run := by
  rw [List.takeWhile_append_of_pos hrun, List.takeWhile_cons_of_neg (by simp [ht]),
    List.append_nil]

/-- What is skipped are blanks and comments. -/
theorem exists_skip (ts : List Token) : ∃ gap, Skip gap ∧ ts = gap ++ skip ts :=
  ⟨ts.takeWhile (·.kind.isInsignificant), List.all_eq_true.1 List.all_takeWhile,
    List.takeWhile_append_dropWhile.symm⟩

theorem skip_append {gap rest : List Token} {t : Token} (hgap : Skip gap)
    (ht : t.kind.isInsignificant = false) : skip (gap ++ t :: rest) = t :: rest :=
  dropWhile_run hgap ht

theorem expect_eq_ok_iff {kinds : List Kind} {ts rest : List Token} {t : Token} :
    expect stop kinds ts = .ok (t, rest) ↔ ts = t :: rest ∧ t.kind ∈ kinds := by
  cases ts with
  | nil => simp [expect]
  | cons u us =>
    rw [expect]
    split
    · next hu =>
      constructor
      · intro h; cases h; exact ⟨rfl, hu⟩
      · rintro ⟨h, -⟩; cases h; rfl
    · next hu =>
      constructor
      · intro h; cases h
      · rintro ⟨h, ht⟩; cases h; exact absurd ht hu

/-- The next significant token. -/
theorem expect_skip_eq_ok_iff {kinds : List Kind} {ts rest : List Token} {t : Token}
    (hk : ∀ k ∈ kinds, k.isInsignificant = false) :
    expect stop kinds (skip ts) = .ok (t, rest) ↔
      ∃ gap, Skip gap ∧ ts = gap ++ t :: rest ∧ t.kind ∈ kinds := by
  rw [expect_eq_ok_iff]
  constructor
  · rintro ⟨h, ht⟩
    obtain ⟨gap, hgap, hts⟩ := exists_skip ts
    exact ⟨gap, hgap, by rw [← h]; exact hts, ht⟩
  · rintro ⟨gap, hgap, rfl, ht⟩
    exact ⟨skip_append hgap (hk _ ht), ht⟩

/-! ## Entries -/

/-- The tokens of an entry cannot be taken for what ends an entry, nor be skipped. -/
structure Separable (closer : Kind) (shapes : List (List Kind)) : Prop where
  closer_ne_comma : closer ≠ .comma
  closer_significant : closer.isInsignificant = false
  nonempty : ∀ shape ∈ shapes, shape ≠ []
  inner : ∀ shape ∈ shapes, ∀ k ∈ shape,
    k.isInsignificant = false ∧ k ≠ .comma ∧ k ≠ closer

theorem entry_eq_ok_iff {shapes : Shapes} {terminator : Token} {ts : List Token}
    {e : List String} : entry shapes terminator ts = .ok e ↔
      ts.map (·.kind) ∈ shapes.all ∧ e = ts.map (·.text) := by
  rw [entry]
  split
  · next h =>
    constructor
    · intro he; cases he; exact ⟨h, rfl⟩
    · rintro ⟨-, rfl⟩; rfl
  · next h =>
    constructor
    · intro he; cases he
    · rintro ⟨h', -⟩; exact absurd h' h

/-- An entry is a row of tokens of certain kinds, blanks and comments left out. -/
theorem entry_iff_filter {shape : List Kind} {ts : List Token} {e : List String}
    (hs : ∀ k ∈ shape, k.isInsignificant = false) : Entry shape ts e ↔
      (ts.filter (!·.kind.isInsignificant)).map (·.kind) = shape ∧
        e = (ts.filter (!·.kind.isInsignificant)).map (·.text) := by
  have hskip : ∀ {gap : List Token}, Skip gap → gap.filter (!·.kind.isInsignificant) = [] := by
    intro gap hgap
    rw [List.filter_eq_nil_iff]
    intro t ht
    simp [hgap t ht]
  constructor
  · intro h
    induction h with
    | done hgap => simp [hskip hgap]
    | @token k ks gap ts t texts hgap ht hrest ih =>
      obtain ⟨hkinds, htexts⟩ := ih fun k hk => hs k (List.mem_cons_of_mem _ hk)
      have hsig := hs k List.mem_cons_self
      rw [List.filter_append, hskip hgap, List.nil_append,
        List.filter_cons_of_pos (by simp [ht, hsig])]
      simp [ht, hkinds, htexts]
  · induction shape generalizing ts e with
    | nil =>
      rintro ⟨hkinds, rfl⟩
      have hnil := List.map_eq_nil_iff.1 hkinds
      rw [hnil]
      refine .done fun t ht => ?_
      simpa using List.filter_eq_nil_iff.1 hnil t ht
    | cons k ks ih =>
      rintro ⟨hkinds, rfl⟩
      obtain ⟨t, us, hus, ht, hks⟩ := List.map_eq_cons_iff.1 hkinds
      obtain ⟨gap, rest, rfl, hgap, hsig, hrest⟩ := List.filter_eq_cons_iff.1 hus
      rw [hus, List.map_cons, ← hrest]
      refine .token (fun u hu => by simpa using hgap u hu) ht ?_
      exact ih (fun k hk => hs k (List.mem_cons_of_mem _ hk)) ⟨by rw [hrest]; exact hks, rfl⟩

variable {closer : Kind} {shapes : Shapes}

theorem isInner_eq_true {t : Token} :
    isInner closer t = true ↔ t.kind ≠ .comma ∧ t.kind ≠ closer := by
  simp [isInner]

/-- What ends an entry is a comma or the closing bracket. -/
theorem isInner_eq_false {t : Token} :
    isInner closer t = false ↔ t.kind = .comma ∨ t.kind = closer := by
  rw [← Bool.not_eq_true, isInner_eq_true]
  by_cases h : t.kind = .comma <;> simp [h]

/-- All tokens of an entry, blanks and comments included, lie before what ends it. -/
theorem Entry.inner {shape : List Kind} {ts : List Token} {e : List String}
    (hsep : Separable closer shapes.all) (hs : shape ∈ shapes.all) (h : Entry shape ts e) :
    ∀ t ∈ ts, isInner closer t = true := by
  have hin := hsep.inner shape hs
  have hgap : ∀ t : Token, t.kind.isInsignificant = true → isInner closer t = true := by
    intro t ht
    rw [isInner_eq_true]
    constructor
    · intro he; rw [he] at ht; cases ht
    · intro he; rw [he, hsep.closer_significant] at ht; cases ht
  clear hs
  induction h with
  | done hskip => exact fun t ht => hgap t (hskip t ht)
  | @token k ks gap ts t texts hskip ht hrest ih =>
    intro u hu
    rcases List.mem_append.1 hu with hu | hu
    · exact hgap u (hskip u hu)
    rcases List.mem_cons.1 hu with rfl | hu
    · exact isInner_eq_true.2 (ht ▸ (hin k List.mem_cons_self).2)
    · exact ih (fun k hk => hin k (List.mem_cons_of_mem _ hk)) u hu

/-- An entry as it is read: the tokens up to what ends it, blanks and comments left out. -/
theorem entry_read {ts rest : List Token} {t : Token} (hsep : Separable closer shapes.all)
    (hts : ∀ u ∈ ts, isInner closer u = true) (ht : isInner closer t = false)
    {e : List String} : entry shapes t (significant closer (ts ++ t :: rest)) = .ok e ↔
      ∃ shape ∈ shapes.all, Entry shape ts e := by
  rw [entry_eq_ok_iff, significant, takeWhile_run hts ht]
  constructor
  · rintro ⟨hkinds, rfl⟩
    exact ⟨_, hkinds, (entry_iff_filter fun k hk => (hsep.inner _ hkinds k hk).1).2 ⟨rfl, rfl⟩⟩
  · rintro ⟨shape, hs, h⟩
    obtain ⟨rfl, rfl⟩ := (entry_iff_filter fun k hk => (hsep.inner _ hs k hk).1).1 h
    exact ⟨hs, rfl⟩

/-! ## Lists -/

/-- One entry of a list and what comes behind it. -/
theorem entries_eq_ok_step {ts us rest : List Token} {t : Token} {es : List (List String)}
    (h : ts.dropWhile (isInner closer) = t :: us) :
    entries stop closer shapes ts = .ok (es, rest) ↔
      ∃ e, entry shapes t (significant closer ts) = .ok e ∧
        ((t.kind = closer ∧ es = [e] ∧ rest = us) ∨
          (t.kind ≠ closer ∧ ∃ fs, entries stop closer shapes us = .ok (fs, rest) ∧
            es = e :: fs)) := by
  rw [entries]
  split
  · next h' => rw [h] at h'; cases h'
  · next t' us' h' =>
    rw [h] at h'
    cases h'
    rw [bind_eq_ok_iff]
    refine exists_congr fun e => and_congr_right fun _ => ?_
    split
    · next ht =>
      constructor
      · intro he; cases he; exact .inl ⟨ht, rfl, rfl⟩
      · rintro (⟨-, rfl, rfl⟩ | ⟨hne, -⟩)
        · rfl
        · exact absurd ht hne
    · next ht =>
      rw [bind_eq_ok_iff]
      constructor
      · rintro ⟨⟨fs, rest'⟩, hfs, he⟩
        cases he
        exact .inr ⟨ht, fs, hfs, rfl⟩
      · rintro (⟨he, -⟩ | ⟨-, fs, hfs, rfl⟩)
        · exact absurd he ht
        · exact ⟨(fs, rest), hfs, rfl⟩

theorem entries_sound {ts rest : List Token} {es : List (List String)}
    (hsep : Separable closer shapes.all) (h : entries stop closer shapes ts = .ok (es, rest)) :
    ∃ us c, ts = us ++ c :: rest ∧ c.kind = closer ∧ Entries shapes.all us es := by
  -- by the length of the list, since each entry and what ends it is taken off the front
  induction hn : ts.length using Nat.strongRecOn generalizing ts es with
  | ind n ih =>
    cases hd : ts.dropWhile (isInner closer) with
    | nil =>
      rw [entries] at h
      split at h
      · cases h
      · next h' => rw [hd] at h'; cases h'
    | cons t us =>
      obtain ⟨ht, hrun, hts⟩ := run_of_dropWhile hd
      obtain ⟨e, he, hcase⟩ := (entries_eq_ok_step hd).1 h
      rw [hts] at he
      obtain ⟨shape, hs, hentry⟩ := (entry_read hsep hrun ht).1 he
      rcases hcase with ⟨hclose, rfl, rfl⟩ | ⟨hne, fs, hfs, rfl⟩
      · exact ⟨_, t, hts, hclose, .last hs hentry⟩
      · have hcomma : t.kind = .comma := (isInner_eq_false.1 ht).resolve_right hne
        have hlt : us.length < n := by
          rw [← hn, hts, List.length_append, List.length_cons]; omega
        obtain ⟨vs, c, rfl, hc, hvs⟩ := ih us.length hlt hfs rfl
        refine ⟨_, c, ?_, hc, .more hs hentry hcomma hvs⟩
        rw [List.append_assoc, List.cons_append]
        exact hts

theorem entries_complete {us rest : List Token} {c : Token} {es : List (List String)}
    (hsep : Separable closer shapes.all) (hc : c.kind = closer) (h : Entries shapes.all us es) :
    entries stop closer shapes (us ++ c :: rest) = .ok (es, rest) := by
  have hcf : isInner closer c = false := isInner_eq_false.2 (.inr hc)
  induction h with
  | last hs he =>
    have hin := he.inner hsep hs
    rw [entries_eq_ok_step (dropWhile_run hin hcf)]
    exact ⟨_, (entry_read hsep hin hcf).2 ⟨_, hs, he⟩, .inl ⟨hc, rfl, rfl⟩⟩
  | @more shape ts us comma e es hs he hcomma hrest ih =>
    have hin := he.inner hsep hs
    have hf : isInner closer comma = false := isInner_eq_false.2 (.inl hcomma)
    have hne : comma.kind ≠ closer := by
      rw [hcomma]; exact hsep.closer_ne_comma.symm
    rw [List.append_assoc, List.cons_append, entries_eq_ok_step (dropWhile_run hin hf)]
    exact ⟨_, (entry_read hsep hin hf).2 ⟨_, hs, he⟩, .inr ⟨hne, _, ih, rfl⟩⟩

/-- The tokens of an entry among the blanks and comments. -/
theorem Entry.tokens {shape : List Kind} {ts : List Token} {e : List String}
    (h : Entry shape ts e) : ∃ us : List Token,
      us.Sublist ts ∧ us.map (·.kind) = shape ∧ us.map (·.text) = e := by
  induction h with
  | done => exact ⟨[], List.nil_sublist _, rfl, rfl⟩
  | @token k ks gap ts t texts _ ht _ ih =>
    obtain ⟨us, hus, hkinds, htexts⟩ := ih
    refine ⟨t :: us, ?_, by simp [ht, hkinds], by simp [htexts]⟩
    exact (hus.cons_cons t).trans (List.sublist_append_right gap (t :: ts))

theorem Entries.tokens {shapes : List (List Kind)} {ts : List Token} {es : List (List String)}
    (h : Entries shapes ts es) : ∀ e ∈ es, ∃ us : List Token,
      us.Sublist ts ∧ us.map (·.kind) ∈ shapes ∧ us.map (·.text) = e := by
  induction h with
  | last hs he =>
    intro e' he'
    rw [List.mem_singleton.1 he']
    obtain ⟨us, hus, rfl, htexts⟩ := he.tokens
    exact ⟨us, hus, hs, htexts⟩
  | @more shape ts vs comma e es hs he _ _ ih =>
    intro e' he'
    rcases List.mem_cons.1 he' with rfl | he'
    · obtain ⟨us, hus, rfl, htexts⟩ := he.tokens
      exact ⟨us, hus.trans (List.sublist_append_left _ _), hs, htexts⟩
    · obtain ⟨us, hus, hkinds, htexts⟩ := ih e' he'
      refine ⟨us, hus.trans ?_, hkinds, htexts⟩
      exact (List.sublist_cons_self comma vs).trans (List.sublist_append_right _ _)

/-- Blanks and comments before a list belong to its first entry. -/
theorem Entries.skip_left {all : List (List Kind)} {gap us : List Token} {es : List (List String)}
    (hgap : Skip gap) (h : Entries all us es) : Entries all (gap ++ us) es := by
  have hskip : ∀ {gap' : List Token}, Skip gap' → Skip (gap ++ gap') := by
    intro gap' hgap' t ht
    exact (List.mem_append.1 ht).elim (hgap t) (hgap' t)
  have hentry : ∀ {shape ts e}, Entry shape ts e → Entry shape (gap ++ ts) e := by
    intro shape ts e he
    cases he with
    | done hg => exact .done (hskip hg)
    | token hg ht hrest =>
      rw [← List.append_assoc]
      exact .token (hskip hg) ht hrest
  cases h with
  | last hs he => exact .last hs (hentry he)
  | more hs he hcomma hrest =>
    rw [← List.append_assoc]
    exact .more hs (hentry he) hcomma hrest

/-- The first token of a list that is no blank or comment does not close the list. -/
theorem Entries.first {us : List Token} {es : List (List String)}
    (hsep : Separable closer shapes.all) (h : Entries shapes.all us es) :
    ∃ gap t us', us = gap ++ t :: us' ∧ Skip gap ∧ t.kind.isInsignificant = false ∧
      t.kind ≠ closer ∧ Entries shapes.all (t :: us') es := by
  have hentry : ∀ {shape ts e}, shape ∈ shapes.all → Entry shape ts e → ∃ gap t ts',
      ts = gap ++ t :: ts' ∧ Skip gap ∧ t.kind.isInsignificant = false ∧ t.kind ≠ closer ∧
        Entry shape (t :: ts') e := by
    intro shape ts e hs he
    cases he with
    | done => exact absurd rfl (hsep.nonempty _ hs)
    | @token k ks gap ts t texts hgap ht hrest =>
      have hk := hsep.inner _ hs k List.mem_cons_self
      have hentry : Entry (k :: ks) ([] ++ t :: ts) (t.text :: texts) :=
        .token (by simp [Skip]) ht hrest
      exact ⟨gap, t, ts, rfl, hgap, ht ▸ hk.1, ht ▸ hk.2.2, hentry⟩
  cases h with
  | last hs he =>
    obtain ⟨gap, t, ts', rfl, hgap, hsig, hne, he'⟩ := hentry hs he
    exact ⟨gap, t, ts', rfl, hgap, hsig, hne, .last hs he'⟩
  | more hs he hcomma hrest =>
    obtain ⟨gap, t, ts', rfl, hgap, hsig, hne, he'⟩ := hentry hs he
    exact ⟨gap, t, _, by simp, hgap, hsig, hne, .more hs he' hcomma hrest⟩

theorem list_eq_ok_iff {ts rest : List Token} {es : List (List String)}
    (hsep : Separable closer shapes.all) : list stop closer shapes ts = .ok (es, rest) ↔
      ∃ us, ts = us ++ rest ∧ Enclosed closer shapes.all us es := by
  constructor
  · intro h
    obtain ⟨gap, hgap, hts⟩ := exists_skip ts
    rw [list] at h
    split at h
    · obtain ⟨us, c, hnil, -⟩ := entries_sound hsep h
      cases us <;> cases hnil
    · next t us hskip =>
      rw [hskip] at hts
      split at h
      · next ht =>
        cases h
        exact ⟨gap ++ [t], by simp [hts], .empty hgap ht⟩
      · obtain ⟨vs, c, hvs, hc, hes⟩ := entries_sound hsep h
        refine ⟨gap ++ vs ++ [c], ?_, .entries (hes.skip_left hgap) hc⟩
        rw [hts, hvs]
        simp
  · rintro ⟨us, rfl, h⟩
    cases h with
    | @empty gap c hgap hc =>
      have hsig : c.kind.isInsignificant = false := by rw [hc]; exact hsep.closer_significant
      rw [List.append_assoc, List.singleton_append, list, skip_append hgap hsig]
      simp only
      rw [if_pos hc]
    | @entries ts c es hes hc =>
      obtain ⟨gap, t, us, rfl, hgap, hsig, hne, hes'⟩ := hes.first hsep
      rw [List.append_assoc, List.append_assoc, List.cons_append, list, skip_append hgap hsig]
      simp only
      rw [if_neg hne, ← List.cons_append]
      exact entries_complete hsep hc hes'

theorem optionalList_eq_ok_iff {opener : Kind} {ts rest : List Token} {r : Option (List String)}
    (hsep : Separable closer shapes.all) :
    optionalList stop closer shapes opener ts = .ok (r, rest) ↔
      (r = none ∧ rest = ts ∧ ∀ t, ts.head? = some t → t.kind ≠ opener) ∨
        ∃ us es, ts = us ++ rest ∧ Bracketed opener closer shapes.all us es ∧
          r = some es.flatten := by
  constructor
  · intro h
    cases ts with
    | nil => cases h; exact .inl ⟨rfl, rfl, by simp⟩
    | cons o ts =>
      rw [optionalList] at h
      split at h
      · next ho =>
        obtain ⟨⟨es, rest'⟩, hlist, hret⟩ := bind_eq_ok_iff.1 h
        cases hret
        obtain ⟨us, rfl, hus⟩ := (list_eq_ok_iff hsep).1 hlist
        exact .inr ⟨o :: us, es, rfl, .intro ho hus, rfl⟩
      · next ho =>
        cases h
        refine .inl ⟨rfl, rfl, fun t ht => ?_⟩
        cases ht
        exact ho
  · rintro (⟨rfl, rfl, ho⟩ | ⟨us, es, rfl, h, rfl⟩)
    · cases rest with
      | nil => rfl
      | cons o ts => rw [optionalList, if_neg (ho o rfl)]
    · cases h with
      | intro ho hus =>
        rw [List.cons_append, optionalList, if_pos ho]
        exact bind_eq_ok_iff.2 ⟨_, (list_eq_ok_iff hsep).2 ⟨_, rfl, hus⟩, rfl⟩

/-! ## Headers -/

theorem separable_params : Separable .angleClose [[Kind.name]] :=
  ⟨by decide, by decide, by decide, by decide⟩

theorem separable_args : Separable .parenClose [[Kind.name], [Kind.ellipsis]] :=
  ⟨by decide, by decide, by decide, by decide⟩

theorem separable_ranges : Separable .angleClose [[Kind.number, .range, .number]] :=
  ⟨by decide, by decide, by decide, by decide⟩

theorem Bracketed.head {opener closer : Kind} {all : List (List Kind)} {ts rest : List Token}
    {es : List (List String)} (h : Bracketed opener closer all ts es) {t : Token}
    (ht : (ts ++ rest).head? = some t) : t.kind = opener := by
  cases h with
  | intro ho _ => cases ht; exact ho

/-- **A header is read up to where it is closed.** -/
theorem header_eq_ok_iff {ts rest : List Token} {h : Header} :
    header stop ts = .ok (h, rest) ↔ ∃ head, ts = head ++ rest ∧ Head head h ∧ Closed h rest := by
  constructor
  · intro heq
    obtain ⟨⟨params, ts₁⟩, hparams, heq⟩ := bind_eq_ok_iff.1 heq
    obtain ⟨⟨args, ts₂⟩, hargs, hret⟩ := bind_eq_ok_iff.1 heq
    cases hret
    rcases (optionalList_eq_ok_iff separable_params).1 hparams with
      ⟨rfl, rfl, hangle⟩ | ⟨us, es, rfl, hus, rfl⟩ <;>
    rcases (optionalList_eq_ok_iff separable_args).1 hargs with
      ⟨rfl, rfl, hparen⟩ | ⟨vs, fs, rfl, hvs, rfl⟩
    · exact ⟨[], rfl, .plain, fun _ => hparen, fun _ _ => hangle⟩
    · exact ⟨vs, rfl, .args hvs, fun hn => (by cases hn), fun hn => (by cases hn)⟩
    · exact ⟨us, rfl, .params hus, fun _ => hparen, fun _ hn => (by cases hn)⟩
    · exact ⟨us ++ vs, by simp, .both hus hvs, fun hn => (by cases hn), fun hn => (by cases hn)⟩
  · rintro ⟨head, rfl, hhead, hclosed⟩
    -- the parameters are missing if the header begins with an argument list or not at all
    have hread : ∀ {params args : Option (List String)} (us vs : List Token),
        optionalList stop .angleClose ⟨[.name], []⟩ .angleOpen (us ++ (vs ++ rest)) =
          .ok (params, vs ++ rest) →
        optionalList stop .parenClose ⟨[.name], [[.ellipsis]]⟩ .parenOpen (vs ++ rest) =
          .ok (args, rest) →
        header stop (us ++ (vs ++ rest)) = .ok (⟨params, args⟩, rest) := by
      intro params args us vs hp ha
      exact bind_eq_ok_iff.2 ⟨_, hp, bind_eq_ok_iff.2 ⟨_, ha, rfl⟩⟩
    cases hhead with
    | plain =>
      refine hread [] [] ?_ ?_
      · exact (optionalList_eq_ok_iff separable_params).2 (.inl ⟨rfl, rfl, hclosed.angle rfl rfl⟩)
      · exact (optionalList_eq_ok_iff separable_args).2 (.inl ⟨rfl, rfl, hclosed.paren rfl⟩)
    | args hvs =>
      refine hread [] _ ?_ ?_
      · refine (optionalList_eq_ok_iff separable_params).2 (.inl ⟨rfl, rfl, fun t ht => ?_⟩)
        rw [hvs.head ht]
        decide
      · exact (optionalList_eq_ok_iff separable_args).2 (.inr ⟨_, _, rfl, hvs, rfl⟩)
    | params hus =>
      refine hread _ [] ?_ ?_
      · exact (optionalList_eq_ok_iff separable_params).2 (.inr ⟨_, _, rfl, hus, rfl⟩)
      · exact (optionalList_eq_ok_iff separable_args).2 (.inl ⟨rfl, rfl, hclosed.paren rfl⟩)
    | both hus hvs =>
      rw [List.append_assoc]
      refine hread _ _ ?_ ?_
      · exact (optionalList_eq_ok_iff separable_params).2 (.inr ⟨_, _, rfl, hus, rfl⟩)
      · exact (optionalList_eq_ok_iff separable_args).2 (.inr ⟨_, _, rfl, hvs, rfl⟩)

end MacroModules.Grammar
