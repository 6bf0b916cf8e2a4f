import Mathlib.Data.List.TakeWhile
import MacroModules.Proofs.Grammar.Bounds
import MacroModules.Proofs.Grammar.Faults

/-!
# Lists that cannot be read

The entries of a list are looked at one by one, each when the comma or the bracket that ends it has
been found. A list therefore fails in one of two ways: an entry does not fit, or the last one is
not ended.

* `Passed`: a list up to one of its entries, which may be any.
* `EntryFails`, `list_eq_error_iff`: how a list fails at an entry.
* `misfit_cases`: which token of an entry is blamed if the entry does not fit.
* `LeadingEllipsis`: an ellipsis that begins an argument and has something behind it.
* `expected_of_unexpectedToken`: **a token is blamed for not being what it is** in that case only.
-/

namespace MacroModules.Grammar

open Reader

/-- The tokens of a list up to one of its entries: entries that fit, with a comma behind each. -/
inductive Passed (shapes : List (List Kind)) : List Token → List Token → Prop
  | none {ts : List Token} : Passed shapes ts ts
  | entry {shape : List Kind} {us ts vs : List Token} {comma : Token} {e : List String} :
      shape ∈ shapes → Entry shape us e → comma.kind = .comma → Passed shapes ts vs →
      Passed shapes (us ++ comma :: ts) vs

/-- An entry without blanks and comments. -/
def trimmed (ts : List Token) : List Token := ts.filter (!·.kind.isInsignificant)

/-- How reading a list fails at the entry that these tokens begin with. -/
inductive EntryFails (stop : Position) (closer : Kind) (shapes : Shapes) :
    List Token → ReadFailure → Prop
  | unended {ts : List Token} : (∀ t ∈ ts, isInner closer t = true) →
      EntryFails stop closer shapes ts (.fault (.unexpectedEnd (.point stop) [.comma, closer]))
  | misfit {ts rest : List Token} {t : Token} : (∀ u ∈ ts, isInner closer u = true) →
      isInner closer t = false → (trimmed ts).map (·.kind) ∉ shapes.all →
      EntryFails stop closer shapes (ts ++ t :: rest) (.fault
        (misfit t shapes.main (shapes.all.filterMap List.head?) (trimmed ts)))

variable {stop : Position} {closer : Kind} {shapes : Shapes} {ts : List Token} {e : ReadFailure}

theorem mem_trimmed {t : Token} : t ∈ trimmed ts ↔ t ∈ ts ∧ t.kind.isInsignificant = false := by
  simp [trimmed]

theorem trimmed_eq_nil : trimmed ts = [] ↔ Skip ts := by
  simp [trimmed, Skip]

theorem trimmed_skip_append {gap : List Token} (hgap : Skip gap) (ts : List Token) :
    trimmed (gap ++ ts) = trimmed ts := by
  have hnil : trimmed gap = [] := trimmed_eq_nil.2 hgap
  rw [trimmed, List.filter_append]
  change trimmed gap ++ trimmed ts = trimmed ts
  rw [hnil, List.nil_append]

theorem trimmed_cons {t : Token} (ht : t.kind.isInsignificant = false) (ts : List Token) :
    trimmed (t :: ts) = t :: trimmed ts :=
  List.filter_cons_of_pos (by simp [ht])

theorem trimmed_eq_cons {t : Token} {us : List Token} (h : trimmed ts = t :: us) :
    ∃ gap rest, ts = gap ++ t :: rest ∧ Skip gap ∧ trimmed rest = us := by
  obtain ⟨gap, rest, rfl, hgap, -, hrest⟩ := List.filter_eq_cons_iff.1 h
  exact ⟨gap, rest, rfl, fun u hu => by simpa using hgap u hu, hrest⟩

/-! ## Lists fail at an entry -/

theorem entry_eq_error_iff {terminator : Token} : entry shapes terminator ts = .error e ↔
    ts.map (·.kind) ∉ shapes.all ∧
      e = .fault (misfit terminator shapes.main (shapes.all.filterMap List.head?) ts) := by
  rw [entry]
  split
  · next h =>
    constructor
    · rintro ⟨⟩
    · rintro ⟨hne, -⟩
      exact absurd h hne
  · next h =>
    constructor
    · rintro ⟨⟩
      exact ⟨h, rfl⟩
    · rintro ⟨-, rfl⟩
      rfl

/-- One entry of a list and what comes behind it, if the list fails. -/
theorem entries_eq_error_step {us : List Token} {t : Token}
    (h : ts.dropWhile (isInner closer) = t :: us) :
    entries stop closer shapes ts = .error e ↔
      entry shapes t (significant closer ts) = .error e ∨
        (∃ x, entry shapes t (significant closer ts) = .ok x) ∧ t.kind ≠ closer ∧
          entries stop closer shapes us = .error e := by
  rw [entries]
  split
  · next h' => rw [h] at h'; cases h'
  · next t' us' h' =>
    rw [h] at h'
    cases h'
    rw [bind_eq_error_iff]
    refine or_congr_right ?_
    split
    · next ht =>
      constructor
      · rintro ⟨x, -, ⟨⟩⟩
      · rintro ⟨-, hne, -⟩
        exact absurd ht hne
    · next ht =>
      constructor
      · rintro ⟨x, hx, hrest⟩
        exact ⟨⟨x, hx⟩, ht, bind_pure_eq_error_iff.1 hrest⟩
      · rintro ⟨⟨x, hx⟩, -, hrest⟩
        exact ⟨x, hx, bind_pure_eq_error_iff.2 hrest⟩

theorem entries_eq_error_iff (hsep : Separable closer shapes.all) :
    entries stop closer shapes ts = .error e ↔
      ∃ us, Passed shapes.all ts us ∧ EntryFails stop closer shapes us e := by
  constructor
  · intro h
    fun_induction entries stop closer shapes ts with
    | case1 ts hd =>
      cases h
      refine ⟨ts, .none, .unended fun t ht => ?_⟩
      simpa using List.dropWhile_eq_nil_iff.1 hd t ht
    | case2 ts t rest hd ih =>
      obtain ⟨ht, hrun, hts⟩ := run_of_dropWhile hd
      rcases bind_eq_error_iff.1 h with h | ⟨x, hx, h⟩
      · obtain ⟨hne, rfl⟩ := entry_eq_error_iff.1 h
        have hfails : EntryFails stop closer shapes (ts.takeWhile (isInner closer) ++ t :: rest)
            (.fault (misfit t shapes.main (shapes.all.filterMap List.head?)
              (significant closer ts))) := .misfit hrun ht hne
        rw [← hts] at hfails
        exact ⟨ts, .none, hfails⟩
      · split at h
        · cases h
        · next hne =>
          obtain ⟨us, hpassed, hfails⟩ := ih (bind_pure_eq_error_iff.1 h)
          rw [hts] at hx
          obtain ⟨shape, hs, hentry⟩ := (entry_read hsep hrun ht).1 hx
          have hcomma := (isInner_eq_false.1 ht).resolve_right hne
          have := Passed.entry hs hentry hcomma hpassed
          rw [← hts] at this
          exact ⟨us, this, hfails⟩
  · rintro ⟨us, hpassed, hfails⟩
    induction hpassed with
    | none =>
      cases hfails with
      | unended hinner =>
        have hd := List.dropWhile_eq_nil_iff.2 hinner
        rw [entries]
        split
        · rfl
        · next h' => rw [hd] at h'; cases h'
      | misfit hinner ht hne =>
        rw [entries_eq_error_step (dropWhile_run hinner ht), significant, takeWhile_run hinner ht]
        exact .inl (entry_eq_error_iff.2 ⟨hne, rfl⟩)
    | @entry shape us ts vs comma x hs hentry hcomma _ ih =>
      have hin := hentry.inner hsep hs
      have hf : isInner closer comma = false := isInner_eq_false.2 (.inl hcomma)
      rw [entries_eq_error_step (dropWhile_run hin hf)]
      refine .inr ⟨⟨_, (entry_read hsep hin hf).2 ⟨_, hs, hentry⟩⟩, ?_, ih hfails⟩
      rw [hcomma]
      exact hsep.closer_ne_comma.symm

/-- Blanks and comments do not end an entry. -/
theorem isInner_of_skip {gap : List Token} (hsep : Separable closer shapes.all) (hgap : Skip gap) :
    ∀ t ∈ gap, isInner closer t = true := by
  intro t ht
  have hskip := hgap t ht
  rw [isInner_eq_true]
  constructor
  · intro hk
    rw [hk] at hskip
    cases hskip
  · intro hk
    rw [hk, hsep.closer_significant] at hskip
    cases hskip

/-- Blanks and comments before the first entry do not matter. -/
theorem entries_append_of_skip {gap : List Token} (hsep : Separable closer shapes.all)
    (hgap : Skip gap) :
    entries stop closer shapes (gap ++ ts) = .error e ↔
      entries stop closer shapes ts = .error e := by
  have hin := isInner_of_skip hsep hgap
  have hd : (gap ++ ts).dropWhile (isInner closer) = ts.dropWhile (isInner closer) :=
    List.dropWhile_append_of_pos hin
  have hsig : significant closer (gap ++ ts) = significant closer ts := by
    rw [significant, List.takeWhile_append_of_pos hin]
    exact trimmed_skip_append hgap _
  cases h : ts.dropWhile (isInner closer) with
  | nil =>
    rw [entries, entries]
    split
    · split
      · rfl
      · next h' => rw [h] at h'; cases h'
    · next h' => rw [hd, h] at h'; cases h'
  | cons t us => rw [entries_eq_error_step (hd.trans h), entries_eq_error_step h, hsig]

/-- **A list fails at one of its entries**, unless its closing bracket follows at once. -/
theorem list_eq_error_iff (hsep : Separable closer shapes.all) :
    list stop closer shapes ts = .error e ↔
      (∀ t, (skip ts).head? = some t → t.kind ≠ closer) ∧
        ∃ us, Passed shapes.all ts us ∧ EntryFails stop closer shapes us e := by
  have hskip : entries stop closer shapes ts = .error e ↔
      entries stop closer shapes (skip ts) = .error e := by
    obtain ⟨gap, hgap, hts⟩ := exists_skip ts
    conv_lhs => rw [hts]
    exact entries_append_of_skip hsep hgap
  rw [← entries_eq_error_iff hsep, hskip, list]
  cases skip ts with
  | nil => simp
  | cons t us =>
    dsimp only
    split
    · next ht =>
      constructor
      · rintro ⟨⟩
      · rintro ⟨hne, -⟩
        exact absurd ht (hne t rfl)
    · next ht =>
      constructor
      · exact fun h => ⟨by rintro u ⟨⟩; exact ht, h⟩
      · exact fun h => h.2

/-! ## The token that is blamed -/

/-- **Which token of an entry is blamed, and what is expected in its place.** With the main shape in
mind the entry is followed as far as it fits. The token behind that is blamed, be it a wrong one,
the one that ends the entry too early, or one too many. -/
theorem misfit_cases (terminator : Token) (shape expected : List Kind) (ts : List Token) :
    (∃ fit k ks u rest, shape = fit.map (·.kind) ++ k :: ks ∧ ts = fit ++ u :: rest ∧ u.kind ≠ k ∧
      misfit terminator shape expected ts =
        .unexpectedToken u (if fit = [] then expected else [k])) ∨
    (∃ k ks, shape = ts.map (·.kind) ++ k :: ks ∧
      misfit terminator shape expected ts =
        .unexpectedToken terminator (if ts = [] then expected else [k])) ∨
    (∃ fit rest, shape = fit.map (·.kind) ∧ ts = fit ++ rest ∧
      misfit terminator shape expected ts = .unexpectedToken (rest.headD terminator)
        (if terminator.kind = .comma then [.comma] else [.comma, terminator.kind])) := by
  fun_induction misfit terminator shape expected ts with
  | case1 ks expected t ts ih =>
    -- behind the first token the kind that comes next is the only one expected
    rcases ih with ⟨fit, k, ks', u, rest, rfl, rfl, hu, hmisfit⟩ | ⟨k, ks', rfl, hmisfit⟩ |
      ⟨fit, rest, rfl, rfl, hmisfit⟩
    · refine .inl ⟨t :: fit, k, ks', u, rest, rfl, rfl, hu, ?_⟩
      rw [hmisfit, if_neg (List.cons_ne_nil _ _)]
      cases fit <;> rfl
    · refine .inr (.inl ⟨k, ks', rfl, ?_⟩)
      rw [hmisfit, if_neg (List.cons_ne_nil _ _)]
      cases ts <;> rfl
    · exact .inr (.inr ⟨t :: fit, rest, rfl, rfl, hmisfit⟩)
  | case2 k ks expected t ts ht => exact .inl ⟨[], k, ks, t, ts, rfl, rfl, ht, rfl⟩
  | case3 k ks expected => exact .inr (.inl ⟨k, ks, rfl, rfl⟩)
  | case4 expected ts => exact .inr (.inr ⟨[], ts, rfl, rfl, rfl⟩)

/-- What an entry may begin with is no comma and no closing bracket. -/
theorem isInner_of_mem_heads (hsep : Separable closer shapes.all) {k : Kind}
    (hk : k ∈ shapes.all.filterMap List.head?) : k ≠ .comma ∧ k ≠ closer := by
  obtain ⟨shape, hs, hhead⟩ := List.mem_filterMap.1 hk
  exact (hsep.inner shape hs k (List.mem_of_mem_head? hhead)).2

theorem Brackets.heads_nodup (b : Brackets) :
    b.shapes.all.filterMap List.head? ≠ [] ∧ (b.shapes.all.filterMap List.head?).Nodup := by
  cases b <;> decide

/-- The token that is blamed for an entry is none of the expected ones, unless it is an ellipsis at
the beginning of an argument: the entry is compared with a name, but an ellipsis is expected too. -/
theorem expected_of_misfit (b : Brackets) {t got : Token} {expected : List Kind}
    (hts : ∀ u ∈ ts, isInner b.closer u = true) (ht : isInner b.closer t = false)
    (hne : ts.map (·.kind) ∉ b.shapes.all)
    (h : misfit t b.shapes.main (b.shapes.all.filterMap List.head?) ts =
      .unexpectedToken got expected) :
    expected ≠ [] ∧ expected.Nodup ∧ (got.kind ∈ expected →
      b = .args ∧ got.kind = .ellipsis ∧ ∃ u rest, ts = got :: u :: rest) := by
  have hmain : b.shapes.main ∈ b.shapes.all := List.mem_cons_self
  have hends := isInner_eq_false.1 ht
  rcases misfit_cases t b.shapes.main (b.shapes.all.filterMap List.head?) ts with
    ⟨fit, k, ks, u, rest, hshape, rfl, hu, hmisfit⟩ | ⟨k, ks, hshape, hmisfit⟩ |
    ⟨fit, rest, hshape, rfl, hmisfit⟩
  · rw [hmisfit] at h
    cases h
    split
    · next hfit =>
      subst hfit
      refine ⟨b.heads_nodup.1, b.heads_nodup.2, fun hmem => ?_⟩
      cases b with
      | params => simp_all [Brackets.shapes, Shapes.all]
      | ranges => simp_all [Brackets.shapes, Shapes.all]
      | args =>
        -- the ellipsis is not alone, or the entry would fit
        cases rest with
        | nil => simp_all [Brackets.shapes, Shapes.all]
        | cons v rest => simp_all [Brackets.shapes, Shapes.all]
    · exact ⟨by simp, by simp, fun hmem => absurd (List.mem_singleton.1 hmem) hu⟩
  · rw [hmisfit] at h
    cases h
    have hends : ∀ k, k ≠ .comma ∧ k ≠ b.closer → t.kind ≠ k := by
      rintro k ⟨hcomma, hcloser⟩ rfl
      exact hends.elim hcomma hcloser
    split
    · refine ⟨b.heads_nodup.1, b.heads_nodup.2, fun hmem => ?_⟩
      exact absurd rfl (hends _ (isInner_of_mem_heads b.separable hmem))
    · have hk := (b.separable.inner _ hmain k (by simp [hshape])).2
      exact ⟨by simp, by simp, fun hmem => absurd (List.mem_singleton.1 hmem) (hends k hk)⟩
  · rw [hmisfit] at h
    cases h
    have hrest : rest ≠ [] := by
      rintro rfl
      rw [List.append_nil, ← hshape] at hne
      exact hne hmain
    obtain ⟨u, rest, rfl⟩ := List.exists_cons_of_ne_nil hrest
    have hu := isInner_eq_true.1 (hts u (by simp))
    have hcloser := b.separable.closer_ne_comma
    split
    · exact ⟨by simp, by simp, fun hmem => absurd (List.mem_singleton.1 hmem) hu.1⟩
    · next hcomma =>
      have hclose := hends.resolve_left hcomma
      refine ⟨by simp, by simp [hclose, hcloser.symm], fun hmem => ?_⟩
      rw [hclose] at hmem
      simp_all

/-! ## Documents -/

/-- An ellipsis that begins an argument and is not all of it. -/
inductive LeadingEllipsis (stop : Position) (ts : List Token) : Token → Prop
  | intro {o got t : Token} {us gap inner rest : List Token} :
      Meets stop ts (.list .args o) us →
      Passed [[.name], [.ellipsis]] us (gap ++ got :: inner ++ t :: rest) →
      Skip gap → got.kind = .ellipsis → (∀ u ∈ inner, u.kind ≠ .comma ∧ u.kind ≠ .parenClose) →
      ¬ Skip inner → t.kind = .comma ∨ t.kind = .parenClose → LeadingEllipsis stop ts got

/-- If a list is not closed at once where one of its entries stands, then neither is it at its
beginning. -/
theorem Passed.not_closed (b : Brackets) {us : List Token} (h : Passed b.shapes.all ts us)
    (hus : ∀ t, (skip us).head? = some t → t.kind ≠ b.closer) :
    ∀ t, (skip ts).head? = some t → t.kind ≠ b.closer := by
  cases h with
  | none => exact hus
  | entry hs hentry _ _ =>
    cases hentry with
    | done => exact absurd rfl (b.separable.nonempty _ hs)
    | token hgap hk _ =>
      have hin := b.separable.inner _ hs _ List.mem_cons_self
      intro t ht
      rw [List.append_assoc, List.cons_append, skip_append hgap (hk ▸ hin.1)] at ht
      cases ht
      exact hk ▸ hin.2.2

theorem LeadingEllipsis.sections_eq {got : Token} (h : LeadingEllipsis stop ts got) :
    sections stop ts = .error (.fault (.unexpectedToken got [.name, .ellipsis])) := by
  cases h with
  | @intro o got t us gap inner rest hmeets hpassed hgap hgot hinner hmore ht =>
    have hsig : got.kind.isInsignificant = false := by rw [hgot]; rfl
    have hfails : EntryFails stop .parenClose Brackets.args.shapes
        (gap ++ got :: inner ++ t :: rest)
        (.fault (misfit t [.name] [.name, .ellipsis] (trimmed (gap ++ got :: inner)))) := by
      refine .misfit ?_ (isInner_eq_false.2 ht) ?_
      · intro u hu
        rcases List.mem_append.1 hu with hu | hu
        · exact isInner_of_skip Brackets.args.separable hgap u hu
        rcases List.mem_cons.1 hu with rfl | hu
        · exact isInner_eq_true.2 (by rw [hgot]; decide)
        · exact isInner_eq_true.2 (hinner u hu)
      · -- at least two tokens, where both shapes have one
        obtain ⟨v, vs, hvs⟩ := List.exists_cons_of_ne_nil (mt trimmed_eq_nil.1 hmore)
        simp [trimmed_skip_append hgap, trimmed_cons hsig, hvs, Brackets.shapes, Shapes.all]
    rw [trimmed_skip_append hgap, trimmed_cons hsig, misfit,
      if_neg (by rw [hgot]; decide)] at hfails
    have hopen : ∀ u, (skip (gap ++ got :: inner ++ t :: rest)).head? = some u →
        u.kind ≠ .parenClose := by
      intro u hu
      rw [List.append_assoc, List.cons_append, skip_append hgap hsig] at hu
      cases hu
      rw [hgot]
      decide
    refine sections_eq_error_iff.2 ⟨_, us, hmeets, (list_eq_error_iff separable_args).2 ⟨?_, ?_⟩⟩
    · exact Passed.not_closed .args hpassed hopen
    · exact ⟨_, hpassed, hfails⟩

/-- What is expected where a token of a list is blamed. -/
theorem expected_of_list {b : Brackets} {o got : Token} {us : List Token} {expected : List Kind}
    (hmeets : Meets stop ts (.list b o) us)
    (h : list stop b.closer b.shapes us = .error (.fault (.unexpectedToken got expected))) :
    expected ≠ [] ∧ expected.Nodup ∧ (got.kind ∈ expected → LeadingEllipsis stop ts got) := by
  obtain ⟨-, vs, hpassed, hentry⟩ := (list_eq_error_iff b.separable).1 h
  generalize he : ReadFailure.fault (.unexpectedToken got expected) = e at hentry
  cases hentry with
  | unended => cases he
  | @misfit group rest t hinner ht hfit =>
    have htrimmed : ∀ u ∈ trimmed group, isInner b.closer u = true := fun u hu =>
      hinner u (mem_trimmed.1 hu).1
    obtain ⟨hne, hnodup, hmem⟩ :=
      expected_of_misfit b htrimmed ht hfit (ReadFailure.fault.inj he).symm
    refine ⟨hne, hnodup, fun hgot => ?_⟩
    obtain ⟨rfl, hkind, u, us', hgroup⟩ := hmem hgot
    obtain ⟨gap, inner, rfl, hgap, hrest⟩ := trimmed_eq_cons hgroup
    refine .intro hmeets hpassed hgap hkind ?_ ?_ (isInner_eq_false.1 ht)
    · exact fun v hv => isInner_eq_true.1 (hinner v (by simp [hv]))
    · rw [← trimmed_eq_nil, hrest]
      exact List.cons_ne_nil _ _

/-- **What is expected where a token is blamed.** There is something that would be right, and no
kind is named twice. The token itself is of an expected kind in one case only: it is an ellipsis
that begins an argument and has something behind it. -/
theorem expected_of_unexpectedToken {source : Source} {got : Token} {expected : List Kind}
    (h : Document.read source = .error (.fault (.unexpectedToken got expected))) :
    expected ≠ [] ∧ expected.Nodup ∧
      (got.kind ∈ expected ↔ LeadingEllipsis (endOf source.text) (tokens source.text) got) := by
  have hellipsis : LeadingEllipsis (endOf source.text) (tokens source.text) got →
      got.kind ∈ expected := by
    intro hgot
    have hread := bind_pure_eq_error_iff.1 h
    rw [hgot.sections_eq] at hread
    cases hread
    cases hgot with
    | intro _ _ _ hkind => simp [hkind]
  obtain ⟨d, us, hmeets, hfails⟩ := read_eq_error_iff.1 h
  cases d with
  | token kinds =>
    obtain ⟨hhead, hrefuse⟩ := expect_eq_error_iff.1 hfails
    obtain ⟨-, hne, hnodup⟩ := hmeets.stands
    cases us with
    | nil => cases hrefuse
    | cons t us =>
      cases hrefuse
      exact ⟨hne, hnodup, fun hmem => absurd hmem (hhead _ rfl), hellipsis⟩
  | list b o =>
    obtain ⟨hne, hnodup, hmem⟩ := expected_of_list hmeets hfails
    exact ⟨hne, hnodup, hmem, hellipsis⟩
  | bounds es => exact absurd hfails intervals_ne_fault
  | object name => cases hfails
  | known word => cases hfails

/-- In `(... x)` the ellipsis is blamed, and an ellipsis is expected. -/
theorem unexpectedToken_expected : ∃ source got expected,
    Document.read source = .error (.fault (.unexpectedToken got expected)) ∧
      got.kind ∈ expected :=
  ⟨⟨"a", "@M \x7b\nF(... x) y\n\x7d\n"⟩, ⟨.ellipsis, "...", ⟨⟨2, 3, 7⟩, ⟨2, 6, 10⟩⟩⟩,
    [.name, .ellipsis], by decide +kernel, by decide⟩

/-- A name behind an ellipsis, and a name behind a name. -/
theorem expected_of_unexpectedToken_two_names :
    (Document.read ⟨"a", "@M \x7b\nF(a, ... x) y\n\x7d\n"⟩ = .error (.fault (.unexpectedToken
      ⟨.ellipsis, "...", ⟨⟨2, 6, 10⟩, ⟨2, 9, 13⟩⟩⟩ [.name, .ellipsis])) ∧
    LeadingEllipsis (endOf "@M \x7b\nF(a, ... x) y\n\x7d\n")
      (tokens "@M \x7b\nF(a, ... x) y\n\x7d\n") ⟨.ellipsis, "...", ⟨⟨2, 6, 10⟩, ⟨2, 9, 13⟩⟩⟩) ∧
    Document.read ⟨"a", "@M \x7b\nF(a x) y\n\x7d\n"⟩ = .error (.fault (.unexpectedToken
      ⟨.name, "x", ⟨⟨2, 5, 9⟩, ⟨2, 6, 10⟩⟩⟩ [.comma, .parenClose])) ∧
    ¬ LeadingEllipsis (endOf "@M \x7b\nF(a x) y\n\x7d\n")
      (tokens "@M \x7b\nF(a x) y\n\x7d\n") ⟨.name, "x", ⟨⟨2, 5, 9⟩, ⟨2, 6, 10⟩⟩⟩ := by
  have hellipsis : Document.read ⟨"a", "@M \x7b\nF(a, ... x) y\n\x7d\n"⟩ = .error (.fault
      (.unexpectedToken ⟨.ellipsis, "...", ⟨⟨2, 6, 10⟩, ⟨2, 9, 13⟩⟩⟩ [.name, .ellipsis])) := by
    decide +kernel
  have hname : Document.read ⟨"a", "@M \x7b\nF(a x) y\n\x7d\n"⟩ = .error (.fault
      (.unexpectedToken ⟨.name, "x", ⟨⟨2, 5, 9⟩, ⟨2, 6, 10⟩⟩⟩ [.comma, .parenClose])) := by
    decide +kernel
  refine ⟨⟨hellipsis, ?_⟩, hname, ?_⟩
  · exact (expected_of_unexpectedToken hellipsis).2.2.1 (by decide)
  · exact fun h => absurd ((expected_of_unexpectedToken hname).2.2.2 h) (by decide)

end MacroModules.Grammar
