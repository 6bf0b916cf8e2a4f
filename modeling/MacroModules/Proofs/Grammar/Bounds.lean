import MacroModules.Proofs.Grammar.Reading
import MacroModules.Proofs.Token.Place

/-!
# The length of bounds

A bound of a range is read as a number only up to a certain length. That is the one point at which
reading is stricter than the grammar, and the one way in which it fails without a fault.

* `IsBound`, `ShortBounds`: the numerals behind `@impl Name<`, and that none of them is too long.
* `file_imp`, `file_short_iff_any`: the grammar does not see the limit in a text with short bounds.
* `hasLongBound_of_sections`: reading fails for a long bound only if there is one.
* `read_iff_grammar`: **reading accepts exactly the documents of the grammar** if the bounds are
  short, and finds a fault in everything else.
-/

namespace MacroModules.Grammar

open Reader

variable {stop : Position}

/-- A numeral among the ranges of an `@impl`: no closing bracket stands between it and the opening
one. -/
inductive IsBound : List Token → Token → Prop
  | intro {before gap inner after : List Token} {sign word name o t : Token} :
      Command "impl" sign word → Skip gap → name.kind = .name → o.kind = .angleOpen →
      (∀ u ∈ inner, u.kind ≠ .angleClose) → t.kind = .number →
      IsBound (before ++ sign :: word :: gap ++ name :: o :: inner ++ t :: after) t

/-- No bound is too long to be read. -/
def ShortBounds (ts : List Token) : Prop := ∀ t, IsBound ts t → ShortNumeral t.text

/-- A bound of a part is a bound of the whole. -/
theorem IsBound.infix {us : List Token} {t : Token} (h : IsBound us t) (before after : List Token) :
    IsBound (before ++ us ++ after) t := by
  cases h with
  | @intro b gap inner a sign word name o t hc hgap hname ho hinner ht =>
    have : IsBound (before ++ b ++ sign :: word :: gap ++ name :: o :: inner ++
        t :: (a ++ after)) t := .intro hc hgap hname ho hinner ht
    simpa using this

theorem IsBound.left {us : List Token} {t : Token} (h : IsBound us t) (ts : List Token) :
    IsBound (us ++ ts) t := by
  simpa using h.infix [] ts

theorem IsBound.right {ts : List Token} {t : Token} (h : IsBound ts t) (us : List Token) :
    IsBound (us ++ ts) t := by
  simpa using h.infix us []

/-- A text that is not longer than a bound may be has short bounds. -/
theorem shortBounds_of_length {text : String} (h : text.length ≤ Numeral.maxDigits) :
    ShortBounds (tokens text) := by
  intro t ht
  have hmem : t ∈ tokens text := by
    generalize tokens text = ts at ht ⊢
    cases ht with
    | intro => simp
  have hp := placed_of_mem_tokens hmem
  have := hp.stop_offset
  have := hp.stop_le
  have := hp.start_nonneg
  unfold ShortNumeral
  omega

/-! ## The grammar with and without the limit -/

theorem Entries.ne_closer {closer : Kind} (shapes : Shapes) {ts : List Token}
    {es : List (List String)} (hsep : Separable closer shapes.all) (h : Entries shapes.all ts es) :
    ∀ t ∈ ts, t.kind ≠ closer := by
  induction h with
  | last hs he => exact fun t ht => (isInner_eq_true.1 (he.inner hsep hs t ht)).2
  | more hs he hcomma _ ih =>
    intro t ht
    rcases List.mem_append.1 ht with ht | ht
    · exact (isInner_eq_true.1 (he.inner hsep hs t ht)).2
    rcases List.mem_cons.1 ht with rfl | ht
    · rw [hcomma]; exact hsep.closer_ne_comma.symm
    · exact ih t ht

/-- The ends of a range are bounds. -/
theorem isBound_of_ranges {sign word name o : Token} {gap us : List Token} (after : List Token)
    {es : List (List String)} {lo dots hi : String} (hc : Command "impl" sign word)
    (hgap : Skip gap) (hname : name.kind = .name) (ho : o.kind = .angleOpen)
    (hus : Enclosed .angleClose [[.number, .range, .number]] us es) (he : [lo, dots, hi] ∈ es) :
    (∃ t, IsBound (sign :: word :: gap ++ name :: o :: us ++ after) t ∧ t.text = lo) ∧
      ∃ t, IsBound (sign :: word :: gap ++ name :: o :: us ++ after) t ∧ t.text = hi := by
  cases hus with
  | empty => cases he
  | @entries ts c es hes hclose =>
    obtain ⟨vs, hvs, hkinds, htexts⟩ := hes.tokens _ he
    obtain ⟨l, d, u, rfl⟩ := List.length_eq_three.1 (by
      have := congrArg List.length htexts
      simpa using this : vs.length = 3)
    simp only [List.mem_singleton, List.map_cons, List.map_nil, List.cons.injEq, and_true] at hkinds
    simp only [List.map_cons, List.map_nil, List.cons.injEq, and_true] at htexts
    -- every token between the brackets has only others than `>` before it
    have hbound : ∀ t ∈ ts, t.kind = .number →
        IsBound (sign :: word :: gap ++ name :: o :: (ts ++ [c]) ++ after) t := by
      intro t ht hnum
      obtain ⟨inner, rest, rfl⟩ := List.append_of_mem ht
      have hinner : ∀ v ∈ inner, v.kind ≠ .angleClose := fun v hv =>
        Entries.ne_closer ⟨_, []⟩ separable_ranges hes v (List.mem_append_left _ hv)
      have : IsBound ([] ++ sign :: word :: gap ++ name :: o :: inner ++
          t :: (rest ++ [c] ++ after)) t := .intro hc hgap hname ho hinner hnum
      simpa using this
    have hmem : ∀ t ∈ [l, d, u], t ∈ ts := fun t ht => hvs.subset ht
    exact ⟨⟨l, hbound l (hmem l (by simp)) hkinds.1, htexts.1⟩,
      ⟨u, hbound u (hmem u (by simp)) hkinds.2.2, htexts.2.2⟩⟩

variable {p q : String → Prop}

theorem item_imp {us : List Token} {s : Statement} (h : Item p us s)
    (hpq : ∀ t, IsBound us t → p t.text → q t.text) : Item q us s := by
  cases h with
  | object hname hd hp => exact .object hname hd hp
  | template hname hd hp => exact .template hname hd hp
  | imports hc hgap hname => exact .imports hc hgap hname
  | exported hc hgap hname hd hp => exact .exported hc hgap hname hd hp
  | @instances sign word name t gap ts trail es rs hc hgap hname hts hrs htrail ht =>
    refine .instances hc hgap hname hts ?_ htrail ht
    cases hts with
    | @intro o us es ho hus =>
      have hends : ∀ lo dots hi, [lo, dots, hi] ∈ es → (p lo → q lo) ∧ (p hi → q hi) := by
        intro lo dots hi he
        obtain ⟨⟨l, hl, rfl⟩, ⟨u, hu, rfl⟩⟩ :=
          isBound_of_ranges (trail ++ [t]) hc hgap hname ho hus he
        exact ⟨hpq l (by simpa using hl), hpq u (by simpa using hu)⟩
      clear hus hpq
      induction hrs with
      | nil => exact .nil
      | cons hr _ ih =>
        refine .cons ?_ (ih fun lo dots hi he => hends lo dots hi (List.mem_cons_of_mem _ he))
        cases hr with
        | @intro lo dots hi hlo hhi =>
          obtain ⟨himp, himp'⟩ := hends lo dots hi List.mem_cons_self
          exact .intro (himp hlo) (himp' hhi)

theorem items_imp {us : List Token} {ss : List Statement} (h : Items p us ss)
    (hpq : ∀ t, IsBound us t → p t.text → q t.text) : Items q us ss := by
  induction h with
  | nil => exact .nil
  | @space t ts ss ht _ ih => exact .space ht (ih fun u hu => hpq u (hu.right [t]))
  | @comment t ts ss ht _ ih => exact .comment ht (ih fun u hu => hpq u (hu.right [t]))
  | @item us ts s ss hitem _ ih =>
    exact .item (item_imp hitem fun u hu => hpq u (hu.left ts)) (ih fun u hu => hpq u (hu.right us))

/-- Which numerals are admitted matters for the bounds of a text only. -/
theorem file_imp {ts : List Token} {ss : List Section} (h : File p ts ss)
    (hpq : ∀ t, IsBound ts t → p t.text → q t.text) : File q ts ss := by
  induction h with
  | nil => exact .nil
  | @code us ts m ss hm _ ih =>
    refine .code ?_ (ih fun u hu => hpq u (hu.right us))
    cases hm with
    | @intro sign name o c gap gap' us body hsign hgap hmod hgap' ho hus hc =>
      refine .intro hsign hgap hmod hgap' ho (items_imp hus fun u hu => hpq u ?_) hc
      simpa using hu.infix (sign :: gap ++ name :: gap' ++ [o]) (c :: ts)
  | @raw run ts ss hne hrun hhead _ ih =>
    exact .raw hne hrun hhead (ih fun u hu => hpq u (hu.right run))

/-- The limit is not seen in a text with short bounds. -/
theorem file_short_iff_any {ts : List Token} {ss : List Section} (hb : ShortBounds ts) :
    File ShortNumeral ts ss ↔ File AnyNumeral ts ss :=
  ⟨fun h => file_imp h fun _ _ _ => trivial, fun h => file_imp h fun t ht _ => hb t ht⟩

/-! ## Failing for a long bound -/

/-- Fails, if at all, with a fault. -/
def Faults {α : Type} (x : Reading α) : Prop := ∀ n, x ≠ .error (.longBound n)

variable {α β : Type}

theorem Faults.fault (f : Fault) : Faults (.error (.fault f) : Reading α) := by
  rintro n ⟨⟩

theorem Faults.ok (a : α) : Faults (.ok a : Reading α) := by
  rintro n ⟨⟩

theorem Faults.bind {x : Reading α} {f : α → Reading β} (hx : Faults x) (hf : ∀ a, Faults (f a)) :
    Faults (x >>= f) := by
  intro n h
  rcases bind_eq_error_iff.1 h with h | ⟨a, -, h⟩
  · exact hx n h
  · exact hf a n h

theorem Faults.ite {c : Prop} [Decidable c] {x y : Reading α} (hx : Faults x) (hy : Faults y) :
    Faults (if c then x else y) := by
  split
  · exact hx
  · exact hy

theorem faults_refuse (ts : List Token) (kinds : List Kind) :
    Faults (.error (refuse stop ts kinds) : Reading α) := by
  cases ts <;> exact .fault _

theorem faults_expect (kinds : List Kind) (ts : List Token) : Faults (expect stop kinds ts) := by
  cases ts with
  | nil => exact faults_refuse _ _
  | cons t ts => exact .ite (.ok _) (faults_refuse _ _)

theorem faults_entries (closer : Kind) (shapes : Shapes) (ts : List Token) :
    Faults (entries stop closer shapes ts) := by
  fun_induction entries stop closer shapes ts with
  | case1 => exact faults_refuse _ _
  | case2 ts t rest _ ih =>
    exact .bind (.ite (.ok _) (.fault _)) fun e => .ite (.ok _) (ih.bind fun r => .ok _)

theorem faults_list (closer : Kind) (shapes : Shapes) (ts : List Token) :
    Faults (list stop closer shapes ts) := by
  unfold list
  split
  · exact faults_entries closer shapes []
  · exact .ite (.ok _) (faults_entries closer shapes _)

theorem faults_optionalList (opener closer : Kind) (shapes : Shapes) (ts : List Token) :
    Faults (optionalList stop closer shapes opener ts) := by
  cases ts with
  | nil => exact .ok _
  | cons t ts => exact .ite ((faults_list closer shapes ts).bind fun r => .ok _) (.ok _)

theorem faults_header (ts : List Token) : Faults (header stop ts) :=
  (faults_optionalList _ _ _ ts).bind fun _ => (faults_optionalList _ _ _ _).bind fun _ => .ok _

theorem bound_eq_error {digits : String} {n : Nat} (h : bound digits = .error (.longBound n)) :
    digits.length = n ∧ Numeral.maxDigits < n := by
  unfold bound Numeral.read at h
  rw [String.length_toList] at h
  by_cases hshort : digits.length ≤ Numeral.maxDigits
  · simp [hshort] at h
  · simp only [hshort, if_false, Except.error.injEq, ReadFailure.longBound.injEq] at h
    omega

/-- Ranges fail for a bound of theirs that is too long. -/
theorem intervals_eq_error {es : List (List String)} {n : Nat}
    (h : intervals es = .error (.longBound n)) : ∃ lo dots hi, [lo, dots, hi] ∈ es ∧
      (lo.length = n ∨ hi.length = n) ∧ Numeral.maxDigits < n := by
  fun_induction intervals es with
  | case1 lo dots hi es ih =>
    rcases bind_eq_error_iff.1 h with h | ⟨l, -, h⟩
    · obtain ⟨hlength, hlong⟩ := bound_eq_error h
      exact ⟨lo, dots, hi, List.mem_cons_self, .inl hlength, hlong⟩
    rcases bind_eq_error_iff.1 h with h | ⟨u, -, h⟩
    · obtain ⟨hlength, hlong⟩ := bound_eq_error h
      exact ⟨lo, dots, hi, List.mem_cons_self, .inr hlength, hlong⟩
    rcases bind_eq_error_iff.1 h with h | ⟨rs, -, h⟩
    · obtain ⟨lo', dots', hi', hmem, hlong⟩ := ih h
      exact ⟨lo', dots', hi', List.mem_cons_of_mem _ hmem, hlong⟩
    · cases h
  | case2 => cases h

theorem bound_ne_fault {digits : String} {f : Fault} : bound digits ≠ .error (.fault f) := by
  unfold bound
  split
  · rintro ⟨⟩
  · rintro ⟨⟩

/-- Bounds fail without a fault. -/
theorem intervals_ne_fault {es : List (List String)} {f : Fault} :
    intervals es ≠ .error (.fault f) := by
  intro h
  fun_induction intervals es with
  | case1 lo dots hi es ih =>
    rcases bind_eq_error_iff.1 h with h | ⟨l, -, h⟩
    · exact bound_ne_fault h
    rcases bind_eq_error_iff.1 h with h | ⟨u, -, h⟩
    · exact bound_ne_fault h
    · exact ih (bind_pure_eq_error_iff.1 h)
  | case2 => cases h

/-- A bound of this many digits, which are too many to be read. -/
def HasLongBound (ts : List Token) (n : Nat) : Prop :=
  ∃ t, IsBound ts t ∧ t.text.length = n ∧ Numeral.maxDigits < n

theorem HasLongBound.right {ts : List Token} {n : Nat} (h : HasLongBound ts n) (us : List Token) :
    HasLongBound (us ++ ts) n :=
  h.imp fun _ ht => ⟨ht.1.right us, ht.2⟩

theorem HasLongBound.of_suffix {us ts : List Token} {n : Nat} (h : HasLongBound us n)
    (hs : us <:+ ts) : HasLongBound ts n := by
  obtain ⟨vs, rfl⟩ := hs
  exact h.right vs

theorem longBound_of_instances {sign word : Token} {ts : List Token} {n : Nat}
    (hc : Command "impl" sign word) (h : instances stop ts = .error (.longBound n)) :
    HasLongBound (sign :: word :: ts) n := by
  -- only the ranges can fail for a long bound; the steps around them look for one token each
  rcases bind_eq_error_iff.1 h with h₁ | ⟨⟨name, ts₁⟩, hname, h₁⟩
  · exact absurd h₁ (faults_expect _ _ n)
  rcases bind_eq_error_iff.1 h₁ with h₂ | ⟨⟨o, ts₂⟩, ho, h₂⟩
  · exact absurd h₂ (faults_expect _ _ n)
  rcases bind_eq_error_iff.1 h₂ with h₃ | ⟨⟨es, ts₃⟩, hes, h₃⟩
  · exact absurd h₃ (faults_list _ _ _ n)
  rcases bind_eq_error_iff.1 h₃ with h₄ | ⟨rs, hrs, h₄⟩
  · obtain ⟨gap, hgap, rfl, hkind⟩ := (expect_skip_singleton rfl).1 hname
    obtain ⟨rfl, hok⟩ := expect_eq_ok_iff.1 ho
    obtain ⟨us, rfl, hus⟩ := (list_eq_ok_iff separable_ranges).1 hes
    obtain ⟨lo, dots, hi, hmem, hlength, hlong⟩ := intervals_eq_error h₄
    obtain ⟨⟨l, hl, rfl⟩, ⟨u, hu, rfl⟩⟩ := isBound_of_ranges ts₃ hc hgap hkind
      (List.mem_singleton.1 hok) hus hmem
    rcases hlength with hlength | hlength
    · exact ⟨l, by simpa using hl, hlength, hlong⟩
    · exact ⟨u, by simpa using hu, hlength, hlong⟩
  · exact absurd h₄ ((faults_expect _ _).bind (fun _ => .ok _) n)

theorem longBound_of_statement {t : Token} {ts : List Token} {n : Nat}
    (ht : t.kind = .name ∨ t.kind = .atSign)
    (h : statement stop t ts = .error (.longBound n)) : HasLongBound (t :: ts) n := by
  rw [statement] at h
  split at h
  · exact absurd h ((faults_header ts).bind (fun _ => .ok _) n)
  next hname =>
  rcases bind_eq_error_iff.1 h with h₁ | ⟨⟨word, ts₁⟩, hword, h₁⟩
  · exact absurd h₁ (faults_expect _ _ n)
  obtain ⟨rfl, hkind⟩ := expect_eq_ok_iff.1 hword
  dsimp only at h₁
  split at h₁
  · exact absurd h₁ ((faults_expect _ _).bind (fun _ => .ok _) n)
  split at h₁
  · refine absurd h₁ ((faults_expect _ _).bind (fun _ => ?_) n)
    exact (faults_header _).bind fun _ => .ite (.fault _) (.ok _)
  split at h₁
  · next himpl =>
    exact longBound_of_instances ⟨ht.resolve_left hname, List.mem_singleton.1 hkind, himpl⟩ h₁
  · cases h₁

theorem longBound_of_statements {ts : List Token} {n : Nat}
    (h : statements stop ts = .error (.longBound n)) : HasLongBound ts n := by
  fun_induction statements stop ts with
  | case1 => exact absurd h (faults_refuse _ _ n)
  | case2 => cases h
  | case3 t ts _ _ ih => exact (ih h).right [t]
  | case4 t ts _ _ _ ih =>
    rcases bind_eq_error_iff.1 h with h | ⟨_, _, h⟩
    · exact (ih h).right [t]
    · cases h
  | case5 t ts _ _ _ ht e hs => cases h; exact longBound_of_statement ht hs
  | case6 t ts _ _ _ _ s us hs ih =>
    rcases bind_eq_error_iff.1 h with h | ⟨_, _, h⟩
    · exact (ih h).of_suffix ((statement_shrinks stop t ts s us hs).trans (List.suffix_cons t ts))
    · cases h
  | case7 => exact absurd h (faults_refuse _ _ n)

/-- **Reading fails for a long bound only if there is one**, and says how long it is. -/
theorem hasLongBound_of_sections {ts : List Token} {n : Nat}
    (h : sections stop ts = .error (.longBound n)) : HasLongBound ts n := by
  fun_induction sections stop ts with
  | case1 => cases h
  | case2 t ts _ e hm =>
    cases h
    rcases bind_eq_error_iff.1 hm with h | ⟨⟨name, us⟩, hname, h⟩
    · exact absurd h (faults_expect _ _ n)
    rcases bind_eq_error_iff.1 h with h | ⟨⟨o, vs⟩, ho, h⟩
    · exact absurd h (faults_expect _ _ n)
    rcases bind_eq_error_iff.1 h with h | ⟨_, _, h⟩
    · have hs := (expect_skip_shrinks stop _ us o vs ho).trans
        ((expect_skip_shrinks stop _ ts name us hname).trans (List.suffix_cons t ts))
      exact (longBound_of_statements h).of_suffix hs
    · cases h
  | case3 t ts _ m us hm ih =>
    rcases bind_eq_error_iff.1 h with h | ⟨_, _, h⟩
    · exact (ih h).of_suffix ((moduleAt_shrinks stop t ts m us hm).trans (List.suffix_cons t ts))
    · cases h
  | case4 t ts _ ih =>
    rcases bind_eq_error_iff.1 h with h | ⟨_, _, h⟩
    · exact (ih h).of_suffix ((List.dropWhile_suffix _).trans (List.suffix_cons t ts))
    · cases h

theorem longBound_of_sections {ts : List Token} {n : Nat}
    (h : sections stop ts = .error (.longBound n)) :
    ∃ t, IsBound ts t ∧ ¬ ShortNumeral t.text := by
  obtain ⟨t, ht, rfl, hlong⟩ := hasLongBound_of_sections h
  exact ⟨t, ht, Nat.not_le.2 hlong⟩

/-! ## Documents -/

theorem hasLongBound_of_read {source : Source} {n : Nat}
    (h : Document.read source = .error (.longBound n)) : HasLongBound (tokens source.text) n :=
  hasLongBound_of_sections (bind_pure_eq_error_iff.1 h)

/-- **Reading accepts exactly the documents of the grammar.** For every text, it gives the sections
that the grammar gives with bounds of a readable length. If the bounds of the text are short, the
limit can be forgotten: what the grammar admits is read so, and everything else has a fault. -/
theorem read_iff_grammar (source : Source) :
    (∀ ss, Document.read source = .ok ⟨source, ss⟩ ↔ File ShortNumeral (tokens source.text) ss) ∧
    (ShortBounds (tokens source.text) →
      (∀ ss, Document.read source = .ok ⟨source, ss⟩ ↔ File AnyNumeral (tokens source.text) ss) ∧
      ((∀ ss, ¬ File AnyNumeral (tokens source.text) ss) ↔
        ∃ fault, Document.read source = .error (.fault fault))) := by
  have hread : ∀ ss, Document.read source = .ok ⟨source, ss⟩ ↔
      File ShortNumeral (tokens source.text) ss := by
    intro ss
    rw [read_eq_ok_iff]
    exact and_iff_right rfl
  refine ⟨hread, fun hb => ?_⟩
  have hany := fun ss => (hread ss).trans (file_short_iff_any hb)
  refine ⟨hany, ?_, ?_⟩
  · intro hno
    cases hr : Document.read source with
    | ok d =>
      obtain ⟨rfl, -⟩ := read_eq_ok_iff.1 hr
      exact absurd ((hany d.sections).1 hr) (hno d.sections)
    | error e =>
      cases e with
      | fault f => exact ⟨f, rfl⟩
      | longBound n =>
        rcases bind_eq_error_iff.1 hr with h | ⟨_, _, h⟩
        · obtain ⟨t, ht, hlong⟩ := longBound_of_sections h
          exact absurd (hb t ht) hlong
        · cases h
  · rintro ⟨f, hf⟩ ss hss
    rw [(hany ss).2 hss] at hf
    cases hf

/-- Blanks may stand around the bounds of a range, but not before its bracket. -/
theorem read_iff_grammar_blanks :
    ShortBounds (tokens "@M \x7b\n@impl T< 01 .. 2 >\n\x7d\n") ∧
    File AnyNumeral (tokens "@M \x7b\n@impl T< 01 .. 2 >\n\x7d\n")
      [.code ⟨"M", [.instances "T" [⟨1, 2⟩]], 1, ⟨⟨1, 2, 1⟩, ⟨1, 3, 2⟩⟩⟩, .raw "\n"] ∧
    ShortBounds (tokens "@M \x7b\n@impl T <01..2>\n\x7d\n") ∧
    ∀ ss, ¬ File AnyNumeral (tokens "@M \x7b\n@impl T <01..2>\n\x7d\n") ss := by
  have hin : ShortBounds (tokens "@M \x7b\n@impl T< 01 .. 2 >\n\x7d\n") :=
    shortBounds_of_length (by decide)
  have hbefore : ShortBounds (tokens "@M \x7b\n@impl T <01..2>\n\x7d\n") :=
    shortBounds_of_length (by decide)
  have hfault : Document.read ⟨"a.h", "@M \x7b\n@impl T <01..2>\n\x7d\n"⟩ =
      .error (.fault (.unexpectedToken ⟨.blank, " ", ⟨⟨2, 8, 12⟩, ⟨2, 9, 13⟩⟩⟩ [.angleOpen])) := by
    decide +kernel
  refine ⟨hin, ?_, hbefore, ?_⟩
  · exact (((read_iff_grammar ⟨"a.h", _⟩).2 hin).1 _).1 (by decide +kernel)
  · exact ((read_iff_grammar ⟨"a.h", _⟩).2 hbefore).2.2 ⟨_, hfault⟩

end MacroModules.Grammar
