import Mathlib.Data.List.Basic
import MacroModules.Document.Body
import MacroModules.Token.Lexer

/-!
# Bodies as runs of tokens

The tokens of a body fall into runs, one behind the other, and each run is one fragment. A run is
the whole of what stands between two names, or a name with as much of what follows as belongs to it.
Which tokens these are is said here by their kinds and texts, without a reader.

* `Listed`: the arguments of a template, blanks left out.
* `Shape`: a name that is more than a word: a slot, a reference, a template with arguments.
* `Run`, `Runs`: a run with what follows it, and all runs of a body.
* `callArgs?_eq_some_iff`, `Shape.named`, `named_cases`: the reader finds a shape if there is one.
* `exists_runs`, `Runs.eq_fragments`: the fragments of a body have runs, and nothing else has.
* `fragments_classified`: **reading a body loses nothing and invents nothing**.
-/

namespace MacroModules.Body

/-! ## Shapes and runs -/

/-- Arguments with single commas between them. An argument has to come next (`expectsArg`) at the
beginning and behind a comma, so there is at least one and none is left out. -/
inductive Listed (h : Header) : (expectsArg : Bool) → List Token → List String → Prop
  | done : Listed h false [] []
  | comma {t : Token} {ts : List Token} {args : List String} :
      t.kind = .comma → Listed h true ts args → Listed h false (t :: ts) args
  | argument {t : Token} {ts : List Token} {args : List String} :
      t.kind = .name → t.text ∈ h.slots ∨ t.text ∈ h.args → Listed h false ts args →
      Listed h true (t :: ts) (t.text :: args)

/-- A run that a name begins, and that is more than the name as a word. -/
inductive Shape (h : Header) : List Token → Fragment → Prop
  | slot {t : Token} {i : Nat} :
      t.kind = .name → h.slots[i]? = some t.text → Shape h [t] (.slot i)
  | foreign {name sep object : Token} {inlined : Bool} :
      name.kind = .name → name.text ∉ h.slots →
      sep.kind = .dot ∧ inlined = true ∨ sep.kind = .scope ∧ inlined = false →
      object.kind = .name → Shape h [name, sep, object] (.foreign name.text object.text inlined)
  | call {name opener closer : Token} {inner : List Token} {args : List String} :
      name.kind = .name → name.text ∉ h.slots → opener.kind = .angleOpen →
      Listed h true (inner.filter (·.kind != .blank)) args → closer.kind = .angleClose →
      Shape h (name :: opener :: (inner ++ [closer])) (.call name.text args)

/-- A run of tokens, what follows it, and the fragment that the run is. A literal goes on up to the
next name, and a word is a name at which no shape begins. -/
inductive Run (h : Header) : (run rest : List Token) → Fragment → Prop
  | text {run rest : List Token} : run ≠ [] → (∀ t ∈ run, t.kind ≠ .name) →
      (∀ t, rest.head? = some t → t.kind = .name) →
      Run h run rest (.text (String.join (run.map fun t =>
        if t.kind = .ellipsis ∧ h.variadic = true then "__VA_ARGS__" else t.text)))
  | shape {run rest : List Token} {f : Fragment} : Shape h run f → Run h run rest f
  | word {t : Token} {rest : List Token} : t.kind = .name →
      (∀ run f, Shape h run f → ¬ run <+: t :: rest) → Run h [t] rest (.word t.text)

/-- Runs one behind the other, with the fragments that they are. -/
inductive Runs (h : Header) : List (List Token) → List Fragment → Prop
  | nil : Runs h [] []
  | cons {run : List Token} {runs : List (List Token)} {f : Fragment} {fs : List Fragment} :
      Run h run runs.flatten f → Runs h runs fs → Runs h (run :: runs) (f :: fs)

variable {h : Header} {t : Token} {ts run rest : List Token} {f : Fragment} {fs : List Fragment}

theorem Listed.mem {expectsArg : Bool} {args : List String} (hl : Listed h expectsArg ts args) :
    ∀ name ∈ args, name ∈ h.slots ∨ name ∈ h.args := by
  induction hl with
  | done => simp
  | comma _ _ ih => exact ih
  | argument _ harg _ ih => exact List.forall_mem_cons.2 ⟨harg, ih⟩

theorem Shape.exists_cons (hs : Shape h run f) : ∃ t us, run = t :: us ∧ t.kind = .name := by
  cases hs with
  | slot ht | foreign ht | call ht => exact ⟨_, _, rfl, ht⟩

theorem Run.ne_nil (hr : Run h run rest f) : run ≠ [] := by
  cases hr with
  | text hne => exact hne
  | shape hs =>
    obtain ⟨t, us, rfl, -⟩ := hs.exists_cons
    exact List.cons_ne_nil t us
  | word => exact List.cons_ne_nil _ _

theorem Runs.ne_nil {runs : List (List Token)} (hruns : Runs h runs fs) :
    ∀ run ∈ runs, run ≠ [] := by
  induction hruns with
  | nil => simp
  | cons hrun _ ih => exact List.forall_mem_cons.2 ⟨hrun.ne_nil, ih⟩

theorem Runs.length_eq {runs : List (List Token)} (hruns : Runs h runs fs) :
    runs.length = fs.length := by
  induction hruns with
  | nil => rfl
  | cons _ _ ih => rw [List.length_cons, List.length_cons, ih]

/-! ## Slots -/

variable {name : String} {slots : List String}

theorem slotOf?_eq_none_iff : slotOf? name slots = none ↔ name ∉ slots := by
  fun_induction slotOf? name slots with
  | case1 => simp
  | case2 s slots i hi ih =>
    have hmem : name ∈ slots := by
      by_contra hnot
      rw [ih.2 hnot] at hi
      cases hi
    simp [hmem]
  | case3 slots hnone ih => simp
  | case4 s slots hnone hne ih =>
    have hnot : name ∉ slots := ih.1 hnone
    simp [hnot, Ne.symm hne]

theorem getElem?_of_slotOf? {i : Nat} (hi : slotOf? name slots = some i) :
    slots[i]? = some name := by
  fun_induction slotOf? name slots generalizing i with
  | case1 => cases hi
  | case2 s slots j hj ih =>
    cases hi
    exact ih hj
  | case3 =>
    cases hi
    rfl
  | case4 => cases hi

/-- If the names of the slots are distinct, the slot of a name is where the name stands. -/
theorem slotOf?_eq_some {i : Nat} (hslots : slots.Nodup) (hi : slots[i]? = some name) :
    slotOf? name slots = some i := by
  cases hj : slotOf? name slots with
  | none => exact absurd (List.mem_of_getElem? hi) (slotOf?_eq_none_iff.1 hj)
  | some j =>
    have hlt : j < slots.length := (List.getElem?_eq_some_iff.1 (getElem?_of_slotOf? hj)).1
    have hsame : slots[j]? = slots[i]? := (getElem?_of_slotOf? hj).trans hi.symm
    rw [(List.getElem?_inj hlt hslots).1 hsame]

/-! ## References and templates -/

theorem foreign?_eq_some_iff : foreign? name ts = some f ↔ ∃ sep object rest inlined,
    ts = sep :: object :: rest ∧
      (sep.kind = .dot ∧ inlined = true ∨ sep.kind = .scope ∧ inlined = false) ∧
      object.kind = .name ∧ f = .foreign name object.text inlined := by
  constructor
  · intro hf
    revert hf
    fun_cases foreign? name ts with
    | case1 sep object rest hobject hsep =>
      rintro ⟨⟩
      exact ⟨sep, object, rest, true, rfl, .inl ⟨hsep, rfl⟩, hobject, rfl⟩
    | case2 sep object rest hobject _ hsep =>
      rintro ⟨⟩
      exact ⟨sep, object, rest, false, rfl, .inr ⟨hsep, rfl⟩, hobject, rfl⟩
    | case3 | case4 | case5 => intro hf; cases hf
  · rintro ⟨sep, object, rest, inlined, rfl, ⟨hsep, rfl⟩ | ⟨hsep, rfl⟩, hobject, rfl⟩
    · simp [foreign?, hsep, hobject]
    · simp [foreign?, hsep, hobject]

theorem isArgument_iff : h.isArgument name ↔ name ∈ h.slots ∨ name ∈ h.args := by
  simp [Header.isArgument]

/-- **The arguments of a template reach up to the first `>`**, and are listed there. -/
theorem callArgs?_eq_some_iff {expectsArg : Bool} {args : List String} {n : Nat} :
    callArgs? h expectsArg ts = some (args, n) ↔ ∃ inner closer rest,
      ts = inner ++ closer :: rest ∧ Listed h expectsArg (inner.filter (·.kind != .blank)) args ∧
        closer.kind = .angleClose ∧ n = inner.length + 1 := by
  constructor
  · intro hr
    fun_induction callArgs? h expectsArg ts generalizing args n with
    | case1 | case4 | case8 => cases hr
    | case2 t ts hblank ih | case5 t ts hblank ih =>
      obtain ⟨⟨args', n'⟩, hq, he⟩ := Option.map_eq_some_iff.1 hr
      cases he
      obtain ⟨inner, closer, rest, rfl, hlisted, hcloser, hn⟩ := ih hq
      refine ⟨t :: inner, closer, rest, rfl, ?_, hcloser, by simp [hn]⟩
      simpa [hblank] using hlisted
    | case3 t ts hblank ht ih =>
      obtain ⟨⟨args', n'⟩, hq, he⟩ := Option.map_eq_some_iff.1 hr
      cases he
      obtain ⟨inner, closer, rest, rfl, hlisted, hcloser, hn⟩ := ih hq
      refine ⟨t :: inner, closer, rest, rfl, ?_, hcloser, by simp [hn]⟩
      simpa [hblank] using Listed.argument ht.1 (isArgument_iff.1 ht.2) hlisted
    | case6 t ts hblank hcloser =>
      cases hr
      exact ⟨[], t, ts, rfl, .done, hcloser, rfl⟩
    | case7 t ts hblank hcloser hcomma ih =>
      obtain ⟨⟨args', n'⟩, hq, he⟩ := Option.map_eq_some_iff.1 hr
      cases he
      obtain ⟨inner, closer, rest, rfl, hlisted, hcloser, hn⟩ := ih hq
      refine ⟨t :: inner, closer, rest, rfl, ?_, hcloser, by simp [hn]⟩
      simpa [hblank] using Listed.comma hcomma hlisted
  · rintro ⟨inner, closer, rest, rfl, hlisted, hcloser, rfl⟩
    induction inner generalizing expectsArg args with
    | nil =>
      cases hlisted
      simp [callArgs?, hcloser]
    | cons t inner ih =>
      by_cases hblank : t.kind = .blank
      · have hrest := ih (by simpa [hblank] using hlisted)
        cases expectsArg <;> simp [callArgs?, hblank, hrest]
      · rw [List.filter_cons_of_pos (by simp [hblank])] at hlisted
        cases hlisted with
        | comma hcomma hlisted => simp [callArgs?, hcomma, ih hlisted]
        | argument ht harg hlisted => simp [callArgs?, ht, isArgument_iff.2 harg, ih hlisted]

theorem call?_eq_some_iff {n : Nat} : call? h name ts = some (f, n) ↔
    ∃ opener inner closer rest args, ts = opener :: inner ++ closer :: rest ∧
      opener.kind = .angleOpen ∧ Listed h true (inner.filter (·.kind != .blank)) args ∧
      closer.kind = .angleClose ∧ f = .call name args ∧ n = inner.length + 2 := by
  constructor
  · intro hr
    revert hr
    fun_cases call? h name ts with
    | case1 | case3 => intro hr; cases hr
    | case2 opener ts hopener =>
      intro hr
      obtain ⟨⟨args, n'⟩, hargs, he⟩ := Option.map_eq_some_iff.1 hr
      cases he
      obtain ⟨inner, closer, rest, rfl, hlisted, hcloser, rfl⟩ := callArgs?_eq_some_iff.1 hargs
      exact ⟨opener, inner, closer, rest, args, rfl, hopener, hlisted, hcloser, rfl, rfl⟩
  · rintro ⟨opener, inner, closer, rest, args, rfl, hopener, hlisted, hcloser, rfl, rfl⟩
    have hargs := callArgs?_eq_some_iff.2 ⟨inner, closer, rest, rfl, hlisted, hcloser, rfl⟩
    simp [call?, hopener, hargs]

/-! ## What a name begins -/

/-- A shape is a slot, or it is found among the references or among the templates. -/
theorem Shape.found (hs : Shape h (t :: run) f) (rest : List Token) :
    (∃ i : Nat, run = [] ∧ f = .slot i ∧ h.slots[i]? = some t.text) ∨
      t.text ∉ h.slots ∧ (foreign? t.text (run ++ rest) = some f ∧ run.length = 2 ∨
        foreign? t.text (run ++ rest) = none ∧
          call? h t.text (run ++ rest) = some (f, run.length)) := by
  cases hs with
  | @slot _ i _ hi => exact .inl ⟨i, rfl, rfl, hi⟩
  | @foreign _ sep object inlined _ hnot hsep hobject =>
    refine .inr ⟨hnot, .inl ⟨foreign?_eq_some_iff.2 ?_, rfl⟩⟩
    exact ⟨sep, object, rest, inlined, rfl, hsep, hobject, rfl⟩
  | @call _ opener closer inner args _ hnot hopener hlisted hcloser =>
    refine .inr ⟨hnot, .inr ⟨?_, call?_eq_some_iff.2 ?_⟩⟩
    · refine Option.eq_none_iff_forall_ne_some.2 fun g hg => ?_
      obtain ⟨sep, _, _, _, hsplit, hsep, -⟩ := foreign?_eq_some_iff.1 hg
      have hopens : sep.kind = .angleOpen := (List.cons.inj hsplit).1 ▸ hopener
      simp [hopens] at hsep
    · exact ⟨opener, inner, closer, rest, args, by simp, hopener, hlisted, hcloser, rfl, by simp⟩

/-- **A shape is read as what it is**, if the slots are distinct, so that a name has one slot. -/
theorem Shape.named (hslots : h.slots.Nodup) (hs : Shape h (t :: run) f) (rest : List Token) :
    named h t.text (run ++ rest) = (f, run.length) := by
  rcases hs.found rest with ⟨i, rfl, rfl, hi⟩ | ⟨hnot, ⟨hforeign, hlength⟩ | ⟨hforeign, hcall⟩⟩
  · simp [Body.named, slotOf?_eq_some hslots hi]
  · simp [Body.named, slotOf?_eq_none_iff.2 hnot, hforeign, hlength]
  · simp [Body.named, slotOf?_eq_none_iff.2 hnot, hforeign, hcall]

/-- **What a name begins is a shape or, if there is none, the name as a word.** -/
theorem named_cases (h : Header) (ht : t.kind = .name) (ts : List Token) :
    Shape h (t :: ts.take (named h t.text ts).2) (named h t.text ts).1 ∨
      named h t.text ts = (.word t.text, 0) ∧ ∀ run f, Shape h run f → ¬ run <+: t :: ts := by
  cases hslot : slotOf? t.text h.slots with
  | some i =>
    have hnamed : named h t.text ts = (.slot i, 0) := by rw [named, hslot]
    rw [hnamed]
    exact .inl (.slot ht (getElem?_of_slotOf? hslot))
  | none =>
    have hnot := slotOf?_eq_none_iff.1 hslot
    cases hforeign : foreign? t.text ts with
    | some f =>
      have hnamed : named h t.text ts = (f, 2) := by simp only [named, hslot, hforeign]
      rw [hnamed]
      obtain ⟨sep, object, rest, inlined, rfl, hsep, hobject, rfl⟩ :=
        foreign?_eq_some_iff.1 hforeign
      exact .inl (.foreign ht hnot hsep hobject)
    | none =>
      cases hcall : call? h t.text ts with
      | some r =>
        have hnamed : named h t.text ts = r := by
          simp only [named, hslot, hforeign, hcall, Option.getD_some]
        rw [hnamed]
        obtain ⟨opener, inner, closer, rest, args, rfl, hopener, hlisted, hcloser, hf, hn⟩ :=
          call?_eq_some_iff.1 hcall
        have htake :
            (opener :: inner ++ closer :: rest).take r.2 = opener :: (inner ++ [closer]) := by
          rw [hn, List.cons_append, List.take_succ_cons, List.take_length_add_append]
          rfl
        rw [hf, htake]
        exact .inl (.call ht hnot hopener hlisted hcloser)
      | none =>
        refine .inr ⟨by simp only [named, hslot, hforeign, hcall, Option.getD_none], ?_⟩
        -- a shape would have been found
        rintro run f hs ⟨rest, hrest⟩
        obtain ⟨u, us, rfl, -⟩ := hs.exists_cons
        obtain ⟨rfl, rfl⟩ := List.cons.inj hrest
        rcases hs.found rest with ⟨i, -, -, hi⟩ | ⟨-, ⟨hfound, -⟩ | ⟨-, hfound⟩⟩
        · exact hnot (List.mem_of_getElem? hi)
        · exact Option.some_ne_none _ (hfound.symm.trans hforeign)
        · exact Option.some_ne_none _ (hfound.symm.trans hcall)

/-! ## Runs -/

/-- **The fragments of a body have runs.** -/
theorem exists_runs (h : Header) (ts : List Token) :
    ∃ runs, runs.flatten = ts ∧ Runs h runs (fragments h ts) := by
  fun_induction fragments h ts with
  | case1 => exact ⟨[], rfl, .nil⟩
  | case2 t ts ht ih =>
    obtain ⟨runs, hflat, hruns⟩ := ih
    refine ⟨(t :: ts.take (named h t.text ts).2) :: runs, ?_, .cons ?_ hruns⟩
    · rw [List.flatten_cons, hflat, List.cons_append, List.take_append_drop]
    · rcases named_cases h ht ts with hs | ⟨hword, hnone⟩
      · exact .shape hs
      · rw [hflat, hword]
        exact .word ht hnone
  | case3 t ts ht ih =>
    obtain ⟨runs, hflat, hruns⟩ := ih
    refine ⟨(t :: ts.takeWhile (·.kind != .name)) :: runs, ?_, .cons ?_ hruns⟩
    · rw [List.flatten_cons, hflat, List.cons_append, List.takeWhile_append_dropWhile]
    · refine .text (List.cons_ne_nil _ _) (List.forall_mem_cons.2 ⟨ht, fun u hu => ?_⟩) ?_
      · simpa using List.all_eq_true.1 List.all_takeWhile u hu
      · intro u hu
        have hstop := List.head?_dropWhile_not (·.kind != .name) ts
        rw [← hflat, hu] at hstop
        simpa using hstop

/-- **Nothing else has runs**, so what the tokens of a body are is decided by their shapes alone. -/
theorem Runs.eq_fragments (hslots : h.slots.Nodup) {runs : List (List Token)}
    (hruns : Runs h runs fs) : fs = fragments h runs.flatten := by
  induction hruns with
  | nil => rw [List.flatten_nil, fragments]
  | @cons run runs f fs hrun hruns ih =>
    rw [List.flatten_cons, ih]
    cases hrun with
    | @text _ _ hne hrun hrest =>
      obtain ⟨t, us, rfl⟩ := List.exists_cons_of_ne_nil hne
      obtain ⟨ht, hus⟩ := List.forall_mem_cons.1 hrun
      have hinner : ∀ u ∈ us, (u.kind != .name) = true := fun u hu => by simpa using hus u hu
      have hstop : ∀ u, runs.flatten.head? = some u → (u.kind != .name) = false :=
        fun u hu => by simpa using hrest u hu
      have htake : (us ++ runs.flatten).takeWhile (·.kind != .name) = us := by
        rw [List.takeWhile_append_of_pos hinner]
        cases hflat : runs.flatten with
        | nil => simp
        | cons u vs => simp [hstop u (by rw [hflat]; rfl)]
      have hdrop : (us ++ runs.flatten).dropWhile (·.kind != .name) = runs.flatten := by
        rw [List.dropWhile_append_of_pos hinner]
        cases hflat : runs.flatten with
        | nil => rfl
        | cons u vs => simp [hstop u (by rw [hflat]; rfl)]
      rw [List.cons_append, fragments, if_neg ht, htake, hdrop]
      rfl
    | shape hs =>
      obtain ⟨t, us, rfl, ht⟩ := hs.exists_cons
      rw [List.cons_append, fragments, if_pos ht, hs.named hslots, List.drop_left]
    | @word t _ ht hnone =>
      rcases named_cases h ht runs.flatten with hs | ⟨hword, -⟩
      · exact absurd (List.cons_prefix_cons.2 ⟨rfl, List.take_prefix _ _⟩) (hnone _ _ hs)
      · rw [List.singleton_append, fragments, if_pos ht, hword, List.drop_zero]

/-- Each fragment of a body has its run there. -/
theorem exists_run_of_mem {h : Header} (hf : f ∈ fragments h ts) :
    ∃ run rest, run <:+: ts ∧ Run h run rest f := by
  obtain ⟨runs, rfl, hruns⟩ := exists_runs h ts
  generalize fragments h runs.flatten = fs at hf hruns
  induction hruns with
  | nil => cases hf
  | @cons run runs g fs hrun _ ih =>
    rw [List.flatten_cons]
    rcases List.mem_cons.1 hf with rfl | hf
    · exact ⟨run, runs.flatten, (List.prefix_append _ _).isInfix, hrun⟩
    · obtain ⟨run', rest, hsub, hrun'⟩ := ih hf
      exact ⟨run', rest, hsub.trans (List.suffix_append _ _).isInfix, hrun'⟩

theorem literal_ne_empty (h : Header) (ht : t.text ≠ "") : literal h t ≠ "" := by
  unfold literal
  split
  · decide
  · exact ht

/-- No literal of a body is empty. -/
theorem text_ne_empty {value : String} (hts : ∀ t ∈ ts, t.text ≠ "")
    (hf : .text value ∈ fragments h ts) : value ≠ "" := by
  obtain ⟨run, rest, hsub, hrun⟩ := exists_run_of_mem hf
  cases hrun with
  | text hne =>
    obtain ⟨t, us, rfl⟩ := List.exists_cons_of_ne_nil hne
    rw [List.map_cons, String.join_cons]
    intro hempty
    have ht : t.text ≠ "" := hts t (hsub.subset List.mem_cons_self)
    exact literal_ne_empty h ht (String.append_eq_empty_iff.1 hempty).1
  | shape hs => cases hs

/-- No literal is cut in two. -/
theorem Runs.text_not_adjacent {runs : List (List Token)} (hruns : Runs h runs fs)
    (before after : List Fragment) (a b : String) : fs ≠ before ++ .text a :: .text b :: after := by
  induction hruns generalizing before with
  | nil => simp
  | @cons run runs f fs hrun hruns ih =>
    intro hsplit
    cases before with
    | cons g before => exact ih before (List.cons.inj hsplit).2
    | nil =>
      obtain ⟨rfl, rfl⟩ := List.cons.inj hsplit
      -- the first literal is followed by a name, and the second begins with none
      cases hrun with
      | shape hs => cases hs
      | text _ _ hnext =>
        cases hruns with
        | cons hrun' _ =>
          cases hrun' with
          | shape hs => cases hs
          | text hne hall _ =>
            obtain ⟨t, us, rfl⟩ := List.exists_cons_of_ne_nil hne
            exact hall t List.mem_cons_self (hnext t rfl)

/-- **Reading a body loses nothing and invents nothing.** The tokens fall into runs that are not
empty, one for each fragment and in the same order (`Runs`). What a run is depends on its tokens
and, for a literal and a word, on what follows, and there is no other way to read them. So no
literal is empty, and no two of them stand side by side. -/
theorem fragments_classified (h : Header) (hslots : h.slots.Nodup) (ts : List Token)
    (hts : ∀ t ∈ ts, t.text ≠ "") :
    (∃ runs, runs.flatten = ts ∧ (∀ run ∈ runs, run ≠ []) ∧ runs.length = (fragments h ts).length ∧
      Runs h runs (fragments h ts)) ∧
    (∀ runs fs, runs.flatten = ts → Runs h runs fs → fs = fragments h ts) ∧
    (∀ value, .text value ∈ fragments h ts → value ≠ "") ∧
    ∀ before after a b, fragments h ts ≠ before ++ .text a :: .text b :: after := by
  obtain ⟨runs, hflat, hruns⟩ := exists_runs h ts
  refine ⟨⟨runs, hflat, hruns.ne_nil, hruns.length_eq, hruns⟩, ?_,
    fun value hvalue => text_ne_empty hts hvalue, hruns.text_not_adjacent⟩
  rintro runs' fs rfl hruns'
  exact hruns'.eq_fragments hslots

/-- A slot in front of a dot is no module, a template takes blanks between its arguments, and what
only begins like one is a word. A reference may lead to an object that is called like a slot, and at
the end of the body it is cut off. -/
theorem fragments_classified_lookahead :
    let h : Header := ⟨["x", "y"], ["a"], true⟩
    let ts := tokens "x.y T< x ,a> U<x,> M::x ... N."
    h.slots.Nodup ∧ (∀ t ∈ ts, t.text ≠ "") ∧
    fragments h ts = [.slot 0, .text ".", .slot 1, .text " ", .call "T" ["x", "a"], .text " ",
      .word "U", .text "<", .slot 0, .text ",> ", .foreign "M" "x" false, .text " __VA_ARGS__ ",
      .word "N", .text "."] ∧
    ∃ runs, runs.flatten = ts ∧ (∀ run ∈ runs, run ≠ []) ∧ runs.length = 14 ∧
      Runs h runs (fragments h ts) := by
  intro h ts
  have hslots : h.slots.Nodup := by decide
  have hts : ∀ t ∈ ts, t.text ≠ "" := by decide +kernel
  have hfragments : fragments h ts = [.slot 0, .text ".", .slot 1, .text " ", .call "T" ["x", "a"],
      .text " ", .word "U", .text "<", .slot 0, .text ",> ", .foreign "M" "x" false,
      .text " __VA_ARGS__ ", .word "N", .text "."] := by decide +kernel
  obtain ⟨⟨runs, hflat, hne, hlength, hruns⟩, -⟩ := fragments_classified h hslots ts hts
  rw [hfragments] at hlength
  exact ⟨hslots, hts, hfragments, runs, hflat, hne, hlength, hruns⟩

end MacroModules.Body
