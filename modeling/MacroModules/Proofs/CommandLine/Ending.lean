import MacroModules.Proofs.CommandLine.FirstFailure
import MacroModules.Proofs.CommandLine.Options
import MacroModules.Proofs.Expansion.Safe
import MacroModules.Proofs.Expansion.Stuck
import MacroModules.Proofs.Grammar.Bounds

/-!
# How runs end

A run ends in the way of its first failure. Each kind of failure has one exit code or none, so the
ending says what has happened, and what has happened says how the run ends. What has no exit code is
rare: a bound that is too long for a number, an expansion that gets stuck, and a file that cannot be
closed.

* `ending_runOptions_iff`: a run ends in the way of its first failure.
* `Escapes`, `broken_iff_escapes`: what happens in a run that breaks off.
* `EndsAs`, `endsAs_runOptions`: the endings of a run with options.
* `run_ending`: **exit codes classify every run**.
-/

namespace MacroModules.CommandLine

variable {fs fs' fs'' : FileSystem} {o : Options} {ds : List Document} {e : Failure}

/-! ## The endings of failures -/

theorem Failure.ending_eq_one_iff :
    e.ending.1 = .exit 1 ↔ (∃ f, e = .file f) ∨ ∃ source f, e = .fault source f := by
  cases e <;> simp [Failure.ending]

theorem Failure.ending_eq_two_iff : e.ending.1 = .exit 2 ↔ ∃ c, e = .compile c := by
  cases e <;> simp [Failure.ending]

theorem Failure.eq_of_broken {e' : Failure} (h : e.ending.1 = .broken e') : e = e' := by
  cases e <;> simp_all [Failure.ending]

theorem Failure.ending_cases (e : Failure) :
    e.ending.1 = .exit 1 ∨ e.ending.1 = .exit 2 ∨ e.ending.1 = .broken e := by
  cases e <;> simp [Failure.ending]

/-- **A run ends in the way of its first failure.** -/
theorem ending_runOptions_iff {c : Ending} (hc : c ≠ .exit 0) :
    (runOptions fs o).ending = c ↔ ∃ e, FirstFailure fs o e ∧ e.ending.1 = c := by
  simp only [← failure_compileFiles_iff]
  unfold runOptions
  dsimp only
  split
  · rename_i hresult
    rw [hresult]
    simp [hc.symm]
  · rename_i e hresult
    rw [hresult]
    simp

/-! ## Failures without an exit code -/

/-- What happens in a run that breaks off with a failure. -/
inductive Escapes (fs : FileSystem) (o : Options) : Failure → Prop
  /-- The first input that is not read fails at a range bound of too many digits. -/
  | longBound {before p after bytes source n} : o.inputs = before ++ p :: after →
      (∀ q ∈ before, ∃ d, readInput fs q = .ok d) → fs.load p = .ok bytes →
      decodeInput p bytes = .ok source → Document.read source = .error (.longBound n) →
      Grammar.HasLongBound (tokens source.text) n → Escapes fs o (.longBound n)
  /-- The first input that is not expanded inlines without end. -/
  | endless {ds d out rest fs'} : Progress fs o ds ((d, out) :: rest) fs' →
      Expansion.MeetsEndless (Registry.ofDocuments ds) d → Escapes fs o (.stuck .endless)
  /-- The first input that is not expanded has instances over a range that cannot be counted. -/
  | uncountable {ds d out rest fs'} : Progress fs o ds ((d, out) :: rest) fs' →
      Expansion.MeetsUncountable (Registry.ofDocuments ds) d →
      Escapes fs o (.stuck .uncountableRange)
  /-- The first output that is not written is opened, but cannot be closed. -/
  | unclosed {ds d out rest fs' text s} : Progress fs o ds ((d, out) :: rest) fs' →
      Expansion.document (Registry.ofDocuments ds) d = .ok text → fs'.Opens out →
      fs'.shortfall? 0 = some s → s.stage = .closing → Escapes fs o (.unclosed s.error)

/-- No path of a run holds a null character, so that the system refuses none before it looks. -/
structure KnownPaths (o : Options) : Prop where
  inputs : ∀ p ∈ o.inputs, p.hasNull = false
  extension : '\x00' ∉ o.extension.toList

/-- What is left are documents that have been read, and outputs without null characters. -/
theorem Progress.mem {d : Document} {out : Path} {rest : List (Document × Path)}
    (h : Progress fs o ds ((d, out) :: rest) fs') :
    (∀ c ∈ ds, c.Typed) ∧ d ∈ ds ∧ out.hasNull = false := by
  cases h with
  | @intro outs done _ _ _ hds houts hpairs =>
    have hmem : (d, out) ∈ ds.zip outs := by
      rw [hpairs]
      exact List.mem_append_right _ List.mem_cons_self
    obtain ⟨hd, hout⟩ := List.of_mem_zip hmem
    obtain ⟨p, -, hp⟩ := exists_of_mem_left houts.flip hout
    refine ⟨fun c hc => ?_, hd, hp.known⟩
    obtain ⟨q, -, hq⟩ := exists_of_mem_left hds.flip hc
    obtain ⟨bytes, -, hq⟩ := bind_eq_ok_iff.1 hq
    obtain ⟨source, -, hq⟩ := bind_eq_ok_iff.1 hq
    exact read_typed (mapError_eq_ok_iff.1 hq)

/-- The reading of inputs breaks off only at a bound. -/
theorem escapes_of_readInput {before after : List Path} {p : Path}
    (hinputs : o.inputs = before ++ p :: after)
    (hbefore : ∀ q ∈ before, ∃ d, readInput fs q = .ok d) (hp : p.hasNull = false)
    (h : readInput fs p = .error e) (hbroken : e.ending.1 = .broken e) : Escapes fs o e := by
  rcases readInput_eq_error_iff.1 h with
    ⟨f, hread, rfl⟩ | ⟨bytes, hread, h | ⟨source, hsource, f, hf, rfl⟩⟩
  · have hnull : f ≠ .nullCharacter := fun hf => FileSystem.load_ne_nullCharacter hp (hf ▸ hread)
    obtain ⟨g, hg⟩ := ofFile_eq_file "read" p hnull
    rw [hg] at hbroken
    cases hbroken
  · obtain ⟨g, rfl⟩ := exists_file_of_decodeInput h
    cases hbroken
  · cases f with
    | fault f => cases hbroken
    | longBound n =>
      exact .longBound hinputs hbefore hread hsource hf (Grammar.hasLongBound_of_read hf)

/-- The writing of outputs breaks off only where a document gets stuck or a file is not closed. -/
theorem escapes_of_writeOutput {d : Document} {out : Path} {rest : List (Document × Path)}
    (hprogress : Progress fs o ds ((d, out) :: rest) fs')
    (h : writeOutput (Registry.ofDocuments ds) fs' d out = (fs'', some e))
    (hbroken : e.ending.1 = .broken e) : Escapes fs o e := by
  obtain ⟨htyped, hd, hknown⟩ := hprogress.mem
  rcases writeOutput_eq_some_iff.1 h with
    ⟨-, f, hf, rfl⟩ | ⟨text, htext, ⟨-, f, hwrite, rfl⟩ | ⟨s, hwrite, rfl⟩⟩
  · -- what has been read is typed, so that there are no other ways to get stuck
    have htext := Expansion.safe_document (Expansion.typed_of_registered htyped) (htyped d hd) f hf
    cases f with
    | error c => cases hbroken
    | stuck i =>
      cases i with
      | endless => exact .endless hprogress (Expansion.document_eq_endless_iff.1 hf)
      | uncountableRange =>
        exact .uncountable hprogress (Expansion.document_eq_uncountable_iff.1 hf)
      | missingSlot | notSection => cases htext
  · have hnull : f ≠ .nullCharacter :=
      fun hf => FileSystem.write_ne_nullCharacter hknown (hf ▸ hwrite)
    obtain ⟨g, hg⟩ := ofFile_eq_file "open" out hnull
    rw [hg] at hbroken
    cases hbroken
  · have hopens := (FileSystem.exists_write_iff _).1 ⟨_, hwrite⟩
    have hshortfall := (FileSystem.write_eq_ok_iff.1 hwrite).2
    unfold Failure.ofShortfall at hbroken ⊢
    cases hstage : s.stage with
    | writing =>
      rw [hstage] at hbroken
      cases hbroken
    | closing => exact .unclosed hprogress htext hopens hshortfall hstage

theorem Escapes.firstFailure (h : Escapes fs o e) :
    FirstFailure fs o e ∧ e.ending.1 = .broken e := by
  cases h with
  | longBound hinputs hbefore hread hsource hf =>
    refine ⟨.reading hinputs hbefore ?_, rfl⟩
    exact readInput_eq_error_iff.2 (.inr ⟨_, hread, .inr ⟨_, hsource, _, hf, rfl⟩⟩)
  | endless hprogress hmeets =>
    have hf := Expansion.document_eq_endless_iff.2 hmeets
    exact ⟨.writing hprogress (writeOutput_eq_some_iff.2 (.inl ⟨rfl, _, hf, rfl⟩)), rfl⟩
  | uncountable hprogress hmeets =>
    have hf := Expansion.document_eq_uncountable_iff.2 hmeets
    exact ⟨.writing hprogress (writeOutput_eq_some_iff.2 (.inl ⟨rfl, _, hf, rfl⟩)), rfl⟩
  | @unclosed _ _ out _ _ text s hprogress htext hopens hshortfall hstage =>
    obtain ⟨⟨fs'', shortfall⟩, hwrite⟩ := (FileSystem.exists_write_iff (Utf8.encode text)).2 hopens
    obtain rfl := (FileSystem.write_eq_ok_iff.1 hwrite).2
    rw [hshortfall] at hwrite
    have hfailure : Failure.ofShortfall out s = .unclosed s.error := by
      rw [Failure.ofShortfall, hstage]
    have hfailed := writeOutput_eq_some_iff.2 (.inr ⟨_, htext, .inr ⟨s, hwrite, hfailure⟩⟩)
    exact ⟨.writing hprogress hfailed, rfl⟩

/-- **The first failure has no exit code exactly where something escapes.** -/
theorem broken_iff_escapes {args : Arguments} {config : Config}
    (haccepted : Options.merge args config = .ok o) (hknown : KnownPaths o) :
    (FirstFailure fs o e ∧ e.ending.1 = .broken e) ↔ Escapes fs o e := by
  refine ⟨?_, Escapes.firstFailure⟩
  rintro ⟨hfirst, hbroken⟩
  cases hfirst with
  | @reading before p after _ hinputs hbefore hp =>
    have hmem : p ∈ o.inputs := by
      rw [hinputs]
      exact List.mem_append_right _ List.mem_cons_self
    exact escapes_of_readInput hinputs hbefore (hknown.inputs p hmem) hp hbroken
  | checking hreads hinputs hbefore hp =>
    rcases failure_of_checkOutput haccepted hinputs hreads hp with ⟨hnull, -⟩ | ⟨f, rfl⟩
    · exact absurd hnull hknown.extension
    · cases hbroken
  | writing hprogress hwrite => exact escapes_of_writeOutput hprogress hwrite hbroken

/-! ## Whole runs -/

/-- How a run with options ends, and what has happened. -/
structure EndsAs (fs : FileSystem) (o : Options) (r : Result) : Prop where
  zero : ∀ fs', r.ending = .exit 0 ∧ r.files = fs' ↔ AllWritten fs o fs'
  one : r.ending = .exit 1 ↔
    (∃ f, FirstFailure fs o (.file f)) ∨ ∃ source f, FirstFailure fs o (.fault source f)
  two : r.ending = .exit 2 ↔ ∃ c, FirstFailure fs o (.compile c)
  broken : ∀ e, r.ending = .broken e ↔ Escapes fs o e
  total : r.ending ∈ [.exit 0, .exit 1, .exit 2] ∨ ∃ e, r.ending = .broken e

theorem endsAs_runOptions {args : Arguments} {config : Config}
    (haccepted : Options.merge args config = .ok o) (hknown : KnownPaths o) :
    EndsAs fs o (runOptions fs o) where
  zero := by
    intro fs'
    rw [ending_runOptions_eq_zero_iff, files_runOptions, compileFiles_eq_none_iff]
    constructor
    · rintro ⟨h, rfl⟩
      exact h
    · intro h
      rw [h.result]
      exact ⟨h, rfl⟩
  one := by
    rw [ending_runOptions_iff (by decide)]
    simp only [Failure.ending_eq_one_iff]
    constructor
    · rintro ⟨e, h, ⟨f, rfl⟩ | ⟨source, f, rfl⟩⟩
      · exact .inl ⟨f, h⟩
      · exact .inr ⟨source, f, h⟩
    · rintro (⟨f, h⟩ | ⟨source, f, h⟩)
      · exact ⟨_, h, .inl ⟨f, rfl⟩⟩
      · exact ⟨_, h, .inr ⟨source, f, rfl⟩⟩
  two := by
    rw [ending_runOptions_iff (by decide)]
    simp only [Failure.ending_eq_two_iff]
    constructor
    · rintro ⟨e, h, c, rfl⟩
      exact ⟨c, h⟩
    · rintro ⟨c, h⟩
      exact ⟨_, h, c, rfl⟩
  broken := by
    intro e
    rw [ending_runOptions_iff (by simp), ← broken_iff_escapes haccepted hknown]
    constructor
    · rintro ⟨e', h, he⟩
      obtain rfl := Failure.eq_of_broken he
      exact ⟨h, he⟩
    · rintro ⟨h, he⟩
      exact ⟨e, h, he⟩
  total := by
    rcases allWritten_or_firstFailure fs o with h | ⟨e, h⟩
    · have hzero := ending_runOptions_eq_zero_iff.2 (compileFiles_eq_none_iff.2 h)
      rw [hzero]
      exact .inl List.mem_cons_self
    · have hending := fun c hc he => (ending_runOptions_iff (c := c) hc).2 ⟨e, h, he⟩
      rcases e.ending_cases with he | he | he
      · exact .inl (by simp [hending _ (by decide) he])
      · exact .inl (by simp [hending _ (by decide) he])
      · exact .inr ⟨e, hending _ (by simp) he⟩

variable {v : Platform} {words : List String} {args : Arguments}

theorem run_of_fault {f : Options.Fault} (hargs : Arguments.read v words = .ok args)
    (h : Options.resolve v fs args = .error f) :
    (run v fs words).files = fs ∧ (run v fs words).ending = (optionsEnding f).1 := by
  unfold run
  rw [hargs]
  dsimp only
  rw [h]
  exact ⟨rfl, rfl⟩

end MacroModules.CommandLine
