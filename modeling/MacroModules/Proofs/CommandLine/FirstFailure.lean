import MacroModules.Proofs.CommandLine.Finished

/-!
# The first failure of a run

Failures come in the order of the work: first every input is read, then every output path is
checked, and then the inputs are expanded and written one after the other. What the first failure is
can be said from what is in front of it alone, and a run fails with just this one.

* `checkOutput`: one output path, the step of `checkOutputs`.
* `Progress`, `AllWritten`: how far a run gets.
* `FirstFailure`: the first failure, in one of three stages.
* `failure_compileFiles_iff`, `compileFiles_eq_none_iff`: **the failure of a run is the first one**,
  and a run without a failure has written everything.
* `readInput_eq_error_iff`, `failure_of_checkOutput`: which failures the steps have.
-/

namespace MacroModules.CommandLine

variable {fs fs' : FileSystem} {o : Options} {ds : List Document} {e : Failure}

/-! ## Output paths -/

/-- The output of one input, the step of `checkOutputs`. -/
def checkOutput (fs : FileSystem) (extension : String) (p : Path) : Except Failure Path := do
  let out ← (p.withExtension extension).mapError .path
  if out.hasNull then .error .nullCharacter
  else if fs.normalize out = fs.normalize p then
    .error (.file ⟨"open", p.toString, "output would overwrite the input file"⟩)
  else return out

theorem checkOutputs_eq_mapM (fs : FileSystem) (extension : String) (paths : List Path) :
    checkOutputs fs extension paths = paths.mapM (checkOutput fs extension) := by
  induction paths with
  | nil => rfl
  | cons p paths ih =>
    rw [checkOutputs, List.mapM_cons, ih, checkOutput]
    cases (p.withExtension extension).mapError Failure.path with
    | error e => rfl
    | ok out =>
      dsimp only [bind, Except.bind]
      split
      · rfl
      · split <;> rfl

/-! ## The first failure -/

/-- The inputs are the documents `ds` and have outputs of their own, the expansions of the first of
them have been written as a whole, which gives the files `fs'`, and the documents and outputs in
`rest` are left. -/
inductive Progress (fs : FileSystem) (o : Options) (ds : List Document) :
    List (Document × Path) → FileSystem → Prop
  | intro {outs done rest texts fs'} :
      List.Forall₂ (fun p d => readInput fs p = .ok d) o.inputs ds →
      List.Forall₂ (OutputOf fs o.extension) o.inputs outs → ds.zip outs = done ++ rest →
      List.Forall₂ (fun d x => Expansion.document (Registry.ofDocuments ds) d = .ok x)
        (done.map (·.1)) texts →
      fs.WritesWhole (writesOf (done.map (·.2)) texts) fs' → Progress fs o ds rest fs'

/-- Every input has been read, expanded and written, which gives the files `fs'`. -/
def AllWritten (fs : FileSystem) (o : Options) (fs' : FileSystem) : Prop :=
  ∃ ds, Progress fs o ds [] fs'

/-- The failure is the first: everything in front of it is without one. -/
inductive FirstFailure (fs : FileSystem) (o : Options) : Failure → Prop
  | reading {before p after e} : o.inputs = before ++ p :: after →
      (∀ q ∈ before, ∃ d, readInput fs q = .ok d) → readInput fs p = .error e → FirstFailure fs o e
  | checking {before p after e} : (∀ q ∈ o.inputs, ∃ d, readInput fs q = .ok d) →
      o.inputs = before ++ p :: after →
      (∀ q ∈ before, ∃ out, checkOutput fs o.extension q = .ok out) →
      checkOutput fs o.extension p = .error e → FirstFailure fs o e
  | writing {ds d out rest fs' fs'' e} : Progress fs o ds ((d, out) :: rest) fs' →
      writeOutput (Registry.ofDocuments ds) fs' d out = (fs'', some e) → FirstFailure fs o e

theorem compileFiles_of_unread (h : o.inputs.mapM (readInput fs) = .error e) :
    (compileFiles fs o).result = (fs, some e) := by
  unfold compileFiles
  dsimp only
  rw [readInputs_result, h]

theorem compileFiles_of_unchecked (hds : o.inputs.mapM (readInput fs) = .ok ds)
    (h : checkOutputs fs o.extension o.inputs = .error e) :
    (compileFiles fs o).result = (fs, some e) := by
  unfold compileFiles
  dsimp only
  rw [readInputs_result, hds]
  dsimp only
  rw [h]

/-- Outputs that can be written are passed over. -/
theorem writeOutputs_append {r : Registry} {done rest : List (Document × Path)}
    {texts : List String}
    (htexts : List.Forall₂ (fun d x => Expansion.document r d = .ok x) (done.map (·.1)) texts)
    (hall : fs.WritesWhole (writesOf (done.map (·.2)) texts) fs') :
    (writeOutputs r fs (done ++ rest)).result = (writeOutputs r fs' rest).result := by
  induction done generalizing fs texts with
  | nil =>
    cases hall.all
    rfl
  | cons w done ih =>
    obtain ⟨d, out⟩ := w
    cases htexts with
    | cons hx htexts =>
      obtain ⟨next, hwrite, hall⟩ := FileSystem.writesWhole_cons_iff.1 hall
      have hstep := writeOutput_eq_none_iff.2 ⟨_, hx, hwrite⟩
      rw [List.cons_append, writeOutputs_of_none hstep]
      exact ih htexts hall

/-- What a run comes to depends on what is left to be done. -/
theorem Progress.result {rest : List (Document × Path)} (h : Progress fs o ds rest fs') :
    (compileFiles fs o).result = (writeOutputs (Registry.ofDocuments ds) fs' rest).result := by
  cases h with
  | intro hds houts hpairs htexts hall =>
    rw [compileFiles_eq_writeOutputs hds houts, hpairs]
    exact writeOutputs_append htexts hall

theorem FirstFailure.result (h : FirstFailure fs o e) : (compileFiles fs o).result.2 = some e := by
  cases h with
  | reading hinputs hbefore hp =>
    rw [compileFiles_of_unread (mapM_eq_error_iff.2 ⟨_, _, _, hinputs, hbefore, hp⟩)]
  | checking hreads hinputs hbefore hp =>
    obtain ⟨ds, hds⟩ := exists_mapM_eq_ok_iff.2 hreads
    have hcheck : checkOutputs fs o.extension o.inputs = .error e := by
      rw [checkOutputs_eq_mapM]
      exact mapM_eq_error_iff.2 ⟨_, _, _, hinputs, hbefore, hp⟩
    rw [compileFiles_of_unchecked hds hcheck]
  | writing hprogress hwrite => rw [hprogress.result, writeOutputs_of_some hwrite]

theorem AllWritten.result (h : AllWritten fs o fs') : (compileFiles fs o).result = (fs', none) := by
  obtain ⟨ds, hprogress⟩ := h
  rw [hprogress.result]
  rfl

/-- A run writes everything or comes to a first failure. -/
theorem allWritten_or_firstFailure (fs : FileSystem) (o : Options) :
    AllWritten fs o (compileFiles fs o).result.1 ∨ ∃ e, FirstFailure fs o e := by
  cases hds : o.inputs.mapM (readInput fs) with
  | error e =>
    obtain ⟨before, p, after, hinputs, hbefore, hp⟩ := mapM_eq_error_iff.1 hds
    exact .inr ⟨e, .reading hinputs hbefore hp⟩
  | ok ds =>
    have hreads := exists_mapM_eq_ok_iff.1 ⟨ds, hds⟩
    rw [mapM_eq_ok_iff] at hds
    cases hcheck : checkOutputs fs o.extension o.inputs with
    | error e =>
      rw [checkOutputs_eq_mapM] at hcheck
      obtain ⟨before, p, after, hinputs, hbefore, hp⟩ := mapM_eq_error_iff.1 hcheck
      exact .inr ⟨e, .checking hreads hinputs hbefore hp⟩
    | ok outs =>
      have houts := checkOutputs_eq_ok_iff.1 hcheck
      obtain ⟨done, rest, texts, fs', hpairs, htexts, hall, hstop⟩ :=
        writeOutputs_result (Registry.ofDocuments ds) fs (ds.zip outs)
      have hprogress := Progress.intro hds houts hpairs htexts hall
      rw [← compileFiles_eq_writeOutputs hds houts] at hstop
      generalize (compileFiles fs o).result = result at hstop ⊢
      cases hstop with
      | finished => exact .inl ⟨ds, hprogress⟩
      | failed hwrite => exact .inr ⟨_, .writing hprogress hwrite⟩

/-- **The failure of a run is the first one.** -/
theorem failure_compileFiles_iff : (compileFiles fs o).result.2 = some e ↔ FirstFailure fs o e := by
  refine ⟨fun h => ?_, FirstFailure.result⟩
  rcases allWritten_or_firstFailure fs o with hall | ⟨e', hfirst⟩
  · rw [hall.result] at h
    cases h
  · rw [hfirst.result, Option.some.injEq] at h
    rwa [← h]

/-- **A run without a failure has written everything.** -/
theorem compileFiles_eq_none_iff :
    (compileFiles fs o).result.2 = none ↔ AllWritten fs o (compileFiles fs o).result.1 := by
  refine ⟨fun h => ?_, fun h => by rw [h.result]⟩
  rcases allWritten_or_firstFailure fs o with hall | ⟨e, hfirst⟩
  · exact hall
  · rw [hfirst.result] at h
    cases h

/-! ## Which failures a step has -/

theorem readInput_eq_error_iff {p : Path} : readInput fs p = .error e ↔
    (∃ f, fs.load p = .error f ∧ .ofFile "read" p f = e) ∨
    ∃ bytes, fs.load p = .ok bytes ∧ (decodeInput p bytes = .error e ∨
      ∃ source, decodeInput p bytes = .ok source ∧
        ∃ f, Document.read source = .error f ∧ .ofRead source f = e) := by
  simp only [readInput, bind_eq_error_iff, mapError_eq_error_iff, mapError_eq_ok_iff]

theorem exists_file_of_decodeInput {p : Path} {bytes : List UInt8}
    (h : decodeInput p bytes = .error e) : ∃ f, e = .file f := by
  unfold decodeInput at h
  split at h
  · cases h
  · cases h
    exact ⟨_, rfl⟩

theorem ofFile_eq_file (operation : String) (p : Path) {f : FileSystem.Fault}
    (h : f ≠ .nullCharacter) : ∃ g, Failure.ofFile operation p f = .file g := by
  cases f with
  | nullCharacter => exact absurd rfl h
  | missing | isDirectory | notDirectory | tooLong | refused => exact ⟨_, rfl⟩

/-- The check of an output path refuses a null character and the path of the input. -/
theorem checkOutput_eq_error {extension : String} {p out : Path}
    (hout : p.withExtension extension = .ok out) (h : checkOutput fs extension p = .error e) :
    (out.hasNull = true ∧ e = .nullCharacter) ∨ ∃ f, e = .file f := by
  unfold checkOutput at h
  rw [hout] at h
  dsimp only [Except.mapError, bind, Except.bind] at h
  split at h
  · rename_i hnull
    cases h
    exact .inl ⟨hnull, rfl⟩
  · split at h
    · cases h
      exact .inr ⟨_, rfl⟩
    · cases h

variable {args : Arguments} {config : Config}

/-- An input that can be read has an output path, so that just two failures are left. -/
theorem failure_of_checkOutput (haccepted : Options.merge args config = .ok o)
    {before after : List Path} {p : Path} (hinputs : o.inputs = before ++ p :: after)
    (hreads : ∀ q ∈ o.inputs, ∃ d, readInput fs q = .ok d)
    (h : checkOutput fs o.extension p = .error e) :
    ('\x00' ∈ o.extension.toList ∧ e = .nullCharacter) ∨ ∃ f, e = .file f := by
  have hp : p ∈ o.inputs := by
    rw [hinputs]
    exact List.mem_append_right _ List.mem_cons_self
  obtain ⟨d, hd⟩ := hreads p hp
  obtain ⟨out, hout⟩ := exists_output haccepted hp hd
  have hnull := Path.hasNull_of_withExtension hout (hasNull_of_readInput hd)
  rcases checkOutput_eq_error hout h with ⟨hknown, he⟩ | hfile
  · rw [hknown] at hnull
    exact .inl ⟨List.contains_iff_mem.1 hnull.symm, he⟩
  · exact .inr hfile

/-- No output path is missing in a run. -/
theorem not_firstFailure_path (haccepted : Options.merge args config = .ok o) (f : Path.Fault) :
    ¬ FirstFailure fs o (.path f) := by
  intro h
  cases h with
  | reading hinputs hbefore hp =>
    rcases readInput_eq_error_iff.1 hp with ⟨f, -, h⟩ | ⟨bytes, -, h | ⟨source, -, f, -, h⟩⟩
    · cases f <;> cases h
    · obtain ⟨f, h⟩ := exists_file_of_decodeInput h
      cases h
    · cases f <;> cases h
  | checking hreads hinputs hbefore hp =>
    rcases failure_of_checkOutput haccepted hinputs hreads hp with ⟨-, h⟩ | ⟨f, h⟩ <;> cases h
  | writing hprogress hwrite =>
    rcases writeOutput_eq_some_iff.1 hwrite with
      ⟨-, f, -, h⟩ | ⟨text, -, ⟨-, f, -, h⟩ | ⟨s, -, h⟩⟩
    · cases f <;> cases h
    · cases f <;> cases h
    · unfold Failure.ofShortfall at h
      split at h <;> cases h

end MacroModules.CommandLine
