import MacroModules.CommandLine.Run
import MacroModules.Proofs.FileSystem

/-!
# What a run does to the files

A run reads all of its inputs before it writes anything, and then writes one output after the other.
So the files after it are the files before it with some outputs written, in order; the last of them
may be cut short.

* `writeOutput_eq_none_iff`, `writeOutput_eq_some_iff`: what can come of one output.
* `CutShort`, `writeAll_of_failed`: what is left of an output that fails.
* `writeOutputs_result`: the outputs up to the first that fails are written.
* `compileFiles_result`: nothing is written unless every input has been read and has an output of
  its own.
* `run_eq`, `files_runOptions`, `ending_runOptions_eq_zero_iff`: the same for a whole run.
-/

namespace MacroModules.CommandLine

variable {fs fs' : FileSystem} {r : Registry} {o : Options}

/-! ## Inputs and their outputs -/

theorem readInputs_result (fs : FileSystem) (paths : List Path) :
    (readInputs fs paths).result = paths.mapM (readInput fs) := by
  induction paths with
  | nil => rfl
  | cons p paths ih =>
    rw [readInputs, List.mapM_cons]
    cases readInput fs p with
    | error e => rfl
    | ok d =>
      dsimp only
      rw [ih]
      cases paths.mapM (readInput fs) <;> rfl

/-- The output of an input: with another extension, at a path that the system knows, in another
place. -/
structure OutputOf (fs : FileSystem) (extension : String) (p out : Path) : Prop where
  path : p.withExtension extension = .ok out
  known : out.hasNull = false
  ne : fs.normalize out ≠ fs.normalize p

theorem checkOutputs_eq_ok_iff {extension : String} {paths outs : List Path} :
    checkOutputs fs extension paths = .ok outs ↔
      List.Forall₂ (OutputOf fs extension) paths outs := by
  induction paths generalizing outs with
  | nil =>
    rw [checkOutputs, List.forall₂_nil_left_iff]
    exact ⟨fun h => (Except.ok.inj h).symm, fun h => by rw [h]⟩
  | cons p paths ih =>
    rw [checkOutputs, List.forall₂_cons_left_iff]
    constructor
    · intro h
      obtain ⟨out, hout, h⟩ := bind_eq_ok_iff.1 h
      have hpath := mapError_eq_ok_iff.1 hout
      split at h
      · cases h
      · rename_i hnull
        split at h
        · cases h
        · rename_i hne
          obtain ⟨outs', houts, h⟩ := bind_eq_ok_iff.1 h
          cases h
          exact ⟨out, outs', ⟨hpath, eq_false_of_ne_true hnull, hne⟩, ih.1 houts, rfl⟩
    · rintro ⟨out, outs', hout, houts, rfl⟩
      refine bind_eq_ok_iff.2 ⟨out, mapError_eq_ok_iff.2 hout.path, ?_⟩
      rw [if_neg (by rw [hout.known]; decide), if_neg hout.ne]
      exact bind_eq_ok_iff.2 ⟨outs', ih.2 houts, rfl⟩

/-! ## Writing outputs -/

variable {d : Document} {out : Path} {e : Failure}

/-- An output is without failure if the document has an expansion and all of it is written. -/
theorem writeOutput_eq_none_iff : writeOutput r fs d out = (fs', none) ↔
    ∃ text, Expansion.document r d = .ok text ∧
      fs.write out (Utf8.encode text) = .ok (fs', none) := by
  unfold writeOutput
  cases Expansion.document r d with
  | error f => simp
  | ok text =>
    cases hwrite : fs.write out (Utf8.encode text) with
    | error f => simp [hwrite]
    | ok written =>
      obtain ⟨next, shortfall⟩ := written
      cases shortfall <;> simp [hwrite]

/-- An output fails in one of three ways: there is no expansion, the file cannot be opened, or not
all is written. -/
theorem writeOutput_eq_some_iff : writeOutput r fs d out = (fs', some e) ↔
    (fs = fs' ∧ ∃ f, Expansion.document r d = .error f ∧ .ofExpansion f = e) ∨
    ∃ text, Expansion.document r d = .ok text ∧
      ((fs = fs' ∧ ∃ f, fs.write out (Utf8.encode text) = .error f ∧ .ofFile "open" out f = e) ∨
      ∃ s, fs.write out (Utf8.encode text) = .ok (fs', some s) ∧ .ofShortfall out s = e) := by
  unfold writeOutput
  cases Expansion.document r d with
  | error f => simp
  | ok text =>
    cases hwrite : fs.write out (Utf8.encode text) with
    | error f => simp [hwrite]
    | ok written =>
      obtain ⟨next, shortfall⟩ := written
      cases shortfall <;> simp [hwrite]

/-- The document has an expansion and its output can be opened, but as the file of this number it
gets only the content. -/
def CutShort (r : Registry) (fs : FileSystem) (i : Nat) (d : Document) (out : Path)
    (content : List UInt8) : Prop :=
  ∃ text s, Expansion.document r d = .ok text ∧ fs.Opens out ∧ fs.shortfall? i = some s ∧
    (Utf8.encode text).take s.kept = content

/-- What an output that fails leaves behind: nothing, or a file that is cut short. -/
theorem writeAll_of_failed (h : writeOutput r fs d out = (fs', some e)) :
    ∃ cut : Option (List UInt8), (∀ content, cut = some content ↔ CutShort r fs 0 d out content) ∧
      fs.writeAll (cut.map (out, ·)).toList = .ok fs' := by
  rcases writeOutput_eq_some_iff.1 h with
    ⟨rfl, f, hf, -⟩ | ⟨text, htext, ⟨rfl, f, hf, -⟩ | ⟨s, hs, -⟩⟩
  · refine ⟨none, fun content => ⟨fun h => (by cases h), ?_⟩, rfl⟩
    rintro ⟨text, s, htext, -⟩
    rw [hf] at htext
    cases htext
  · refine ⟨none, fun content => ⟨fun h => (by cases h), ?_⟩, rfl⟩
    rintro ⟨text, s, -, hopens, -⟩
    obtain ⟨written, hwritten⟩ := (FileSystem.exists_write_iff _).2 hopens
    rw [hf] at hwritten
    cases hwritten
  · obtain ⟨hcreate, hshortfall⟩ := FileSystem.write_eq_ok_iff.1 hs
    have hopens := (FileSystem.exists_write_iff _).1 ⟨_, hs⟩
    refine ⟨some ((Utf8.encode text).take s.kept), fun content => ⟨?_, ?_⟩, ?_⟩
    · rintro ⟨⟩
      exact ⟨text, s, htext, hopens, hshortfall, rfl⟩
    · rintro ⟨text', s', htext', -, hshortfall', rfl⟩
      rw [htext] at htext'
      rw [hshortfall] at hshortfall'
      cases htext'
      cases hshortfall'
      rfl
    · exact FileSystem.writeAll_cons_eq_ok_iff.2 ⟨fs', hcreate, rfl⟩

/-- The files that are written if the texts are the expansions for some outputs. -/
def writesOf (outs : List Path) (texts : List String) : List (Path × List UInt8) :=
  outs.zip (texts.map Utf8.encode)

theorem getElem?_writesOf {outs : List Path} {texts : List String} {i : Nat}
    {w : Path × List UInt8} : (writesOf outs texts)[i]? = some w ↔
      outs[i]? = some w.1 ∧ ∃ x, texts[i]? = some x ∧ Utf8.encode x = w.2 := by
  rw [writesOf, List.getElem?_zip_eq_some, List.getElem?_map, Option.map_eq_some_iff]

/-- Where the writing of outputs has stopped, and with which result: behind the last output, or at
one that fails. -/
inductive StoppedAt (r : Registry) (fs : FileSystem) :
    List (Document × Path) → FileSystem × Option Failure → Prop
  | finished : StoppedAt r fs [] (fs, none)
  | failed {d out rest fs' e} : writeOutput r fs d out = (fs', some e) →
      StoppedAt r fs ((d, out) :: rest) (fs', some e)

namespace StoppedAt

variable {rest : List (Document × Path)} {result : FileSystem × Option Failure}

/-- The output at which the writing stops may have been cut short; nothing else is touched. -/
theorem exists_cut (h : StoppedAt r fs rest result) :
    ∃ cut : List (Path × List UInt8), (∀ w ∈ cut, ∃ pair ∈ rest, pair.2 = w.1) ∧
      fs.writeAll cut = .ok result.1 := by
  cases h with
  | finished => exact ⟨[], fun w hw => (by cases hw), rfl⟩
  | failed h =>
    obtain ⟨cut, -, hcut⟩ := writeAll_of_failed h
    refine ⟨_, fun w hw => ⟨_, List.mem_cons_self, ?_⟩, hcut⟩
    simp only [Option.mem_toList, Option.map_eq_some_iff] at hw
    obtain ⟨content, -, rfl⟩ := hw
    rfl

theorem of_none (h : StoppedAt r fs rest result) (hnone : result.2 = none) :
    rest = [] ∧ result.1 = fs := by
  cases h with
  | finished => exact ⟨rfl, rfl⟩
  | failed => cases hnone

end StoppedAt

theorem writeOutputs_of_none {rest : List (Document × Path)}
    (h : writeOutput r fs d out = (fs', none)) :
    (writeOutputs r fs ((d, out) :: rest)).result = (writeOutputs r fs' rest).result := by
  rw [writeOutputs, h]

theorem writeOutputs_of_some {rest : List (Document × Path)}
    (h : writeOutput r fs d out = (fs', some e)) :
    (writeOutputs r fs ((d, out) :: rest)).result = (fs', some e) := by
  rw [writeOutputs, h]

/-- **Outputs are written up to the first that fails.** -/
theorem writeOutputs_result (r : Registry) (fs : FileSystem) (pairs : List (Document × Path)) :
    ∃ done rest texts fs', pairs = done ++ rest ∧
      List.Forall₂ (fun d x => Expansion.document r d = .ok x) (done.map (·.1)) texts ∧
      fs.WritesWhole (writesOf (done.map (·.2)) texts) fs' ∧
      StoppedAt r fs' rest (writeOutputs r fs pairs).result := by
  induction pairs generalizing fs with
  | nil => exact ⟨[], [], [], fs, rfl, .nil, fs.writesWhole_nil, .finished⟩
  | cons w pairs ih =>
    obtain ⟨d, out⟩ := w
    rcases hstep : writeOutput r fs d out with ⟨next, _ | e⟩
    · rw [writeOutputs_of_none hstep]
      obtain ⟨text, htext, hwrite⟩ := writeOutput_eq_none_iff.1 hstep
      obtain ⟨done, rest, texts, fs', rfl, htexts, hall, hstop⟩ := ih next
      refine ⟨(d, out) :: done, rest, text :: texts, fs', rfl, .cons htext htexts, ?_, hstop⟩
      exact FileSystem.writesWhole_cons_iff.2 ⟨next, hwrite, hall⟩
    · rw [writeOutputs_of_some hstep]
      exact ⟨[], (d, out) :: pairs, [], fs, rfl, .nil, fs.writesWhole_nil, .failed hstep⟩

/-! ## Whole runs -/

/-- **Nothing is written unless all inputs can be read and have outputs of their own**; after that
outputs are written as far as it goes. -/
theorem compileFiles_result (fs : FileSystem) (o : Options) :
    (∃ e, (compileFiles fs o).result = (fs, some e)) ∨
    ∃ ds outs, List.Forall₂ (fun p d => readInput fs p = .ok d) o.inputs ds ∧
      List.Forall₂ (OutputOf fs o.extension) o.inputs outs ∧
      (compileFiles fs o).result =
        (writeOutputs (Registry.ofDocuments ds) fs (ds.zip outs)).result := by
  unfold compileFiles
  dsimp only
  rw [readInputs_result]
  cases hds : o.inputs.mapM (readInput fs) with
  | error e => exact .inl ⟨e, rfl⟩
  | ok ds =>
    cases houts : checkOutputs fs o.extension o.inputs with
    | error e => exact .inl ⟨e, rfl⟩
    | ok outs =>
      exact .inr ⟨ds, outs, mapM_eq_ok_iff.1 hds, checkOutputs_eq_ok_iff.1 houts, rfl⟩

/-- If files have changed, the inputs could be read, and outputs of theirs have been written. -/
theorem compileFiles_files (fs : FileSystem) (o : Options) :
    (compileFiles fs o).result.1 = fs ∨
    ∃ ds outs writes, List.Forall₂ (fun p d => readInput fs p = .ok d) o.inputs ds ∧
      List.Forall₂ (OutputOf fs o.extension) o.inputs outs ∧ (∀ w ∈ writes, w.1 ∈ outs) ∧
      fs.writeAll writes = .ok (compileFiles fs o).result.1 := by
  rcases compileFiles_result fs o with ⟨e, h⟩ | ⟨ds, outs, hds, houts, h⟩
  · exact .inl (by rw [h])
  · rw [h]
    obtain ⟨done, rest, texts, fs', hpairs, -, hall, hstop⟩ :=
      writeOutputs_result (Registry.ofDocuments ds) fs (ds.zip outs)
    have hout : ∀ pair ∈ done ++ rest, pair.2 ∈ outs := by
      intro pair hpair
      rw [← hpairs] at hpair
      exact (List.of_mem_zip hpair).2
    have hdone : ∀ w ∈ writesOf (done.map (·.2)) texts, w.1 ∈ outs := by
      intro w hw
      obtain ⟨pair, hpair, hw⟩ := List.mem_map.1 (List.of_mem_zip hw).1
      rw [← hw]
      exact hout pair (List.mem_append_left rest hpair)
    obtain ⟨cut, hcut, hend⟩ := hstop.exists_cut
    refine .inr ⟨ds, outs, _ ++ cut, hds, houts, ?_,
      FileSystem.writeAll_append_eq_ok_iff.2 ⟨fs', hall.all, hend⟩⟩
    intro w hw
    rcases List.mem_append.1 hw with hw | hw
    · exact hdone w hw
    · obtain ⟨pair, hpair, hw⟩ := hcut w hw
      rw [← hw]
      exact hout pair (List.mem_append_right done hpair)

/-- If there is no failure, every output has been written. -/
theorem compileFiles_of_none (h : (compileFiles fs o).result.2 = none) :
    ∃ ds outs texts, List.Forall₂ (fun p d => readInput fs p = .ok d) o.inputs ds ∧
      List.Forall₂ (OutputOf fs o.extension) o.inputs outs ∧
      ds.mapM (Expansion.document (Registry.ofDocuments ds)) = .ok texts ∧
      fs.writeAll (writesOf outs texts) = .ok (compileFiles fs o).result.1 := by
  rcases compileFiles_result fs o with ⟨e, hresult⟩ | ⟨ds, outs, hds, houts, hresult⟩
  · rw [hresult] at h
    cases h
  · rw [hresult] at h ⊢
    obtain ⟨done, rest, texts, fs', hpairs, htexts, hall, hstop⟩ :=
      writeOutputs_result (Registry.ofDocuments ds) fs (ds.zip outs)
    obtain ⟨rfl, hfiles⟩ := hstop.of_none h
    rw [List.append_nil] at hpairs
    subst hpairs
    have hlength : ds.length = outs.length := hds.length_eq.symm.trans houts.length_eq
    rw [List.map_snd_zip (Nat.le_of_eq hlength.symm)] at hall
    rw [List.map_fst_zip (Nat.le_of_eq hlength)] at htexts
    rw [hfiles]
    exact ⟨ds, outs, texts, hds, houts, mapM_eq_ok_iff.2 htexts, hall.all⟩

variable {v : Platform} {words : List String} {args : Arguments}

theorem run_eq (hargs : Arguments.read v words = .ok args)
    (hoptions : Options.resolve v fs args = .ok o) : run v fs words = runOptions fs o := by
  unfold run
  rw [hargs]
  dsimp only
  rw [hoptions]

theorem files_runOptions (fs : FileSystem) (o : Options) :
    (runOptions fs o).files = (compileFiles fs o).result.1 := by
  unfold runOptions
  dsimp only
  split <;> rename_i h <;> rw [h]

theorem Failure.ending_ne_zero (e : Failure) : e.ending.1 ≠ .exit 0 := by
  cases e <;> simp [Failure.ending]

theorem ending_runOptions_eq_zero_iff :
    (runOptions fs o).ending = .exit 0 ↔ (compileFiles fs o).result.2 = none := by
  unfold runOptions
  dsimp only
  split
  · rename_i h
    simp [h]
  · rename_i e h
    simp [h, e.ending_ne_zero]

end MacroModules.CommandLine
