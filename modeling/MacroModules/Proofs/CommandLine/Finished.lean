import MacroModules.Proofs.CommandLine.Files

/-!
# The finished part of a run

A run that fails leaves behind what it has written until then. Whether an input can be carried to
its end depends on the files before the run alone: all inputs are read before anything is written,
and writing does not change which files can be opened. So the files after a run are those before it
with the outputs of the first inputs written, up to the first input that cannot be carried to its
end. If this is because its output is not written as a whole, a part of that is left too.

* `exists_output`: an input that can be read has an output path.
* `FinishedPart`: the expansions of the first inputs, up to one that fails.
* `compileFiles_writes_finished`: **a run writes the finished part and nothing else**.
-/

namespace MacroModules.CommandLine

variable {fs : FileSystem} {o : Options} {args : Arguments} {config : Config}

/-! ## Output paths -/

theorem merge_eq_ok (h : Options.merge args config = .ok o) :
    Options.isExtension o.extension = true ∧ o.inputs = args.files.map Path.ofString := by
  obtain ⟨extension, -, h⟩ := bind_eq_ok_iff.1 h
  dsimp only at h
  split at h
  · rename_i hextension
    cases h
    exact ⟨hextension, rfl⟩
  · cases h

/-- An input that can be read has an output path, because it has a name. -/
theorem exists_output (h : Options.merge args config = .ok o) {p : Path} (hp : p ∈ o.inputs)
    {d : Document} (hd : readInput fs p = .ok d) :
    ∃ out, p.withExtension o.extension = .ok out := by
  obtain ⟨hextension, hinputs⟩ := merge_eq_ok h
  have hvalid : o.extension ≠ "" ∧ '/' ∉ o.extension.toList := by
    simp only [Options.isExtension, Bool.and_eq_true, bne_iff_ne, Bool.not_eq_true',
      List.contains_eq_mem, decide_eq_false_iff_not] at hextension
    exact hextension.1
  obtain ⟨content, hread⟩ := exists_read_of_readInput hd
  have hname : p.name ≠ "" := by
    rw [hinputs] at hp
    obtain ⟨text, -, rfl⟩ := List.mem_map.1 hp
    exact Path.name_ofString_ne (FileSystem.names_ne_nil_of_read hread)
  exact ⟨_, Path.withExtension_eq_ok_iff.2 ⟨hvalid.1, hvalid.2, hname, rfl⟩⟩

theorem hasNull_of_readInput {p : Path} {d : Document} (h : readInput fs p = .ok d) :
    p.hasNull = false := by
  obtain ⟨content, hread⟩ := exists_read_of_readInput h
  exact (FileSystem.locate_eq_ok_iff.1 (FileSystem.read_eq_ok_iff.1 hread).1).1

theorem not_opens_of_hasNull {p : Path} (h : p.hasNull = true) : ¬ fs.Opens p := by
  rintro ⟨l, hreach, -⟩
  have hlocate := (FileSystem.reach_eq_ok_iff.1 hreach).1
  have hnone := (FileSystem.locate_eq_ok_iff.1 hlocate).1
  rw [h] at hnone
  cases hnone

/-! ## The finished part -/

/-- The texts are the expansions of the first documents, whose outputs can be opened and are written
as a whole, up to the first document of which this is not true. If its output can be opened all the
same, this is cut short. -/
structure FinishedPart (fs : FileSystem) (ds : List Document) (outs : List Path)
    (texts : List String) (cut : Option (Path × List UInt8)) : Prop where
  done : ∀ (i : Nat) x, texts[i]? = some x → ∃ d out, ds[i]? = some d ∧ outs[i]? = some out ∧
    Expansion.document (Registry.ofDocuments ds) d = .ok x ∧ fs.Opens out ∧ fs.shortfall? i = none
  stopped : ∀ d out, ds[texts.length]? = some d → outs[texts.length]? = some out →
    (∀ x, Expansion.document (Registry.ofDocuments ds) d ≠ .ok x) ∨ ¬ fs.Opens out ∨
      ∃ s, fs.shortfall? texts.length = some s
  cut : ∀ w, cut = some w ↔ ∃ d, ds[texts.length]? = some d ∧ outs[texts.length]? = some w.1 ∧
    CutShort (Registry.ofDocuments ds) fs texts.length d w.1 w.2

/-- If every file is written as a whole, no output is cut short. -/
theorem FinishedPart.cut_eq_none {ds : List Document} {outs : List Path} {texts : List String}
    {cut : Option (Path × List UInt8)} (h : FinishedPart fs ds outs texts cut)
    (hwhole : ∀ i, fs.shortfall? i = none) : cut = none := by
  cases hcut : cut with
  | none => rfl
  | some w =>
    obtain ⟨d, -, -, text, s, -, -, hshortfall, -⟩ := (h.cut w).1 hcut
    rw [hwhole] at hshortfall
    cases hshortfall

/-- An output fails for one of three reasons. -/
theorem not_written {r : Registry} {fs' : FileSystem} {d : Document} {out : Path} {e : Failure}
    (h : writeOutput r fs d out = (fs', some e)) :
    (∀ x, Expansion.document r d ≠ .ok x) ∨ ¬ fs.Opens out ∨ ∃ s, fs.shortfall? 0 = some s := by
  rcases writeOutput_eq_some_iff.1 h with
    ⟨-, f, hf, -⟩ | ⟨text, -, ⟨-, f, hf, -⟩ | ⟨s, hs, -⟩⟩
  · refine .inl fun x hx => ?_
    rw [hf] at hx
    cases hx
  · refine .inr (.inl fun hopens => ?_)
    obtain ⟨written, hwritten⟩ := (FileSystem.exists_write_iff (Utf8.encode text)).2 hopens
    rw [hf] at hwritten
    cases hwritten
  · exact .inr (.inr ⟨s, (FileSystem.write_eq_ok_iff.1 hs).2⟩)

/-- The reasons and what is left can be told from the files before the outputs in front have been
written. -/
theorem cutShort_writeAll_iff {r : Registry} {fs' : FileSystem}
    {writes : List (Path × List UInt8)} (h : fs.writeAll writes = .ok fs') {d : Document}
    {out : Path} {content : List UInt8} :
    CutShort r fs' 0 d out content ↔ CutShort r fs writes.length d out content := by
  unfold CutShort
  rw [FileSystem.opens_writeAll_iff h, FileSystem.shortfall?_writeAll h, Nat.zero_add]

theorem writesOf_take (outs : List Path) (texts : List String) :
    writesOf (outs.take texts.length) texts = writesOf outs texts := by
  have hsplit := List.take_append_drop texts.length outs
  by_cases hle : texts.length ≤ outs.length
  · have hlength : (outs.take texts.length).length = (texts.map Utf8.encode).length := by
      rw [List.length_take, List.length_map]
      omega
    have hzip : (outs.take texts.length ++ outs.drop texts.length).zip
        (texts.map Utf8.encode ++ []) = _ := List.zip_append hlength
    rw [hsplit, List.append_nil, List.zip_nil_right, List.append_nil] at hzip
    exact hzip.symm
  · rw [List.take_of_length_le (by omega)]

section

-- the outputs in front of those that are left have been written as a whole
variable {ds : List Document} {outs : List Path} {done rest : List (Document × Path)}
  {texts : List String} {fs' : FileSystem} (hpairs : ds.zip outs = done ++ rest)
  (htexts : List.Forall₂ (fun d x => Expansion.document (Registry.ofDocuments ds) d = .ok x)
    (done.map (·.1)) texts)
  (hall : fs.WritesWhole (writesOf outs texts) fs')

include htexts

theorem length_done : texts.length = done.length := by
  rw [← htexts.length_eq, List.length_map]

include hpairs

theorem length_writesOf_done : (writesOf outs texts).length = texts.length := by
  have hlength := congrArg List.length hpairs
  rw [List.length_zip, List.length_append] at hlength
  rw [writesOf, List.length_zip, List.length_map, length_done htexts]
  omega

/-- The first pair that is left is the one behind the texts. -/
theorem getElem?_rest_eq_some_iff {d : Document} {out : Path} : rest[0]? = some (d, out) ↔
    ds[texts.length]? = some d ∧ outs[texts.length]? = some out := by
  have hzip : (ds.zip outs)[texts.length]? = some (d, out) ↔
      ds[texts.length]? = some d ∧ outs[texts.length]? = some out := List.getElem?_zip_eq_some
  rw [← hzip, hpairs, length_done htexts, List.getElem?_append_right (Nat.le_refl _),
    Nat.sub_self]

include hall

theorem exists_written {i : Nat} {x : String} (hx : texts[i]? = some x) : ∃ d out,
    ds[i]? = some d ∧ outs[i]? = some out ∧
      Expansion.document (Registry.ofDocuments ds) d = .ok x ∧ fs.Opens out ∧
      fs.shortfall? i = none := by
  obtain ⟨d, hd, hexpanded⟩ := exists_of_getElem?_left htexts.flip hx
  rw [List.getElem?_map, Option.map_eq_some_iff] at hd
  obtain ⟨⟨d, out⟩, hi, rfl⟩ := hd
  have hzip : (ds.zip outs)[i]? = some (d, out) := by
    have hlt := (List.getElem?_eq_some_iff.1 hi).1
    rw [hpairs, List.getElem?_append_left hlt, hi]
  obtain ⟨hds, hout⟩ := List.getElem?_zip_eq_some.1 hzip
  have hwritten : (writesOf outs texts)[i]? = some (out, Utf8.encode x) :=
    getElem?_writesOf.2 ⟨hout, x, hx, rfl⟩
  exact ⟨d, out, hds, hout, hexpanded,
    FileSystem.opens_of_mem_writes hall.all (List.mem_of_getElem? hwritten),
    hall.whole i (List.getElem?_eq_some_iff.1 hwritten).1⟩

theorem finishedPart_of_nil (hrest : rest = []) : FinishedPart fs ds outs texts none := by
  have hnone : ∀ {d out}, ds[texts.length]? = some d → outs[texts.length]? ≠ some out := by
    intro d out hd hout
    have hnext := (getElem?_rest_eq_some_iff hpairs htexts).2 ⟨hd, hout⟩
    rw [hrest] at hnext
    cases hnext
  refine ⟨fun i x => exists_written hpairs htexts hall, fun d out hd hout => ?_, fun w => ⟨?_, ?_⟩⟩
  · exact absurd hout (hnone hd)
  · rintro ⟨⟩
  · rintro ⟨d, hd, hout, -⟩
    exact absurd hout (hnone hd)

theorem finishedPart_of_failed {d : Document} {out : Path} {fs'' : FileSystem} {e : Failure}
    (hrest : rest[0]? = some (d, out))
    (hfailed : writeOutput (Registry.ofDocuments ds) fs' d out = (fs'', some e)) :
    ∃ cut, FinishedPart fs ds outs texts cut ∧ fs'.writeAll cut.toList = .ok fs'' := by
  obtain ⟨hd, hout⟩ := (getElem?_rest_eq_some_iff hpairs htexts).1 hrest
  have hwrites := length_writesOf_done hpairs htexts
  obtain ⟨cut, hcut, hend⟩ := writeAll_of_failed hfailed
  -- the failure is met in the files as they are then, but is to be told from those before
  have hreason := not_written hfailed
  rw [FileSystem.opens_writeAll_iff hall.all, FileSystem.shortfall?_writeAll hall.all, hwrites,
    Nat.zero_add] at hreason
  refine ⟨cut.map (out, ·), ⟨fun i x => exists_written hpairs htexts hall,
    fun d' out' hd' hout' => ?_, fun w => ?_⟩, hend⟩
  · cases hd.symm.trans hd'
    cases hout.symm.trans hout'
    exact hreason
  · rw [Option.map_eq_some_iff]
    simp only [hcut, cutShort_writeAll_iff hall.all, hwrites]
    constructor
    · rintro ⟨content, hcontent, rfl⟩
      exact ⟨d, hd, hout, hcontent⟩
    · rintro ⟨d', hd', hout', hw⟩
      cases hd.symm.trans hd'
      cases hout.symm.trans hout'
      exact ⟨w.2, hw, rfl⟩

end

/-- Outputs are written as far as the finished part goes. -/
theorem finishedPart_of_writeOutputs (fs : FileSystem) {ds : List Document} {outs : List Path}
    (hlength : ds.length = outs.length) :
    ∃ texts cut, FinishedPart fs ds outs texts cut ∧
      fs.writeAll (writesOf outs texts ++ cut.toList) =
        .ok (writeOutputs (Registry.ofDocuments ds) fs (ds.zip outs)).result.1 ∧
      ((writeOutputs (Registry.ofDocuments ds) fs (ds.zip outs)).result.2 = none ↔
        texts.length = ds.length) := by
  obtain ⟨done, rest, texts, fs', hpairs, htexts, hall, hstop⟩ :=
    writeOutputs_result (Registry.ofDocuments ds) fs (ds.zip outs)
  generalize (writeOutputs (Registry.ofDocuments ds) fs (ds.zip outs)).result = result at hstop ⊢
  have hdone := length_done htexts
  have hcount : texts.length + rest.length = ds.length := by
    rw [hdone, ← List.length_append, ← hpairs, List.length_zip]
    omega
  have houts : done.map (·.2) = outs.take texts.length := by
    rw [hdone, ← List.map_snd_zip (Nat.le_of_eq hlength.symm), ← List.map_take, hpairs,
      List.take_left]
  rw [houts, writesOf_take] at hall
  cases hstop with
  | finished =>
    refine ⟨texts, none, finishedPart_of_nil hpairs htexts hall rfl, ?_, ?_⟩
    · rw [Option.toList_none, List.append_nil]
      exact hall.all
    · exact ⟨fun _ => hcount, fun _ => rfl⟩
  | failed hfailed =>
    obtain ⟨cut, hfinished, hend⟩ := finishedPart_of_failed hpairs htexts hall rfl hfailed
    refine ⟨texts, cut, hfinished,
      FileSystem.writeAll_append_eq_ok_iff.2 ⟨fs', hall.all, hend⟩, ?_⟩
    rw [List.length_cons] at hcount
    exact ⟨fun h => (by cases h), fun h => by omega⟩

/-! ## Whole runs -/

theorem compileFiles_eq_writeOutputs {ds : List Document} {outs : List Path}
    (hds : List.Forall₂ (fun p d => readInput fs p = .ok d) o.inputs ds)
    (houts : List.Forall₂ (OutputOf fs o.extension) o.inputs outs) : (compileFiles fs o).result =
      (writeOutputs (Registry.ofDocuments ds) fs (ds.zip outs)).result := by
  unfold compileFiles
  dsimp only
  rw [readInputs_result, mapM_eq_ok_iff.2 hds]
  dsimp only
  rw [checkOutputs_eq_ok_iff.2 houts]

/-- If every input can be read and has an output in another place, the finished part is written. -/
theorem exists_finishedPart {ds : List Document} {outs : List Path}
    (hds : List.Forall₂ (fun p d => readInput fs p = .ok d) o.inputs ds)
    (houts : List.Forall₂ (fun p out => p.withExtension o.extension = .ok out) o.inputs outs)
    (hplace : ∀ p ∈ o.inputs, outputPlace? fs o.extension p ≠ some (fs.normalize p)) :
    ∃ texts cut, FinishedPart fs ds outs texts cut ∧
      fs.writeAll (writesOf outs texts ++ cut.toList) = .ok (compileFiles fs o).result.1 ∧
      ((compileFiles fs o).result.2 = none ↔ texts.length = o.inputs.length) := by
  have hnull : ∀ p ∈ o.inputs, p.hasNull = false := by
    intro p hp
    obtain ⟨d, -, hd⟩ := exists_of_mem_left hds hp
    exact hasNull_of_readInput hd
  by_cases hchecked : List.Forall₂ (OutputOf fs o.extension) o.inputs outs
  · rw [compileFiles_eq_writeOutputs hds hchecked, hds.length_eq]
    exact finishedPart_of_writeOutputs fs (hds.length_eq.symm.trans houts.length_eq)
  · -- the check refuses the outputs for a null character, which then is in the extension
    have hextension : o.extension.toList.contains '\x00' = true := by
      by_contra hnone
      have hgood := (List.forall₂_and_left _ _).2
        ⟨fun p hp => And.intro (hnull p hp) (hplace p hp), houts⟩
      refine hchecked (hgood.imp ?_)
      rintro p out ⟨⟨hp, hne⟩, hout⟩
      refine ⟨hout, ?_, fun hsame => hne ?_⟩
      · rw [Path.hasNull_of_withExtension hout hp]
        exact eq_false_of_ne_true hnone
      · rw [outputPlace?, hout, ← hsame]
        rfl
    have hinputs : o.inputs ≠ [] := by
      intro hnil
      rw [hnil] at hchecked houts
      cases houts
      exact hchecked .nil
    obtain ⟨e, hresult⟩ : ∃ e, (compileFiles fs o).result = (fs, some e) := by
      refine (compileFiles_result fs o).resolve_right ?_
      rintro ⟨ds', outs', -, houts', -⟩
      obtain ⟨p, hp⟩ := List.exists_mem_of_ne_nil o.inputs hinputs
      obtain ⟨out, -, hout⟩ := exists_of_mem_left houts' hp
      have hknown := hout.known
      rw [Path.hasNull_of_withExtension hout.path (hnull p hp), hextension] at hknown
      cases hknown
    rw [hresult]
    have hclosed : ∀ {i : Nat} {out : Path}, outs[i]? = some out → ¬ fs.Opens out := by
      intro i out hout
      obtain ⟨p, hp, hpath⟩ := exists_of_mem_left houts.flip (List.mem_of_getElem? hout)
      apply not_opens_of_hasNull
      rw [Path.hasNull_of_withExtension hpath (hnull p hp), hextension]
    refine ⟨[], none, ⟨fun i x hx => (by cases hx), fun d out _ hout => .inr (.inl (hclosed hout)),
      fun w => ⟨fun h => (by cases h), ?_⟩⟩, ?_, ?_⟩
    · rintro ⟨d, -, hout, text, s, -, hopens, -⟩
      exact absurd hopens (hclosed hout)
    · rw [writesOf, List.map_nil, List.zip_nil_right]
      rfl
    · have hpos := List.length_pos_iff.2 hinputs
      rw [List.length_nil]
      exact ⟨fun h => (by cases h), fun h => by omega⟩

/-- **A run writes the finished part and nothing else.** No file changes if some input cannot be
read as a document or is its own output. Otherwise the outputs of the first inputs are written, one
after the other, up to the first input that has no expansion or whose output cannot be opened or is
not written as a whole; the run is without failure if there is none. The expansions are those of the
documents before the run, and what is at the place of no output among these stays, an output of the
input that fails included. Only if this output could be opened, there is a part of it, and that is
not so if every file is written as a whole. -/
theorem compileFiles_writes_finished (haccepted : Options.merge args config = .ok o)
    (fs : FileSystem) :
    ((∃ p ∈ o.inputs, (∀ d, readInput fs p ≠ .ok d) ∨
        outputPlace? fs o.extension p = some (fs.normalize p)) →
      (compileFiles fs o).result.1 = fs) ∧
    ((∀ p ∈ o.inputs, (∃ d, readInput fs p = .ok d) ∧
        outputPlace? fs o.extension p ≠ some (fs.normalize p)) →
      ∃ ds outs texts cut, List.Forall₂ (fun p d => readInput fs p = .ok d) o.inputs ds ∧
        List.Forall₂ (fun p out => p.withExtension o.extension = .ok out) o.inputs outs ∧
        FinishedPart fs ds outs texts cut ∧
        fs.writeAll (writesOf outs texts ++ cut.toList) = .ok (compileFiles fs o).result.1 ∧
        (∀ l, (∀ out ∈ outs.take texts.length, fs.normalize out ≠ l) →
          (∀ w, cut = some w → fs.normalize w.1 ≠ l) →
          (compileFiles fs o).result.1.node? l = fs.node? l) ∧
        ((compileFiles fs o).result.2 = none ↔ texts.length = o.inputs.length) ∧
        ((∀ i, fs.shortfall? i = none) → cut = none)) := by
  constructor
  · rintro ⟨p, hp, hbad⟩
    rcases compileFiles_result fs o with ⟨e, hresult⟩ | ⟨ds, outs, hds, houts, -⟩
    · rw [hresult]
    · obtain ⟨d, -, hd⟩ := exists_of_mem_left hds hp
      obtain ⟨out, -, hout⟩ := exists_of_mem_left houts hp
      rcases hbad with hunread | hown
      · exact absurd hd (hunread d)
      · rw [hout.place, Option.some.injEq] at hown
        exact absurd hown hout.ne
  · intro hgood
    have hreads : ∀ p ∈ o.inputs, ∃ d, readInput fs p = .ok d := fun p hp => (hgood p hp).1
    have hpaths : ∀ p ∈ o.inputs, ∃ out, p.withExtension o.extension = .ok out := by
      intro p hp
      obtain ⟨d, hd⟩ := hreads p hp
      exact exists_output haccepted hp hd
    obtain ⟨ds, hds⟩ := exists_mapM_eq_ok_iff.2 hreads
    obtain ⟨outs, houts⟩ := exists_mapM_eq_ok_iff.2 hpaths
    rw [mapM_eq_ok_iff] at hds houts
    obtain ⟨texts, cut, hfinished, hall, hnone⟩ :=
      exists_finishedPart hds houts fun p hp => (hgood p hp).2
    refine ⟨ds, outs, texts, cut, hds, houts, hfinished, hall, fun l hl hcut => ?_, hnone,
      hfinished.cut_eq_none⟩
    refine FileSystem.node?_writeAll_of_ne hall fun w hw => ?_
    rcases List.mem_append.1 hw with hw | hw
    · rw [← writesOf_take] at hw
      exact hl w.1 (List.of_mem_zip hw).1
    · exact hcut w (Option.mem_toList.1 hw)

/-- The second of three inputs has no expansion: the output of the first is written, and the one of
the second stays what it was. The same inputs with one that is its own output change nothing. If the
file that is written first gets two bytes only, these are what is left of it. -/
theorem compileFiles_writes_finished_first :
    let fs (deliveries : List (Option Shortfall)) : FileSystem :=
      { workingDirectory := ["w"]
        nodes := [(["w", "a.x"], .file (Utf8.encode "one\n")),
          (["w", "b.x"], .file (Utf8.encode "@M \x7b\nA N.B\n\x7d")),
          (["w", "d.x"], .file (Utf8.encode "two\n")), (["w", "b.c"], .file (Utf8.encode "old\n"))]
        deliveries }
    let full : List (Option Shortfall) :=
      [some ⟨.closing, 2, ⟨28, "No space left on device", by decide⟩⟩]
    let o : Options := ⟨["a.x", "b.x", "d.x"].map .ofString, "c", false, false⟩
    let q : Options := ⟨["a.x", "b.c"].map .ofString, "c", false, false⟩
    Options.merge ⟨["a.x", "b.x", "d.x"], .missing, .missing, false, false⟩ .empty = .ok o ∧
    (∀ deliveries ∈ [[], full], (∀ p ∈ o.inputs, (∃ d, readInput (fs deliveries) p = .ok d) ∧
        outputPlace? (fs deliveries) o.extension p ≠ some ((fs deliveries).normalize p)) ∧
      ∃ ds outs texts cut, FinishedPart (fs deliveries) ds outs texts cut ∧
        (fs deliveries).writeAll (writesOf outs texts ++ cut.toList) =
          .ok (compileFiles (fs deliveries) o).result.1) ∧
    (compileFiles (fs []) o).result.1.read (.ofString "a.c") = .ok (Utf8.encode "one\n") ∧
    (compileFiles (fs []) o).result.1.read (.ofString "b.c") = .ok (Utf8.encode "old\n") ∧
    (compileFiles (fs full) o).result.1.read (.ofString "a.c") = .ok (Utf8.encode "on") ∧
    (compileFiles (fs []) q).result.1 = fs [] := by
  intro fs full o q
  have ho : Options.merge ⟨["a.x", "b.x", "d.x"], .missing, .missing, false, false⟩ .empty =
      .ok o := by decide +kernel
  have hq : Options.merge ⟨["a.x", "b.c"], .missing, .missing, false, false⟩ .empty = .ok q := by
    decide +kernel
  have hisOk : ∀ deliveries ∈ [[], full], ∀ p ∈ o.inputs, (readInput (fs deliveries) p).isOk ∧
      outputPlace? (fs deliveries) o.extension p ≠ some ((fs deliveries).normalize p) := by
    decide +kernel
  have hgood : ∀ deliveries ∈ [[], full], ∀ p ∈ o.inputs,
      (∃ d, readInput (fs deliveries) p = .ok d) ∧
      outputPlace? (fs deliveries) o.extension p ≠ some ((fs deliveries).normalize p) :=
    fun deliveries h p hp =>
      ⟨exists_eq_ok_of_isOk (hisOk deliveries h p hp).1, (hisOk deliveries h p hp).2⟩
  refine ⟨ho, fun deliveries h => ⟨hgood deliveries h, ?_⟩, by decide +kernel, by decide +kernel,
    by decide +kernel, ?_⟩
  · obtain ⟨ds, outs, texts, cut, -, -, hfinished, hall, -⟩ :=
      (compileFiles_writes_finished ho (fs deliveries)).2 (hgood deliveries h)
    exact ⟨ds, outs, texts, cut, hfinished, hall⟩
  · refine (compileFiles_writes_finished hq (fs [])).1 ⟨.ofString "b.c", ?_, .inr ?_⟩
    · decide +kernel
    · decide +kernel

end MacroModules.CommandLine
