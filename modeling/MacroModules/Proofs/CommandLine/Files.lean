import MacroModules.Proofs.CommandLine.Run
import MacroModules.Proofs.Path

/-!
# The files after a run

Outputs stand beside their inputs, under names that come from those of the inputs. An output may
have the place of another input or of another output, and it is checked against its own input only.

* `output_ne_input`: with an extension without dots no output has the place of an input.
* `run_keeps_inputs`: **a run leaves its inputs alone**, wherever no output takes their place.
* `run_writes_outputs`: **after a run without failures each output is there**: the one that was
  written last, where several have one place.
-/

namespace MacroModules.CommandLine

variable {v : Platform} {fs : FileSystem} {o : Options} {words : List String} {args : Arguments}

/-- The place of the output of an input. -/
def outputPlace? (fs : FileSystem) (extension : String) (p : Path) : Option Location :=
  (p.withExtension extension).toOption.map fs.normalize

theorem OutputOf.place {extension : String} {p out : Path} (h : OutputOf fs extension p out) :
    outputPlace? fs extension p = some (fs.normalize out) := by
  rw [outputPlace?, h.path]
  rfl

theorem exists_read_of_readInput {p : Path} {d : Document} (h : readInput fs p = .ok d) :
    ∃ content, fs.read p = .ok content := by
  obtain ⟨content, hcontent, -⟩ := bind_eq_ok_iff.1 h
  exact ⟨content, FileSystem.read_of_load (mapError_eq_ok_iff.1 hcontent)⟩

/-! ## Inputs -/

theorem normalize_child (fs : FileSystem) (p : Path) {name : String} (h : name ≠ "..") :
    fs.normalize (p.child name) = fs.normalize p ++ [name] := by
  rw [FileSystem.normalize, Path.child, List.foldl_append]
  exact if_neg h

/-- **No output has the place of an input** if every output has another place than its own input
and the extension has no dot: an input with the name of an output would be its own output. -/
theorem output_ne_input {extension : String} (htree : fs.IsTree) (hdot : '.' ∉ extension.toList)
    {p q outp outq : Path} {content : List UInt8} (hread : fs.read p = .ok content)
    (hp : OutputOf fs extension p outp) (hq : OutputOf fs extension q outq) :
    fs.normalize outq ≠ fs.normalize p := by
  intro hplace
  obtain ⟨hext, -, hpname, houtp⟩ := Path.withExtension_eq_ok_iff.1 hp.path
  obtain ⟨-, -, hqname, houtq⟩ := Path.withExtension_eq_ok_iff.1 hq.path
  have hnormalize := htree.normalize_eq hread
  have houtq' : fs.normalize outq =
      fs.normalize q.parent ++ [q.stem ++ "." ++ extension] := by
    rw [houtq]
    exact normalize_child fs _ (Path.withExtension_name_ne hqname hext)
  rw [houtq', hnormalize] at hplace
  obtain ⟨-, hname⟩ := List.append_inj' hplace rfl
  have hname : p.name = q.stem ++ "." ++ extension := (List.cons.inj hname).1.symm
  -- so the output of the input is the input
  apply hp.ne
  rw [houtp, normalize_child fs _ (Path.withExtension_name_ne hpname hext), hnormalize,
    Path.stem_of_name hqname hext hdot hname]

/-- **A run leaves its inputs alone.** In a file system that is a tree, an input is after a run,
however it ends, what it was before, unless its place is that of an output. If the extension has no
dot, that is so for every input. -/
theorem run_keeps_inputs (htree : fs.IsTree) (hargs : Arguments.read v words = .ok args)
    (hoptions : Options.resolve v fs args = .ok o) :
    (∀ p ∈ o.inputs, (∀ q ∈ o.inputs, outputPlace? fs o.extension q ≠ some (fs.normalize p)) →
      (run v fs words).files.read p = fs.read p) ∧
    ('.' ∉ o.extension.toList → ∀ p ∈ o.inputs, (run v fs words).files.read p = fs.read p) := by
  rw [run_eq hargs hoptions, files_runOptions]
  rcases compileFiles_files fs o with hsame | ⟨ds, outs, writes, hds, houts, hwrites, hall⟩
  · rw [hsame]
    exact ⟨fun _ _ _ => rfl, fun _ _ _ => rfl⟩
  · have hreads : ∀ p ∈ o.inputs, ∃ content, fs.read p = .ok content := by
      intro p hp
      obtain ⟨d, -, hd⟩ := exists_of_mem_left hds hp
      exact exists_read_of_readInput hd
    have hkeep : ∀ p ∈ o.inputs, (∀ out ∈ outs, fs.normalize out ≠ fs.normalize p) →
        (compileFiles fs o).result.1.read p = fs.read p := by
      intro p hp hne
      obtain ⟨content, hread⟩ := hreads p hp
      obtain ⟨hlocate, hfile⟩ := FileSystem.read_eq_ok_iff.1 hread
      rw [hread]
      refine (FileSystem.keeps_writeAll hall).read ?_ hlocate
      rw [FileSystem.node?_writeAll_of_ne hall fun w hw => hne w.1 (hwrites w hw), hfile]
    constructor
    · intro p hp hne
      refine hkeep p hp fun out hout hplace => ?_
      obtain ⟨q, hq, hqout⟩ := exists_of_mem_left houts.flip hout
      apply hne q hq
      rw [hqout.place, hplace]
    · intro hdot p hp
      refine hkeep p hp fun out hout => ?_
      obtain ⟨content, hread⟩ := hreads p hp
      obtain ⟨outp, -, houtp⟩ := exists_of_mem_left houts hp
      obtain ⟨q, -, hqout⟩ := exists_of_mem_left houts.flip hout
      exact output_ne_input htree hdot hread houtp hqout

/-- An input stays, though its output takes the place of another; with an extension without dots
both stay, also the one that is reached through another directory and whose output is cut short. -/
theorem run_keeps_inputs_beside :
    let fs : FileSystem :=
      { workingDirectory := ["w"]
        nodes := [(["w", "a.mmgx"], .file (Utf8.encode "one\n")),
          (["w", "a.gen.h"], .file (Utf8.encode "two\n")), (["w", "d"], .directory)]
        deliveries := [none, some ⟨.writing, 1, ⟨28, "No space left on device", by decide⟩⟩] }
    fs.IsTree ∧
    (run .modern fs ["a.mmgx", "a.gen.h", "-e", "gen.h"]).files.read (.ofString "a.mmgx") =
      fs.read (.ofString "a.mmgx") ∧
    (∀ p ∈ ["a.mmgx", "d/../a.gen.h"].map Path.ofString,
      (run .modern fs ["a.mmgx", "d/../a.gen.h", "-e", "c"]).files.read p = fs.read p) ∧
    (run .modern fs ["a.mmgx", "d/../a.gen.h", "-e", "c"]).ending = .exit 1 := by
  intro fs
  have htree : fs.IsTree := by decide +kernel
  have hdotted : Options.resolve .modern fs
      ⟨["a.mmgx", "a.gen.h"], .value "gen.h", .missing, false, false⟩ =
      .ok ⟨["a.mmgx", "a.gen.h"].map .ofString, "gen.h", false, false⟩ := by decide +kernel
  have hplain : Options.resolve .modern fs
      ⟨["a.mmgx", "d/../a.gen.h"], .value "c", .missing, false, false⟩ =
      .ok ⟨["a.mmgx", "d/../a.gen.h"].map .ofString, "c", false, false⟩ := by decide +kernel
  refine ⟨htree, ?_, ?_, by decide +kernel⟩
  · exact (run_keeps_inputs htree (by decide +kernel) hdotted).1 _ (by decide +kernel)
      (by decide +kernel)
  · exact (run_keeps_inputs htree (by decide +kernel) hplain).2 (by decide +kernel)

/-- An extension with a dot in it: the output of the first input takes the place of the second,
and the run ends as if nothing had happened. -/
theorem input_overwritten_by_output :
    let fs : FileSystem :=
      { workingDirectory := ["w"]
        nodes := [(["w", "a.mmgx"], .file (Utf8.encode "one\n")),
          (["w", "a.gen.h"], .file (Utf8.encode "two\n"))] }
    let words := ["a.mmgx", "a.gen.h", "-e", "gen.h"]
    fs.IsTree ∧ ∃ args o, Arguments.read .classic words = .ok args ∧
      Options.resolve .classic fs args = .ok o ∧
      Path.ofString "a.gen.h" ∈ o.inputs ∧ (run .classic fs words).ending = .exit 0 ∧
      fs.read (.ofString "a.gen.h") = .ok (Utf8.encode "two\n") ∧
      (run .classic fs words).files.read (.ofString "a.gen.h") = .ok (Utf8.encode "one\n") := by
  refine ⟨by decide +kernel, ⟨["a.mmgx", "a.gen.h"], .value "gen.h", .missing, false, false⟩,
    ⟨["a.mmgx", "a.gen.h"].map .ofString, "gen.h", false, false⟩, ?_⟩
  decide +kernel

/-! ## Outputs -/

/-- **After a run without failures each output is there.** The inputs are read and expanded as they
were before the run. The output of each is then a file whose content is the expansion of the last
input with an output in that place, which is the input itself if no later one has its output
there. -/
theorem run_writes_outputs (hargs : Arguments.read v words = .ok args)
    (hoptions : Options.resolve v fs args = .ok o) (hexit : (run v fs words).ending = .exit 0) :
    ∃ ds texts, List.Forall₂ (fun p d => readInput fs p = .ok d) o.inputs ds ∧
      ds.mapM (Expansion.document (Registry.ofDocuments ds)) = .ok texts ∧
      ∀ (i : Nat) p, o.inputs[i]? = some p → ∃ out, p.withExtension o.extension = .ok out ∧
        ∃ (j : Nat) (q : Path) (x : String), i ≤ j ∧ o.inputs[j]? = some q ∧ texts[j]? = some x ∧
          outputPlace? fs o.extension q = outputPlace? fs o.extension p ∧
          (∀ (k : Nat) q', j < k → o.inputs[k]? = some q' →
            outputPlace? fs o.extension q' ≠ outputPlace? fs o.extension p) ∧
          (run v fs words).files.read out = .ok (Utf8.encode x) := by
  rw [run_eq hargs hoptions] at hexit ⊢
  rw [files_runOptions]
  obtain ⟨ds, outs, texts, hds, houts, htexts, hall⟩ :=
    compileFiles_of_none (ending_runOptions_eq_zero_iff.1 hexit)
  refine ⟨ds, texts, hds, htexts, fun i p hp => ?_⟩
  -- every input has a write of its own, at its own index
  have hwritten : ∀ {k : Nat} {q : Path}, o.inputs[k]? = some q →
      ∃ w, (writesOf outs texts)[k]? = some w ∧ OutputOf fs o.extension q w.1 := by
    intro k q hq
    obtain ⟨out, hout, hqout⟩ := exists_of_getElem?_left houts hq
    obtain ⟨d, hd, -⟩ := exists_of_getElem?_left hds hq
    obtain ⟨x, hx, -⟩ := exists_of_getElem?_left (mapM_eq_ok_iff.1 htexts) hd
    exact ⟨(out, Utf8.encode x), getElem?_writesOf.2 ⟨hout, x, hx, rfl⟩, hqout⟩
  obtain ⟨w, hw, hout⟩ := hwritten hp
  obtain ⟨j, last, hij, hj, hplace, hlater, hlast⟩ := FileSystem.exists_lastWrite fs hw
  obtain ⟨hlastout, x, hx, hcontent⟩ := getElem?_writesOf.1 hj
  obtain ⟨q, hq, hqout⟩ := exists_of_getElem?_left houts.flip hlastout
  refine ⟨w.1, hout.path, j, q, x, hij, hq, hx, ?_, ?_, ?_⟩
  · rw [hqout.place, hout.place, hplace]
  · intro k q' hk hq'
    obtain ⟨w', hw', hout'⟩ := hwritten hq'
    rw [hout'.place, hout.place]
    intro heq
    exact hlater k w' hk hw' (Option.some.inj heq)
  · rw [hcontent]
    exact FileSystem.read_of_lastWrite hall (List.mem_of_getElem? hw) hlast

/-- Three inputs, of which the first and the last have one output between them. -/
theorem run_writes_outputs_shared :
    let fs : FileSystem :=
      { workingDirectory := ["w"]
        nodes := [(["w", "a.x"], .file (Utf8.encode "one\n")),
          (["w", "b.x"], .file (Utf8.encode "two\n")),
          (["w", "a.y"], .file (Utf8.encode "six\n"))] }
    let words := ["a.x", "b.x", "a.y"]
    (run .classic fs words).ending = .exit 0 ∧ ∃ ds texts,
      List.Forall₂ (fun p d => readInput fs p = .ok d) (words.map .ofString) ds ∧
      ds.mapM (Expansion.document (Registry.ofDocuments ds)) = .ok texts ∧
      ∃ x, texts[2]? = some x ∧
        (run .classic fs words).files.read (.ofString "a.c") = .ok (Utf8.encode x) := by
  intro fs words
  have hoptions : Options.resolve .classic fs ⟨words, .missing, .missing, false, false⟩ =
      .ok ⟨words.map .ofString, "c", false, false⟩ := by decide +kernel
  have hexit : (run .classic fs words).ending = .exit 0 := by decide +kernel
  obtain ⟨ds, texts, hds, htexts, hout⟩ :=
    run_writes_outputs (by decide +kernel) hoptions hexit
  obtain ⟨out, hpath, j, q, x, -, hq, hx, hplace, hlater, hread⟩ := hout 0 (.ofString "a.x") rfl
  have hout : out = .ofString "a.c" :=
    Except.ok.inj (hpath.symm.trans (by decide +kernel))
  refine ⟨hexit, ds, texts, hds, htexts, x, ?_, by rw [← hout]; exact hread⟩
  -- the first input is not the last with its output, and the second has another
  match j, hq, hx, hlater with
  | 0, _, _, hlater =>
    have hne := hlater 2 (.ofString "a.y") (by decide) rfl
    exact absurd (by decide +kernel) hne
  | 1, hq, _, _ =>
    cases hq
    exact absurd hplace (by decide +kernel)
  | 2, _, hx, _ => exact hx
  | _ + 3, hq, _, _ => cases hq

/-- Two inputs with one name but for the extension: the output of the first is lost, and the run
ends as if nothing had happened. -/
theorem output_lost_to_later_input :
    let fs : FileSystem :=
      { workingDirectory := ["w"]
        nodes := [(["w", "a.x"], .file (Utf8.encode "one\n")),
          (["w", "a.y"], .file (Utf8.encode "two\n"))] }
    let words := ["a.x", "a.y"]
    let first : Document := ⟨⟨"a.x", "one\n"⟩, [.raw "one\n"]⟩
    let second : Document := ⟨⟨"a.y", "two\n"⟩, [.raw "two\n"]⟩
    (run .classic fs words).ending = .exit 0 ∧
    readInput fs (.ofString "a.x") = .ok first ∧ readInput fs (.ofString "a.y") = .ok second ∧
    [first, second].mapM (Expansion.document (Registry.ofDocuments [first, second])) =
      .ok ["one\n", "two\n"] ∧
    (Path.ofString "a.x").withExtension "c" = .ok (.ofString "a.c") ∧
    (run .classic fs words).files.read (.ofString "a.c") = .ok (Utf8.encode "two\n") ∧
    (run .classic fs words).files.read (.ofString "a.c") ≠ .ok (Utf8.encode "one\n") := by
  decide +kernel

end MacroModules.CommandLine
