import MacroModules.Proofs.Path.Spelling

/-!
# Where outputs go

An output stands beside its input. It takes the place of the outputs of all inputs in the same
directory that have the same stem, and of no others.

* `HasStem`, `hasStem_iff`: **the rule of extensions**, stated apart from the way a stem is found.
* `withExtension_eq_withExtension_iff`: when two inputs have the same output.
* `withExtension_of_output`: an output is its own output if the extension has no dot.
* `outputs_beside_inputs`: all of this for the paths that texts spell.
-/

namespace MacroModules.Path

/-! ## Stems -/

/-- The stem of a name. An extension begins at the last dot of the name, unless nothing stands in
front of this dot or behind it. -/
inductive HasStem : List Char → List Char → Prop
  | cut {stem extension : List Char} (hstem : stem ≠ []) (hextension : extension ≠ [])
      (hdot : '.' ∉ extension) : HasStem (stem ++ '.' :: extension) stem
  | whole {name : List Char} (h : ∀ before behind, name = before ++ '.' :: behind →
      '.' ∉ behind → before = [] ∨ behind = []) : HasStem name name

theorem hasStem_stemOf (name : List Char) : HasStem name (stemOf name) := by
  unfold stemOf
  split
  · rename_i e es dot c before hspan
    rw [List.span_eq_takeWhile_dropWhile, Prod.mk.injEq] at hspan
    obtain ⟨htake, hdrop⟩ := hspan
    have hbehind : ∀ x ∈ e :: es, (x != '.') = true := by
      rw [← htake]
      exact List.all_eq_true.1 List.all_takeWhile
    obtain rfl : dot = '.' := by
      have hstop := stops_dropWhile (· != '.') name.reverse
      rw [hdrop] at hstop
      exact eq_of_stops_bne hstop
    have hname : name = (c :: before).reverse ++ '.' :: (e :: es).reverse :=
      calc name
          = (name.reverse.takeWhile (· != '.') ++ name.reverse.dropWhile (· != '.')).reverse := by
            rw [List.takeWhile_append_dropWhile, List.reverse_reverse]
        _ = (c :: before).reverse ++ '.' :: (e :: es).reverse := by
            rw [htake, hdrop]
            simp
    rw [hname]
    refine .cut (by simp) (by simp) fun hmem => ?_
    exact absurd (hbehind '.' (List.mem_reverse.1 hmem)) (by decide)
  · rename_i hspan
    refine .whole fun before behind hname hdot => ?_
    by_contra hne
    obtain ⟨hbefore, hbehind⟩ := not_or.1 hne
    obtain ⟨e, es, he⟩ := List.exists_cons_of_ne_nil (mt List.reverse_eq_nil_iff.1 hbehind)
    obtain ⟨c, cs, hc⟩ := List.exists_cons_of_ne_nil (mt List.reverse_eq_nil_iff.1 hbefore)
    apply hspan e es '.' c cs
    rw [hname, span_reverse_append_dot before hdot, he, hc]

/-- **The stem of a name is found by the rule.** -/
theorem hasStem_iff {name stem : List Char} : HasStem name stem ↔ stem = stemOf name := by
  constructor
  · intro h
    cases h with
    | cut hstem hextension hdot => exact (stemOf_append_dot hstem hextension hdot).symm
    | whole h =>
      generalize hfound : stemOf name = stem
      have hstem := hfound ▸ hasStem_stemOf name
      cases hstem with
      | cut hstem hextension hdot => exact ((h _ _ rfl hdot).elim hstem hextension).elim
      | whole => rfl
  · rintro rfl
    exact hasStem_stemOf name

/-! ## Names below paths -/

variable {p q out : Path} {extension : String}

@[simp] theorem name_child (p : Path) (name : String) : (p.child name).name = name :=
  List.getLastD_concat

@[simp] theorem parent_child (p : Path) (name : String) : (p.child name).parent = p := by
  rw [parent, child, List.dropLast_concat]

theorem child_inj {m n : String} : p.child m = q.child n ↔ p = q ∧ m = n := by
  constructor
  · intro h
    exact ⟨by simpa using congrArg parent h, by simpa using congrArg name h⟩
  · rintro ⟨rfl, rfl⟩
    rfl

theorem parent_child_name (h : p.name ≠ "") : p.parent.child p.name = p := by
  rw [child, name_eq_getLast (names_ne_nil h), parent, List.dropLast_append_getLast]

/-! ## Outputs -/

theorem withExtension_eq_ok (hextension : extension ≠ "") (hslash : '/' ∉ extension.toList)
    (hname : p.name ≠ "") :
    p.withExtension extension = .ok (p.parent.child (p.stem ++ "." ++ extension)) :=
  withExtension_eq_ok_iff.2 ⟨hextension, hslash, hname, rfl⟩

/-- **Outputs collide on equal stems only.** -/
theorem withExtension_eq_withExtension_iff (hextension : extension ≠ "")
    (hslash : '/' ∉ extension.toList) (hp : p.name ≠ "") (hq : q.name ≠ "") :
    p.withExtension extension = q.withExtension extension ↔
      p.parent = q.parent ∧ p.stem = q.stem := by
  rw [withExtension_eq_ok hextension hslash hp, withExtension_eq_ok hextension hslash hq,
    Except.ok.injEq, child_inj, String.append_left_inj, String.append_left_inj]

/-- **An output is its own output** if the extension has no dot. -/
theorem withExtension_of_output (h : p.withExtension extension = .ok out)
    (hdot : '.' ∉ extension.toList) : out.withExtension extension = .ok out := by
  obtain ⟨hextension, hslash, hname, hout⟩ := withExtension_eq_ok_iff.1 h
  have houtname : out.name = p.stem ++ "." ++ extension := by rw [hout, name_child]
  have hne : out.name ≠ "" := by
    rw [houtname]
    exact fun hempty => hextension (String.append_eq_empty_iff.1 hempty).2
  rw [withExtension_eq_ok hextension hslash hne, stem_of_name hname hextension hdot houtname,
    parent_child_name hne]

/-- An output can be spelled if its input can. -/
theorem spellable_of_mem_output (h : p.withExtension extension = .ok out)
    (hp : ∀ name ∈ p.names, Spellable name) : ∀ name ∈ out.names, Spellable name := by
  obtain ⟨hextension, hslash, hname, rfl⟩ := withExtension_eq_ok_iff.1 h
  have hlength := three_le_length_withExtension_name hname hextension
  intro name hmem
  rcases List.mem_append.1 hmem with hmem | hmem
  · exact hp name ((List.dropLast_sublist _).subset hmem)
  · obtain rfl := List.mem_singleton.1 hmem
    refine ⟨?_, ?_, ?_⟩
    · intro hempty
      rw [hempty] at hlength
      exact absurd hlength (by decide)
    · intro hdot
      rw [hdot] at hlength
      exact absurd hlength (by decide)
    · have hstem : '/' ∉ p.stem.toList := by
        rw [stem, String.toList_ofList]
        exact fun hmem => (hp p.name (name_mem hname)).slash (mem_of_mem_stemOf hmem)
      simp [hstem, hslash]

/-- **Outputs stand beside their inputs.** The path of a text is the one that it spells, and the
stem of a name is the one by the rule. If there is a name, then there is an output in the same
directory, with the stem and the extension as its name, and it is spelled by what it is written as.
If the extension has no dot, then the output is its own output, and so is every input that spells
it. Two paths have the same output if and only if their directories and their stems are the
same. -/
theorem outputs_beside_inputs {s t : String} (hextension : extension ≠ "")
    (hslash : '/' ∉ extension.toList) (hp : ofString s = p) (hq : ofString t = q)
    (hpname : p.name ≠ "") (hqname : q.name ≠ "") :
    ((∀ r, Spells s.toList r ↔ r = p) ∧
      ∀ stem, HasStem p.name.toList stem ↔ stem = p.stem.toList) ∧
    (∃ out, p.withExtension extension = .ok out ∧ out.parent = p.parent ∧
      out.name = p.stem ++ "." ++ extension ∧ Spells out.toString.toList out ∧
      ('.' ∉ extension.toList → out.withExtension extension = .ok out ∧
        ∀ input, ofString input = out →
          (ofString input).withExtension extension = .ok (ofString input))) ∧
    (p.withExtension extension = q.withExtension extension ↔
      p.parent = q.parent ∧ p.stem = q.stem) := by
  subst hp hq
  have hout := withExtension_eq_ok hextension hslash hpname
  refine ⟨⟨fun r => spells_iff, ?_⟩, ⟨_, hout, parent_child _ _, name_child _ _, ?_, ?_⟩,
    withExtension_eq_withExtension_iff hextension hslash hpname hqname⟩
  · intro stem
    rw [Path.stem, String.toList_ofList]
    exact hasStem_iff
  · exact spells_toString (spellable_of_mem_output hout fun name => spellable_of_mem_ofString)
  · intro hdot
    have hself := withExtension_of_output hout hdot
    refine ⟨hself, ?_⟩
    intro input hinput
    rw [hinput]
    exact hself

/-- A name that begins with a dot has the same output as the name with an extension behind it,
however the directory is spelled. -/
theorem outputs_beside_inputs_hidden :
    let p := ofString "//a/./b/../.x.mmgx/"
    let q := ofString "//a//b/../.x"
    p.name ≠ "" ∧ q.name ≠ "" ∧
    p.withExtension "c" = .ok (ofString "//a/b/../.x.c") ∧
    p.withExtension "c" = q.withExtension "c" ∧
    (ofString "//a/b/.././.x.c").withExtension "c" = .ok (ofString "//a/b/.././.x.c") := by
  intro p q
  have hp : p.name ≠ "" := by decide +kernel
  have hq : q.name ≠ "" := by decide +kernel
  have hextension : "c" ≠ "" := by decide
  have hslash : '/' ∉ "c".toList := by decide
  have hdot : '.' ∉ "c".toList := by decide
  obtain ⟨-, ⟨out, hout, -, -, -, hself⟩, hcollide⟩ :=
    outputs_beside_inputs hextension hslash rfl rfl hp hq
  have hplace : p.withExtension "c" = .ok (ofString "//a/b/../.x.c") := by decide +kernel
  have hsame : p.withExtension "c" = q.withExtension "c" := hcollide.2 (by decide +kernel)
  have heq : ofString "//a/b/.././.x.c" = out := by
    rw [hplace, Except.ok.injEq] at hout
    rw [← hout]
    decide +kernel
  exact ⟨hp, hq, hplace, hsame, (hself hdot).2 _ heq⟩

/-- An extension with a dot is not taken off again as a whole. -/
example : (ofString "a.gen.h").withExtension "gen.h" = .ok (ofString "a.gen.gen.h") := by
  decide +kernel

end MacroModules.Path
