import MacroModules.Proofs.Path
import MacroModules.Proofs.Text.Parts

/-!
# How paths are spelled

Many texts spell the same path: slashes may be repeated or stand at the end, and single dots may
stand between them. The rules are stated here apart from the way a text is read.

* `Spellable`: what a name has to be like to stand between slashes.
* `SpellsNames`, `Spells`: the rules for the names, and for the anchor in front of them.
* `spells_iff`: **a text spells the path that is read from it**, and no other.
* `spells_toString`: a path of spellable names is spelled by what it is written as.
-/

namespace MacroModules.Path

/-! ## Rules -/

/-- The name is not empty or a single dot, and holds no slash. -/
structure Spellable (name : String) : Prop where
  ne_empty : name ≠ ""
  ne_dot : name ≠ "."
  slash : '/' ∉ name.toList

/-- The names that some characters spell. Slashes and single dots say nothing; any other part that
goes up to a slash or to the end is a name, two dots included. -/
inductive SpellsNames : List Char → List String → Prop
  | nil : SpellsNames [] []
  | slash {cs : List Char} {names : List String} (h : SpellsNames cs names) :
      SpellsNames ('/' :: cs) names
  | dot {rest : List Char} {names : List String} (hrest : Stops (· != '/') rest)
      (h : SpellsNames rest names) : SpellsNames ('.' :: rest) names
  | name {name : String} {rest : List Char} {names : List String} (hname : Spellable name)
      (hrest : Stops (· != '/') rest) (h : SpellsNames rest names) :
      SpellsNames (name.toList ++ rest) (name :: names)

/-- The path that some characters spell. Exactly two slashes at the beginning differ from one, and
more than two do not. -/
inductive Spells : List Char → Path → Prop
  | relative {cs : List Char} {names : List String} (hcs : Stops (· == '/') cs)
      (h : SpellsNames cs names) : Spells cs ⟨.relative, names⟩
  | root {cs : List Char} {names : List String} (hcs : Stops (· == '/') cs)
      (h : SpellsNames cs names) : Spells ('/' :: cs) ⟨.root, names⟩
  | doubleRoot {cs : List Char} {names : List String} (hcs : Stops (· == '/') cs)
      (h : SpellsNames cs names) : Spells ('/' :: '/' :: cs) ⟨.doubleRoot, names⟩
  | manySlashes {cs : List Char} {names : List String} (h : SpellsNames cs names) :
      Spells ('/' :: '/' :: '/' :: cs) ⟨.root, names⟩

/-! ## Names -/

theorem namesOf_append_slash (x y : List Char) :
    namesOf (x ++ '/' :: y) = namesOf x ++ namesOf y := by
  unfold namesOf
  rw [List.splitOn, List.splitOnP_append_cons x y (by decide), List.map_append, List.filter_append]
  rfl

theorem namesOf_slash (cs : List Char) : namesOf ('/' :: cs) = namesOf cs :=
  namesOf_append_slash [] cs

theorem namesOf_part_append (part : List Char) {rest : List Char} (hrest : Stops (· != '/') rest) :
    namesOf (part ++ rest) = namesOf part ++ namesOf rest := by
  cases rest with
  | nil =>
    rw [List.append_nil]
    exact (List.append_nil _).symm
  | cons c rest =>
    obtain rfl := eq_of_stops_bne hrest
    rw [namesOf_append_slash, namesOf_slash]

theorem namesOf_name {name : String} (h : Spellable name) : namesOf name.toList = [name] := by
  have hsplit : name.toList.splitOn '/' = [name.toList] := by
    apply List.splitOnP_eq_singleton
    intro c hc
    rw [beq_eq_false_iff_ne]
    rintro rfl
    exact h.slash hc
  rw [namesOf, hsplit, List.map_singleton, String.ofList_toList]
  exact List.filter_cons_of_pos (by simp [h.ne_empty, h.ne_dot])

theorem namesOf_eq_of_spellsNames {cs : List Char} {names : List String}
    (h : SpellsNames cs names) : namesOf cs = names := by
  induction h with
  | nil => rfl
  | slash h ih => rw [namesOf_slash, ih]
  | dot hrest h ih =>
    rw [← List.singleton_append, namesOf_part_append _ hrest, ih]
    rfl
  | name hname hrest h ih =>
    rw [namesOf_part_append _ hrest, namesOf_name hname, ih]
    rfl

/-- What does not begin with a slash begins with a part that goes up to a slash or to the end. -/
theorem exists_part {c : Char} (hc : c ≠ '/') (cs : List Char) : ∃ part rest,
    c :: cs = String.toList part ++ rest ∧ part ≠ "" ∧ '/' ∉ part.toList ∧
      Stops (· != '/') rest := by
  refine ⟨String.ofList (c :: cs.takeWhile (· != '/')), cs.dropWhile (· != '/'), ?_, ?_, ?_,
    stops_dropWhile _ _⟩
  · rw [String.toList_ofList, List.cons_append, List.takeWhile_append_dropWhile]
  · exact mt String.ofList_eq_empty_iff.1 (List.cons_ne_nil _ _)
  · rw [String.toList_ofList]
    intro hmem
    rcases List.mem_cons.1 hmem with heq | hmem
    · exact hc heq.symm
    · exact absurd (List.all_eq_true.1 List.all_takeWhile _ hmem) (by decide)

/-- Every text spells names: it is empty, or it begins with a slash or with a part. -/
theorem exists_spellsNames (cs : List Char) : ∃ names, SpellsNames cs names := by
  induction hlength : cs.length using Nat.strong_induction_on generalizing cs with
  | _ n ih =>
    subst hlength
    cases cs with
    | nil => exact ⟨[], .nil⟩
    | cons c cs =>
      by_cases hc : c = '/'
      · subst hc
        obtain ⟨names, hnames⟩ := ih cs.length (Nat.lt_succ_self _) cs rfl
        exact ⟨names, .slash hnames⟩
      · obtain ⟨part, rest, hsplit, hempty, hslash, hrest⟩ := exists_part hc cs
        have hshorter : rest.length < (c :: cs).length := by
          have hpos := List.length_pos_iff.2 (mt String.toList_eq_nil_iff.1 hempty)
          rw [hsplit, List.length_append]
          omega
        obtain ⟨names, hnames⟩ := ih rest.length hshorter rest rfl
        rw [hsplit]
        by_cases hdot : part = "."
        · subst hdot
          exact ⟨names, .dot hrest hnames⟩
        · exact ⟨part :: names, .name ⟨hempty, hdot, hslash⟩ hrest hnames⟩

theorem spellsNames_namesOf (cs : List Char) : SpellsNames cs (namesOf cs) := by
  obtain ⟨names, hnames⟩ := exists_spellsNames cs
  rwa [namesOf_eq_of_spellsNames hnames]

theorem spellable_of_spellsNames {cs : List Char} {names : List String}
    (h : SpellsNames cs names) : ∀ name ∈ names, Spellable name := by
  induction h with
  | nil => exact List.forall_mem_nil _
  | slash h ih => exact ih
  | dot hrest h ih => exact ih
  | name hname hrest h ih => exact List.forall_mem_cons.2 ⟨hname, ih⟩

theorem spellable_of_mem_ofString {text name : String} (h : name ∈ (ofString text).names) :
    Spellable name :=
  spellable_of_spellsNames (spellsNames_namesOf text.toList) name h

/-! ## Anchors -/

theorem takeWhile_slash_of_stops {cs : List Char} (h : Stops (· == '/') cs) :
    cs.takeWhile (· == '/') = [] := by
  rw [← List.nil_append cs]
  exact takeWhile_append_of_stops (List.forall_mem_nil _) h

theorem ofString_eq_of_spells {text : String} {p : Path} (h : Spells text.toList p) :
    ofString text = p := by
  unfold ofString
  generalize text.toList = cs at h
  cases h with
  | relative hcs h =>
    rw [takeWhile_slash_of_stops hcs, namesOf_eq_of_spellsNames h]
    rfl
  | root hcs h =>
    rw [List.takeWhile_cons_of_pos (by decide), takeWhile_slash_of_stops hcs,
      namesOf_eq_of_spellsNames h.slash]
    rfl
  | doubleRoot hcs h =>
    rw [List.takeWhile_cons_of_pos (by decide), List.takeWhile_cons_of_pos (by decide),
      takeWhile_slash_of_stops hcs, namesOf_eq_of_spellsNames h.slash.slash]
    rfl
  | manySlashes h =>
    rw [List.takeWhile_cons_of_pos (by decide), List.takeWhile_cons_of_pos (by decide),
      List.takeWhile_cons_of_pos (by decide), namesOf_eq_of_spellsNames h.slash.slash.slash]
    rfl

theorem stops_slash_or_cons (cs : List Char) : Stops (· == '/') cs ∨ ∃ rest, cs = '/' :: rest := by
  cases cs with
  | nil => exact .inl rfl
  | cons c cs =>
    by_cases hc : c = '/'
    · exact .inr ⟨cs, by rw [hc]⟩
    · exact .inl (beq_false_of_ne hc)

/-- Every text spells a path, which depends on how many slashes it begins with. -/
theorem exists_spells (cs : List Char) : ∃ p, Spells cs p := by
  rcases stops_slash_or_cons cs with hcs | ⟨one, rfl⟩
  · exact ⟨_, .relative hcs (spellsNames_namesOf cs)⟩
  rcases stops_slash_or_cons one with hone | ⟨two, rfl⟩
  · exact ⟨_, .root hone (spellsNames_namesOf one)⟩
  rcases stops_slash_or_cons two with htwo | ⟨three, rfl⟩
  · exact ⟨_, .doubleRoot htwo (spellsNames_namesOf two)⟩
  · exact ⟨_, .manySlashes (spellsNames_namesOf three)⟩

/-- **A text spells the path that is read from it**, and no other. -/
theorem spells_iff {text : String} {p : Path} : Spells text.toList p ↔ p = ofString text := by
  constructor
  · intro h
    exact (ofString_eq_of_spells h).symm
  · rintro rfl
    obtain ⟨p, hp⟩ := exists_spells text.toList
    rwa [ofString_eq_of_spells hp]

/-! ## Written paths -/

theorem spellsNames_intercalate {names : List String} (h : ∀ name ∈ names, Spellable name) :
    SpellsNames ("/".intercalate names).toList names := by
  induction names with
  | nil => exact .nil
  | cons name names ih =>
    obtain ⟨hname, hnames⟩ := List.forall_mem_cons.1 h
    cases names with
    | nil =>
      rw [String.intercalate_singleton, ← List.append_nil name.toList]
      exact .name hname rfl .nil
    | cons next names =>
      rw [String.intercalate_cons_cons, String.append_assoc, String.toList_append,
        String.toList_append]
      exact .name hname rfl (.slash (ih hnames))

theorem Spellable.stops {name : String} (h : Spellable name) : Stops (· == '/') name.toList := by
  rcases stops_slash_or_cons name.toList with hstops | ⟨rest, hrest⟩
  · exact hstops
  · refine absurd ?_ h.slash
    rw [hrest]
    exact List.mem_cons_self

/-- No more slashes than those of the anchor stand in front of the first name. -/
theorem stops_intercalate {names : List String} (h : ∀ name ∈ names, Spellable name) :
    Stops (· == '/') ("/".intercalate names).toList := by
  cases names with
  | nil => rfl
  | cons name names =>
    obtain ⟨hname, -⟩ := List.forall_mem_cons.1 h
    cases names with
    | nil =>
      rw [String.intercalate_singleton]
      exact hname.stops
    | cons next names =>
      rw [String.intercalate_cons_cons, String.append_assoc]
      exact stops_append hname.ne_empty hname.stops _

/-- **A path is spelled by what it is written as.** -/
theorem spells_toString {p : Path} (h : ∀ name ∈ p.names, Spellable name) :
    Spells p.toString.toList p := by
  obtain ⟨anchor, names⟩ := p
  have hnames := spellsNames_intercalate h
  have hstops := stops_intercalate h
  unfold Path.toString
  split
  · rename_i hnone
    obtain ⟨rfl, rfl⟩ := hnone
    exact .relative rfl (.dot rfl .nil)
  · rw [String.toList_append]
    cases anchor with
    | relative => exact .relative hstops hnames
    | root =>
      have htext : Anchor.root.text.toList = ['/'] := by decide
      rw [htext]
      exact .root hstops hnames
    | doubleRoot =>
      have htext : Anchor.doubleRoot.text.toList = ['/', '/'] := by decide
      rw [htext]
      exact .doubleRoot hstops hnames

end MacroModules.Path
