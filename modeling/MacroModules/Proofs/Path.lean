import Mathlib.Data.List.TakeDrop
import MacroModules.Path

/-!
# Names and extensions

* `span_reverse_append_dot`, `stemOf_append_dot`: an extension without dots can be taken off again.
* `withExtension_eq_ok_iff`: a path with its extension replaced stands in the same directory, and
  its last name is never two dots (`withExtension_name_ne`).
* `hasNull_of_withExtension`: a null character in it comes from the path or from the extension.
-/

namespace MacroModules.Path

theorem stemOf_ne_nil {cs : List Char} (h : cs ≠ []) : stemOf cs ≠ [] := by
  unfold stemOf
  split
  · rw [Ne, List.reverse_eq_nil_iff]
    exact List.cons_ne_nil _ _
  · exact h

/-- Seen from its end, a name is first what follows its last dot. -/
theorem span_reverse_append_dot (before : List Char) {behind : List Char} (hdot : '.' ∉ behind) :
    (before ++ '.' :: behind).reverse.span (· != '.') =
      (behind.reverse, '.' :: before.reverse) := by
  have hreverse : (before ++ '.' :: behind).reverse = behind.reverse ++ '.' :: before.reverse := by
    simp
  have hrun : ∀ c ∈ behind.reverse, (c != '.') = true := by
    intro c hc
    rw [bne_iff_ne]
    rintro rfl
    exact hdot (List.mem_reverse.1 hc)
  rw [hreverse, List.span_eq_takeWhile_dropWhile, List.takeWhile_append_of_pos hrun,
    List.dropWhile_append_of_pos hrun]
  simp

/-- An extension without dots is what runs from the last dot. -/
theorem stemOf_append_dot {stem extension : List Char} (hstem : stem ≠ [])
    (hextension : extension ≠ []) (hdot : '.' ∉ extension) :
    stemOf (stem ++ '.' :: extension) = stem := by
  obtain ⟨e, es, he⟩ := List.exists_cons_of_ne_nil (mt List.reverse_eq_nil_iff.1 hextension)
  obtain ⟨s, ss, hs⟩ := List.exists_cons_of_ne_nil (mt List.reverse_eq_nil_iff.1 hstem)
  calc stemOf (stem ++ '.' :: extension)
      = (s :: ss).reverse := by rw [stemOf, span_reverse_append_dot stem hdot, he, hs]
    _ = stem := by rw [← hs, List.reverse_reverse]

theorem mem_of_mem_stemOf {c : Char} {cs : List Char} (h : c ∈ stemOf cs) : c ∈ cs := by
  unfold stemOf at h
  split at h
  · rename_i e es dot b before hspan
    rw [List.span_eq_takeWhile_dropWhile, Prod.mk.injEq] at hspan
    have hdrop : c ∈ cs.reverse.dropWhile (· != '.') := by
      rw [hspan.2]
      exact List.mem_cons_of_mem dot (List.mem_reverse.1 h)
    exact List.mem_reverse.1 ((List.dropWhile_sublist _).subset hdrop)
  · exact h

variable {p out : Path} {extension : String}

theorem withExtension_eq_ok_iff : p.withExtension extension = .ok out ↔
    extension ≠ "" ∧ '/' ∉ extension.toList ∧ p.name ≠ "" ∧
      out = p.parent.child (p.stem ++ "." ++ extension) := by
  unfold withExtension
  split
  · rename_i hbad
    constructor
    · rintro ⟨⟩
    · rintro ⟨hne, hslash, -⟩
      exact (hbad.elim hne hslash).elim
  · rename_i hgood
    obtain ⟨hne, hslash⟩ := not_or.1 hgood
    split
    · rename_i hname
      constructor
      · rintro ⟨⟩
      · rintro ⟨-, -, hname', -⟩
        exact (hname' hname).elim
    · rename_i hname
      constructor
      · rintro ⟨⟩
        exact ⟨hne, hslash, hname, rfl⟩
      · rintro ⟨-, -, -, rfl⟩
        rfl

theorem stem_ne_nil (h : p.name ≠ "") : p.stem.toList ≠ [] := by
  rw [stem, String.toList_ofList]
  exact stemOf_ne_nil (mt String.toList_eq_nil_iff.1 h)

/-- A name with an extension has at least three characters. -/
theorem three_le_length_withExtension_name (hname : p.name ≠ "") (hextension : extension ≠ "") :
    3 ≤ (p.stem ++ "." ++ extension).toList.length := by
  have hstem := List.length_pos_iff.2 (stem_ne_nil hname)
  have hext := List.length_pos_iff.2 (mt String.toList_eq_nil_iff.1 hextension)
  have hdot : ".".toList.length = 1 := rfl
  simp only [String.toList_append, List.length_append]
  omega

theorem withExtension_name_ne (hname : p.name ≠ "") (hextension : extension ≠ "") :
    p.stem ++ "." ++ extension ≠ ".." := by
  intro h
  have hlength := three_le_length_withExtension_name hname hextension
  rw [h] at hlength
  exact absurd hlength (by decide)

theorem name_eq_getLast (h : p.names ≠ []) : p.name = p.names.getLast h := by
  rw [name, List.getLastD_eq_getLast?, List.getLast?_eq_some_getLast h]
  rfl

theorem names_ne_nil (h : p.name ≠ "") : p.names ≠ [] := by
  intro hnil
  apply h
  rw [name, hnil]
  rfl

theorem name_mem (h : p.name ≠ "") : p.name ∈ p.names := by
  rw [name_eq_getLast (names_ne_nil h)]
  exact List.getLast_mem _

/-- A path that a text spells has a last name if it has any. -/
theorem name_ofString_ne {text : String} (h : (ofString text).names ≠ []) :
    (ofString text).name ≠ "" := by
  intro hempty
  have hmem : "" ∈ namesOf text.toList := by
    rw [← hempty, name_eq_getLast h]
    exact List.getLast_mem h
  have hkept := (List.mem_filter.1 hmem).2
  exact absurd hkept (by decide)

/-- A null character in an output comes from its input or from the extension. -/
theorem hasNull_of_withExtension (h : p.withExtension extension = .ok out)
    (hp : p.hasNull = false) : out.hasNull = extension.toList.contains '\x00' := by
  obtain ⟨-, -, hname, rfl⟩ := withExtension_eq_ok_iff.1 h
  have hnames : ∀ name ∈ p.names, name.toList.contains '\x00' = false := by
    intro name hmem
    exact eq_false_of_ne_true (List.any_eq_false.1 hp name hmem)
  have hparent : p.names.dropLast.any (·.toList.contains '\x00') = false := by
    refine List.any_eq_false.2 fun name hmem => ?_
    rw [hnames name ((List.dropLast_sublist _).subset hmem)]
    decide
  have hstem : p.stem.toList.contains '\x00' = false := by
    rw [List.contains_eq_mem, decide_eq_false_iff_not]
    intro hmem
    rw [stem, String.toList_ofList] at hmem
    have hcontains := hnames p.name (name_mem hname)
    rw [List.contains_eq_mem, decide_eq_false_iff_not] at hcontains
    exact hcontains (mem_of_mem_stemOf hmem)
  have hdot : ".".toList.contains '\x00' = false := by decide
  have htext : (p.stem ++ "." ++ extension).toList.contains '\x00' =
      extension.toList.contains '\x00' := by
    rw [String.toList_append, String.toList_append, List.contains_append, List.contains_append,
      hstem, hdot]
    rfl
  rw [hasNull, child, parent, List.any_append, hparent, Bool.false_or]
  simpa using htext

/-- **An output that is an input.** If the output of a path has the name of another path in the same
directory and the extension has no dot, then the other path keeps its name as an output. -/
theorem stem_of_name {q : Path} (hname : p.name ≠ "") (hextension : extension ≠ "")
    (hdot : '.' ∉ extension.toList) (hq : q.name = p.stem ++ "." ++ extension) :
    q.stem ++ "." ++ extension = q.name := by
  have hstem : q.stem = p.stem := by
    have htoList : q.name.toList = p.stem.toList ++ '.' :: extension.toList := by
      rw [hq, String.toList_append, String.toList_append, List.append_assoc]
      rfl
    have hext : extension.toList ≠ [] := mt String.toList_eq_nil_iff.1 hextension
    rw [stem, htoList, stemOf_append_dot (stem_ne_nil hname) hext hdot, String.ofList_toList]
  rw [hstem, hq]

end MacroModules.Path
