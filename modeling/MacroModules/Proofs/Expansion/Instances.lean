import MacroModules.Proofs.Expansion.Symbols

/-!
# Instances of a template

A template is expanded once for each choice of values from its ranges, in the order of a dictionary.
The values are found again in the symbols, so no two instances share one.

* `Template.values_target`, `Template.symbolOf_target_inj`: an instance has its values in its
  symbol.
* `instances_of_empty`: there is nothing to expand if a range is empty.
* `instances_enumerate`: **the instances are those of all choices, in order**.
-/

namespace MacroModules

variable {t : Template} {owner : String} {values ws : List Int}

theorem Template.values_target (h : values.length = t.slotNames.length) :
    (t.target owner values).values = values :=
  List.map_snd_zip (Nat.le_of_eq h)

/-- **The values of an instance are found again in its symbol.** -/
theorem Template.symbolOf_target_inj (hv : values.length = t.slotNames.length)
    (hw : ws.length = t.slotNames.length) {name : String}
    (h : (t.target owner values).symbolOf name = (t.target owner ws).symbolOf name) :
    values = ws := by
  have hhead : (t.target owner values).head = (t.target owner ws).head := rfl
  rw [Expansion.symbolOf_eq, Expansion.symbolOf_eq, hhead, String.append_right_inj,
    String.append_right_inj, values_target hv, values_target hw] at h
  exact Expansion.suffix_inj h

namespace Expansion

variable {s : Scope} {name : String} {ranges : List Interval}

/-- If a range is empty, nothing is expanded. -/
theorem instances_of_empty (ht : s.template? name = some t)
    (hcount : ranges.length = t.slotNames.length) {r : Interval} (hr : r ∈ ranges)
    (hempty : r.hi < r.lo) : instances s name ranges = (ranges.mapM layOut).map fun _ => [] := by
  rw [instances_eq ht hcount, rangeTuples_eq_nil hr hempty]
  cases ranges.mapM layOut <;> rfl

/-- **The instances of a template are those of all choices of values.** There are as many as the
product of the lengths of the ranges, in the order of a dictionary, and no two have a symbol in
common. They can be expanded if no range is too large and the template can be expanded for each
choice, and their lines are the lines of these expansions, one after the other. If a range is empty,
there are none, and what the template says does not matter. -/
theorem instances_enumerate (ht : s.template? name = some t)
    (hcount : ranges.length = t.slotNames.length) : ∃ choices : List (List Int),
      (∀ values, values ∈ choices ↔
        List.Forall₂ (fun v r => r.lo ≤ v ∧ v ≤ r.hi) values ranges) ∧
      choices.Nodup ∧ choices.Pairwise (· < ·) ∧
      (choices.length : Int) = (ranges.map fun r => max 0 (r.hi - r.lo + 1)).prod ∧
      (choices.map fun values => (t.target s.owner.name values).symbolOf t.definition.name).Nodup ∧
      (∀ ds, instances s name ranges = .ok ds ↔ (∀ r ∈ ranges, r.size < countLimit) ∧ ∃ parts,
        List.Forall₂ (fun values part =>
          define s t.definition (t.target s.owner.name values) = .ok part) choices parts ∧
        ds = parts.flatten) ∧
      (∀ ds values, define s t.definition (t.target s.owner.name values) = .ok ds →
        ∃ es body, ds = es ++ [⟨(t.target s.owner.name values).symbolOf t.definition.name, body⟩]) ∧
      ∀ r ∈ ranges, r.hi < r.lo →
        choices = [] ∧ instances s name ranges = (ranges.mapM layOut).map fun _ => [] := by
  have hsorted := pairwise_rangeTuples ranges
  have hnodup : (rangeTuples ranges).Nodup := hsorted.imp fun hlt => ne_of_lt hlt
  refine ⟨rangeTuples ranges, fun values => mem_rangeTuples, hnodup, hsorted,
    length_rangeTuples ranges, ?_, fun ds => ?_, fun ds values h => ?_,
    fun r hr hempty => ⟨rangeTuples_eq_nil hr hempty, instances_of_empty ht hcount hr hempty⟩⟩
  · refine hnodup.map_on fun values hv ws hw hsymbol => ?_
    exact Template.symbolOf_target_inj ((length_of_mem_rangeTuples hv).trans hcount)
      ((length_of_mem_rangeTuples hw).trans hcount) hsymbol
  · rw [instances_eq_ok_iff, ← exists_mapM_layOut_iff]
    constructor
    · rintro ⟨t', choices, parts, ht', -, hchoices, hparts, hds⟩
      obtain rfl : t = t' := Option.some.inj (ht.symm.trans ht')
      exact ⟨⟨choices, hchoices⟩, parts, hparts, hds⟩
    · rintro ⟨⟨choices, hchoices⟩, parts, hparts, hds⟩
      exact ⟨t, choices, parts, ht, hcount, hchoices, hparts, hds⟩
  · obtain ⟨es, hes⟩ := define_eq_append_lineOf h
    exact ⟨es, _, hes⟩

/-- The first template of the name counts. It uses its parameters in another order than that of its
slots, and the numeral of `10` comes before that of `9` in a dictionary of texts. -/
theorem instances_enumerate_pairs :
    let t : Template := ⟨⟨"T", [.text " ", .slot 1, .text "+", .slot 0]⟩, [.fresh "a", .fresh "b"]⟩
    let s : Scope := ⟨⟨"M", [], 1, .point .first⟩, [], [t, ⟨⟨"T", []⟩, []⟩]⟩
    let ranges : List Interval := [⟨9, 10⟩, ⟨0, 1⟩]
    s.template? "T" = some t ∧ ranges.length = t.slotNames.length ∧
    instances s "T" ranges = .ok [⟨"__M_T_9_0", " 0+9"⟩, ⟨"__M_T_9_1", " 1+9"⟩,
      ⟨"__M_T_10_0", " 0+10"⟩, ⟨"__M_T_10_1", " 1+10"⟩] ∧
    ∃ choices parts, (∀ values, values ∈ choices ↔
        List.Forall₂ (fun v r => r.lo ≤ v ∧ v ≤ r.hi) values ranges) ∧
      choices.Nodup ∧ choices.Pairwise (· < ·) ∧ (choices.length : Int) = 4 ∧
      List.Forall₂ (fun values part =>
        define s t.definition (t.target s.owner.name values) = .ok part) choices parts ∧
      parts.flatten.map (·.symbol) = ["__M_T_9_0", "__M_T_9_1", "__M_T_10_0", "__M_T_10_1"] := by
  intro t s ranges
  have ht : s.template? "T" = some t := by decide
  have hcount : ranges.length = t.slotNames.length := by decide
  have hlines : instances s "T" ranges = .ok [⟨"__M_T_9_0", " 0+9"⟩, ⟨"__M_T_9_1", " 1+9"⟩,
      ⟨"__M_T_10_0", " 0+10"⟩, ⟨"__M_T_10_1", " 1+10"⟩] := by decide +kernel
  obtain ⟨choices, hmem, hnodup, hsorted, hlength, -, hinstances, -⟩ :=
    instances_enumerate ht hcount
  obtain ⟨-, parts, hparts, hflat⟩ := (hinstances _).1 hlines
  refine ⟨ht, hcount, hlines, choices, parts, hmem, hnodup, hsorted, ?_, hparts, ?_⟩
  · rw [hlength]
    decide
  · rw [← hflat]
    rfl

end Expansion

end MacroModules
