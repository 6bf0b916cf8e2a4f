import MacroModules.Proofs.Document.Rename
import MacroModules.Proofs.Document.Typed
import MacroModules.Proofs.Expansion.Product

/-!
# Slots of a parameter list

A parameter list counts slots, not places: a repeated name opens no slot and stands for the one that
it opened before. Three parts of an expansion number the slots of a template, each by itself. A body
is read against the names of the slots, the template lists them, and an instance has a value for
each of them.

* `Param.slotNames_ofNames`: the slots are the distinct names, in the order in which they come up.
* `Param.map_name?_ofNames`: nothing is lost, because an entry that repeats a name leads back to it.
* `HasSlot`, `hasSlot_of_getElem?`: a name that has the same slot in all three places.
* `Param.ofNames_numbers_slots`: **parameter lists can be read back, and all parts agree on the
  slots**.
-/

namespace MacroModules

namespace Param

variable {seen names : List String} {name : String}

/-! ## Names of slots -/

/-- With the slots in `seen` open, each name that is not among them opens one where it occurs
first. -/
theorem slotNames_ofNamesAfter (seen names : List String) :
    slotNames (ofNamesAfter seen names) = (names.filter (· ∉ seen)).eraseDups := by
  fun_induction ofNamesAfter seen names with
  | case1 => rfl
  | case2 seen name names i hi ih =>
    have hseen : name ∈ seen := List.isSome_idxOf?.1 (by rw [hi]; rfl)
    rw [slotNames_again, ih, List.filter_cons_of_neg (by simpa using hseen)]
  | case3 seen name names hi ih =>
    have hseen : name ∉ seen := List.idxOf?_eq_none_iff.1 hi
    rw [slotNames_fresh, ih, List.filter_cons_of_pos (by simpa using hseen), List.eraseDups_cons,
      List.filter_filter]
    congr 3
    funext other
    by_cases hother : other = name <;> simp [hother]

/-- **The slots are the distinct names**, in the order of their first occurrences. -/
theorem slotNames_ofNames (names : List String) : slotNames (ofNames names) = names.eraseDups := by
  rw [ofNames, slotNames_ofNamesAfter]
  simp

theorem nodup_slotNames_ofNamesAfter (seen names : List String) :
    (slotNames (ofNamesAfter seen names)).Nodup := by
  fun_induction ofNamesAfter seen names with
  | case1 => exact List.nodup_nil
  | case2 seen name names i hi ih => exact ih
  | case3 seen name names hi ih =>
    refine List.nodup_cons.2 ⟨fun hmem => ?_, ih⟩
    exact (mem_slotNames_ofNamesAfter.1 hmem).2 (by simp)

/-! ## Reading a parameter list back -/

/-- The name that an entry stands for, when the slots have these names. -/
def name? (slots : List String) : Param → Option String
  | fresh name => some name
  | again slot => if 0 ≤ slot then slots[slot.toNat]? else none

/-- The invariant of the fold: the slots open at the beginning and those opened on the way give each
entry its name. -/
theorem map_name?_ofNamesAfter (seen names : List String) :
    (ofNamesAfter seen names).map (name? (seen ++ slotNames (ofNamesAfter seen names))) =
      names.map some := by
  fun_induction ofNamesAfter seen names with
  | case1 => rfl
  | case2 seen name names i hi ih =>
    obtain ⟨hlt, hname, -⟩ := List.idxOf?_eq_some_iff.1 hi
    have hslot : (seen ++ slotNames (ofNamesAfter seen names))[i]? = some name := by
      rw [List.getElem?_append_left hlt, List.getElem?_eq_getElem hlt, hname]
    rw [slotNames_again, List.map_cons, List.map_cons, ih, name?, if_pos (Int.natCast_nonneg i),
      Int.toNat_natCast, hslot]
  | case3 seen name names hi ih =>
    rw [slotNames_fresh, List.map_cons, List.map_cons, List.append_cons, ih, name?]

/-- **A parameter list leads back to the names it was written with.** -/
theorem map_name?_ofNames (names : List String) :
    (ofNames names).map (name? (slotNames (ofNames names))) = names.map some :=
  map_name?_ofNamesAfter [] names

end Param

/-! ## One number for each slot -/

/-- The name has the slot in the body that is read under the header, in the template, and in the
values of each instance. -/
structure HasSlot (h : Reader.Header) (name : String) (slot : Nat) : Prop where
  /-- In a body the name is a reference to this slot. -/
  body : Body.slotOf? name h.scope.slots = some slot
  template : ∀ d, (Template.mk d h.paramList).slotNames.idxOf? name = some slot
  /-- An instance finds the same value by the name and by the number. -/
  instances : ∀ d owner values, values.length = (Template.mk d h.paramList).slotNames.length →
    ∃ b v, ((Template.mk d h.paramList).target owner values).binding = some b ∧
      (b.map (·.1)).idxOf? name = some slot ∧ values[slot]? = some v ∧ b.lookup name = some v ∧
      b.value? slot = some v

theorem idxOf?_eq_some_of_nodup {slots : List String} {name : String} {i : Nat}
    (hslots : slots.Nodup) (hi : slots[i]? = some name) : slots.idxOf? name = some i := by
  obtain ⟨hlt, hname⟩ := List.getElem?_eq_some_iff.1 hi
  refine List.idxOf?_eq_some_iff.2 ⟨hlt, hname, fun j hj hsame => ?_⟩
  have hij : j = i := (List.Nodup.getElem_inj_iff hslots).1 (hsame.trans hname.symm)
  omega

/-- A value is found under the name of its slot. -/
theorem lookup_zip_of_nodup {slots : List String} {values : List Int} {name : String} {i : Nat}
    {v : Int} (hslots : slots.Nodup) (hi : slots[i]? = some name) (hv : values[i]? = some v) :
    (slots.zip values).lookup name = some v := by
  induction slots generalizing values i with
  | nil => cases hi
  | cons s slots ih =>
    obtain ⟨hnot, hslots⟩ := List.nodup_cons.1 hslots
    cases values with
    | nil => cases hv
    | cons w values =>
      cases i with
      | zero =>
        cases hi
        cases hv
        rw [List.zip_cons_cons, List.lookup_cons_self]
      | succ i =>
        have hne : name ≠ s := by
          rintro rfl
          exact hnot (List.mem_of_getElem? hi)
        rw [List.zip_cons_cons, List.lookup_cons, beq_false_of_ne hne]
        exact ih hslots hi hv

/-- A slot has the number of its place among the slots of the header. -/
theorem hasSlot_of_getElem? {h : Reader.Header} {name : String} {slot : Nat}
    (hslot : (Param.slotNames h.paramList)[slot]? = some name) : HasSlot h name slot := by
  have hnodup : (Param.slotNames h.paramList).Nodup := Param.nodup_slotNames_ofNamesAfter [] _
  refine ⟨Body.slotOf?_eq_some hnodup hslot, fun d => idxOf?_eq_some_of_nodup hnodup hslot,
    fun d owner values hcount => ?_⟩
  change values.length = (Param.slotNames h.paramList).length at hcount
  have hlt : slot < values.length := by
    rw [hcount]
    exact (List.getElem?_eq_some_iff.1 hslot).1
  have hv : values[slot]? = some values[slot] := List.getElem?_eq_getElem hlt
  refine ⟨(Param.slotNames h.paramList).zip values, values[slot], rfl, ?_, hv,
    lookup_zip_of_nodup hnodup hslot hv, ?_⟩
  · rw [List.map_fst_zip (by omega)]
    exact idxOf?_eq_some_of_nodup hnodup hslot
  · rw [Expansion.Binding.value?, if_pos (Int.natCast_nonneg slot), Int.toNat_natCast,
      Expansion.Binding.values, List.map_snd_zip (by omega), hv]

/-- **Parameter lists can be read back, and all parts agree on the slots.** There is one entry for
each name. The names of the slots are the distinct names in the order of their first occurrences,
and an entry that repeats a name stands for a slot that was opened before it. With each such entry
replaced by the name of its slot, the list is the one it was written with. So a name has one slot,
in the body of a template as in its list of slots and in the values of its instances. -/
theorem Param.ofNames_numbers_slots (names : List String) :
    (ofNames names).length = names.length ∧ slotNames (ofNames names) = names.eraseDups ∧
    Bound (ofNames names) ∧
    (ofNames names).map (name? (slotNames (ofNames names))) = names.map some ∧
    ∀ args, ∀ name ∈ names, ∃ slot, names.eraseDups[slot]? = some name ∧
      HasSlot ⟨some names, args⟩ name slot := by
  refine ⟨length_ofNamesAfter [] names, slotNames_ofNames names, bound_ofNames names,
    map_name?_ofNames names, fun args name hname => ?_⟩
  obtain ⟨slot, hslot⟩ := List.mem_iff_getElem?.1 (List.mem_eraseDups.2 hname)
  refine ⟨slot, hslot, hasSlot_of_getElem? ?_⟩
  rw [← slotNames_ofNames] at hslot
  exact hslot

/-- The name in the fourth place has the third slot, because a repeated name stands before it. -/
theorem Param.ofNames_numbers_slots_interleaved :
    let names := ["b", "a", "b", "c", "a"]
    ofNames names = [fresh "b", fresh "a", again 0, fresh "c", again 1] ∧
    (ofNames names).map (name? (slotNames (ofNames names))) = names.map some ∧
    "c" ∈ names ∧ HasSlot ⟨some names, none⟩ "c" 2 := by
  intro names
  have hmem : "c" ∈ names := by decide
  obtain ⟨-, -, -, hback, hslots⟩ := ofNames_numbers_slots names
  obtain ⟨slot, -, hslot⟩ := hslots none "c" hmem
  have hthird : Body.slotOf? "c" (Reader.Header.mk (some names) none).scope.slots = some 2 := by
    decide
  obtain rfl : slot = 2 := Option.some.inj (hslot.body.symm.trans hthird)
  exact ⟨by decide, hback, hmem, hslot⟩

end MacroModules
