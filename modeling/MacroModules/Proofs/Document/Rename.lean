import MacroModules.Proofs.Document.Runs

/-!
# Bodies with other names

A name in a body is compared with the slots and the arguments, and apart from that it is passed on.
So other names give the same fragments with other names in them, as long as names that differ go on
to differ.

* `Fragment.rename`, `Token.rename`, `Body.Header.rename`: what has names, with other names.
* `Body.fragments_rename`: **reading a body goes along with renaming**.
* `Body.fragments_map`: a map that keeps the names, too, keeps the fragments.
* `Body.keepsReferences_of_mem`: **another name for a parameter is no other reference**, unless the
  old name is that of an object.
* `Param.slotNames_ofNames_map`, `Param.mem_slotNames_ofNames`: the slots of a list of names.
-/

namespace MacroModules

/-- The fragment with other names in it. A parameter has none: it is kept by its slot. -/
def Fragment.rename (π : String → String) : Fragment → Fragment
  | .word name => .word (π name)
  | .foreign owner object inlined => .foreign (π owner) (π object) inlined
  | .call name args => .call (π name) (args.map π)
  | .text value => .text value
  | .slot index => .slot index
  | .unknown label => .unknown label

theorem Fragment.rename_id : Fragment.rename id = id := by
  funext f
  cases f <;> simp [Fragment.rename]

/-- The token with another name, if it is a name. -/
def Token.rename (π : String → String) (t : Token) : Token :=
  if t.kind = .name then { t with text := π t.text } else t

namespace Body

/-- The header with other names. -/
def Header.rename (π : String → String) (h : Header) : Header :=
  ⟨h.slots.map π, h.args.map π, h.variadic⟩

/-- The map changes the names among these tokens, and neither kinds nor other texts. -/
structure Renames (π : String → String) (f : Token → Token) (ts : List Token) : Prop where
  kind : ∀ t, (f t).kind = t.kind
  name : ∀ t ∈ ts, t.kind = .name → (f t).text = π t.text
  text : ∀ t ∈ ts, t.kind ≠ .name → (f t).text = t.text

variable {π : String → String} {f : Token → Token} {t : Token} {ts : List Token}

theorem renames_rename (π : String → String) (ts : List Token) : Renames π (Token.rename π) ts := by
  refine ⟨fun t => ?_, fun t _ ht => ?_, fun t _ ht => ?_⟩
  · unfold Token.rename
    split <;> rfl
  · rw [Token.rename, if_pos ht]
  · rw [Token.rename, if_neg ht]

theorem Renames.mono {us : List Token} (hf : Renames π f ts) (hsub : us ⊆ ts) : Renames π f us :=
  ⟨hf.kind, fun t ht => hf.name t (hsub ht), fun t ht => hf.text t (hsub ht)⟩

theorem Renames.tail (hf : Renames π f (t :: ts)) : Renames π f ts :=
  hf.mono (List.subset_cons_self t ts)

section

variable (hπ : Function.Injective π) (h : Header)

include hπ

theorem slotOf?_map (name : String) (slots : List String) :
    slotOf? (π name) (slots.map π) = slotOf? name slots := by
  induction slots with
  | nil => rfl
  | cons s slots ih => simp only [List.map_cons, slotOf?, ih, hπ.eq_iff]

theorem isArgument_rename (name : String) :
    (h.rename π).isArgument (π name) = h.isArgument name := by
  rw [Bool.eq_iff_iff, isArgument_iff, isArgument_iff]
  simp only [Header.rename, List.mem_map_of_injective hπ]

theorem callArgs?_rename {expectsArg : Bool} (hf : Renames π f ts) :
    callArgs? (h.rename π) expectsArg (ts.map f) =
      (callArgs? h expectsArg ts).map fun r => (r.1.map π, r.2) := by
  induction ts generalizing expectsArg with
  | nil => cases expectsArg <;> rfl
  | cons t ts ih =>
    have ih := fun b => @ih b hf.tail
    cases expectsArg with
    | false =>
      simp only [List.map_cons, callArgs?, hf.kind, ih]
      split
      · simp [Function.comp_def]
      split
      · rfl
      split
      · simp [Function.comp_def]
      · rfl
    | true =>
      simp only [List.map_cons, callArgs?, hf.kind, ih]
      split
      · simp [Function.comp_def]
      by_cases ht : t.kind = .name
      · rw [hf.name t List.mem_cons_self ht, isArgument_rename hπ]
        split
        · simp [Function.comp_def]
        · rfl
      · rw [if_neg fun hand => ht hand.1, if_neg fun hand => ht hand.1]
        rfl

omit hπ in
theorem foreign?_rename (name : String) (hf : Renames π f ts) :
    foreign? (π name) (ts.map f) = (foreign? name ts).map (Fragment.rename π) := by
  rcases ts with _ | ⟨sep, _ | ⟨object, ts⟩⟩
  · rfl
  · rfl
  · simp only [List.map_cons, foreign?, hf.kind]
    by_cases hobject : object.kind = .name
    · rw [if_pos hobject, if_pos hobject, hf.name object (by simp) hobject]
      split
      · rfl
      split <;> rfl
    · rw [if_neg hobject, if_neg hobject]
      rfl

theorem call?_rename (name : String) (hf : Renames π f ts) :
    call? (h.rename π) (π name) (ts.map f) =
      (call? h name ts).map fun r => (r.1.rename π, r.2) := by
  cases ts with
  | nil => rfl
  | cons t ts =>
    simp only [List.map_cons, call?, hf.kind, callArgs?_rename hπ h hf.tail]
    split
    · simp [Function.comp_def, Fragment.rename]
    · rfl

theorem named_rename (name : String) (hf : Renames π f ts) :
    named (h.rename π) (π name) (ts.map f) =
      ((named h name ts).1.rename π, (named h name ts).2) := by
  have hslot : slotOf? (π name) (h.rename π).slots = slotOf? name h.slots :=
    slotOf?_map hπ name h.slots
  unfold named
  rw [hslot, foreign?_rename name hf, call?_rename hπ h name hf]
  cases slotOf? name h.slots with
  | some i => rfl
  | none =>
    cases foreign? name ts with
    | some g => rfl
    | none => cases call? h name ts <;> rfl

/-- **Reading a body goes along with renaming.** -/
theorem fragments_rename (hf : Renames π f ts) :
    fragments (h.rename π) (ts.map f) = (fragments h ts).map (Fragment.rename π) := by
  fun_induction fragments h ts with
  | case1 => simp [fragments]
  | case2 t ts ht ih =>
    have hrest : Renames π f (ts.drop (named h t.text ts).2) :=
      hf.tail.mono (List.drop_subset _ ts)
    rw [List.map_cons, fragments, if_pos (by rw [hf.kind]; exact ht),
      hf.name t List.mem_cons_self ht, named_rename hπ h t.text hf.tail, ← List.map_drop, ih hrest,
      List.map_cons]
  | case3 t ts ht ih =>
    have hrest : Renames π f (ts.dropWhile (·.kind != .name)) :=
      hf.tail.mono (List.dropWhile_suffix _).subset
    have hname : ((fun u : Token => u.kind != .name) ∘ f) = fun u => u.kind != .name := by
      funext u
      simp [hf.kind]
    -- a literal has no names in it
    have hliteral : ∀ u ∈ t :: ts.takeWhile (·.kind != .name),
        literal (h.rename π) (f u) = literal h u := by
      intro u hu
      have htext : (f u).text = u.text := by
        rcases List.mem_cons.1 hu with rfl | hu
        · exact hf.text u List.mem_cons_self ht
        · have hother : u.kind ≠ .name := by
            simpa using List.all_eq_true.1 List.all_takeWhile u hu
          exact hf.tail.text u ((List.takeWhile_prefix _).subset hu) hother
      simp only [literal, hf.kind, htext, Header.rename]
    have hjoined : ((t :: ts.takeWhile (·.kind != .name)).map f).map (literal (h.rename π)) =
        (t :: ts.takeWhile (·.kind != .name)).map (literal h) := by
      rw [List.map_map]
      exact List.map_congr_left hliteral
    rw [List.map_cons, fragments, if_neg (by rw [hf.kind]; exact ht), List.takeWhile_map,
      List.dropWhile_map, hname, ih hrest, ← List.map_cons, hjoined]
    rfl

end

/-- The fragments of a body depend on the kinds and texts of its tokens only. -/
theorem fragments_map (hkind : ∀ t, (f t).kind = t.kind) (h : Header)
    (htext : ∀ t ∈ ts, (f t).text = t.text) : fragments h (ts.map f) = fragments h ts := by
  have hf : Renames id f ts := ⟨hkind, fun t ht _ => htext t ht, fun t ht _ => htext t ht⟩
  have hheader : h.rename id = h := by simp [Header.rename]
  have hread := fragments_rename Function.injective_id h hf
  rwa [hheader, Fragment.rename_id, List.map_id] at hread

/-! ## A parameter under another name -/

/-- Under the renaming the fragment refers to the same as before: names that change are slots. -/
def KeepsReferences (π : String → String) (slots : List String) : Fragment → Prop
  | .word name => π name = name
  | .foreign owner object _ => π owner = owner ∧ π object = object
  | .call name args => π name = name ∧ ∀ arg ∈ args, arg ∈ slots ∨ π arg = arg
  | .text _ | .slot _ | .unknown _ => True

/-- A name that is a slot is found in three places: as a parameter, among the arguments of a
template, and as the object of a reference. **Only in the last is it not the slot that is meant.**
-/
theorem keepsReferences_of_mem {h : Header} {g : Fragment} {a c : String} (ha : a ∈ h.slots)
    (hargs : ∀ arg ∈ h.args, π arg = arg) (hπ : ∀ name, name ≠ a → name ≠ c → π name = name)
    (hc : ∀ t ∈ ts, t.kind = .name → t.text ≠ c)
    (hobject : ∀ owner inlined, .foreign owner a inlined ∉ fragments h ts)
    (hg : g ∈ fragments h ts) : KeepsReferences π h.slots g := by
  obtain ⟨run, rest, hsub, hrun⟩ := exists_run_of_mem hg
  have hkept : ∀ t ∈ run, t.kind = .name → t.text ≠ a → π t.text = t.text :=
    fun t ht hname hne => hπ _ hne (hc t (hsub.subset ht) hname)
  have hother : ∀ {name}, name ∉ h.slots → name ≠ a := by
    rintro name hnot rfl
    exact hnot ha
  cases hrun with
  | text => trivial
  | @word t _ ht hnone =>
    refine hkept t List.mem_cons_self ht (hother fun hslot => ?_)
    obtain ⟨i, hi⟩ := List.mem_iff_getElem?.1 hslot
    exact hnone [t] _ (.slot ht hi) (List.prefix_append [t] rest)
  | shape hs =>
    cases hs with
    | slot => trivial
    | @foreign name sep object inlined hname hnot _ hobj =>
      refine ⟨hkept name (by simp) hname (hother hnot), hkept object (by simp) hobj ?_⟩
      rintro rfl
      exact hobject _ _ hg
    | @call name opener closer inner args hname hnot _ hlisted _ =>
      refine ⟨hkept name (by simp) hname (hother hnot), fun arg harg => ?_⟩
      exact (hlisted.mem arg harg).imp_right (hargs arg)

end Body

namespace Param

@[simp] theorem slotNames_fresh (name : String) (params : List Param) :
    slotNames (fresh name :: params) = name :: slotNames params := rfl

@[simp] theorem slotNames_again (slot : Int) (params : List Param) :
    slotNames (again slot :: params) = slotNames params := rfl

theorem slotNames_ofNamesAfter_map {π : String → String} (hπ : Function.Injective π)
    (seen names : List String) : slotNames (ofNamesAfter (seen.map π) (names.map π)) =
      (slotNames (ofNamesAfter seen names)).map π := by
  have hidx : ∀ (seen : List String) (name : String),
      (seen.map π).idxOf? (π name) = seen.idxOf? name := by
    intro seen name
    simp only [List.idxOf?, List.findIdx?_map]
    congr 1
    funext other
    simp [hπ.eq_iff, beq_eq_beq]
  fun_induction ofNamesAfter seen names with
  | case1 => rfl
  | case2 seen name names i hi ih =>
    simp only [List.map_cons, ofNamesAfter, hidx, hi, slotNames_again, ih]
  | case3 seen name names hi ih =>
    rw [List.map_append, List.map_singleton] at ih
    simp only [List.map_cons, ofNamesAfter, hidx, hi, slotNames_fresh, ih]

theorem slotNames_ofNames_map {π : String → String} (hπ : Function.Injective π)
    (names : List String) :
    slotNames (ofNames (names.map π)) = (slotNames (ofNames names)).map π :=
  slotNames_ofNamesAfter_map hπ [] names

theorem mem_slotNames_ofNamesAfter {seen names : List String} {name : String} :
    name ∈ slotNames (ofNamesAfter seen names) ↔ name ∈ names ∧ name ∉ seen := by
  fun_induction ofNamesAfter seen names with
  | case1 => simp [slotNames]
  | case2 seen first names i hi ih =>
    have hseen : first ∈ seen := by
      by_contra hnot
      simp [List.idxOf?_eq_none_iff.2 hnot] at hi
    rw [slotNames_again, ih, List.mem_cons]
    grind
  | case3 seen first names hi ih =>
    have hseen : first ∉ seen := List.idxOf?_eq_none_iff.1 hi
    rw [slotNames_fresh, List.mem_cons, ih, List.mem_append, List.mem_cons]
    grind

/-- Every name has a slot. -/
theorem mem_slotNames_ofNames {names : List String} {name : String} :
    name ∈ slotNames (ofNames names) ↔ name ∈ names := by
  rw [ofNames, mem_slotNames_ofNamesAfter]
  simp

end Param

end MacroModules
