import Mathlib.Algebra.BigOperators.Ring.Finset
import MacroModules.Expansion.Object
import MacroModules.Proofs.Except

/-!
# All choices of values

A template is instantiated for all choices of one value from each of its ranges. The choices are
those of a product, in the order of a dictionary, and each of them is met once.

* `tuples`: all choices, the first value varying slowest.
* `mem_tuples`, `pairwise_tuples`, `length_tuples`: which these are, their order and their number.
* `product_eq`: **a product goes through all choices in this order**, up to the first that fails.
* `exists_mapM_layOut_iff`: ranges can be laid out unless one of them is too large.
* `Template.target`, `instances_eq`: the same for the instances of a template.
-/

namespace MacroModules

namespace Interval

variable {r : Interval}

theorem mem_toList {v : Int} : v ∈ r.toList ↔ r.lo ≤ v ∧ v ≤ r.hi := by
  simp only [toList, size, List.mem_map, List.mem_range]
  constructor
  · rintro ⟨i, hi, rfl⟩
    omega
  · rintro ⟨hlo, hhi⟩
    exact ⟨(v - r.lo).toNat, by omega, by omega⟩

theorem pairwise_toList (r : Interval) : r.toList.Pairwise (· < ·) := by
  rw [toList, List.pairwise_map]
  refine List.pairwise_lt_range.imp fun h => ?_
  omega

theorem length_toList (r : Interval) : (r.toList.length : Int) = max 0 (r.hi - r.lo + 1) := by
  simp only [toList, size, List.length_map, List.length_range]
  omega

end Interval

namespace Expansion

/-! ## Choices -/

/-- All choices of one value from each list, the first value varying slowest. -/
def tuples : List (List Int) → List (List Int)
  | [] => [[]]
  | vs :: rest => vs.flatMap fun v => (tuples rest).map (v :: ·)

theorem mem_tuples {choices : List (List Int)} {values : List Int} :
    values ∈ tuples choices ↔ List.Forall₂ (· ∈ ·) values choices := by
  induction choices generalizing values with
  | nil => simp [tuples]
  | cons vs rest ih =>
    simp only [tuples, List.mem_flatMap, List.mem_map, List.forall₂_cons_right_iff, ih]
    constructor
    · rintro ⟨v, hv, ws, hws, rfl⟩
      exact ⟨v, ws, hv, hws, rfl⟩
    · rintro ⟨v, ws, hv, hws, rfl⟩
      exact ⟨v, hv, ws, hws, rfl⟩

/-- Choices from lists in increasing order are in the order of a dictionary. -/
theorem pairwise_tuples {choices : List (List Int)}
    (h : ∀ vs ∈ choices, vs.Pairwise (· < ·)) : (tuples choices).Pairwise (· < ·) := by
  induction choices with
  | nil => exact List.pairwise_singleton _ _
  | cons vs rest ih =>
    obtain ⟨hvs, hrest⟩ := List.forall_mem_cons.1 h
    rw [tuples, List.pairwise_flatMap]
    refine ⟨fun v _ => ?_, hvs.imp fun hvw => ?_⟩
    · -- the first values are the same, so the others decide
      rw [List.pairwise_map]
      exact (ih hrest).imp fun hlt => List.cons_lt_cons_iff.2 (.inr ⟨rfl, hlt⟩)
    · intro x hx y hy
      obtain ⟨xs, -, rfl⟩ := List.mem_map.1 hx
      obtain ⟨ys, -, rfl⟩ := List.mem_map.1 hy
      exact List.cons_lt_cons_iff.2 (.inl hvw)

theorem length_tuples (choices : List (List Int)) :
    (tuples choices).length = (choices.map List.length).prod := by
  induction choices with
  | nil => rfl
  | cons vs rest ih => simp [tuples, ih]

/-! ## Products -/

/-- **A product goes through all choices**, in order and up to the first that fails. -/
theorem product_eq {α : Type} (choices : List (List Int)) (f : List Int → Result (List α)) :
    product choices f = (tuples choices).mapM f >>= fun parts => .ok parts.flatten := by
  induction choices generalizing f with
  | nil =>
    rw [product, tuples, List.mapM_cons, List.mapM_nil]
    cases f [] with
    | error e => rfl
    | ok xs => exact congrArg Except.ok (List.append_nil xs).symm
  | cons vs rest ih =>
    rw [product, tuples]
    -- each first value has its stretch of choices, and the stretches follow each other
    induction vs with
    | nil => rfl
    | cons v vs ihvs =>
      have hfirst : ((tuples rest).map (v :: ·)).mapM f =
          (tuples rest).mapM fun ws => f (v :: ws) :=
        List.mapM_map
      rw [List.mapM_cons, List.flatMap_cons, List.mapM_append, hfirst, ih]
      revert ihvs
      generalize (vs.flatMap fun v => (tuples rest).map (v :: ·)).mapM f = later
      generalize (vs.mapM fun v => product rest fun ws => f (v :: ws)) = results
      intro ihvs
      cases (tuples rest).mapM fun ws => f (v :: ws) with
      | error e => rfl
      | ok parts =>
        cases later with
        | error e =>
          cases results with
          | error e' => exact ihvs
          | ok _ => cases ihvs
        | ok parts' =>
          cases results with
          | error _ => cases ihvs
          | ok results' =>
            have hrest : results'.flatten = parts'.flatten := Except.ok.inj ihvs
            refine congrArg Except.ok ?_
            rw [List.flatten_cons, hrest, List.flatten_append]

/-! ## Instances -/

end Expansion

/-- Under which symbol a template is expanded in a module, with these values. -/
def Template.target (t : Template) (owner : String) (values : List Int) : Expansion.Target :=
  ⟨owner, true, some (t.slotNames.zip values)⟩

namespace Expansion

/-- The choices that a range per slot allows. -/
def rangeTuples (ranges : List Interval) : List (List Int) := tuples (ranges.map Interval.toList)

theorem mem_rangeTuples {ranges : List Interval} {values : List Int} :
    values ∈ rangeTuples ranges ↔
      List.Forall₂ (fun v r => r.lo ≤ v ∧ v ≤ r.hi) values ranges := by
  simp only [rangeTuples, mem_tuples, List.forall₂_map_right_iff, Interval.mem_toList]

theorem length_of_mem_rangeTuples {ranges : List Interval} {values : List Int}
    (h : values ∈ rangeTuples ranges) : values.length = ranges.length :=
  (mem_rangeTuples.1 h).length_eq

theorem pairwise_rangeTuples (ranges : List Interval) :
    (rangeTuples ranges).Pairwise (· < ·) := by
  refine pairwise_tuples fun vs hvs => ?_
  obtain ⟨r, -, rfl⟩ := List.mem_map.1 hvs
  exact r.pairwise_toList

theorem length_rangeTuples (ranges : List Interval) : ((rangeTuples ranges).length : Int) =
    (ranges.map fun r => max 0 (r.hi - r.lo + 1)).prod := by
  rw [rangeTuples, length_tuples, Nat.cast_list_prod, List.map_map, List.map_map]
  refine congrArg List.prod (List.map_congr_left fun r _ => ?_)
  exact r.length_toList

theorem rangeTuples_eq_nil {ranges : List Interval} {r : Interval} (hr : r ∈ ranges)
    (hempty : r.hi < r.lo) : rangeTuples ranges = [] := by
  refine List.eq_nil_iff_forall_not_mem.2 fun values hvalues => ?_
  obtain ⟨v, -, hv⟩ := exists_of_mem_left (mem_rangeTuples.1 hvalues).flip hr
  omega

theorem layOut_eq_ok_iff {r : Interval} {vs : List Int} :
    layOut r = .ok vs ↔ r.size < countLimit ∧ vs = r.toList := by
  unfold layOut
  split
  · simp
    omega
  · next hsize =>
    constructor
    · rintro ⟨⟩
      exact ⟨by omega, rfl⟩
    · rintro ⟨-, rfl⟩
      rfl

/-- Ranges can be laid out unless one of them is too large. -/
theorem exists_mapM_layOut_iff {ranges : List Interval} :
    (∃ choices, ranges.mapM layOut = .ok choices) ↔ ∀ r ∈ ranges, r.size < countLimit := by
  simp only [exists_mapM_eq_ok_iff, layOut_eq_ok_iff]
  exact forall₂_congr fun r _ => ⟨fun ⟨_, h, _⟩ => h, fun h => ⟨_, h, rfl⟩⟩

theorem mapM_layOut_eq_ok {ranges : List Interval} {choices : List (List Int)}
    (h : ranges.mapM layOut = .ok choices) : choices = ranges.map Interval.toList := by
  have hchoices := mapM_eq_ok_iff.1 h
  refine List.forall₂_eq_eq_eq ▸ ?_
  rw [List.forall₂_map_right_iff]
  exact (hchoices.imp fun _ _ h => (layOut_eq_ok_iff.1 h).2).flip

/-- **The instances of a template**, once it has been found and the ranges have been counted: the
ranges are laid out, and then there is one expansion for each choice, up to the first that fails. -/
theorem instances_eq {s : Scope} {name : String} {t : Template} {ranges : List Interval}
    (ht : s.template? name = some t) (hcount : ranges.length = t.slotNames.length) :
    instances s name ranges = ranges.mapM layOut >>= fun _ =>
      (rangeTuples ranges).mapM (fun values => define s t.definition (t.target s.owner.name values))
        >>= fun parts => .ok parts.flatten := by
  unfold instances
  rw [ht]
  dsimp only
  rw [if_pos hcount]
  cases hlaid : ranges.mapM layOut with
  | error e => rfl
  | ok choices =>
    rw [mapM_layOut_eq_ok hlaid]
    exact product_eq _ _

theorem instances_eq_ok_iff {s : Scope} {name : String} {ranges : List Interval}
    {ds : List Define} : instances s name ranges = .ok ds ↔ ∃ t choices parts,
      s.template? name = some t ∧ ranges.length = t.slotNames.length ∧
      ranges.mapM layOut = .ok choices ∧
      List.Forall₂
        (fun values part => define s t.definition (t.target s.owner.name values) = .ok part)
        (rangeTuples ranges) parts ∧ ds = parts.flatten := by
  constructor
  · intro h
    have hinstances := h
    unfold instances at h
    split at h
    · cases h
    next t ht =>
    split at h
    · next hcount =>
      rw [instances_eq ht hcount] at hinstances
      obtain ⟨choices, hchoices, hinstances⟩ := bind_eq_ok_iff.1 hinstances
      obtain ⟨parts, hparts, hinstances⟩ := bind_eq_ok_iff.1 hinstances
      exact ⟨t, choices, parts, ht, hcount, hchoices, mapM_eq_ok_iff.1 hparts,
        (Except.ok.inj hinstances).symm⟩
    · cases h
  · rintro ⟨t, choices, parts, ht, hcount, hchoices, hparts, rfl⟩
    rw [instances_eq ht hcount]
    exact bind_eq_ok_iff.2 ⟨choices, hchoices,
      bind_eq_ok_iff.2 ⟨parts, mapM_eq_ok_iff.2 hparts, rfl⟩⟩

end Expansion

end MacroModules
