import Mathlib.Data.Finset.Card
import Mathlib.Data.List.Chain
import Mathlib.Logic.Relation
import MacroModules.Expansion.Object
import MacroModules.Proofs.Except

/-!
# How deep inlining goes

An object that is inlined may inline others in turn, without any measure that decreases. Expansion
therefore works with a limit on the depth. The limit is of no account as long as it is not below the
number of objects that there are to inline: the depth that an object needs does not depend on the
place where it is inlined, an object that needs `n + 1` levels inlines one that needs `n`, and so
the objects that need `0, 1, ..., n` levels are all different.

* `Scope.inlinable`: the references that lead to an object.
* `Result.Below`: a higher limit changes nothing but that it is met.
* `failure?_inlineAt`: whether and how an object fails does not depend on the place.
* `Scope.Raises`, `fragment_eq_error_iff`: why a fragment fails.
* `fragments_eq_error_iff`: a body fails at its first fragment that does.
* `exceeded_defineWith_iff`: so a limit is met at the first reference where it is.
* `HasDepth`, `exists_hasDepth`: the depth that an object needs, and the lower ones.
* `exceeded_of_card`, `define_eq`: **a definition that needs more levels than there are objects
  needs infinitely many**, and otherwise no limit from that number on makes a difference.
* `define_eq_defineWith`: so the lines of what is inlined are its lines without a limit.
* `Scope.Inlines`, `not_exceeded_of_acyclic`: this is so if no object inlines itself.
-/

namespace MacroModules.Expansion

/-! ## What there is to inline -/

namespace Scope

variable (s : Scope)

/-- The object that a reference leads to, which consists of the names of a module and of an object
in it. -/
def object? (p : String × String) : Option Definition :=
  (s.import? p.1).bind (·.object? p.2)

/-- The references that lead to an object. -/
def inlinable : Finset (String × String) :=
  (s.reachable.flatMap fun m => m.objects.map fun d => (m.name, d.name)).toFinset

/-- The first reference inlines the second: the object it leads to has it in its body, in order to
inline the object there. -/
def Inlines (p q : String × String) : Prop :=
  ∃ d, s.object? p = some d ∧ Fragment.foreign q.1 q.2 true ∈ d.body ∧ q ∈ s.inlinable

variable {s}

theorem object?_eq_some_iff {p : String × String} {d : Definition} :
    s.object? p = some d ↔ ∃ m, s.import? p.1 = some m ∧ m.object? p.2 = some d :=
  Option.bind_eq_some_iff

theorem name_of_import? {name : String} {m : Module} (h : s.import? name = some m) :
    m.name = name := by
  simpa using List.find?_some h

theorem mem_reachable {m : Module} : m ∈ s.reachable ↔ s.import? m.name = some m := by
  unfold reachable
  rw [List.mem_filterMap]
  constructor
  · rintro ⟨name, -, hm⟩
    rw [name_of_import? hm, hm]
  · intro hm
    have hname : m.name ∈ s.imports.map (·.name) :=
      List.mem_map_of_mem (List.mem_of_find?_eq_some hm)
    exact ⟨m.name, List.mem_eraseDups.2 hname, hm⟩

theorem mem_inlinable {p : String × String} : p ∈ s.inlinable ↔ ∃ d, s.object? p = some d := by
  unfold inlinable
  simp only [List.mem_toFinset, List.mem_flatMap, List.mem_map, mem_reachable,
    object?_eq_some_iff]
  constructor
  · rintro ⟨m, hm, d, hd, rfl⟩
    -- the first object of the name need not be this one
    have hfound : (m.object? d.name).isSome := by
      rw [Module.object?, List.find?_isSome]
      exact ⟨d, hd, beq_self_eq_true _⟩
    obtain ⟨e, he⟩ := Option.isSome_iff_exists.1 hfound
    exact ⟨e, m, hm, he⟩
  · rintro ⟨d, m, hm, hd⟩
    have hname : m.name = p.1 := name_of_import? hm
    have hobject : d.name = p.2 := by simpa using List.find?_some hd
    refine ⟨m, by rw [hname, hm], d, List.mem_of_find?_eq_some hd, ?_⟩
    rw [hname, hobject]

/-- Objects that share a module and a name are counted once. -/
theorem card_inlinable_le : s.inlinable.card ≤ s.inliningBound := by
  unfold inlinable inliningBound
  refine (List.toFinset_card_le _).trans (Nat.le_of_eq ?_)
  simp only [List.length_flatMap, List.length_map]

end Scope

/-! ## Limits on the depth -/

section

variable {α β : Type}

/-- The limit on the depth of inlining was met. -/
def Result.Exceeded (x : Result α) : Prop := x = .error (.stuck .endless)

/-- The outcomes are the same, unless the first one met its limit. -/
def Result.Below (x y : Result α) : Prop := x.Exceeded ∨ y = x

theorem Result.Below.refl (x : Result α) : x.Below x := .inr rfl

theorem Result.Below.trans {x y z : Result α} (hxy : x.Below y) (hyz : y.Below z) : x.Below z := by
  rcases hxy with hx | rfl
  · exact .inl hx
  · exact hyz

theorem Result.Below.eq {x y : Result α} (h : x.Below y) (hx : ¬ x.Exceeded) : y = x :=
  h.resolve_left hx

theorem Result.Below.exceeded {x y : Result α} (h : x.Below y) (hy : y.Exceeded) : x.Exceeded := by
  rcases h with hx | rfl
  · exact hx
  · exact hy

theorem Result.Below.bind {x y : Result α} {f g : α → Result β} (hxy : x.Below y)
    (hfg : ∀ a, (f a).Below (g a)) : Result.Below (x >>= f) (y >>= g) := by
  rcases hxy with hx | rfl
  · rw [hx]
    exact .inl rfl
  · cases y with
    | error e => exact .refl _
    | ok a => exact hfg a

theorem exceeded_within_iff {name : String} {x : Result α} :
    Result.Exceeded (within name x) ↔ x.Exceeded := by
  unfold Result.Exceeded
  rcases x with (e | i) | a <;> simp [Failure.within]

theorem exceeded_bind_iff {x : Result α} {f : α → Result β} :
    Result.Exceeded (x >>= f) ↔ x.Exceeded ∨ ∃ a, x = .ok a ∧ (f a).Exceeded :=
  bind_eq_error_iff

theorem Result.Below.within (name : String) {x y : Result α} (h : x.Below y) :
    Result.Below (within name x) (within name y) := by
  rcases h with hx | rfl
  · exact .inl (exceeded_within_iff.2 hx)
  · exact .refl _

end

variable {s : Scope} {inline inline' : Definition → Target → Result (List Define)}

/-- A reference inlines an object, or it does the same for every way of inlining and at every place,
without getting stuck. -/
theorem foreign_cases (s : Scope) (owner object : String) (inlined : Bool) :
    (∃ d, inlined = true ∧ s.object? (owner, object) = some d ∧
      ∀ inline name t, foreign inline s name t owner object inlined =
        (inline d ⟨t.inlineStem name owner, false, none⟩ >>= fun ds =>
          .ok (ds, t.inlineStem name owner))) ∨
    ∃ x, (∀ i, x ≠ .error (.stuck i)) ∧
      ∀ inline name t, foreign inline s name t owner object inlined = x := by
  cases hm : s.import? owner with
  | none =>
    refine .inr ⟨.error (.ofCause (.notImported owner)), nofun, fun inline name t => ?_⟩
    simp only [foreign, hm]
  | some m =>
    cases hd : m.object? object with
    | none =>
      refine .inr ⟨.error (.ofCause (.objectNotFound owner object)), nofun, fun inline name t => ?_⟩
      simp only [foreign, hm, hd]
    | some d =>
      cases inlined with
      | false =>
        refine .inr ⟨.ok ([], symbol owner object true), nofun, fun inline name t => ?_⟩
        simp only [foreign, hm, hd]
        rfl
      | true =>
        refine .inl ⟨d, rfl, Scope.object?_eq_some_iff.2 ⟨m, hm, hd⟩, fun inline name t => ?_⟩
        simp only [foreign, hm, hd]
        rfl

theorem below_fragment (h : ∀ d t, (inline d t).Below (inline' d t)) (name : String) (t : Target)
    (f : Fragment) : (fragment inline s name t f).Below (fragment inline' s name t f) := by
  cases f with
  | foreign owner object inlined =>
    rw [fragment, fragment]
    rcases foreign_cases s owner object inlined with ⟨d, -, -, hd⟩ | ⟨x, -, hx⟩
    · rw [hd, hd]
      exact (h _ _).bind fun ds => .refl _
    · rw [hx, hx]
      exact .refl _
  | text | slot | word | call | unknown => exact .refl _

theorem below_fragments (h : ∀ d t, (inline d t).Below (inline' d t)) (name : String) (t : Target)
    (fs : List Fragment) :
    (fragments inline s name t fs).Below (fragments inline' s name t fs) := by
  induction fs with
  | nil => exact .refl _
  | cons f fs ih =>
    rw [fragments, fragments]
    exact (below_fragment h name t f).bind fun x => ih.bind fun y => .refl _

theorem below_defineWith (h : ∀ d t, (inline d t).Below (inline' d t)) (d : Definition)
    (t : Target) : (defineWith inline s d t).Below (defineWith inline' s d t) := by
  unfold defineWith
  exact ((below_fragments h d.name t d.body).bind fun x => .refl _).within _

variable (s) in
/-- The lines of an object that is inlined, when so many more levels are allowed, its own among
them. -/
def inlineAt : Nat → Definition → Target → Result (List Define)
  | 0 => fun _ _ => .error (.stuck .endless)
  | n + 1 => defineAt s n

theorem defineAt_eq (n : Nat) : defineAt s n = defineWith (inlineAt s n) s := by
  cases n <;> rfl

theorem inlineAt_succ (n : Nat) : inlineAt s (n + 1) = defineWith (inlineAt s n) s :=
  defineAt_eq n

theorem below_inlineAt {n k : Nat} (h : n ≤ k) (d : Definition) (t : Target) :
    (inlineAt s n d t).Below (inlineAt s k d t) := by
  have hstep : ∀ n d t, (inlineAt s n d t).Below (inlineAt s (n + 1) d t) := by
    intro n
    induction n with
    | zero => exact fun d t => .inl rfl
    | succ n ih =>
      intro d t
      rw [inlineAt_succ n, inlineAt_succ (n + 1)]
      exact below_defineWith ih d t
  induction h with
  | refl => exact .refl _
  | step _ ih => exact ih.trans (hstep _ d t)

/-- **A higher limit changes nothing but that it is met.** -/
theorem below_defineAt {n k : Nat} (h : n ≤ k) (d : Definition) (t : Target) :
    (defineAt s n d t).Below (defineAt s k d t) :=
  below_inlineAt (Nat.succ_le_succ h) d t

/-! ## Places do not matter -/

section

variable {α β : Type}

/-- Why there is no result, if there is none. -/
def failure? (x : Result α) : Option Failure :=
  match x with
  | .ok _ => none
  | .error e => some e

theorem exceeded_iff {x : Result α} : x.Exceeded ↔ failure? x = some (.stuck .endless) := by
  cases x <;> simp [failure?, Result.Exceeded]

theorem failure?_bind {x y : Result α} {f g : α → Result β} (hxy : failure? x = failure? y)
    (hfg : ∀ a b, failure? (f a) = failure? (g b)) :
    failure? (x >>= f) = failure? (y >>= g) := by
  cases x with
  | error e =>
    cases y with
    | error e' => exact hxy
    | ok b => cases hxy
  | ok a =>
    cases y with
    | error e' => cases hxy
    | ok b => exact hfg a b

theorem failure?_within (name : String) {x y : Result α} (h : failure? x = failure? y) :
    failure? (within name x) = failure? (within name y) := by
  cases x <;> cases y <;> cases h <;> rfl

end

theorem failure?_fragment
    (h : ∀ d stem stem', failure? (inline d ⟨stem, false, none⟩) =
      failure? (inline d ⟨stem', false, none⟩))
    (name : String) {t t' : Target} (ht : t.binding = t'.binding) (f : Fragment) :
    failure? (fragment inline s name t f) = failure? (fragment inline s name t' f) := by
  cases f with
  | slot index => simp only [fragment, ht]
  | foreign owner object inlined =>
    rw [fragment, fragment]
    rcases foreign_cases s owner object inlined with ⟨d, -, -, hd⟩ | ⟨x, -, hx⟩
    · rw [hd, hd]
      exact failure?_bind (h _ _ _) fun _ _ => rfl
    · rw [hx, hx]
  | text | word | call | unknown => rfl

theorem failure?_defineWith
    (h : ∀ d stem stem', failure? (inline d ⟨stem, false, none⟩) =
      failure? (inline d ⟨stem', false, none⟩))
    (d : Definition) {t t' : Target} (ht : t.binding = t'.binding) :
    failure? (defineWith inline s d t) = failure? (defineWith inline s d t') := by
  have hfragments : ∀ fs, failure? (fragments inline s d.name t fs) =
      failure? (fragments inline s d.name t' fs) := by
    intro fs
    induction fs with
    | nil => rfl
    | cons f fs ih =>
      rw [fragments, fragments]
      exact failure?_bind (failure?_fragment h d.name ht f) fun _ _ =>
        failure?_bind ih fun _ _ => rfl
  unfold defineWith
  rw [ht]
  exact failure?_within _ (failure?_bind (hfragments d.body) fun _ _ => rfl)

/-- **An object fails in the same way wherever it is inlined.** The place only changes the stem of
its symbol, which control flow does not depend on. -/
theorem failure?_inlineAt (n : Nat) (d : Definition) (stem stem' : String) :
    failure? (inlineAt s n d ⟨stem, false, none⟩) =
      failure? (inlineAt s n d ⟨stem', false, none⟩) := by
  induction n generalizing d stem stem' with
  | zero => rfl
  | succ n ih =>
    rw [inlineAt_succ]
    exact failure?_defineWith ih d rfl

/-! ## Why a fragment fails -/

/-- The fragment cannot be expanded, for a reason that does not lie in what it inlines. -/
inductive Scope.Raises (s : Scope) (t : Target) : Fragment → Cause → Prop
  | notImported {owner object : String} {inlined : Bool} : s.import? owner = none →
      Raises s t (.foreign owner object inlined) (.notImported owner)
  | objectNotFound {owner object : String} {inlined : Bool} {k : Module} :
      s.import? owner = some k → k.object? object = none →
      Raises s t (.foreign owner object inlined) (.objectNotFound owner object)
  | noParameters {index : Int} : t.binding = none → Raises s t (.slot index) .noParameters
  | slotOutOfRange {index : Int} {b : Binding} : t.binding = some b → 0 ≤ index →
      b.value? index = none → Raises s t (.slot index) (.slotOutOfRange index b.length)

/-- **A fragment fails for a reason of its own, or because what it inlines does.** A slot that is
counted back beyond the first one is no error. -/
theorem fragment_eq_error_iff {name : String} {t : Target} {f : Fragment} {e : Failure} :
    fragment inline s name t f = .error e ↔
      (∃ cause, s.Raises t f cause ∧ e = .ofCause cause) ∨
      (∃ index b, f = .slot index ∧ t.binding = some b ∧ index < 0 ∧ b.value? index = none ∧
        e = .stuck .missingSlot) ∨
      ∃ p d, f = .foreign p.1 p.2 true ∧ s.object? p = some d ∧
        inline d ⟨t.inlineStem name p.1, false, none⟩ = .error e := by
  constructor
  · intro h
    cases f with
    | text | word | call | unknown => cases h
    | slot index =>
      rw [fragment] at h
      split at h
      · next hb =>
        cases h
        exact .inl ⟨_, .noParameters hb, rfl⟩
      next b hb =>
      split at h
      · cases h
      next hvalue =>
      split at h
      · next hindex =>
        cases h
        exact .inr (.inl ⟨index, b, rfl, hb, hindex, hvalue, rfl⟩)
      · next hindex =>
        cases h
        exact .inl ⟨_, .slotOutOfRange hb (by omega) hvalue, rfl⟩
    | foreign owner object inlined =>
      rw [fragment] at h
      unfold foreign at h
      split at h
      · next hk =>
        cases h
        exact .inl ⟨_, .notImported hk, rfl⟩
      next k hk =>
      split at h
      · next hd =>
        cases h
        exact .inl ⟨_, .objectNotFound hk hd, rfl⟩
      next d hd =>
      cases inlined with
      | false => cases h
      | true =>
        have hobject : s.object? (owner, object) = some d :=
          Scope.object?_eq_some_iff.2 ⟨k, hk, hd⟩
        exact .inr (.inr ⟨(owner, object), d, rfl, hobject, bind_pure_eq_error_iff.1 h⟩)
  · rintro (⟨cause, hraises, rfl⟩ | ⟨index, b, rfl, hb, hindex, hvalue, rfl⟩ | ⟨p, d, rfl, hp, h⟩)
    · cases hraises with
      | notImported hk => simp only [fragment, foreign, hk]
      | objectNotFound hk hd => simp only [fragment, foreign, hk, hd]
      | noParameters hb => simp only [fragment, hb]
      | slotOutOfRange hb hindex hvalue =>
        simp only [fragment, hb, hvalue, if_neg (Int.not_lt.2 hindex)]
    · simp only [fragment, hb, hvalue, if_pos hindex]
    · obtain ⟨k, hk, hd⟩ := Scope.object?_eq_some_iff.1 hp
      simp only [fragment, foreign, hk, hd]
      exact bind_pure_eq_error_iff.2 h

/-! ## One fragment after another -/

theorem fragments_eq_mapM (name : String) (t : Target) (fs : List Fragment) :
    fragments inline s name t fs = do
      let ys ← fs.mapM (fragment inline s name t)
      return ((ys.map (·.1)).reverse.flatten, String.join (ys.map (·.2))) := by
  induction fs with
  | nil => rfl
  | cons f fs ih =>
    rw [fragments, ih, List.mapM_cons]
    cases fragment inline s name t f with
    | error e => rfl
    | ok y =>
      cases fs.mapM (fragment inline s name t) with
      | error e => rfl
      | ok ys => simp [bind, pure, Except.bind, Except.pure]

theorem exists_fragments_eq_ok_iff {name : String} {t : Target} {fs : List Fragment} :
    (∃ y, fragments inline s name t fs = .ok y) ↔
      ∀ f ∈ fs, ∃ y, fragment inline s name t f = .ok y := by
  rw [← exists_mapM_eq_ok_iff, fragments_eq_mapM]
  constructor
  · rintro ⟨y, hy⟩
    obtain ⟨ys, hys, -⟩ := bind_eq_ok_iff.1 hy
    exact ⟨ys, hys⟩
  · rintro ⟨ys, hys⟩
    exact ⟨_, bind_eq_ok_iff.2 ⟨ys, hys, rfl⟩⟩

/-- **A body fails at its first fragment that does.** What comes behind it is not looked at. -/
theorem fragments_eq_error_iff {name : String} {t : Target} {fs : List Fragment} {e : Failure} :
    fragments inline s name t fs = .error e ↔ ∃ before f after, fs = before ++ f :: after ∧
      (∀ g ∈ before, ∃ y, fragment inline s name t g = .ok y) ∧
      fragment inline s name t f = .error e := by
  rw [fragments_eq_mapM, bind_pure_eq_error_iff, mapM_eq_error_iff]

/-! ## Where a limit is met -/

theorem exceeded_fragment_iff {name : String} {t : Target} {f : Fragment} :
    (fragment inline s name t f).Exceeded ↔ ∃ p d, f = .foreign p.1 p.2 true ∧
      s.object? p = some d ∧ (inline d ⟨t.inlineStem name p.1, false, none⟩).Exceeded := by
  unfold Result.Exceeded
  rw [fragment_eq_error_iff]
  constructor
  · rintro (⟨_, -, h⟩ | ⟨_, _, -, -, -, -, h⟩ | h)
    · cases h
    · cases h
    · exact h
  · exact fun h => .inr (.inr h)

theorem exceeded_fragments_iff {name : String} {t : Target} {fs : List Fragment} :
    (fragments inline s name t fs).Exceeded ↔ ∃ before p after d,
      fs = before ++ .foreign p.1 p.2 true :: after ∧
      (∃ x, fragments inline s name t before = .ok x) ∧ s.object? p = some d ∧
      (inline d ⟨t.inlineStem name p.1, false, none⟩).Exceeded := by
  constructor
  · intro h
    obtain ⟨before, f, after, rfl, hbefore, hf⟩ := fragments_eq_error_iff.1 h
    obtain ⟨p, d, rfl, hp, hd⟩ := exceeded_fragment_iff.1 hf
    exact ⟨before, p, after, d, rfl, exists_fragments_eq_ok_iff.2 hbefore, hp, hd⟩
  · rintro ⟨before, p, after, d, rfl, hbefore, hp, hd⟩
    have hf := exceeded_fragment_iff.2 ⟨p, d, rfl, hp, hd⟩
    exact fragments_eq_error_iff.2
      ⟨before, _, after, rfl, exists_fragments_eq_ok_iff.1 hbefore, hf⟩

/-- **A limit is met at the first reference where it is.** -/
theorem exceeded_defineWith_iff {d : Definition} {t : Target} :
    (defineWith inline s d t).Exceeded ↔ ∃ before p after e,
      d.body = before ++ .foreign p.1 p.2 true :: after ∧
      (∃ x, fragments inline s d.name t before = .ok x) ∧ s.object? p = some e ∧
      (inline e ⟨t.inlineStem d.name p.1, false, none⟩).Exceeded := by
  rw [← exceeded_fragments_iff, defineWith, exceeded_within_iff, exceeded_bind_iff]
  constructor
  · rintro (h | ⟨x, -, h⟩)
    · exact h
    · cases h
  · exact .inl

/-! ## The depth that an object needs -/

variable (s) in
/-- Inlining the object takes exactly so many levels below its own. -/
def HasDepth (n : Nat) (d : Definition) : Prop :=
  (inlineAt s n d ⟨"", false, none⟩).Exceeded ∧ ¬ (inlineAt s (n + 1) d ⟨"", false, none⟩).Exceeded

theorem HasDepth.le {n k : Nat} {d : Definition} (hn : HasDepth s n d) (hk : HasDepth s k d) :
    n ≤ k := by
  by_contra hlt
  have hbelow := below_inlineAt (s := s) (show k + 1 ≤ n by omega) d ⟨"", false, none⟩
  exact hk.2 (hbelow.exceeded hn.1)

theorem HasDepth.unique {n k : Nat} {d : Definition} (hn : HasDepth s n d) (hk : HasDepth s k d) :
    n = k :=
  Nat.le_antisymm (hn.le hk) (hk.le hn)

/-- A definition that needs one more level than `n` inlines an object that needs `n`. -/
theorem exists_hasDepth_of_needs {n : Nat} {d : Definition} {t : Target}
    (h : (defineAt s n d t).Exceeded) (h' : ¬ (defineAt s (n + 1) d t).Exceeded) :
    ∃ p e, s.object? p = some e ∧ HasDepth s n e := by
  rw [defineAt_eq] at h h'
  obtain ⟨before, p, after, e, hbody, ⟨x, hx⟩, hp, he⟩ := exceeded_defineWith_iff.1 h
  -- with one more level, the fragments in front of the reference have the same outcome
  have hx' : fragments (inlineAt s (n + 1)) s d.name t before = .ok x := by
    have hmore := below_inlineAt (s := s) (Nat.le_succ n)
    have hbelow := below_fragments (s := s) hmore d.name t before
    rw [hbelow.eq (by rw [hx]; exact nofun), hx]
  -- so that the reference is met again, and does not meet the limit this time
  have he' : ¬ (inlineAt s (n + 1) e ⟨t.inlineStem d.name p.1, false, none⟩).Exceeded :=
    fun hexceeded => h' (exceeded_defineWith_iff.2
      ⟨before, p, after, e, hbody, ⟨x, hx'⟩, hp, hexceeded⟩)
  refine ⟨p, e, hp, ?_, ?_⟩
  · rwa [exceeded_iff, failure?_inlineAt n e _ (t.inlineStem d.name p.1), ← exceeded_iff]
  · rwa [exceeded_iff, failure?_inlineAt (n + 1) e _ (t.inlineStem d.name p.1), ← exceeded_iff]

theorem exists_hasDepth {n : Nat} {d : Definition} {t : Target} (h : (defineAt s n d t).Exceeded)
    (h' : ¬ (defineAt s (n + 1) d t).Exceeded) {k : Nat} (hk : k ≤ n) :
    ∃ p e, s.object? p = some e ∧ HasDepth s k e := by
  -- the object found for depth `n` is itself a definition that needs one more level than `n - 1`
  induction n generalizing d t with
  | zero =>
    obtain rfl : k = 0 := by omega
    exact exists_hasDepth_of_needs h h'
  | succ n ih =>
    obtain ⟨p, e, hp, he⟩ := exists_hasDepth_of_needs h h'
    rcases Nat.eq_or_lt_of_le hk with rfl | hlt
    · exact ⟨p, e, hp, he⟩
    · exact ih he.1 he.2 (Nat.le_of_lt_succ hlt)

/-- **Depth is bounded by the number of objects**, since those of different depths are different. -/
theorem lt_card_of_needs {n : Nat} {d : Definition} {t : Target} (h : (defineAt s n d t).Exceeded)
    (h' : ¬ (defineAt s (n + 1) d t).Exceeded) : n < s.inlinable.card := by
  by_contra hle
  -- a reference for each of the levels `0, ..., n`, which are more than there are references
  have hlevels : ∀ k, ∃ p, k ≤ n → ∃ e, s.object? p = some e ∧ HasDepth s k e := by
    intro k
    by_cases hk : k ≤ n
    · obtain ⟨p, e, hp, he⟩ := exists_hasDepth h h' hk
      exact ⟨p, fun _ => ⟨e, hp, he⟩⟩
    · exact ⟨("", ""), fun hk' => absurd hk' hk⟩
  choose level hlevel using hlevels
  have hmaps : Set.MapsTo level (Finset.range (n + 1)) s.inlinable := by
    intro k hk
    have hk : k ≤ n := by simpa [Nat.lt_succ_iff] using hk
    obtain ⟨e, he, -⟩ := hlevel k hk
    exact Scope.mem_inlinable.2 ⟨e, he⟩
  have hcard : s.inlinable.card < (Finset.range (n + 1)).card := by
    rw [Finset.card_range]
    omega
  obtain ⟨i, hi, j, hj, hij, heq⟩ := Finset.exists_ne_map_eq_of_card_lt_of_maps_to hcard hmaps
  rw [Finset.mem_range] at hi hj
  -- the same reference for two levels leads to one object, which has one depth
  obtain ⟨e, he, hei⟩ := hlevel i (by omega)
  obtain ⟨e', he', hej⟩ := hlevel j (by omega)
  rw [heq, he', Option.some_inj] at he
  rw [he] at hej
  exact hij (hei.unique hej)

/-! ## Limits that make no difference -/

/-- **A definition that needs more levels than there are objects needs infinitely many.** -/
theorem exceeded_of_card {d : Definition} {t : Target}
    (h : (defineAt s s.inlinable.card d t).Exceeded) (n : Nat) : (defineAt s n d t).Exceeded := by
  rcases Nat.le_total n s.inlinable.card with hle | hle
  · exact (below_defineAt hle d t).exceeded h
  · induction hle with
    | refl => exact h
    | @step n hle ih =>
      by_contra h'
      -- a first limit that suffices is at most the number of objects
      have hlt := lt_card_of_needs ih h'
      have hle : s.inlinable.card ≤ n := hle
      omega

/-- From the number of objects on, all limits have the same effect. -/
theorem defineAt_eq_of_card_le {n : Nat} (h : s.inlinable.card ≤ n) (d : Definition) (t : Target) :
    defineAt s n d t = defineAt s s.inlinable.card d t := by
  by_cases hexceeded : (defineAt s s.inlinable.card d t).Exceeded
  · rw [hexceeded, exceeded_of_card hexceeded n]
  · exact (below_defineAt h d t).eq hexceeded

/-- **The lines of a definition are those found without a limit that matters.** -/
theorem define_eq (d : Definition) (t : Target) :
    define s d t = defineAt s s.inlinable.card d t := by
  unfold define
  split
  · exact defineAt_eq_of_card_le Scope.card_inlinable_le d t
  · next hshallow =>
    -- a shallow limit that suffices may be below the number of objects
    have hne : ¬ (defineAt s shallow d t).Exceeded := hshallow
    rcases Nat.le_total shallow s.inlinable.card with hle | hle
    · exact ((below_defineAt hle d t).eq hne).symm
    · exact defineAt_eq_of_card_le hle d t

theorem below_define (n : Nat) (d : Definition) (t : Target) :
    (inlineAt s n d t).Below (define s d t) := by
  cases n with
  | zero => exact .inl rfl
  | succ n =>
    rw [define_eq]
    rcases Nat.le_total n s.inlinable.card with hle | hle
    · exact below_defineAt hle d t
    · exact .inr (defineAt_eq_of_card_le hle d t).symm

/-- **What is inlined has the lines that it has by itself.** -/
theorem define_eq_defineWith (d : Definition) (t : Target) :
    define s d t = defineWith (define s) s d t := by
  have hinline : define s = inlineAt s (s.inlinable.card + 1) := by
    funext d t
    exact define_eq d t
  calc define s d t
      = defineAt s (s.inlinable.card + 1) d t := by
        rw [define_eq, defineAt_eq_of_card_le (Nat.le_succ _)]
    _ = defineWith (define s) s d t := by rw [defineAt_eq, hinline]

/-! ## Objects that do not inline themselves -/

/-- If a limit is met then it is by a chain of references as long as the limit allows. -/
theorem exists_chain_of_exceeded {n : Nat} {p : String × String} {d : Definition} {stem : String}
    (hp : s.object? p = some d) (h : (inlineAt s n d ⟨stem, false, none⟩).Exceeded) :
    ∃ ps, ps.length = n ∧ List.IsChain s.Inlines (p :: ps) ∧ ∀ q ∈ p :: ps, q ∈ s.inlinable := by
  have hmem : p ∈ s.inlinable := Scope.mem_inlinable.2 ⟨d, hp⟩
  induction n generalizing p d stem with
  | zero => exact ⟨[], rfl, .singleton p, by simpa using hmem⟩
  | succ n ih =>
    rw [inlineAt_succ] at h
    obtain ⟨before, q, after, e, hbody, -, hq, he⟩ := exceeded_defineWith_iff.1 h
    have hqmem : q ∈ s.inlinable := Scope.mem_inlinable.2 ⟨e, hq⟩
    obtain ⟨ps, hlength, hchain, hps⟩ := ih hq he hqmem
    have hinlines : s.Inlines p q := ⟨d, hp, by rw [hbody]; simp, hqmem⟩
    refine ⟨q :: ps, by rw [List.length_cons, hlength], .cons_cons hinlines hchain, ?_⟩
    exact List.forall_mem_cons.2 ⟨hmem, hps⟩

/-- **Inlining ends if no object inlines itself**, directly or through others. -/
theorem not_exceeded_of_acyclic (h : ∀ p, ¬ Relation.TransGen s.Inlines p p) (d : Definition)
    (t : Target) : ¬ (defineAt s s.inlinable.card d t).Exceeded := by
  intro hexceeded
  rw [defineAt_eq] at hexceeded
  obtain ⟨_, p, _, e, _, _, hp, he⟩ := exceeded_defineWith_iff.1 hexceeded
  obtain ⟨ps, hlength, hchain, hmem⟩ := exists_chain_of_exceeded hp he
  -- along a chain every reference reaches all those behind it, so no two are the same
  have hnodup : (p :: ps).Nodup := by
    have hreach : List.IsChain (Relation.TransGen s.Inlines) (p :: ps) :=
      hchain.imp fun _ _ => Relation.TransGen.single
    refine (List.isChain_iff_pairwise.1 hreach).imp ?_
    rintro a b hab rfl
    exact h a hab
  have hcard : (p :: ps).toFinset.card ≤ s.inlinable.card :=
    Finset.card_le_card fun q hq => hmem q (List.mem_toFinset.1 hq)
  rw [List.toFinset_card_of_nodup hnodup, List.length_cons, hlength] at hcard
  omega

/-! ## Ways to get stuck -/

/-- Getting stuck for another reason than depth takes a value for a negative slot. -/
def Impasse.OfSlot (t : Target) (fs : List Fragment) (i : Impasse) : Prop :=
  i = .missingSlot ∧ t.binding.isSome ∧ ∃ index < 0, Fragment.slot index ∈ fs

theorem stuck_fragment
    (h : ∀ d stem i, inline d ⟨stem, false, none⟩ = .error (.stuck i) → i = .endless)
    {name : String} {t : Target} {f : Fragment} {i : Impasse}
    (hi : fragment inline s name t f = .error (.stuck i)) : i = .endless ∨ i.OfSlot t [f] := by
  rcases fragment_eq_error_iff.1 hi with
    ⟨_, -, hcause⟩ | ⟨index, b, rfl, hb, hneg, -, hstuck⟩ | ⟨p, d, -, -, hd⟩
  · cases hcause
  · cases hstuck
    exact .inr ⟨rfl, by rw [hb]; rfl, index, hneg, List.mem_singleton_self _⟩
  · exact .inl (h _ _ i hd)

theorem stuck_fragments
    (h : ∀ d stem i, inline d ⟨stem, false, none⟩ = .error (.stuck i) → i = .endless)
    {name : String} {t : Target} {fs : List Fragment} {i : Impasse}
    (hi : fragments inline s name t fs = .error (.stuck i)) : i = .endless ∨ i.OfSlot t fs := by
  obtain ⟨before, f, after, rfl, -, hf⟩ := fragments_eq_error_iff.1 hi
  rcases stuck_fragment h hf with hend | ⟨hslot, hbound, index, hneg, hmem⟩
  · exact .inl hend
  · obtain rfl := List.mem_singleton.1 hmem
    exact .inr ⟨hslot, hbound, index, hneg, List.mem_append_right _ List.mem_cons_self⟩

theorem stuck_defineWith
    (h : ∀ d stem i, inline d ⟨stem, false, none⟩ = .error (.stuck i) → i = .endless)
    {d : Definition} {t : Target} {i : Impasse} (hi : defineWith inline s d t = .error (.stuck i)) :
    i = .endless ∨ i.OfSlot t d.body := by
  unfold defineWith within at hi
  cases hx : fragments inline s d.name t d.body with
  | ok x => rw [hx] at hi; cases hi
  | error e =>
    rw [hx] at hi
    cases e with
    | error e => cases hi
    | stuck j => cases hi; exact stuck_fragments h hx

/-- An object that is inlined has no values, so that a slot in it is an error. -/
theorem stuck_inlineAt (n : Nat) {d : Definition} {stem : String} {i : Impasse}
    (h : inlineAt s n d ⟨stem, false, none⟩ = .error (.stuck i)) : i = .endless := by
  induction n generalizing d stem i with
  | zero => cases h; rfl
  | succ n ih =>
    rw [inlineAt_succ] at h
    rcases stuck_defineWith (fun _ _ _ => ih) h with hend | ⟨-, hbound, -⟩
    · exact hend
    · cases hbound

/-- **Inlining ends within a depth that can be computed, or never.** The depth is the number of
references that lead to an object, each counted once. If it does not suffice then no depth does, and
otherwise every greater depth has the same outcome. That outcome is what `define` finds. It is never
the limit if no object inlines itself: then there are lines or there is an error, provided that no
slot of the definition has a negative number. -/
theorem inlining_ends_or_never (s : Scope) (d : Definition) (t : Target) :
    (∀ p, p ∈ s.inlinable ↔ ∃ m e, s.import? p.1 = some m ∧ m.object? p.2 = some e) ∧
    ((defineAt s s.inlinable.card d t).Exceeded → ∀ n, (defineAt s n d t).Exceeded) ∧
    (¬ (defineAt s s.inlinable.card d t).Exceeded → ∀ n, s.inlinable.card ≤ n →
      defineAt s n d t = defineAt s s.inlinable.card d t) ∧
    define s d t = defineAt s s.inlinable.card d t ∧
    ((∀ p, ¬ Relation.TransGen s.Inlines p p) →
      (∃ ds, define s d t = .ok ds) ∨ (∃ e, define s d t = .error (.error e)) ∨
        define s d t = .error (.stuck .missingSlot) ∧
          ∃ index < 0, Fragment.slot index ∈ d.body) := by
  refine ⟨fun p => ?_, exceeded_of_card, fun _ n hn => defineAt_eq_of_card_le hn d t,
    define_eq d t, fun hacyclic => ?_⟩
  · rw [Scope.mem_inlinable]
    simp only [Scope.object?_eq_some_iff]
    exact exists_comm
  · have hends := not_exceeded_of_acyclic hacyclic d t
    rw [define_eq]
    cases hx : defineAt s s.inlinable.card d t with
    | ok ds => exact .inl ⟨ds, rfl⟩
    | error e =>
      cases e with
      | error e => exact .inr (.inl ⟨e, rfl⟩)
      | stuck i =>
        rw [defineAt_eq] at hx
        rcases stuck_defineWith (fun _ _ _ => stuck_inlineAt _) hx with rfl | ⟨rfl, -, hslot⟩
        · rw [← defineAt_eq] at hx
          exact absurd hx hends
        · exact .inr (.inr ⟨rfl, hslot⟩)

/-- One object inlines another, and then two levels are enough. One inlines itself, and then no
number of levels is. -/
theorem inlining_ends_or_never_chain_loop :
    let scope (body : List Statement) : Scope :=
      ⟨⟨"M", [], 1, ⟨⟨1, 2, 1⟩, ⟨1, 3, 2⟩⟩⟩, [⟨"N", body, 1, ⟨⟨1, 2, 1⟩, ⟨1, 3, 2⟩⟩⟩], []⟩
    let chain := scope [.object ⟨"A", [.foreign "N" "B" true]⟩, .object ⟨"B", [.text " 1"]⟩]
    let loop := scope [.object ⟨"A", [.foreign "N" "A" true]⟩]
    let d : Definition := ⟨"X", [.foreign "N" "A" true]⟩
    let t : Target := ⟨"M", true, none⟩
    (chain.inlinable = {("N", "A"), ("N", "B")} ∧ (∀ p, ¬ Relation.TransGen chain.Inlines p p) ∧
      ¬ (defineAt chain chain.inlinable.card d t).Exceeded ∧
      (∀ n, 2 ≤ n → defineAt chain n d t = defineAt chain 2 d t) ∧
      ((∃ ds, define chain d t = .ok ds) ∨ (∃ e, define chain d t = .error (.error e)) ∨
        define chain d t = .error (.stuck .missingSlot) ∧
          ∃ index < 0, Fragment.slot index ∈ d.body)) ∧
    loop.inlinable.card = 1 ∧ (defineAt loop loop.inlinable.card d t).Exceeded ∧
      ∀ n, (defineAt loop n d t).Exceeded := by
  intro scope chain loop d t
  have hchain : chain.inlinable = {("N", "A"), ("N", "B")} := by decide +kernel
  have hloop : loop.inlinable.card = 1 := by decide +kernel
  have hends : defineAt chain chain.inlinable.card d t ≠ .error (.stuck .endless) := by
    decide +kernel
  have hnever : defineAt loop loop.inlinable.card d t = .error (.stuck .endless) := by
    decide +kernel
  have hstep : ∀ p q, chain.Inlines p q → p.2 = "A" ∧ q.2 = "B" := by
    rintro p q ⟨e, hp, hbody, -⟩
    have hmem := Scope.mem_inlinable.2 ⟨e, hp⟩
    rw [hchain, Finset.mem_insert, Finset.mem_singleton] at hmem
    rcases hmem with rfl | rfl
    · have he : e = ⟨"A", [.foreign "N" "B" true]⟩ := Option.some_inj.1 (hp.symm.trans rfl)
      rw [he, List.mem_singleton, Fragment.foreign.injEq] at hbody
      exact ⟨rfl, hbody.2.1⟩
    · have he : e = ⟨"B", [.text " 1"]⟩ := Option.some_inj.1 (hp.symm.trans rfl)
      rw [he, List.mem_singleton] at hbody
      cases hbody
  have hacyclic : ∀ p, ¬ Relation.TransGen chain.Inlines p p := by
    intro p hp
    obtain ⟨q, hfirst, -⟩ := Relation.TransGen.head'_iff.1 hp
    obtain ⟨r, -, hlast⟩ := Relation.TransGen.tail'_iff.1 hp
    have hname := (hstep p q hfirst).1.symm.trans (hstep r p hlast).2
    exact absurd hname (by decide)
  obtain ⟨-, -, hsame, -, hresult⟩ := inlining_ends_or_never chain d t
  obtain ⟨-, hexceeded, -⟩ := inlining_ends_or_never loop d t
  exact ⟨⟨hchain, hacyclic, hends, hsame hends, hresult hacyclic⟩, hloop, hnever,
    hexceeded hnever⟩

end MacroModules.Expansion
