import MacroModules.Proofs.Expansion.Agree
import MacroModules.Proofs.Expansion.Steps

/-!
# More in scope

The scope of a module grows from statement to statement. Whatever is looked up in it is the first of
its name, so that what has been found once is found again, and the lines that were made from it are
made again. A statement that makes lines may therefore be moved down: past imports, templates and
comments, and past any definition that has not got its name.

* `Scope.Grows`: more imports and templates behind those that there are.
* `Result.KeptBy`: what has succeeded succeeds again, with the same result.
* `keptBy_fragment`, `keptBy_inlineAt`, `keptBy_define`: a fragment, and from it definitions, at any
  depth of inlining.
* `statement_of_grows`: statements that make lines.
* `perform`, `run_perform`, `run_mapM_perform`: statements on a scope that is changed in place, and
  what they leave of it when they fail.
* `statements_append`: a run of statements in two parts.
* `Module.Moved`, `Module.Moved.agree`: a module with one statement moved down.
* `growth_keeps_lines`: **more in scope does not change what there is already**.
-/

namespace MacroModules

/-- The statement is there for the lines it makes, and adds nothing to the scope. -/
def Statement.MakesLines : Statement → Prop
  | object _ | exported _ | instances _ _ => True
  | template _ | imports _ | comment _ | unknown _ => False

namespace Expansion

/-! ## Scopes -/

/-- The second scope has all that the first one has, in the same order, and may have more behind
it. -/
structure Scope.Grows (s t : Scope) : Prop where
  owner : t.owner = s.owner
  imports : s.imports <+: t.imports
  templates : s.templates <+: t.templates

namespace Scope.Grows

variable {s t : Scope} (h : s.Grows t)

include h

theorem import? {name : String} {m : Module} (hm : s.import? name = some m) :
    t.import? name = some m :=
  h.imports.find?_eq_some hm

theorem template? {name : String} {e : Template} (he : s.template? name = some e) :
    t.template? name = some e :=
  h.templates.find?_eq_some he

theorem resolve (stem name : String) : t.resolve stem name = s.resolve stem name := by
  simp only [Scope.resolve, h.owner]

theorem call (stem name : String) (args : List String) (binding : Option Binding) :
    t.call stem name args binding = s.call stem name args binding := by
  simp only [Scope.call, h.resolve]

end Scope.Grows

/-- A run of statements makes the scope grow. -/
theorem grows_of_scopeBehind {r : Registry} {s s' : Scope} {cs : List Statement}
    (h : scopeBehind r s cs = .ok s') : s.Grows s' := by
  obtain ⟨ks, -, rfl⟩ := scopeBehind_eq h
  exact ⟨rfl, List.prefix_append _ _, List.prefix_append _ _⟩

/-! ## Results -/

section

variable {α β : Type}

/-- If the first succeeds, then so does the second, with the same result. -/
def Result.KeptBy (x y : Result α) : Prop := ∀ a, x = .ok a → y = .ok a

theorem Result.KeptBy.refl (x : Result α) : x.KeptBy x := fun _ h => h

theorem Result.KeptBy.bind {x y : Result α} {f g : α → Result β} (hxy : x.KeptBy y)
    (hfg : ∀ a, (f a).KeptBy (g a)) : Result.KeptBy (x >>= f) (y >>= g) := by
  intro b hb
  obtain ⟨a, ha, hb⟩ := bind_eq_ok_iff.1 hb
  exact bind_eq_ok_iff.2 ⟨a, hxy a ha, hfg a b hb⟩

theorem Result.KeptBy.within (name : String) {x y : Result α} (h : x.KeptBy y) :
    Result.KeptBy (within name x) (within name y) :=
  fun a ha => within_eq_ok_iff.2 (h a (within_eq_ok_iff.1 ha))

end

/-! ## Definitions -/

section

variable {s t : Scope} {inline inline' : Definition → Target → Result (List Define)}

theorem keptBy_foreign (h : s.Grows t) (hinline : ∀ d e, (inline d e).KeptBy (inline' d e))
    (name : String) (target : Target) (owner object : String) (inlined : Bool) :
    (foreign inline s name target owner object inlined).KeptBy
      (foreign inline' t name target owner object inlined) := by
  intro y hy
  unfold foreign at hy ⊢
  split at hy
  · cases hy
  next m hm =>
  rw [h.import? hm]
  dsimp only
  split at hy
  · cases hy
  next d hd =>
  split at hy
  · next hinlined =>
    rw [if_pos hinlined]
    exact (hinline d _).bind (fun ds => .refl _) y hy
  · next hinlined =>
    rw [if_neg hinlined]
    exact hy

/-- **One fragment.** Only a reference looks at what can grow. -/
theorem keptBy_fragment (h : s.Grows t) (hinline : ∀ d e, (inline d e).KeptBy (inline' d e))
    (name : String) (target : Target) (f : Fragment) :
    (fragment inline s name target f).KeptBy (fragment inline' t name target f) := by
  cases f with
  | foreign owner object inlined => exact keptBy_foreign h hinline name target owner object inlined
  | word word =>
    rw [fragment, fragment, h.resolve]
    exact .refl _
  | call callee args =>
    rw [fragment, fragment, h.call]
    exact .refl _
  | text | slot | unknown => exact .refl _

theorem keptBy_defineWith (h : s.Grows t) (hinline : ∀ d e, (inline d e).KeptBy (inline' d e))
    (d : Definition) (target : Target) :
    (defineWith inline s d target).KeptBy (defineWith inline' t d target) := by
  have hfragments : ∀ fs, (fragments inline s d.name target fs).KeptBy
      (fragments inline' t d.name target fs) := by
    intro fs
    induction fs with
    | nil => exact .refl _
    | cons f fs ih =>
      rw [fragments, fragments]
      exact (keptBy_fragment h hinline d.name target f).bind fun x => ih.bind fun y => .refl _
  unfold defineWith
  exact ((hfragments d.body).bind fun x => .refl _).within _

theorem keptBy_inlineAt (h : s.Grows t) (n : Nat) (d : Definition) (target : Target) :
    (inlineAt s n d target).KeptBy (inlineAt t n d target) := by
  induction n generalizing d target with
  | zero => exact .refl _
  | succ n ih =>
    rw [inlineAt_succ, inlineAt_succ]
    exact keptBy_defineWith h ih d target

/-- **A definition keeps its lines in a scope that has grown.** -/
theorem keptBy_define (h : s.Grows t) (d : Definition) (target : Target) :
    (define s d target).KeptBy (define t d target) := by
  intro ds hds
  -- the larger scope may have a higher limit, but this one was enough
  have hsmall : inlineAt s (s.inlinable.card + 1) d target = .ok ds :=
    (define_eq d target).symm.trans hds
  have hlarge := keptBy_inlineAt h _ d target ds hsmall
  have hbelow := below_define (s := t) (s.inlinable.card + 1) d target
  rw [hbelow.eq (by rw [hlarge]; exact nofun), hlarge]

theorem keptBy_instances (h : s.Grows t) (name : String) (ranges : List Interval) :
    (instances s name ranges).KeptBy (instances t name ranges) := by
  intro ds hds
  obtain ⟨e, choices, parts, he, hcount, hchoices, hparts, rfl⟩ := instances_eq_ok_iff.1 hds
  refine instances_eq_ok_iff.2 ⟨e, choices, parts, h.template? he, hcount, hchoices, ?_, rfl⟩
  rw [h.owner]
  exact hparts.imp fun values part => keptBy_define h _ _ part

end

/-! ## Statements -/

/-- The lines that a statement makes. -/
def linesOf (s : Scope) : Statement → Result (List Define)
  | .object d => define s d ⟨s.owner.name, true, none⟩
  | .exported d => define s d ⟨s.owner.name, false, none⟩
  | .instances name ranges => instances s name ranges
  | .template _ | .imports _ | .comment _ | .unknown _ => .ok []

variable {r q : Registry} {s t : Scope} {c : Statement}

/-- A statement that makes lines passes on the scope that it is given. -/
theorem statement_eq_linesOf (hc : c.MakesLines) (r : Registry) (s : Scope) :
    statement r s c = linesOf s c >>= fun ds => .ok (.defines ds, s) := by
  cases c with
  | object | exported | instances => rfl
  | template | imports | comment | unknown => exact hc.elim

theorem keptBy_linesOf (h : s.Grows t) (c : Statement) : (linesOf s c).KeptBy (linesOf t c) := by
  cases c with
  | object d | exported d =>
    rw [linesOf, linesOf, h.owner]
    exact keptBy_define h d _
  | instances name ranges => exact keptBy_instances h name ranges
  | template | imports | comment | unknown => exact .refl _

/-- **A statement keeps its lines in a scope that has grown.** -/
theorem statement_of_grows (h : s.Grows t) (hc : c.MakesLines) {b : Block}
    (hb : statement r s c = .ok (b, s)) : statement r t c = .ok (b, t) := by
  rw [statement_eq_linesOf hc] at hb ⊢
  obtain ⟨ds, hds, hb⟩ := bind_eq_ok_iff.1 hb
  cases hb
  exact bind_eq_ok_iff.2 ⟨ds, keptBy_linesOf h c ds hds, rfl⟩

/-! ## The scope as a state -/

/-- Lines that are made from the scope there is. -/
def makeLines (lines : Scope → Result (List Define)) : ExceptT Failure (StateM Scope) Block := do
  return .defines (← lines (← get))

/-- `statement` on a scope that is changed in place, and that is there behind a failure too. -/
def perform (r : Registry) : Statement → ExceptT Failure (StateM Scope) Block
  | .object d => makeLines fun s => define s d ⟨s.owner.name, true, none⟩
  | .exported d => makeLines fun s => define s d ⟨s.owner.name, false, none⟩
  | .template t => do
    modify (·.addTemplate t)
    return .defines []
  | .imports name => do
    let m ← findModule r name
    modify (·.addImport m)
    return .defines []
  | .instances name ranges => makeLines fun s => instances s name ranges
  | .comment value => return .comment value
  | .unknown _ => return .defines []

section

variable {α β : Type} {x : ExceptT Failure (StateM Scope) α}

theorem run_bind_of_ok {a : α} (f : α → ExceptT Failure (StateM Scope) β)
    (h : x.run.run s = (.ok a, t)) : (x >>= f).run.run s = (f a).run.run t := by
  change (x.run >>= ExceptT.bindCont f).run s = _
  rw [StateT.run_bind, h]
  rfl

theorem run_bind_of_error {e : Failure} (f : α → ExceptT Failure (StateM Scope) β)
    (h : x.run.run s = (.error e, t)) : (x >>= f).run.run s = (.error e, t) := by
  change (x.run >>= ExceptT.bindCont f).run s = _
  rw [StateT.run_bind, h]
  rfl

theorem run_bind_pure (f : α → β) (s : Scope) :
    (x >>= fun a => pure (f a)).run.run s = ((x.run.run s).1.map f, (x.run.run s).2) := by
  rcases hx : x.run.run s with ⟨e | a, t⟩
  · exact run_bind_of_error _ hx
  · exact run_bind_of_ok _ hx

end

theorem run_makeLines (lines : Scope → Result (List Define)) (s : Scope) :
    (makeLines lines).run.run s = ((lines s).map .defines, s) := by
  change (liftM (lines s) >>= fun ds => pure (.defines ds) :
    ExceptT Failure (StateM Scope) Block).run.run s = _
  cases lines s <;> rfl

/-- **One statement in place** has the outcome that it has otherwise. If it succeeds then the scope
is the one behind it, and if it fails then the scope is as it was. -/
theorem run_perform (r : Registry) (s : Scope) (c : Statement) :
    (perform r c).run.run s =
      ((statement r s c).map Prod.fst, (statement r s c).toOption.elim s Prod.snd) := by
  have hlines : ∀ lines : Scope → Result (List Define), (makeLines lines).run.run s =
      (Except.map Prod.fst (lines s >>= fun ds => .ok (Block.defines ds, s)),
        (lines s >>= fun ds => .ok (Block.defines ds, s)).toOption.elim s Prod.snd) := by
    intro lines
    rw [run_makeLines]
    cases lines s <;> rfl
  cases c with
  | object | exported | instances => exact hlines _
  | imports name =>
    change (liftM (findModule r name) >>= fun m => do
      modify (·.addImport m)
      return .defines [] : ExceptT Failure (StateM Scope) Block).run.run s = _
    rw [statement]
    cases findModule r name <;> rfl
  | template | comment | unknown => rfl

/-- A statement that makes lines changes nothing, whether it succeeds or fails. -/
theorem run_perform_of_makesLines (hc : c.MakesLines) (r : Registry) (s : Scope) :
    (perform r c).run.run s = ((linesOf s c).map .defines, s) := by
  cases c with
  | object | exported | instances => exact run_makeLines _ s
  | template | imports | comment | unknown => exact hc.elim

/-- **A run of statements in place** has the outcome that it has otherwise. -/
theorem run_mapM_perform (r : Registry) (s : Scope) (cs : List Statement) :
    ((cs.mapM (perform r)).run.run s).1 = statements r s cs := by
  induction cs generalizing s with
  | nil => rfl
  | cons c cs ih =>
    have hc := run_perform r s c
    rw [List.mapM_cons, statements]
    cases hstep : statement r s c with
    | error e =>
      rw [hstep] at hc
      rw [run_bind_of_error _ hc]
      rfl
    | ok y =>
      rw [hstep] at hc
      rw [run_bind_of_ok _ hc, run_bind_pure]
      change ((cs.mapM (perform r)).run.run y.2).1.map (y.1 :: ·) = _
      rw [ih]
      rfl

/-- Statements that make lines leave the scope as it was, wherever the run of them ends. -/
theorem run_mapM_perform_of_makesLines {cs : List Statement} (hcs : ∀ c ∈ cs, c.MakesLines)
    (r : Registry) (s : Scope) : ((cs.mapM (perform r)).run.run s).2 = s := by
  induction cs with
  | nil => rfl
  | cons c cs ih =>
    have hc := run_perform_of_makesLines (hcs c List.mem_cons_self) r s
    rw [List.mapM_cons]
    cases hlines : linesOf s c with
    | error e =>
      rw [hlines] at hc
      rw [run_bind_of_error _ hc]
    | ok ds =>
      rw [hlines] at hc
      rw [run_bind_of_ok _ hc, run_bind_pure]
      exact ih fun c hc => hcs c (List.mem_cons_of_mem _ hc)

/-! ## Runs of statements -/

/-- A run of statements in two parts, the first of which succeeds. -/
theorem statements_append {cs : List Statement} (h : scopeBehind r s cs = .ok t) :
    ∃ bs : List Block, bs.length = cs.length ∧ ∀ rest,
      statements r s (cs ++ rest) = statements r t rest >>= fun ys => .ok (bs ++ ys) := by
  induction cs generalizing s with
  | nil =>
    cases h
    refine ⟨[], rfl, fun rest => ?_⟩
    rw [List.nil_append]
    cases statements r t rest <;> rfl
  | cons c cs ih =>
    rw [scopeBehind] at h
    obtain ⟨⟨b, s'⟩, hb, h⟩ := bind_eq_ok_iff.1 h
    obtain ⟨bs, hlength, hbs⟩ := ih h
    refine ⟨b :: bs, by rw [List.length_cons, List.length_cons, hlength], fun rest => ?_⟩
    rw [List.cons_append, statements, hb]
    dsimp only [bind, Except.bind]
    rw [hbs rest]
    cases statements r t rest <;> rfl

/-- A run of statements fails if the first part of it does. -/
theorem statements_append_of_error {cs : List Statement} {e : Failure}
    (h : scopeBehind r s cs = .error e) (rest : List Statement) :
    statements r s (cs ++ rest) = .error e := by
  induction cs generalizing s with
  | nil => cases h
  | cons c cs ih =>
    rw [List.cons_append, statements]
    rw [scopeBehind] at h
    rcases bind_eq_error_iff.1 h with hc | ⟨y, hy, h⟩
    · exact bind_eq_error_iff.2 (.inl hc)
    · exact bind_eq_error_iff.2 (.inr ⟨y, hy, bind_eq_error_iff.2 (.inl (ih h))⟩)

/-- **A statement that makes lines can be moved down a run.** Its block moves along, and everything
else stays as it is, be it blocks or a failure. -/
theorem statements_moved {between : List Statement} (hc : c.MakesLines) {b : Block}
    (hb : statement r s c = .ok (b, s)) (after : List Statement) :
    (∃ e, statements r s (c :: (between ++ after)) = .error e ∧
      statements r s (between ++ c :: after) = .error e) ∨
    ∃ ys zs, ys.length = between.length ∧
      statements r s (c :: (between ++ after)) = .ok (b :: (ys ++ zs)) ∧
      statements r s (between ++ c :: after) = .ok (ys ++ b :: zs) := by
  have hfirst : statements r s (c :: (between ++ after)) =
      statements r s (between ++ after) >>= fun bs => .ok (b :: bs) := by
    rw [statements, hb]
    rfl
  rw [hfirst]
  cases hbetween : scopeBehind r s between with
  | error e =>
    rw [statements_append_of_error hbetween, statements_append_of_error hbetween]
    exact .inl ⟨e, rfl, rfl⟩
  | ok t =>
    obtain ⟨ys, hlength, hys⟩ := statements_append hbetween
    have hlast : statements r t (c :: after) =
        statements r t after >>= fun bs => .ok (b :: bs) := by
      rw [statements, statement_of_grows (grows_of_scopeBehind hbetween) hc hb]
      rfl
    rw [hys, hys, hlast]
    cases statements r t after with
    | error e => exact .inl ⟨e, rfl, rfl⟩
    | ok zs => exact .inr ⟨ys, zs, hlength, rfl, rfl⟩

end Expansion

/-! ## Modules -/

/-- What is found first does not depend on where something stands that is not looked for. -/
theorem find?_moved {α : Type} {p : α → Bool} {before between after : List α} {c : α}
    (h : p c = true → ∀ x ∈ between, p x = false) :
    (before ++ (between ++ c :: after)).find? p = (before ++ c :: (between ++ after)).find? p := by
  simp only [List.find?_append, List.find?_cons]
  cases hc : p c with
  | false => rfl
  | true =>
    have hnone : between.find? p = none :=
      List.find?_eq_none.2 fun x hx => by simp [h hc x hx]
    simp [hnone]

/-- The second module is the first with a statement moved down, past others that declare none of its
names. -/
structure Module.Moved (m n : Module) (before : List Statement) (c : Statement)
    (between after : List Statement) : Prop where
  name : n.name = m.name
  body : m.body = before ++ c :: (between ++ after)
  moved : n.body = before ++ (between ++ c :: after)
  apart : ∀ x ∈ between, ∀ name, c.declares name = true → x.declares name = false

namespace Module.Moved

variable {m n : Module} {before between after : List Statement} {c : Statement}
  (h : m.Moved n before c between after)

include h

theorem declaration? (name : String) : n.declaration? name = m.declaration? name := by
  rw [Module.declaration?, Module.declaration?, h.body, h.moved]
  exact find?_moved fun hc x hx => h.apart x hx name hc

/-- **The move is not seen by those who import the module.** -/
theorem agree : m.Agree n := by
  refine ⟨h.name, fun name => ?_⟩
  unfold Module.object? Module.objects
  rw [h.body, h.moved]
  simp only [List.filterMap_append, List.filterMap_cons]
  cases hc : c.object? with
  | none => rfl
  | some d =>
    refine find?_moved fun hd e he => ?_
    obtain ⟨x, hx, hxe⟩ := List.mem_filterMap.1 he
    have hdeclares : ∀ {s : Statement} {f : Definition}, s.object? = some f →
        s.declares name = (f.name == name) := by
      intro s f hf
      cases s <;> cases hf <;> rfl
    rw [← hdeclares hxe]
    exact h.apart x hx name (by rw [hdeclares hc, hd])

theorem mem_uses (name : String) : name ∈ n.body.filterMap Statement.used? → name ∈ m.uses := by
  unfold Module.uses
  rw [h.body, h.moved]
  simp only [List.mem_filterMap, List.mem_append, List.mem_cons]
  rintro ⟨x, hx, hname⟩
  exact ⟨x, by tauto, hname⟩

end Module.Moved

namespace Expansion

/-- A module with a statement moved down has the same outcome, with the block of the statement
moved. -/
theorem blocks_moved {r q : Registry} {m n : Module} {before between after : List Statement}
    {c : Statement} {s : Scope} {b : Block} (h : m.Moved n before c between after)
    (hc : c.MakesLines) (hr : Registry.AgreeOn m.uses r q)
    (hscope : scopeBehind r (Scope.start m) before = .ok s)
    (hb : statement r s c = .ok (b, s)) :
    (∃ e, blocks r m = .error e ∧ blocks q n = .error e) ∨
    ∃ xs ys zs, xs.length = before.length ∧ ys.length = between.length ∧
      blocks r m = .ok (xs ++ b :: (ys ++ zs)) ∧ blocks q n = .ok (xs ++ (ys ++ b :: zs)) := by
  have hstart : (Scope.start m).Agree (Scope.start n) := ⟨h.name, h.declaration?, .nil, rfl⟩
  have hsame : statements q (Scope.start n) n.body = statements r (Scope.start m) n.body :=
    statements_agree (hr.mono h.mem_uses) hstart
  obtain ⟨xs, hlength, hxs⟩ := statements_append hscope
  unfold blocks
  rw [hsame, h.name, h.body, h.moved, hxs, hxs]
  rcases statements_moved hc hb after with ⟨e, he, he'⟩ | ⟨ys, zs, hys, hok, hok'⟩
  · rw [he, he']
    exact .inl ⟨_, rfl, rfl⟩
  · rw [hok, hok']
    exact .inr ⟨xs, ys, zs, hlength, hys, rfl, rfl⟩

/-- **More in scope does not change what there is already.** Lines of a definition and instances of
a template that are made in a scope are made again in every scope that has grown from it, and a
template with arguments always stands for the same. A statement that makes lines does nothing else.
With the scope changed in place, which has the same outcome, the scope is as it was behind each such
statement and behind a run of them, whether they succeed or fail. Hence such a statement may be
moved down in its module, past others that do not declare its name: imports and comments never do,
and `@impl` has no name to declare, so that it may be moved past templates too. If it has its lines
at the old place then it has them at the new one, and the rest of the module comes out as before, or
fails as before. The registries need only agree, so that either form of the module may be in
them. -/
theorem growth_keeps_lines :
    (∀ s t : Scope, s.Grows t →
      (∀ d target ds, define s d target = .ok ds → define t d target = .ok ds) ∧
      (∀ name ranges ds, instances s name ranges = .ok ds → instances t name ranges = .ok ds) ∧
      ∀ stem name args binding, t.call stem name args binding = s.call stem name args binding) ∧
    (∀ r s (c : Statement), c.MakesLines →
      (statement r s c = linesOf s c >>= fun ds => .ok (.defines ds, s)) ∧
      (perform r c).run.run s = ((linesOf s c).map .defines, s)) ∧
    (∀ r s cs, ((cs.mapM (perform r)).run.run s).1 = statements r s cs ∧
      ((∀ c ∈ cs, c.MakesLines) → ((cs.mapM (perform r)).run.run s).2 = s)) ∧
    ∀ r q (m n : Module) before c between after s b, m.Moved n before c between after →
      c.MakesLines → Registry.AgreeOn m.uses r q → scopeBehind r (Scope.start m) before = .ok s →
      statement r s c = .ok (b, s) →
      m.Agree n ∧ ((∃ e, blocks r m = .error e ∧ blocks q n = .error e) ∨
        ∃ xs ys zs, xs.length = before.length ∧ ys.length = between.length ∧
          blocks r m = .ok (xs ++ b :: (ys ++ zs)) ∧ blocks q n = .ok (xs ++ (ys ++ b :: zs))) := by
  refine ⟨fun s t h => ⟨keptBy_define h, keptBy_instances h, h.call⟩,
    fun r s c hc => ⟨statement_eq_linesOf hc r s, run_perform_of_makesLines hc r s⟩,
    fun r s cs => ⟨run_mapM_perform r s cs, fun hcs => run_mapM_perform_of_makesLines hcs r s⟩, ?_⟩
  intro r q m n before c between after s b h hc hr hscope hb
  exact ⟨h.agree, blocks_moved h hc hr hscope hb⟩

/-- `@impl` is moved past an import of the module itself, a second template of the same name and a
comment. One of a template that is not there fails and leaves the scope as it was. -/
theorem growth_keeps_lines_second_template :
    let place : Span := ⟨⟨1, 2, 1⟩, ⟨1, 3, 2⟩⟩
    let lib : Module := ⟨"N", [.object ⟨"x", [.text " 1"]⟩], 1, place⟩
    let first : Template := ⟨⟨"T", [.text " ", .foreign "N" "x" true, .slot 0]⟩, [.fresh "i"]⟩
    let second : Template := ⟨⟨"T", [.text " 9"]⟩, [.fresh "i"]⟩
    let before : List Statement := [.imports "N", .template first]
    let between : List Statement := [.imports "M", .template second, .comment "//"]
    let impl : Statement := .instances "T" [⟨1, 2⟩]
    let m : Module := ⟨"M", before ++ impl :: (between ++ []), 1, place⟩
    let n : Module := ⟨"M", before ++ (between ++ [impl]), 1, place⟩
    let s : Scope := ⟨m, [lib], [first]⟩
    let t : Scope := ⟨m, [lib, m], [first, second]⟩
    m.Moved n before impl between [] ∧ s.Grows t ∧
      (∃ ds, ds.length = 4 ∧ instances s "T" [⟨1, 2⟩] = .ok ds ∧
        instances t "T" [⟨1, 2⟩] = .ok ds) ∧
      (perform ⟨[lib, m]⟩ (.instances "U" [])).run.run s =
        (.error (.ofCause (.templateNotFound "U")), s) ∧
      ∃ b xs ys zs, xs.length = 2 ∧ ys.length = 3 ∧
        blocks ⟨[lib, m]⟩ m = .ok (xs ++ b :: (ys ++ zs)) ∧
        blocks ⟨[lib, n]⟩ n = .ok (xs ++ (ys ++ b :: zs)) := by
  intro place lib first second before between impl m n s t
  obtain ⟨hkeeps, hlines, -, hmoves⟩ := growth_keeps_lines
  have hmoved : m.Moved n before impl between [] := ⟨rfl, rfl, rfl, by rintro x - name ⟨⟩⟩
  have hgrows : s.Grows t := ⟨rfl, ⟨[m], rfl⟩, ⟨[second], rfl⟩⟩
  obtain ⟨ds, hds⟩ := exists_eq_ok_of_isOk
    (by decide +kernel : (instances s "T" [⟨1, 2⟩]).isOk)
  have hlength : (instances s "T" [⟨1, 2⟩]).toOption.map List.length = some 4 := by decide +kernel
  rw [hds] at hlength
  have hkept := (hkeeps s t hgrows).2.1 _ _ ds hds
  refine ⟨hmoved, hgrows, ⟨ds, Option.some.inj hlength, hds, hkept⟩,
    (hlines ⟨[lib, m]⟩ s (.instances "U" []) trivial).2.trans rfl, ?_⟩
  have hagree : Registry.AgreeOn m.uses ⟨[lib, m]⟩ ⟨[lib, n]⟩ := fun name _ =>
    Module.Agree.find? (.cons ⟨rfl, fun _ => rfl⟩ (.cons hmoved.agree .nil)) name
  have hscope : scopeBehind ⟨[lib, m]⟩ (Scope.start m) before = .ok s := rfl
  have himpl : statement ⟨[lib, m]⟩ s impl = .ok (.defines ds, s) :=
    bind_eq_ok_iff.2 ⟨ds, hds, rfl⟩
  rcases (hmoves _ _ m n before impl between [] s _ hmoved trivial hagree hscope himpl).2 with
    ⟨e, he, -⟩ | ⟨xs, ys, zs, hxs, hys, hm, hn⟩
  · have hok : (blocks ⟨[lib, m]⟩ m).isOk := by decide +kernel
    rw [he] at hok
    cases hok
  · exact ⟨_, xs, ys, zs, hxs, hys, hm, hn⟩

end Expansion

end MacroModules
