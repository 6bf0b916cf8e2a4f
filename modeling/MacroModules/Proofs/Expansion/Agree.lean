import Mathlib.Data.List.Forall2
import MacroModules.Expansion.Module
import MacroModules.Proofs.Expansion.Depth

/-!
# What the expansion of a module depends on

A module is expanded from its name and its statements, and from the objects that the modules it
imports have under each name. Where any of them stands, and what else is registered, makes no
difference. That includes objects that are never found because another one of the same name comes
first: they count for the limit on the depth of inlining, but the limit does not matter.

* `Module.Agree`, `Scope.Agree`, `Registry.AgreeOn`: equal in what an expansion can see.
* `Module.uses`, `Document.uses`: the modules that are looked up in the registry.
* `Scope.Agree.define`, `Scope.Agree.instances`: definitions and templates.
* `statement_agree`, `statements_agree`: one statement, and from it a run of them.
* `moduleText_agree`: **modules of the same name and body have the same expansion**.
* `document_agree`: the same for documents.
-/

namespace MacroModules

/-- The modules are the same to those who import them. -/
structure Module.Agree (m n : Module) : Prop where
  name : n.name = m.name
  object? : ∀ name, n.object? name = m.object? name

/-- The registries know the same modules by these names. -/
def Registry.AgreeOn (names : List String) (r q : Registry) : Prop :=
  ∀ name ∈ names, Option.Rel Module.Agree (r.find? name) (q.find? name)

/-- The module that a statement imports. -/
def Statement.used? : Statement → Option String
  | imports name => some name
  | _ => none

/-- The modules that a module imports. -/
def Module.uses (m : Module) : List String := m.body.filterMap Statement.used?

/-- The modules that those of a document import. -/
def Document.uses (d : Document) : List String := d.modules.flatMap Module.uses

theorem rel_cases {α : Type} {rel : α → α → Prop} {x y : Option α} (h : Option.Rel rel x y) :
    (x = none ∧ y = none) ∨ ∃ a b, x = some a ∧ y = some b ∧ rel a b := by
  cases h with
  | none => exact .inl ⟨rfl, rfl⟩
  | some hab => exact .inr ⟨_, _, rfl, rfl, hab⟩

/-- The first modules of a name agree if the modules do. -/
theorem Module.Agree.find? {ms ns : List Module} (h : List.Forall₂ Module.Agree ms ns)
    (name : String) :
    Option.Rel Module.Agree (ms.find? (·.name == name)) (ns.find? (·.name == name)) := by
  induction h with
  | nil => exact .none
  | @cons m n ms ns hmn _ ih =>
    rw [List.find?_cons, List.find?_cons, hmn.name]
    split
    · exact .some hmn
    · exact ih

namespace Registry

/-- A registry has the first module of each name. -/
theorem find?_foldl_insert (ms : List Module) (r : Registry) (name : String) :
    (ms.foldl insert r).find? name = (r.find? name).or (ms.find? (·.name == name)) := by
  induction ms generalizing r with
  | nil => simp
  | cons m ms ih =>
    rw [List.foldl_cons, ih, find?_insert, List.find?_cons, Option.or_assoc]
    by_cases h : m.name = name
    · simp [h]
    · simp [h, beq_eq_false_iff_ne.2 h]

theorem name_of_find? {r : Registry} {name : String} {m : Module} (h : r.find? name = some m) :
    m.name = name := by
  simpa using List.find?_some h

theorem find?_ofDocuments (ds : List Document) (name : String) :
    (ofDocuments ds).find? name = (ds.flatMap Document.modules).find? (·.name == name) := by
  rw [ofDocuments, find?_foldl_insert, find?_empty, Option.none_or]

theorem agreeOn_of_modules {ds es : List Document}
    (h : List.Forall₂ Module.Agree (ds.flatMap Document.modules) (es.flatMap Document.modules))
    (names : List String) : AgreeOn names (ofDocuments ds) (ofDocuments es) := by
  intro name _
  rw [find?_ofDocuments, find?_ofDocuments]
  exact Module.Agree.find? h name

/-- It is enough that the modules have the same objects: they have the same name because they are
found by it. -/
theorem agreeOn_of_object? {names : List String} {r q : Registry}
    (h : ∀ name ∈ names, (r.find? name).map Module.object? = (q.find? name).map Module.object?) :
    AgreeOn names r q := by
  intro name hname
  have hmap := h name hname
  cases hm : r.find? name with
  | none =>
    rw [hm, Option.map_none, eq_comm, Option.map_eq_none_iff] at hmap
    rw [hmap]
    exact .none
  | some m =>
    rw [hm, Option.map_some, eq_comm, Option.map_eq_some_iff] at hmap
    obtain ⟨n, hn, hobjects⟩ := hmap
    have hname : n.name = m.name := (name_of_find? hn).trans (name_of_find? hm).symm
    rw [hn]
    exact .some ⟨hname, congrFun hobjects⟩

theorem AgreeOn.mono {names fewer : List String} {r q : Registry} (h : AgreeOn names r q)
    (hsub : ∀ name ∈ fewer, name ∈ names) : AgreeOn fewer r q :=
  fun name hname => h name (hsub name hname)

end Registry

namespace Expansion

/-- The scopes are the same to the definitions in them. -/
structure Scope.Agree (s t : Scope) : Prop where
  name : t.owner.name = s.owner.name
  declaration? : ∀ name, t.owner.declaration? name = s.owner.declaration? name
  imports : List.Forall₂ Module.Agree s.imports t.imports
  templates : t.templates = s.templates

namespace Scope.Agree

variable {s t : Scope} (h : s.Agree t)

include h

theorem import? (name : String) : Option.Rel Module.Agree (s.import? name) (t.import? name) :=
  Module.Agree.find? h.imports name

theorem resolve (stem name : String) : t.resolve stem name = s.resolve stem name := by
  simp only [Scope.resolve, h.declaration?]

theorem call (stem name : String) (args : List String) (binding : Option Binding) :
    t.call stem name args binding = s.call stem name args binding := by
  simp only [Scope.call, h.resolve]

theorem template? (name : String) : t.template? name = s.template? name := by
  simp only [Scope.template?, h.templates]

theorem object? (p : String × String) : t.object? p = s.object? p := by
  unfold Scope.object?
  rcases rel_cases (h.import? p.1) with ⟨hs, ht⟩ | ⟨m, n, hs, ht, hmn⟩
  · rw [hs, ht]
  · rw [hs, ht, Option.bind_some, Option.bind_some, hmn.object?]

theorem inlinable : t.inlinable = s.inlinable := by
  ext p
  rw [Scope.mem_inlinable, Scope.mem_inlinable, h.object?]

theorem addImport {m n : Module} (hmn : m.Agree n) : (s.addImport m).Agree (t.addImport n) :=
  ⟨h.name, h.declaration?, List.rel_append h.imports (.cons hmn .nil), h.templates⟩

theorem addTemplate (e : Template) : (s.addTemplate e).Agree (t.addTemplate e) :=
  ⟨h.name, h.declaration?, h.imports, congrArg (· ++ [e]) h.templates⟩

/-! ## Definitions -/

theorem foreign (inline : Definition → Target → Result (List Define)) (name : String)
    (target : Target) (owner object : String) (inlined : Bool) :
    Expansion.foreign inline t name target owner object inlined =
      Expansion.foreign inline s name target owner object inlined := by
  unfold Expansion.foreign
  rcases rel_cases (h.import? owner) with ⟨hs, ht⟩ | ⟨m, n, hs, ht, hmn⟩
  · rw [hs, ht]
  · simp only [hs, ht, hmn.object?]

theorem fragment (inline : Definition → Target → Result (List Define)) (name : String)
    (target : Target) (f : Fragment) :
    Expansion.fragment inline t name target f = Expansion.fragment inline s name target f := by
  cases f with
  | word word => simp only [Expansion.fragment, h.resolve]
  | call callee args => simp only [Expansion.fragment, h.call]
  | foreign owner object inlined => exact h.foreign inline name target owner object inlined
  | text | slot | unknown => rfl

theorem defineWith (inline : Definition → Target → Result (List Define)) :
    Expansion.defineWith inline t = Expansion.defineWith inline s := by
  have hfragments : ∀ name target fs, Expansion.fragments inline t name target fs =
      Expansion.fragments inline s name target fs := by
    intro name target fs
    induction fs with
    | nil => rfl
    | cons f fs ih => rw [Expansion.fragments, Expansion.fragments, h.fragment, ih]
  funext d target
  rw [Expansion.defineWith, Expansion.defineWith, hfragments]

theorem defineAt (depth : Nat) : Expansion.defineAt t depth = Expansion.defineAt s depth := by
  induction depth with
  | zero => rw [Expansion.defineAt, Expansion.defineAt, h.defineWith]
  | succ depth ih => rw [Expansion.defineAt, Expansion.defineAt, h.defineWith, ih]

/-- A definition has the same lines in scopes that agree. -/
theorem define (d : Definition) (target : Target) :
    Expansion.define t d target = Expansion.define s d target := by
  -- the limits in use may differ, but not the one that counts each object once
  rw [define_eq, define_eq, h.defineAt, h.inlinable]

theorem instances (name : String) (ranges : List Interval) :
    Expansion.instances t name ranges = Expansion.instances s name ranges := by
  have hdefine : Expansion.define t = Expansion.define s := by
    funext d target
    exact h.define d target
  simp only [Expansion.instances, h.template?, h.name, hdefine]

end Scope.Agree

/-! ## Statements and modules -/

variable {r q : Registry}

/-- A statement has the same outcome, and leads to scopes that agree again. -/
theorem statement_agree {c : Statement} (hr : r.AgreeOn c.used?.toList q) {s t : Scope}
    (h : s.Agree t) :
    (∃ e, statement r s c = .error e ∧ statement q t c = .error e) ∨
      ∃ b s' t', statement r s c = .ok (b, s') ∧ statement q t c = .ok (b, t') ∧ s'.Agree t' := by
  have hlines : ∀ x : Result (List Define),
      (∃ e, (x >>= fun ds => .ok (Block.defines ds, s)) = .error e ∧
        (x >>= fun ds => .ok (Block.defines ds, t)) = .error e) ∨
      ∃ b s' t', (x >>= fun ds => .ok (Block.defines ds, s)) = .ok (b, s') ∧
        (x >>= fun ds => .ok (Block.defines ds, t)) = .ok (b, t') ∧ s'.Agree t' := by
    intro x
    cases x with
    | error e => exact .inl ⟨e, rfl, rfl⟩
    | ok ds => exact .inr ⟨.defines ds, s, t, rfl, rfl, h⟩
  cases c with
  | object d =>
    rw [statement, statement, h.name, h.define]
    exact hlines _
  | exported d =>
    rw [statement, statement, h.name, h.define]
    exact hlines _
  | instances name ranges =>
    rw [statement, statement, h.instances]
    exact hlines _
  | template e => exact .inr ⟨_, _, _, rfl, rfl, h.addTemplate e⟩
  | imports name =>
    rw [statement, statement, findModule, findModule]
    -- the one statement that looks at the registry
    rcases rel_cases (hr name (List.mem_singleton.2 rfl)) with ⟨hx, hy⟩ | ⟨m, n, hx, hy, hmn⟩
    · rw [hx, hy]
      exact .inl ⟨_, rfl, rfl⟩
    · rw [hx, hy]
      exact .inr ⟨_, _, _, rfl, rfl, h.addImport hmn⟩
  | comment value => exact .inr ⟨_, _, _, rfl, rfl, h⟩
  | unknown label => exact .inr ⟨_, _, _, rfl, rfl, h⟩

/-- A run of statements has the same outcome. -/
theorem statements_agree {cs : List Statement}
    (hr : Registry.AgreeOn (cs.filterMap Statement.used?) r q) {s t : Scope} (h : s.Agree t) :
    statements q t cs = statements r s cs := by
  induction cs generalizing s t with
  | nil => rfl
  | cons c cs ih =>
    have hc : Registry.AgreeOn c.used?.toList r q := by
      refine hr.mono fun name hname => List.mem_filterMap.2 ⟨c, List.mem_cons_self, ?_⟩
      exact Option.mem_toList.1 hname
    have hcs : Registry.AgreeOn (cs.filterMap Statement.used?) r q := by
      refine hr.mono fun name hname => ?_
      obtain ⟨c', hc', hname⟩ := List.mem_filterMap.1 hname
      exact List.mem_filterMap.2 ⟨c', List.mem_cons_of_mem c hc', hname⟩
    rw [statements, statements]
    rcases statement_agree hc h with ⟨e, hs, ht⟩ | ⟨b, s', t', hs, ht, h'⟩
    · rw [hs, ht]
      rfl
    · rw [hs, ht]
      exact congrArg (· >>= fun bs => .ok (b :: bs)) (ih hcs h')

/-- **Modules of the same name and body have the same expansion.** -/
theorem moduleText_agree {m n : Module} (hr : Registry.AgreeOn m.uses r q)
    (hname : n.name = m.name) (hbody : n.body = m.body) : moduleText q n = moduleText r m := by
  have hdeclared : ∀ name, n.declaration? name = m.declaration? name := by
    intro name
    rw [Module.declaration?, Module.declaration?, hbody]
  have hstart : (Scope.start m).Agree (Scope.start n) := ⟨hname, hdeclared, .nil, rfl⟩
  rw [moduleText, moduleText, blocks, blocks, hname, hbody, statements_agree hr hstart]

/-- A document has the same expansion if the modules that it imports agree. -/
theorem document_agree {d : Document} (hr : Registry.AgreeOn d.uses r q) :
    document q d = document r d := by
  have hsection : ∀ c ∈ d.sections, sectionText q d.source c = sectionText r d.source c := by
    intro c hc
    cases c with
    | raw | unknown => rfl
    | code m =>
      have hm : m ∈ d.modules := List.mem_filterMap.2 ⟨_, hc, rfl⟩
      have hm : Registry.AgreeOn m.uses r q :=
        hr.mono fun name hname => List.mem_flatMap.2 ⟨m, hm, hname⟩
      rw [sectionText, sectionText, moduleText_agree hm rfl rfl]
  have hsections : ∀ cs : List Section,
      (∀ c ∈ cs, sectionText q d.source c = sectionText r d.source c) →
      sectionTexts q d.source cs = sectionTexts r d.source cs := by
    intro cs hcs
    induction cs with
    | nil => rfl
    | cons c cs ih =>
      rw [sectionTexts, sectionTexts, hcs c List.mem_cons_self,
        ih fun c hc => hcs c (List.mem_cons_of_mem _ hc)]
  rw [document, document, hsections d.sections hsection]

end Expansion

end MacroModules
