import MacroModules.Proofs.Expansion.Agree
import MacroModules.Proofs.Expansion.Steps

/-!
# Where lines come from

A line is made from a definition and a target. The modules imported so far decide whether there is a
line at all, but nothing in it depends on them: a reference contributes the same text whatever it
leads to. So the lines of a module are known from what they come from, which is a declaration of the
module itself or an object that is inlined into something of which there is a line already.

* `piece`, `lineOf`: what a fragment adds to its line, and the line.
* `FromReference`: the lines that come with a reference.
* `Statement.Binds`, `IsOrigin`, `HasOrigin`: what the lines of a module come from.
* `defineWith_origin`, `defineAt_origin`: one level of inlining, and from it all of them.
* `define_eq_append_lineOf`: what is expanded has its own line.
* `lines_origin`: what holds of all that the expansion of a module gets to, and is kept by inlining,
  holds of the origin of each line.
* `blocks_origin`: **every line of a module has such an origin**.
-/

namespace MacroModules

namespace Expansion

/-! ## Lines -/

/-- What a fragment adds to the line of the definition `name` of the module `owner`, if it can be
expanded. -/
def piece (owner : Module) (name : String) (t : Target) : Fragment → String
  | .text value => value
  | .slot index => ((t.binding.bind (·.value? index)).map Int.repr).getD ""
  | .word word => (Scope.start owner).resolve t.stem word
  | .call callee args => (Scope.start owner).call t.stem callee args t.binding
  | .foreign other object inlined =>
    if inlined then t.inlineStem name other else symbol other object true
  | .unknown _ => ""

/-- The line of a definition in the module `owner`. -/
def lineOf (owner : Module) (d : Definition) (t : Target) : Define :=
  ⟨t.symbolOf d.name, String.join (d.body.map (piece owner d.name t))⟩

variable {inline : Definition → Target → Result (List Define)} {s : Scope}

variable (inline s) in
/-- The line belongs to an object that one of the fragments of the definition `name` inlines. -/
def FromReference (name : String) (t : Target) (fs : List Fragment) (x : Define) : Prop :=
  ∃ owner object e es, .foreign owner object true ∈ fs ∧ s.object? (owner, object) = some e ∧
    inline e ⟨t.inlineStem name owner, false, none⟩ = .ok es ∧ x ∈ es

theorem FromReference.mono {name : String} {t : Target} {fs gs : List Fragment} {x : Define}
    (h : FromReference inline s name t fs x) (hsub : fs ⊆ gs) :
    FromReference inline s name t gs x := by
  obtain ⟨owner, object, e, es, hmem, he⟩ := h
  exact ⟨owner, object, e, es, hsub hmem, he⟩

theorem foreign_origin {name owner object : String} {t : Target} {inlined : Bool}
    {y : List Define × String} (h : foreign inline s name t owner object inlined = .ok y) :
    y.2 = piece s.owner name t (.foreign owner object inlined) ∧
      ∀ x ∈ y.1, FromReference inline s name t [.foreign owner object inlined] x := by
  unfold foreign at h
  split at h
  · cases h
  next m hm =>
  split at h
  · cases h
  next e he =>
  have hobject : s.object? (owner, object) = some e := Scope.object?_eq_some_iff.2 ⟨m, hm, he⟩
  cases inlined with
  | true =>
    obtain ⟨es, hes, h⟩ := bind_eq_ok_iff.1 h
    cases h
    exact ⟨rfl, fun x hx => ⟨owner, object, e, es, List.mem_cons_self, hobject, hes, hx⟩⟩
  | false =>
    cases h
    exact ⟨rfl, by simp⟩

theorem fragment_origin {name : String} {t : Target} {f : Fragment} {y : List Define × String}
    (h : fragment inline s name t f = .ok y) :
    y.2 = piece s.owner name t f ∧ ∀ x ∈ y.1, FromReference inline s name t [f] x := by
  cases f with
  | text | word | call | unknown =>
    cases h
    exact ⟨rfl, by simp⟩
  | slot index =>
    rw [fragment] at h
    split at h
    · cases h
    next b hb =>
    split at h
    · next v hv =>
      cases h
      refine ⟨?_, by simp⟩
      rw [piece, hb, Option.bind_some, hv]
      rfl
    · cases h
  | foreign owner object inlined => exact foreign_origin h

theorem fragments_origin {name : String} {t : Target} {fs : List Fragment}
    {y : List Define × String} (h : fragments inline s name t fs = .ok y) :
    y.2 = String.join (fs.map (piece s.owner name t)) ∧
      ∀ x ∈ y.1, FromReference inline s name t fs x := by
  induction fs generalizing y with
  | nil =>
    cases h
    exact ⟨rfl, by simp⟩
  | cons f fs ih =>
    rw [fragments] at h
    obtain ⟨first, hfirst, h⟩ := bind_eq_ok_iff.1 h
    obtain ⟨rest, hrest, h⟩ := bind_eq_ok_iff.1 h
    cases h
    obtain ⟨htext, hlines⟩ := fragment_origin hfirst
    obtain ⟨htexts, hmore⟩ := ih hrest
    refine ⟨?_, fun x hx => ?_⟩
    · rw [List.map_cons, String.join_cons, ← htext, ← htexts]
    rcases List.mem_append.1 hx with hx | hx
    · exact (hmore x hx).mono (List.subset_cons_self f fs)
    · exact (hlines x hx).mono (by simp)

/-- **One level of inlining:** the lines of a definition are its own and those of the objects that
it inlines. -/
theorem defineWith_origin {d : Definition} {t : Target} {ds : List Define}
    (h : defineWith inline s d t = .ok ds) :
    ∀ x ∈ ds, x = lineOf s.owner d t ∨ FromReference inline s d.name t d.body x := by
  unfold defineWith at h
  obtain ⟨y, hy, h⟩ := bind_eq_ok_iff.1 (within_eq_ok_iff.1 h)
  cases h
  obtain ⟨htext, hlines⟩ := fragments_origin hy
  intro x hx
  rcases List.mem_append.1 hx with hx | hx
  · exact .inr (hlines x hx)
  · rw [List.mem_singleton.1 hx, htext]
    exact .inl rfl

/-- The last line of a definition is its own. -/
theorem define_eq_append_lineOf {d : Definition} {t : Target} {ds : List Define}
    (h : define s d t = .ok ds) : ∃ es, ds = es ++ [lineOf s.owner d t] := by
  rw [define_eq, defineAt_eq] at h
  unfold defineWith at h
  obtain ⟨y, hy, h⟩ := bind_eq_ok_iff.1 (within_eq_ok_iff.1 h)
  cases h
  rw [(fragments_origin hy).1]
  exact ⟨y.1, rfl⟩

/-- In a definition that can be expanded, so can each fragment. -/
theorem exists_fragment_of_define {d : Definition} {t : Target} {ds : List Define}
    (h : define s d t = .ok ds) {f : Fragment} (hf : f ∈ d.body) :
    ∃ inline z, fragment inline s d.name t f = .ok z := by
  rw [define_eq, defineAt_eq, defineWith] at h
  obtain ⟨y, hy, -⟩ := bind_eq_ok_iff.1 (within_eq_ok_iff.1 h)
  exact ⟨_, exists_fragments_eq_ok_iff.1 ⟨y, hy⟩ f hf⟩

end Expansion

/-! ## Origins -/

/-- With these values a statement's definition is expanded in its own module. -/
inductive Statement.Binds : Statement → Option Expansion.Binding → Prop
  | object (d : Definition) : Binds (.object d) none
  | exported (d : Definition) : Binds (.exported d) none
  | template (t : Template) (values : List Int) : values.length = t.slotNames.length →
      Binds (.template t) (some (t.slotNames.zip values))

namespace Expansion

/-- There may be a line for the definition and the target in the output of the module. -/
inductive IsOrigin (r : Registry) (m : Module) : Definition → Target → Prop
  /-- A declaration of the module. -/
  | own {c : Statement} {d : Definition} {b : Option Binding} : c ∈ m.body →
      c.declared? = some d → c.Binds b → IsOrigin r m d ⟨m.name, c.isDecorated, b⟩
  /-- An object of another module, inlined into something else that has a line. -/
  | inlined {d e : Definition} {t : Target} {k : Module} {owner object : String} :
      IsOrigin r m d t → .foreign owner object true ∈ d.body → r.find? owner = some k →
      k.object? object = some e → IsOrigin r m e ⟨t.inlineStem d.name owner, false, none⟩

/-- The line is made from something that may have a line. -/
def HasOrigin (r : Registry) (m : Module) (x : Define) : Prop :=
  ∃ d t, IsOrigin r m d t ∧ x = lineOf m d t

/-- The scope belongs to the module: what it imports is registered, and its templates stand in the
module. -/
structure Scope.Inside (r : Registry) (m : Module) (s : Scope) : Prop where
  owner : s.owner = m
  imports : ∀ k ∈ s.imports, r.find? k.name = some k
  templates : ∀ t ∈ s.templates, .template t ∈ m.body

variable {r : Registry} {m : Module} {s : Scope}

theorem Scope.Inside.find? (hs : s.Inside r m) {owner : String} {k : Module}
    (hk : s.import? owner = some k) : r.find? owner = some k := by
  have hname := Scope.name_of_import? hk
  rw [← hname]
  exact hs.imports k (List.mem_of_find?_eq_some hk)

variable (r) in
/-- Whatever a definition with the property inlines has it too. -/
def KeptByInlining (q : Definition → Target → Prop) : Prop :=
  ∀ ⦃d t k owner object e⦄, q d t → .foreign owner object true ∈ d.body → r.find? owner = some k →
    k.object? object = some e → q e ⟨t.inlineStem d.name owner, false, none⟩

variable {q : Definition → Target → Prop}

/-- The lines of a definition come from it and from what it inlines, however deep. -/
theorem defineAt_origin (hs : s.Inside r m) (hq : KeptByInlining r q) {n : Nat} {d : Definition}
    {t : Target} {ds : List Define} (hd : q d t) (h : defineAt s n d t = .ok ds) :
    ∀ x ∈ ds, ∃ d t, q d t ∧ x = lineOf m d t := by
  -- each reference takes one level of the limit and leads from one origin to another
  induction n generalizing d t ds with
  | zero =>
    intro x hx
    rcases defineWith_origin h x hx with rfl | ⟨_, _, _, _, _, _, hes, _⟩
    · exact ⟨d, t, hd, by rw [hs.owner]⟩
    · cases hes
  | succ n ih =>
    intro x hx
    rcases defineWith_origin h x hx with rfl | ⟨owner, object, e, es, hmem, he, hes, hx⟩
    · exact ⟨d, t, hd, by rw [hs.owner]⟩
    · obtain ⟨k, hk, he⟩ := Scope.object?_eq_some_iff.1 he
      exact ih (hq hd hmem (hs.find? hk) he) hes x hx

/-! ## Modules -/

theorem Reaches.inside {d : Definition} {t : Target} (h : Reaches r m s d t) : s.Inside r m := by
  obtain ⟨before, c, after, hbody, hscope, -⟩ := h
  obtain ⟨howner, himports, htemplates⟩ := scope_of_start hscope
  refine ⟨howner, himports, fun t ht => ?_⟩
  rw [htemplates] at ht
  obtain ⟨a, ha, hat⟩ := List.mem_filterMap.1 ht
  rw [hbody, ← Statement.template?_eq_some_iff.1 hat]
  exact List.mem_append_left _ ha

/-- What the expansion of a module gets to is declared there. -/
theorem Reaches.exists_statement {d : Definition} {t : Target} (h : Reaches r m s d t) :
    ∃ c ∈ m.body, ∃ b, c.declared? = some d ∧ c.Binds b ∧ t = ⟨m.name, c.isDecorated, b⟩ := by
  have hs := h.inside
  obtain ⟨before, c, after, hbody, -, h⟩ := h
  have hc : c ∈ m.body := by
    rw [hbody]
    exact List.mem_append_right _ List.mem_cons_self
  cases h with
  | object d | exported d =>
    rw [hs.owner]
    exact ⟨_, hc, none, rfl, by constructor, rfl⟩
  | @instances name t ranges _ _ _ values ht hcount _ hsplit _ =>
    have hlength : values.length = ranges.length := by
      apply length_of_mem_rangeTuples
      rw [hsplit]
      exact List.mem_append_right _ List.mem_cons_self
    rw [hs.owner]
    exact ⟨.template t, hs.templates t (List.mem_of_find?_eq_some ht), _, rfl,
      .template t values (hlength.trans hcount), rfl⟩

theorem Reaches.isOrigin {d : Definition} {t : Target} (h : Reaches r m s d t) :
    IsOrigin r m d t := by
  obtain ⟨c, hc, b, hd, hb, rfl⟩ := h.exists_statement
  exact .own hc hd hb

/-- **What holds of all that the expansion of a module gets to, and is kept by inlining, holds of
the origin of each line.** -/
theorem lines_origin (hown : ∀ s d t, Reaches r m s d t → q d t) (hq : KeptByInlining r q)
    {bs : List Block} (h : blocks r m = .ok bs) :
    ∀ x ∈ bs.flatMap Block.lines, ∃ d t, q d t ∧ x = lineOf m d t := by
  intro x hx
  obtain ⟨s, d, t, ds, hreach, hds, hx⟩ := blocks_lines h x hx
  rw [define_eq] at hds
  exact defineAt_origin hreach.inside hq (hown s d t hreach) hds x hx

/-- **Every line of a module has an origin.** -/
theorem blocks_origin {bs : List Block} (h : blocks r m = .ok bs) :
    ∀ x ∈ bs.flatMap Block.lines, HasOrigin r m x := by
  have hkept : KeptByInlining r (IsOrigin r m) :=
    fun _ _ _ _ _ _ hd hmem hk he => hd.inlined hmem hk he
  exact lines_origin (fun _ _ _ hreach => hreach.isOrigin) hkept h

end Expansion

end MacroModules
