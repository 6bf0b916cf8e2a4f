import MacroModules.Proofs.Document.Named

/-!
# What stands on one line

A definition is over at the end of its line, a comment too, and no other token goes on to the next
line. So nothing of what a module is made of has a line feed in it.

* `OneLine`: a text without a line feed.
* `Fragment.OneLine`, `Definition.OneLine`, `Module.OneLine`: the property, layer by layer.
* `Body.oneLine_fragments`: a body is made of the texts of its tokens.
* `Module.IsRead.oneLine`: **every module that has been read is made of such texts**.
-/

namespace MacroModules

/-! ## Texts -/

/-- The text has no line feed in it. -/
def OneLine (x : String) : Prop := '\n' ∉ x.toList

instance (x : String) : Decidable (OneLine x) :=
  inferInstanceAs (Decidable ('\n' ∉ x.toList))

@[simp] theorem oneLine_append_iff {x y : String} : OneLine (x ++ y) ↔ OneLine x ∧ OneLine y := by
  simp [OneLine]

theorem oneLine_join {xs : List String} (h : ∀ x ∈ xs, OneLine x) : OneLine (String.join xs) := by
  simpa [OneLine] using h

theorem notMem_intercalate {c : Char} {sep : String} (hsep : c ∉ sep.toList) {xs : List String}
    (h : ∀ x ∈ xs, c ∉ x.toList) : c ∉ (sep.intercalate xs).toList := by
  induction xs with
  | nil => simp
  | cons x xs ih =>
    obtain ⟨hx, hxs⟩ := List.forall_mem_cons.1 h
    cases xs with
    | nil => rwa [String.intercalate_singleton]
    | cons y ys =>
      simp only [String.intercalate_cons_cons, String.toList_append, List.mem_append, not_or]
      exact ⟨⟨hx, hsep⟩, ih hxs⟩

theorem oneLine_intercalate {sep : String} (hsep : OneLine sep) {xs : List String}
    (h : ∀ x ∈ xs, OneLine x) : OneLine (sep.intercalate xs) :=
  notMem_intercalate hsep h

theorem oneLine_of_isName {x : String} (h : isName x) : OneLine x := notMem_of_isName (by decide) h

theorem oneLine_of_isArgument {x : String} (h : IsArgument x) : OneLine x := by
  rcases h with rfl | ⟨-, h⟩
  · decide
  · intro hmem
    exact absurd (h '\n' hmem) (by decide)

/-- A token that does not end a line has no line feed. -/
theorem oneLine_of_mem_tokens {text : String} {t : Token} (ht : t ∈ tokens text)
    (hkind : t.kind ≠ .newline) : OneLine t.text := by
  obtain ⟨before, l, after, hsplit, rfl⟩ := mem_tokens ht
  have hl : l ∈ Lexeme.split text.toList := by
    rw [hsplit]
    simp
  have htext : (l.toToken (.behind (before.flatMap Lexeme.text))).text.toList = l.text :=
    String.toList_ofList
  rw [OneLine, htext]
  exact (closesLine_split text l hl).other hkind

/-! ## The property -/

/-- All texts and names in the fragment are without line feeds. -/
def Fragment.OneLine : Fragment → Prop
  | .text value | .word value => MacroModules.OneLine value
  | .foreign owner object _ => MacroModules.OneLine owner ∧ MacroModules.OneLine object
  | .call name args => MacroModules.OneLine name ∧ ∀ arg ∈ args, MacroModules.OneLine arg
  | .slot _ | .unknown _ => True

/-- A definition's name and body are without line feeds. -/
structure Definition.OneLine (d : Definition) : Prop where
  name : MacroModules.OneLine d.name
  body : ∀ f ∈ d.body, f.OneLine

/-- A module's name, comments and definitions are without line feeds. -/
structure Module.OneLine (m : Module) : Prop where
  name : MacroModules.OneLine m.name
  comment : ∀ value, .comment value ∈ m.body → MacroModules.OneLine value
  definition : ∀ s ∈ m.body, ∀ d, s.declared? = some d → d.OneLine

theorem Module.OneLine.object? {m : Module} (h : m.OneLine) {name : String} {d : Definition}
    (hd : m.object? name = some d) : d.OneLine := by
  obtain ⟨s, hs, hobject⟩ := List.mem_filterMap.1 (List.mem_of_find?_eq_some hd)
  exact h.definition s hs d (Statement.declared?_of_object? hobject)

/-! ## Reading -/

namespace Body

variable {h : Header} {ts : List Token}

theorem Listed.exists_name {expectsArg : Bool} {args : List String}
    (hl : Listed h expectsArg ts args) : ∀ arg ∈ args, ∃ t ∈ ts, t.kind = .name ∧ t.text = arg := by
  induction hl with
  | done => simp
  | comma _ _ ih =>
    intro arg harg
    obtain ⟨t, ht, hname⟩ := ih arg harg
    exact ⟨t, List.mem_cons_of_mem _ ht, hname⟩
  | @argument u us args hkind _ _ ih =>
    refine List.forall_mem_cons.2 ⟨⟨u, List.mem_cons_self, hkind, rfl⟩, fun arg harg => ?_⟩
    obtain ⟨t, ht, hname⟩ := ih arg harg
    exact ⟨t, List.mem_cons_of_mem _ ht, hname⟩

/-- A body is made of the texts of its tokens. -/
theorem oneLine_fragments (hts : ∀ t ∈ ts, OneLine t.text) : ∀ f ∈ fragments h ts, f.OneLine := by
  intro f hf
  obtain ⟨run, rest, hsub, hrun⟩ := exists_run_of_mem hf
  have htoken : ∀ t ∈ run, OneLine t.text := fun t ht => hts t (hsub.subset ht)
  cases hrun with
  | text =>
    refine oneLine_join fun x hx => ?_
    obtain ⟨t, ht, rfl⟩ := List.mem_map.1 hx
    split
    · decide
    · exact htoken t ht
  | word => exact htoken _ List.mem_cons_self
  | shape hs =>
    cases hs with
    | slot => trivial
    | @foreign name sep object => exact ⟨htoken name (by simp), htoken object (by simp)⟩
    | @call name opener closer inner args _ _ _ hlisted _ =>
      refine ⟨htoken name (by simp), fun arg harg => ?_⟩
      obtain ⟨t, ht, -, rfl⟩ := hlisted.exists_name arg harg
      have hinner : t ∈ inner := List.mem_of_mem_filter ht
      exact htoken t (by simp [hinner])

end Body

namespace Grammar

variable {numeral : String → Prop} {text : String} {us ts : List Token}

theorem Head.isArgument {h : Reader.Header} (hh : Head ts h) (hts : Spelled ts) :
    ∀ args ∈ h.args, ∀ arg ∈ args, IsArgument arg := by
  cases hh with
  | plain | params => intro args hargs; cases hargs
  | args ha => rintro args ⟨⟩; exact ha.isArgument hts
  | both _ ha => rintro args ⟨⟩; exact ha.isArgument hts.right

theorem Defined.oneLine {name : Token} {h : Reader.Header} {d : Definition}
    (hd : Defined name ts h d) (hname : name.kind = .name)
    (hts : ∀ t ∈ name :: ts, t ∈ tokens text) : d.OneLine := by
  cases hd with
  | @intro head line lineEnd h hhead hline _ _ =>
    refine ⟨oneLine_of_isName (isName_of_mem_tokens (hts name List.mem_cons_self) hname), ?_⟩
    intro f hf
    rcases List.mem_append.1 hf with hf | hf
    · obtain ⟨args, hargs, rfl⟩ := List.mem_map.1 hf
      have hhead := hhead.isArgument fun t ht => isArgument_of_mem_tokens (hts t (by simp [ht]))
      have hlist : OneLine (", ".intercalate args) :=
        oneLine_intercalate (by decide) fun arg harg =>
          oneLine_of_isArgument (hhead args (Option.mem_toList.1 hargs) arg harg)
      show OneLine ("(" ++ ", ".intercalate args ++ ")")
      simp only [oneLine_append_iff]
      exact ⟨⟨by decide, hlist⟩, by decide⟩
    · refine Body.oneLine_fragments (fun t ht => ?_) f hf
      exact oneLine_of_mem_tokens (hts t (by simp [ht])) (hline t ht)

theorem Item.oneLine {s : Statement} (h : Item numeral us s) (hus : ∀ t ∈ us, t ∈ tokens text) :
    ∀ d, s.declared? = some d → d.OneLine := by
  intro d hd
  cases h with
  | object hname hdef _ | template hname hdef _ =>
    cases hd
    exact hdef.oneLine hname hus
  | exported _ _ hname hdef _ =>
    cases hd
    exact hdef.oneLine hname fun t ht => hus t (List.mem_append_right _ ht)
  | imports | instances => cases hd

end Grammar

/-- **Every module that has been read is made of texts without line feeds.** -/
theorem Module.IsRead.oneLine {m : Module} (h : m.IsRead) : m.OneLine := by
  obtain ⟨text, ⟨name, hmem, hkind, hname⟩, hstands⟩ := h.stands
  refine ⟨?_, fun value hvalue => ?_, fun s hs d hd => ?_⟩
  · rw [hname]
    refine oneLine_of_mem_tokens hmem ?_
    rcases hkind with hkind | hkind <;> rw [hkind] <;> decide
  · rcases hstands _ hvalue with ⟨t, ht, hcomment, hvalue⟩ | ⟨us, -, hitem⟩
    · cases hvalue
      exact oneLine_of_mem_tokens ht (by rw [hcomment]; decide)
    · cases hitem
  · rcases hstands s hs with ⟨t, -, -, rfl⟩ | ⟨us, hus, hitem⟩
    · cases hd
    · exact hitem.oneLine (fun t ht => hus.subset ht) d hd

end MacroModules
