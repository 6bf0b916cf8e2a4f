import MacroModules.Proofs.Document.Typed

/-!
# Names in documents

Definitions are named by letters and digits, and so are the modules and objects that bodies refer
to: a reference into a module whose name has an underscore cannot be written. Only the names of
modules themselves may have underscores in them.

* `isName`: letters and digits, beginning with a letter.
* `Fragment.Named`, `Definition.Named`, `Module.Named`: the property, layer by layer.
* `Module.declaredNames`: if they are distinct, a name has one statement.
* `Module.IsRead`, `Module.IsRead.stands`: a module that has been read, and where its statements
  stand in the text.
* `Module.IsRead.named`: **every module that has been read has such names in it**.
-/

namespace MacroModules

/-- Letters and digits, beginning with a letter. -/
def isName (word : String) : Bool :=
  word.toList.head?.any Char.isAlpha && word.toList.all Char.isAlphanum

theorem isName_iff {word : String} : isName word ↔
    (∃ c cs, word.toList = c :: cs ∧ c.isAlpha) ∧ ∀ c ∈ word.toList, c.isAlphanum := by
  unfold isName
  rw [Bool.and_eq_true, List.all_eq_true]
  cases word.toList with
  | nil => simp
  | cons c cs => simp

theorem notMem_of_isName {c : Char} (hc : c.isAlphanum = false) {word : String}
    (h : isName word) : c ∉ word.toList := by
  intro hmem
  have halphanum := (isName_iff.1 h).2 c hmem
  rw [hc] at halphanum
  cases halphanum

theorem underscore_notMem_of_isName {word : String} (h : isName word) : '_' ∉ word.toList :=
  notMem_of_isName (by decide) h

theorem isName_of_mem_tokens {text : String} {t : Token} (ht : t ∈ tokens text)
    (hkind : t.kind = .name) : isName t.text := by
  obtain ⟨before, l, after, hsplit, rfl⟩ := mem_tokens ht
  have hl : l ∈ Lexeme.split text.toList := by
    rw [hsplit]
    simp
  have htext : (l.toToken (.behind (before.flatMap Lexeme.text))).text.toList = l.text :=
    String.toList_ofList
  rw [isName_iff, htext]
  exact ⟨Lexeme.isAlpha_of_mem_split hl hkind, (Lexeme.spelled_of_mem_split hl).name hkind⟩

/-! ## The property -/

/-- A reference is made of names. -/
def Fragment.Named : Fragment → Prop
  | .foreign owner object _ => isName owner ∧ isName object
  | .text _ | .slot _ | .word _ | .call _ _ | .unknown _ => True

/-- A definition has a name, and its references are made of names. -/
structure Definition.Named (d : Definition) : Prop where
  name : isName d.name
  body : ∀ f ∈ d.body, f.Named

/-- What a module declares is named. -/
def Module.Named (m : Module) : Prop :=
  ∀ s ∈ m.body, ∀ d, s.declared? = some d → d.Named

/-- The module stands in a text that has been read. -/
def Module.IsRead (m : Module) : Prop :=
  ∃ source d, Document.read source = .ok d ∧ m ∈ d.modules

theorem Statement.declared?_of_object? {c : Statement} {d : Definition} (h : c.object? = some d) :
    c.declared? = some d := by
  cases c with
  | object | exported => exact h
  | template | imports | instances | comment | unknown => cases h

/-- An object that others may refer to is named, and has the name by which it is found. -/
theorem Module.Named.object? {m : Module} (h : m.Named) {name : String} {d : Definition}
    (hd : m.object? name = some d) : d.Named ∧ d.name = name := by
  have hname : d.name = name := by simpa using List.find?_some hd
  obtain ⟨s, hs, hobject⟩ := List.mem_filterMap.1 (List.mem_of_find?_eq_some hd)
  exact ⟨h s hs d (Statement.declared?_of_object? hobject), hname⟩

/-! ## Declared names -/

/-- The names that the statements of a module declare. -/
def Module.declaredNames (m : Module) : List String :=
  (m.body.filterMap Statement.declared?).map (·.name)

/-- Statements that declare the same name are the same, if no name is declared twice. -/
theorem Module.statement_eq_of_name {m : Module} (h : m.declaredNames.Nodup) {a c : Statement}
    {d e : Definition} (ha : a ∈ m.body) (hc : c ∈ m.body) (hd : a.declared? = some d)
    (he : c.declared? = some e) (hname : d.name = e.name) : a = c := by
  rw [declaredNames, List.Nodup, List.pairwise_map, List.pairwise_filterMap] at h
  by_contra hne
  have hsymm : Std.Symm fun a c : Statement => ∀ d, a.declared? = some d → ∀ e,
      c.declared? = some e → d.name ≠ e.name := ⟨fun a c h d hd e he => (h e he d hd).symm⟩
  exact h.forall ha hc hne d hd e he hname

/-! ## Reading -/

namespace Grammar

variable {numeral : String → Prop} {ts : List Token}

variable (numeral ts) in
/-- The statement is a comment among the tokens, or an item that some of them in a row make up. -/
def Stands (s : Statement) : Prop :=
  (∃ t ∈ ts, t.kind = .comment ∧ s = .comment t.text) ∨ ∃ us, us <:+: ts ∧ Item numeral us s

theorem Stands.mono {us : List Token} {s : Statement} (h : Stands numeral us s)
    (hus : us <:+: ts) : Stands numeral ts s := by
  rcases h with ⟨t, ht, hcomment⟩ | ⟨vs, hvs, hitem⟩
  · exact .inl ⟨t, hus.subset ht, hcomment⟩
  · exact .inr ⟨vs, hvs.trans hus, hitem⟩

/-- Each statement of a body stands there. -/
theorem Items.stands {ss : List Statement} (h : Items numeral ts ss) :
    ∀ s ∈ ss, Stands numeral ts s := by
  induction h with
  | nil => simp
  | @space t ts _ _ _ ih => exact fun s hs => (ih s hs).mono (List.suffix_cons t ts).isInfix
  | @comment t ts _ hcomment _ ih =>
    refine List.forall_mem_cons.2 ⟨.inl ⟨t, List.mem_cons_self, hcomment, rfl⟩, fun s hs => ?_⟩
    exact (ih s hs).mono (List.suffix_cons t ts).isInfix
  | @item us ts _ _ hitem _ ih =>
    refine List.forall_mem_cons.2
      ⟨.inr ⟨us, (List.prefix_append us ts).isInfix, hitem⟩, fun s hs => ?_⟩
    exact (ih s hs).mono (List.suffix_append us ts).isInfix

/-- Each module of a document stands there. -/
theorem File.moduleForm_of_mem {ss : List Section} (h : File numeral ts ss) {m : Module}
    (hm : .code m ∈ ss) : ∃ us, us <:+: ts ∧ ModuleForm numeral us m := by
  induction h with
  | nil => cases hm
  | @code us ts m' _ hform _ ih =>
    rcases List.mem_cons.1 hm with hcode | hm
    · cases hcode
      exact ⟨us, (List.prefix_append us ts).isInfix, hform⟩
    · obtain ⟨vs, hvs, hform⟩ := ih hm
      exact ⟨vs, hvs.trans (List.suffix_append us ts).isInfix, hform⟩
  | @raw run ts _ _ _ _ _ ih =>
    rcases List.mem_cons.1 hm with hcode | hm
    · cases hcode
    · obtain ⟨vs, hvs, hform⟩ := ih hm
      exact ⟨vs, hvs.trans (List.suffix_append run ts).isInfix, hform⟩

end Grammar

/-- **Whatever has been read stands in the text:** the name of a module, and each of its statements,
as tokens in a row. -/
theorem Module.IsRead.stands {m : Module} (h : m.IsRead) : ∃ text,
    (∃ name ∈ tokens text, Grammar.IsModuleName name ∧ m.name = name.text) ∧
      ∀ s ∈ m.body, Grammar.Stands Grammar.ShortNumeral (tokens text) s := by
  obtain ⟨source, d, hread, hm⟩ := h
  obtain ⟨c, hc, hcode⟩ := List.mem_filterMap.1 hm
  obtain ⟨-, hfile⟩ := Grammar.read_eq_ok_iff.1 hread
  cases c with
  | raw | unknown => cases hcode
  | code m' =>
    cases hcode
    obtain ⟨us, hus, hform⟩ := hfile.moduleForm_of_mem hc
    cases hform with
    | @intro sign name opener closer gap gap' ts body _ _ hname _ _ hitems _ =>
      refine ⟨source.text, ⟨name, hus.subset (by simp), hname, rfl⟩, fun s hs => ?_⟩
      refine (hitems.stands s hs).mono (List.IsInfix.trans ?_ hus)
      exact ⟨sign :: gap ++ name :: gap' ++ [opener], [closer], by simp⟩

namespace Body

variable (h : Header)

/-- A body refers to modules and objects by names. -/
theorem named_fragments {ts : List Token} (hts : ∀ t ∈ ts, t.kind = .name → isName t.text) :
    ∀ f ∈ fragments h ts, f.Named := by
  intro f hf
  obtain ⟨run, rest, hsub, hrun⟩ := exists_run_of_mem hf
  cases hrun with
  | text | word => trivial
  | shape hs =>
    cases hs with
    | slot | call => trivial
    | @foreign name sep object inlined hname _ _ hobject =>
      exact ⟨hts name (hsub.subset (by simp)) hname, hts object (hsub.subset (by simp)) hobject⟩

end Body

namespace Grammar

variable {numeral : String → Prop} {ts : List Token}

theorem Defined.named {name : Token} {h : Reader.Header} {d : Definition}
    (hd : Defined name ts h d) (hname : name.kind = .name)
    (hts : ∀ t ∈ name :: ts, t.kind = .name → isName t.text) : d.Named := by
  cases hd with
  | @intro head line _ h _ _ _ _ =>
    refine ⟨hts name List.mem_cons_self hname, fun f hf => ?_⟩
    rcases List.mem_append.1 hf with hf | hf
    · obtain ⟨args, -, rfl⟩ := List.mem_map.1 hf
      trivial
    · refine Body.named_fragments h.scope (fun t ht => hts t ?_) f hf
      simp [ht]

theorem Item.named {s : Statement} (h : Item numeral ts s)
    (hts : ∀ t ∈ ts, t.kind = .name → isName t.text) : ∀ d, s.declared? = some d → d.Named := by
  intro d hd
  cases h with
  | object hname hdef _ | template hname hdef _ =>
    cases hd
    exact hdef.named hname hts
  | exported _ _ hname hdef _ =>
    cases hd
    exact hdef.named hname fun t ht => hts t (List.mem_append_right _ ht)
  | imports | instances => cases hd

end Grammar

/-- **Every module that has been read has names in it.** -/
theorem Module.IsRead.named {m : Module} (h : m.IsRead) : m.Named := by
  obtain ⟨text, -, hstands⟩ := h.stands
  intro s hs d hd
  rcases hstands s hs with ⟨t, -, -, rfl⟩ | ⟨us, hus, hitem⟩
  · cases hd
  · exact hitem.named (fun t ht => isName_of_mem_tokens (hus.subset ht)) d hd

end MacroModules
