import MacroModules.Document.Outline
import MacroModules.Proofs.Document.Runs
import MacroModules.Proofs.Grammar.Reading
import MacroModules.Proofs.Token.Place

/-!
# Documents that can be expanded

What a document is made of can express more than a text: slots that nothing binds, say. Reading a
text yields none of that. The names of a definition's slots and arguments decide what its body may
refer to, and `Typed` says that it refers to nothing else.

* `Fragment.Typed`, `Definition.Typed`, `Template.Typed`, ..., `Document.Typed`: the property, layer
  by layer.
* `Body.typed_fragments`, `Param.bound_ofNames`: bodies and parameter lists that have been read.
* `read_typed`: **every document that has been read is typed**.
* `refused?_eq_none`: a typed document has an outline to its end.
-/

namespace MacroModules

/-! ## The property -/

/-- The fragment refers to these slots and arguments only. -/
def Fragment.Typed (slots args : List String) : Fragment → Prop
  | .text _ | .word _ | .foreign _ _ _ => True
  | .slot index => 0 ≤ index ∧ index < slots.length
  | .call _ names => ∀ name ∈ names, name ∈ slots ∨ name ∈ args
  | .unknown _ => False

/-- What may stand in a list of arguments: a name, or three dots. -/
def IsArgument (word : String) : Prop :=
  word = "..." ∨ word ≠ "" ∧ ∀ c ∈ word.toList, c.isAlphanum

/-- The body refers to these slots only, and to the arguments that stand in front of it. A body
without slots has no fragment for one. -/
inductive Definition.Typed (slots : List String) : Definition → Prop
  | plain {name : String} {fs : List Fragment} :
      (∀ f ∈ fs, f.Typed slots []) → Definition.Typed slots ⟨name, fs⟩
  | function {name : String} {args : List String} {fs : List Fragment} :
      (∀ a ∈ args, IsArgument a) → (∀ f ∈ fs, f.Typed slots args) →
      Definition.Typed slots ⟨name, .text ("(" ++ ", ".intercalate args ++ ")") :: fs⟩

/-- Every repeated parameter stands for a slot opened before it. -/
def Param.Bound (params : List Param) : Prop :=
  ∀ before slot after, params = before ++ .again slot :: after →
    0 ≤ slot ∧ slot < (slotNames before).length

/-- The body refers to the template's own slots, and so do repeated parameters. -/
structure Template.Typed (t : Template) : Prop where
  params : Param.Bound t.params
  definition : t.definition.Typed t.slotNames

/-- Only the bodies of templates have slots. -/
def Statement.Typed : Statement → Prop
  | .object d | .exported d => d.Typed []
  | .template t => t.Typed
  | .imports _ | .instances _ _ | .comment _ => True
  | .unknown _ => False

/-- All statements are typed. -/
def Module.Typed (m : Module) : Prop := ∀ s ∈ m.body, s.Typed

/-- A section is raw text or a typed module. -/
def Section.Typed : Section → Prop
  | .raw _ => True
  | .code m => m.Typed
  | .unknown _ => False

/-- All sections are typed. -/
def Document.Typed (d : Document) : Prop := ∀ c ∈ d.sections, c.Typed

/-- Whatever its arguments are, a fragment of a typed body is typed. -/
theorem Definition.Typed.fragment {slots : List String} {d : Definition} (h : d.Typed slots) :
    ∀ f ∈ d.body, ∃ args, f.Typed slots args := by
  intro f hf
  cases h with
  | plain hfs => exact ⟨_, hfs f hf⟩
  | function hargs hfs =>
    rcases List.mem_cons.1 hf with rfl | hf
    · exact ⟨[], trivial⟩
    · exact ⟨_, hfs f hf⟩

/-! ## Bodies -/

namespace Body

variable (h : Header)

/-- **A body refers to what its header has** and to nothing else. -/
theorem typed_fragments (ts : List Token) : ∀ f ∈ fragments h ts, f.Typed h.slots h.args := by
  intro f hf
  obtain ⟨run, rest, -, hrun⟩ := exists_run_of_mem hf
  cases hrun with
  | text | word => trivial
  | shape hs =>
    cases hs with
    | @slot t i _ hi =>
      have hlt : i < h.slots.length := (List.getElem?_eq_some_iff.1 hi).1
      exact ⟨Int.natCast_nonneg i, by exact_mod_cast hlt⟩
    | foreign => trivial
    | call _ _ _ hlisted _ => exact hlisted.mem

end Body

/-! ## Parameters -/

namespace Param

/-- A repeated name has its slot among those open before. -/
theorem bound_ofNamesAfter {seen names : List String} {before after : List Param} {slot : Int}
    (h : ofNamesAfter seen names = before ++ .again slot :: after) :
    0 ≤ slot ∧ slot < seen.length + (slotNames before).length := by
  fun_induction ofNamesAfter seen names generalizing before with
  | case1 => simp at h
  | case2 seen name names i hi ih =>
    cases before with
    | nil =>
      cases h
      -- the first entry repeats a name: its slot is one of those open from the beginning
      obtain ⟨hlt, -⟩ := List.idxOf?_eq_some_iff.1 hi
      simp only [slotNames, List.filterMap_nil, List.length_nil]
      omega
    | cons p before =>
      obtain ⟨rfl, hrest⟩ := List.cons.inj h
      simpa [slotNames, List.filterMap_cons, freshName?] using ih hrest
  | case3 seen name names _ ih =>
    cases before with
    | nil => cases h
    | cons p before =>
      obtain ⟨rfl, hrest⟩ := List.cons.inj h
      have := ih hrest
      simp only [slotNames, List.filterMap_cons, freshName?, List.length_append, List.length_cons,
        List.length_nil] at this ⊢
      omega

theorem bound_ofNames (names : List String) : Bound (ofNames names) := by
  intro before slot after h
  simpa using bound_ofNamesAfter h

end Param

/-! ## Reading -/

theorem isArgument_of_mem_tokens {text : String} {t : Token} (ht : t ∈ tokens text)
    (hkind : t.kind = .name ∨ t.kind = .ellipsis) : IsArgument t.text := by
  have hne := (text_of_mem_tokens ht).2.1
  obtain ⟨_, l, _, hls, rfl⟩ := mem_tokens ht
  have hl := Lexeme.spelled_of_mem_split (hls ▸ by simp : l ∈ Lexeme.split text.toList)
  rcases hkind with hkind | hkind
  · exact .inr ⟨hne, by simpa [Lexeme.toToken] using hl.name hkind⟩
  · exact .inl (by simp [Lexeme.toToken, hl.ellipsis hkind])

namespace Grammar

variable {numeral : String → Prop} {ts : List Token}

/-- The tokens that may be arguments are spelled like arguments. -/
def Spelled (ts : List Token) : Prop :=
  ∀ t ∈ ts, t.kind = .name ∨ t.kind = .ellipsis → IsArgument t.text

theorem Spelled.left {us : List Token} (h : Spelled (ts ++ us)) : Spelled ts :=
  fun t ht => h t (List.mem_append_left us ht)

theorem Spelled.right {us : List Token} (h : Spelled (ts ++ us)) : Spelled us :=
  fun t ht => h t (List.mem_append_right ts ht)

theorem Spelled.tail {t : Token} (h : Spelled (t :: ts)) : Spelled ts :=
  fun u hu => h u (List.mem_cons_of_mem t hu)

theorem ArgList.isArgument {es : List (List String)} (h : ArgList ts es) (hts : Spelled ts) :
    ∀ a ∈ es.flatten, IsArgument a := by
  intro a ha
  obtain ⟨e, he, ha⟩ := List.mem_flatten.1 ha
  cases h with
  | intro _ h =>
    cases h with
    | empty => cases he
    | entries hes _ =>
      obtain ⟨us, hus, hkinds, rfl⟩ := hes.tokens e he
      obtain ⟨t, ht, rfl⟩ := List.mem_map.1 ha
      refine hts t (List.mem_cons_of_mem _ (List.mem_append_left _ (hus.subset ht))) ?_
      have hk := List.mem_map_of_mem (f := (·.kind)) ht
      rcases List.mem_cons.1 hkinds with hkinds | hkinds
      · rw [hkinds] at hk
        exact .inl (List.mem_singleton.1 hk)
      · rw [List.mem_singleton.1 hkinds] at hk
        exact .inr (List.mem_singleton.1 hk)

theorem Defined.typed {name : Token} {h : Reader.Header} {d : Definition}
    (hd : Defined name ts h d) (hts : Spelled ts) : d.Typed (Param.slotNames h.paramList) := by
  cases hd with
  | @intro head line _ h hhead _ _ _ =>
    have hfs := Body.typed_fragments h.scope line
    cases hhead with
    | plain | params => exact .plain hfs
    | args hargs => exact .function (hargs.isArgument hts.left.left) hfs
    | both _ hargs => exact .function (hargs.isArgument hts.left.left.right) hfs

theorem Item.typed {s : Statement} (h : Item numeral ts s) (hts : Spelled ts) : s.Typed := by
  have hobject : ∀ {name : Token} {us : List Token} {h : Reader.Header} {d : Definition},
      Defined name us h d → h.params = none → Spelled us → d.Typed [] := by
    intro name us h d hd hp hus
    have hslots : Param.slotNames h.paramList = [] := by
      rw [Reader.Header.paramList, hp]
      rfl
    exact hslots ▸ hd.typed hus
  cases h with
  | object _ hd hp => exact hobject hd hp hts.tail
  | template _ hd _ => exact ⟨Param.bound_ofNames _, hd.typed hts.tail⟩
  | exported _ _ _ hd hp => exact hobject hd hp hts.right.tail
  | imports | instances => trivial

theorem Items.typed {ss : List Statement} (h : Items numeral ts ss) (hts : Spelled ts) :
    ∀ s ∈ ss, s.Typed := by
  induction h with
  | nil => simp
  | space _ _ ih => exact ih hts.tail
  | comment _ _ ih => exact List.forall_mem_cons.2 ⟨trivial, ih hts.tail⟩
  | item hitem _ ih => exact List.forall_mem_cons.2 ⟨hitem.typed hts.left, ih hts.right⟩

theorem File.typed {ss : List Section} (h : File numeral ts ss) (hts : Spelled ts) :
    ∀ c ∈ ss, c.Typed := by
  induction h with
  | nil => simp
  | code hm _ ih =>
    refine List.forall_mem_cons.2 ⟨?_, ih hts.right⟩
    cases hm with
    | intro _ _ _ _ _ hitems _ => exact hitems.typed hts.left.left.right.tail
  | raw _ _ _ _ ih => exact List.forall_mem_cons.2 ⟨trivial, ih hts.right⟩

end Grammar

/-- **Every document that has been read is typed.** -/
theorem read_typed {source : Source} {d : Document} (h : Document.read source = .ok d) :
    d.Typed := by
  obtain ⟨-, hfile⟩ := Grammar.read_eq_ok_iff.1 h
  exact hfile.typed fun t ht => isArgument_of_mem_tokens ht

/-! ## Outlines -/

namespace Outline

/-- A typed document has an outline to its end. -/
theorem refused?_eq_none {d : Document} (h : d.Typed) : refused? d = none := by
  have hdefinition : ∀ {slots : List String} {e : Definition} (depth : Nat) (label : String),
      e.Typed slots → ∀ l ∈ definition depth label e, l.isOk := by
    intro slots e depth label he
    refine List.forall_mem_cons.2 ⟨rfl, fun l hl => ?_⟩
    obtain ⟨f, hf, rfl⟩ := List.mem_map.1 hl
    obtain ⟨args, hf⟩ := he.fragment f hf
    cases f with
    | unknown => cases hf
    | text | slot | word | foreign | call => rfl
  have hstatement : ∀ {s : Statement}, s.Typed → ∀ l ∈ statement 2 s, l.isOk := by
    intro s hs
    cases s with
    | object e | exported e => exact hdefinition 2 _ hs
    | template t => exact hdefinition 2 _ hs.definition
    | imports | instances | comment => simp [statement, Except.isOk, Except.toBool]
    | unknown => cases hs
  have hlines : ∀ l ∈ lines d, l.isOk := by
    refine List.forall_mem_cons.2 ⟨rfl, fun l hl => ?_⟩
    obtain ⟨c, hc, hl⟩ := List.mem_flatMap.1 hl
    have hc := h c hc
    cases c with
    | raw => rw [List.mem_singleton.1 hl]; rfl
    | code m =>
      rcases List.mem_cons.1 hl with rfl | hl
      · rfl
      · obtain ⟨s, hs, hl⟩ := List.mem_flatMap.1 hl
        exact hstatement (hc s hs) l hl
    | unknown => cases hc
  refine List.findSome?_eq_none_iff.2 fun l hl => ?_
  cases l with
  | error label => cases hlines _ hl
  | ok => rfl

end Outline

end MacroModules
