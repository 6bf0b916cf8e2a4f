import MacroModules.Proofs.Document.OneLine
import MacroModules.Proofs.Document.Pieces
import MacroModules.Proofs.Document.Rename
import MacroModules.Proofs.Token.Words

/-!
# Legible documents

An outline quotes text and leaves names as they are. It can be read because names are made of
letters and digits, those of modules of the characters of words, wherever a document has one.

* `Fragment.Legible`, `Statement.Legible`, `Module.Legible`, `Section.Legible`: the property, layer
  by layer. The module's name stands on the line on which the module begins.
* `read_legible`: **every document that has been read is legible**.
-/

namespace MacroModules

/-! ## The property -/

/-- The names in the fragment are names. -/
def Fragment.Legible : Fragment → Prop
  | .text _ | .slot _ => True
  | .word name => isName name
  | .foreign owner object _ => isName owner ∧ isName object
  | .call name args => isName name ∧ ∀ arg ∈ args, isName arg
  | .unknown _ => False

/-- A new parameter has a name. -/
def Param.Legible : Param → Prop
  | .fresh name => isName name
  | .again _ => True

/-- The names in the definition are names. -/
structure Definition.Legible (d : Definition) : Prop where
  name : isName d.name
  body : ∀ f ∈ d.body, f.Legible

/-- The names in the statement are names, or that of a module. -/
def Statement.Legible : Statement → Prop
  | .object d | .exported d => d.Legible
  | .template t => t.definition.Legible ∧ ∀ p ∈ t.params, p.Legible
  | .imports name => ∀ c ∈ name.toList, isWordChar c
  | .instances name _ => isName name
  | .comment _ => True
  | .unknown _ => False

/-- The module's name is a word on the module's first line, and its statements are legible. -/
structure Module.Legible (m : Module) : Prop where
  name : ∀ c ∈ m.name.toList, isWordChar c
  body : ∀ s ∈ m.body, s.Legible
  start_line : m.span.start.line = m.line
  stop_line : m.span.stop.line = m.line

/-- The section is text, or a module that is legible. -/
def Section.Legible : Section → Prop
  | .raw _ => True
  | .code m => m.Legible
  | .unknown _ => False

/-! ## Bodies and headers -/

theorem Body.legible_fragments {h : Header} {ts : List Token}
    (hts : ∀ t ∈ ts, t.kind = .name → isName t.text) : ∀ f ∈ fragments h ts, f.Legible := by
  intro f hf
  obtain ⟨run, rest, hsub, hrun⟩ := exists_run_of_mem hf
  have hname : ∀ t ∈ run, t.kind = .name → isName t.text := fun t ht => hts t (hsub.subset ht)
  cases hrun with
  | text => trivial
  | word ht => exact hname _ List.mem_cons_self ht
  | shape hs =>
    cases hs with
    | slot => trivial
    | @foreign name sep object _ hkind _ _ hobject =>
      exact ⟨hname name (by simp) hkind, hname object (by simp) hobject⟩
    | @call name opener closer inner args hkind _ _ hlisted _ =>
      refine ⟨hname name (by simp) hkind, fun arg harg => ?_⟩
      obtain ⟨t, ht, hkind, rfl⟩ := hlisted.exists_name arg harg
      have hinner : t ∈ inner := List.mem_of_mem_filter ht
      exact hname t (by simp [hinner]) hkind

theorem Param.legible_ofNames {names : List String} (h : ∀ name ∈ names, isName name) :
    ∀ p ∈ ofNames names, p.Legible := by
  intro p hp
  cases p with
  | again => trivial
  | fresh name =>
    have hslot : name ∈ slotNames (ofNames names) := List.mem_filterMap.2 ⟨.fresh name, hp, rfl⟩
    exact h name (mem_slotNames_ofNames.1 hslot)

namespace Grammar

variable {numeral : String → Prop} {text : String} {us ts : List Token}

theorem ParamList.isName {es : List (List String)} (h : ParamList ts es)
    (hts : ∀ t ∈ ts, t.kind = .name → MacroModules.isName t.text) :
    ∀ name ∈ es.flatten, MacroModules.isName name := by
  intro name hname
  obtain ⟨e, he, hname⟩ := List.mem_flatten.1 hname
  cases h with
  | intro _ h =>
    cases h with
    | empty => cases he
    | entries hes _ =>
      obtain ⟨us, hus, hkinds, rfl⟩ := hes.tokens e he
      obtain ⟨t, ht, rfl⟩ := List.mem_map.1 hname
      have hkind := List.mem_map_of_mem (f := (·.kind)) ht
      rw [List.mem_singleton.1 hkinds] at hkind
      exact hts t (List.mem_cons_of_mem _ (List.mem_append_left _ (hus.subset ht)))
        (List.mem_singleton.1 hkind)

theorem Head.legible_paramList {h : Reader.Header} (hh : Head ts h)
    (hts : ∀ t ∈ ts, t.kind = .name → isName t.text) : ∀ p ∈ h.paramList, p.Legible := by
  refine Param.legible_ofNames ?_
  cases hh with
  | plain | args => simp
  | params hp => exact hp.isName hts
  | both hp _ => exact hp.isName fun t ht => hts t (List.mem_append_left _ ht)

/-! ## Statements -/

theorem Defined.legible {name : Token} {h : Reader.Header} {d : Definition}
    (hd : Defined name ts h d) (hname : name.kind = .name)
    (hts : ∀ t ∈ name :: ts, t.kind = .name → isName t.text) :
    d.Legible ∧ ∀ p ∈ h.paramList, p.Legible := by
  cases hd with
  | @intro head line _ h hhead _ _ _ =>
    refine ⟨⟨hts name List.mem_cons_self hname, fun f hf => ?_⟩, ?_⟩
    · rcases List.mem_append.1 hf with hf | hf
      · obtain ⟨args, -, rfl⟩ := List.mem_map.1 hf
        trivial
      · exact Body.legible_fragments (fun t ht => hts t (by simp [ht])) f hf
    · exact hhead.legible_paramList fun t ht => hts t (by simp [ht])

theorem Item.legible {s : Statement} (h : Item numeral us s) (hus : us <:+: tokens text) :
    s.Legible := by
  have hts : ∀ t ∈ us, t.kind = .name → isName t.text :=
    fun t ht => isName_of_mem_tokens (hus.subset ht)
  cases h with
  | object hname hdef _ => exact (hdef.legible hname hts).1
  | template hname hdef _ => exact hdef.legible hname hts
  | exported _ _ hname hdef _ =>
    exact (hdef.legible hname fun t ht => hts t (List.mem_append_right _ ht)).1
  | @imports _ _ name _ _ _ hmod =>
    exact isWordChar_of_mem_tokens (hus.subset (by simp)) hmod
  | @instances _ _ name _ _ _ _ _ _ _ _ hname => exact hts name (by simp) hname

end Grammar

/-! ## Documents -/

theorem Laid.readFrom_of_mem {text : String} {offset : Nat} {cs : List Section}
    {pieces : List String} (h : Laid text offset cs pieces) :
    ∀ c ∈ cs, ∃ offset piece, c.ReadFrom text offset piece := by
  induction h with
  | nil => simp
  | cons hc _ ih => exact List.forall_mem_cons.2 ⟨⟨_, _, hc⟩, ih⟩

/-- The name of a module stands on one line, and the module begins on that line. -/
theorem span_line_of_read {source : Source} {d : Document} (h : Document.read source = .ok d)
    {m : Module} (hm : .code m ∈ d.sections) :
    m.span.start.line = m.line ∧ m.span.stop.line = m.line := by
  have hstart : m.span.start.line = m.line := by
    obtain ⟨pieces, -, hlaid⟩ := read_laid h
    obtain ⟨offset, piece, hfrom⟩ := hlaid.readFrom_of_mem _ hm
    cases hfrom with
    | code hstands => exact hstands.line.symm
  obtain ⟨-, hfile⟩ := Grammar.read_eq_ok_iff.1 h
  obtain ⟨us, hus, hform⟩ := hfile.moduleForm_of_mem hm
  cases hform with
  | @intro _ name =>
    have hplaced := placed_of_mem_tokens (hus.subset (by simp : name ∈ _))
    exact ⟨hstart, hplaced.stop_line.trans hstart⟩

/-- **Every document that has been read is legible.** -/
theorem read_legible {source : Source} {d : Document} (h : Document.read source = .ok d) :
    ∀ c ∈ d.sections, c.Legible := by
  intro c hc
  have htyped := read_typed h c hc
  cases c with
  | raw => trivial
  | unknown => cases htyped
  | code m =>
    have hread : m.IsRead := ⟨source, d, h, List.mem_filterMap.2 ⟨.code m, hc, rfl⟩⟩
    obtain ⟨text, ⟨name, hmem, hkind, hname⟩, hstands⟩ := hread.stands
    obtain ⟨hstart, hstop⟩ := span_line_of_read h hc
    refine ⟨hname ▸ isWordChar_of_mem_tokens hmem hkind, fun s hs => ?_, hstart, hstop⟩
    rcases hstands s hs with ⟨t, -, -, rfl⟩ | ⟨us, hus, hitem⟩
    · trivial
    · exact hitem.legible hus

end MacroModules
