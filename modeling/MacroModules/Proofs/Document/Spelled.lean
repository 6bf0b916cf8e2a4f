import MacroModules.Proofs.Document.Named
import MacroModules.Proofs.Token.Words

/-!
# How what has been read is spelled

In the line of a definition the body follows the symbol directly. Whether the two run together
depends on how the body begins. Behind the name of an object it begins with something that is no
part of a word, because otherwise the name would go on; behind the parameters of a template nothing
prevents it.

* `Fragment.beginsWithWord`, `Definition.beginsWithWord`: what stands first is part of a word.
* `Fragment.Spelled`: names are names, and no text is empty.
* `Module.Spelled`: the property of whole modules, and `Module.IsRead.spelled`: **every module that
  has been read is spelled so**.
-/

namespace MacroModules

/-- The fragment begins with a character of a word: it is a name, or a text that begins so. -/
def Fragment.beginsWithWord : Fragment → Bool
  | .text value => beginsWithWordChar value
  | .slot _ | .word _ | .foreign _ _ _ | .call _ _ => true
  | .unknown _ => false

/-- The body begins with a character of a word. -/
def Definition.beginsWithWord (d : Definition) : Bool := d.body.head?.any Fragment.beginsWithWord

/-- Names are names, and text is not empty. -/
def Fragment.Spelled : Fragment → Prop
  | .text value => value ≠ ""
  | .word name | .call name _ => isName name
  | .slot _ | .foreign _ _ _ => True
  | .unknown _ => False

/-- The module's name is a word, and so are the names in bodies. No body of an object begins with a
word, and ranges have no negative numbers in them. -/
structure Module.Spelled (m : Module) : Prop where
  name_ne_empty : m.name ≠ ""
  name : ∀ c ∈ m.name.toList, isWordChar c
  body : ∀ s ∈ m.body, ∀ d, s.declared? = some d → ∀ f ∈ d.body, f.Spelled
  object : ∀ s ∈ m.body, ∀ d, s.object? = some d → d.beginsWithWord = false
  ranges : ∀ name ranges, .instances name ranges ∈ m.body → ∀ r ∈ ranges, 0 ≤ r.lo

theorem beginsWithWordChar_of_isName {word : String} (h : isName word) :
    beginsWithWordChar word := by
  obtain ⟨⟨c, cs, hcs, hc⟩, -⟩ := isName_iff.1 h
  rw [beginsWithWordChar, hcs]
  simp [isWordChar, Char.isAlphanum, hc]

theorem beginsWithWordChar_append {x : String} (hx : x ≠ "") (y : String) :
    beginsWithWordChar (x ++ y) = beginsWithWordChar x := by
  unfold beginsWithWordChar
  cases hcs : x.toList with
  | nil => exact absurd (String.toList_eq_nil_iff.1 hcs) hx
  | cons c cs => rw [String.toList_append, hcs, List.cons_append]; rfl

/-! ## Bodies -/

namespace Body

variable (h : Header) {ts : List Token}

theorem spelled_fragments (hne : ∀ t ∈ ts, t.text ≠ "")
    (hname : ∀ t ∈ ts, t.kind = .name → isName t.text) : ∀ f ∈ fragments h ts, f.Spelled := by
  intro f hf
  obtain ⟨run, rest, hsub, hrun⟩ := exists_run_of_mem hf
  cases hrun with
  | text => exact text_ne_empty hne hf
  | @word t _ ht => exact hname t (hsub.subset (by simp)) ht
  | shape hs =>
    cases hs with
    | slot | foreign => trivial
    | @call name _ _ _ _ hkind => exact hname name (hsub.subset (by simp)) hkind

/-- A body begins with a word only if its first token does, unless dots stand for arguments. -/
theorem beginsWithWord_fragments (hvariadic : h.variadic = false) {t : Token} (hne : t.text ≠ "")
    (hname : t.kind = .name → isName t.text) (ht : beginsWithWordChar t.text = false) :
    (fragments h (t :: ts)).head?.any Fragment.beginsWithWord = false := by
  rw [fragments]
  split
  · next hkind =>
    rw [beginsWithWordChar_of_isName (hname hkind)] at ht
    cases ht
  · have hliteral : literal h t = t.text := by
      rw [literal, hvariadic]
      simp
    rw [List.map_cons, String.join_cons, hliteral, List.head?_cons, Option.any_some,
      Fragment.beginsWithWord, beginsWithWordChar_append hne]
    exact ht

end Body

/-! ## Statements -/

namespace Grammar

variable {numeral : String → Prop} {text : String} {us ts : List Token}

theorem Defined.spelled {name : Token} {h : Reader.Header} {d : Definition}
    (hd : Defined name ts h d) (hts : ∀ t ∈ ts, t ∈ tokens text) : ∀ f ∈ d.body, f.Spelled := by
  cases hd with
  | @intro head line lineEnd h _ _ _ _ =>
    intro f hf
    have hline : ∀ t ∈ line, t ∈ tokens text := fun t ht => hts t (by simp [ht])
    rcases List.mem_append.1 hf with hf | hf
    · obtain ⟨args, -, rfl⟩ := List.mem_map.1 hf
      intro hempty
      have hparen := (String.append_eq_empty_iff.1 hempty).2
      exact absurd hparen (by decide)
    · exact Body.spelled_fragments h.scope (fun t ht => (text_of_mem_tokens (hline t ht)).2.1)
        (fun t ht => isName_of_mem_tokens (hline t ht)) f hf

/-- The body of an object stands behind its name or behind a closing parenthesis. -/
theorem Defined.beginsWithWord {name : Token} {h : Reader.Header} {d : Definition}
    (hd : Defined name ts h d) (hname : name.kind = .name) (hparams : h.params = none)
    (hts : name :: ts <:+: tokens text) : d.beginsWithWord = false := by
  have hchain := List.IsChain.infix (isChain_tokens text) hts
  cases hd with
  | @intro head line lineEnd h hhead _ _ _ =>
    cases hhead with
    | params | both => cases hparams
    | @args _ es _ =>
      show beginsWithWordChar ("(" ++ ", ".intercalate es.flatten ++ ")") = false
      rw [String.append_assoc, beginsWithWordChar_append (by decide)]
      decide
    | plain =>
      cases line with
      | nil => simp [Definition.beginsWithWord, Reader.Header.define, Reader.Header.argText,
          Body.fragments]
      | cons t rest =>
        have ht : t ∈ tokens text := hts.subset (by simp)
        have hfollows := (List.isChain_cons_cons.1 hchain).1 (.inl hname)
        exact Body.beginsWithWord_fragments _ rfl (text_of_mem_tokens ht).2.1
          (isName_of_mem_tokens ht) hfollows

theorem Item.spelled {s : Statement} (h : Item numeral us s) (hus : us <:+: tokens text) :
    (∀ d, s.declared? = some d → ∀ f ∈ d.body, f.Spelled) ∧
      (∀ d, s.object? = some d → d.beginsWithWord = false) ∧
      ∀ name ranges, s = .instances name ranges → ∀ r ∈ ranges, 0 ≤ r.lo := by
  cases h with
  | @object name ts _ _ hname hdef hparams =>
    have hspelled := hdef.spelled fun t ht => hus.subset (List.mem_cons_of_mem name ht)
    refine ⟨?_, ?_, fun _ _ h => (by cases h)⟩
    · rintro d ⟨⟩
      exact hspelled
    · rintro d ⟨⟩
      exact hdef.beginsWithWord hname hparams hus
  | @template name ts _ _ hname hdef _ =>
    have hspelled := hdef.spelled fun t ht => hus.subset (List.mem_cons_of_mem name ht)
    refine ⟨?_, fun d hd => (by cases hd), fun _ _ h => (by cases h)⟩
    rintro d ⟨⟩
    exact hspelled
  | @exported sign word name gap ts _ _ _ _ hname hdef hparams =>
    have hsuffix : name :: ts <:+: tokens text :=
      (List.suffix_append (sign :: word :: gap) (name :: ts)).isInfix.trans hus
    have hspelled := hdef.spelled fun t ht => hsuffix.subset (List.mem_cons_of_mem name ht)
    refine ⟨?_, ?_, fun _ _ h => (by cases h)⟩
    · rintro d ⟨⟩
      exact hspelled
    · rintro d ⟨⟩
      exact hdef.beginsWithWord hname hparams hsuffix
  | imports =>
    exact ⟨fun d hd => (by cases hd), fun d hd => (by cases hd), fun _ _ h => (by cases h)⟩
  | instances _ _ _ _ hranges =>
    refine ⟨fun d hd => (by cases hd), fun d hd => (by cases hd), ?_⟩
    rintro name ranges ⟨⟩ r hr
    obtain ⟨e, -, hrange⟩ := exists_of_mem_left hranges.flip hr
    cases hrange
    exact Int.natCast_nonneg _

end Grammar

/-- **Every module that has been read is spelled.** -/
theorem Module.IsRead.spelled {m : Module} (h : m.IsRead) : m.Spelled := by
  obtain ⟨text, ⟨name, hmem, hkind, hname⟩, hstands⟩ := h.stands
  have hitem : ∀ s ∈ m.body, (∀ d, s.declared? = some d → ∀ f ∈ d.body, f.Spelled) ∧
      (∀ d, s.object? = some d → d.beginsWithWord = false) ∧
      ∀ name ranges, s = .instances name ranges → ∀ r ∈ ranges, 0 ≤ r.lo := by
    intro s hs
    rcases hstands s hs with ⟨t, -, -, rfl⟩ | ⟨us, hus, hitem⟩
    · exact ⟨fun d hd => (by cases hd), fun d hd => (by cases hd), fun _ _ h => (by cases h)⟩
    · exact hitem.spelled hus
  exact {
    name_ne_empty := by
      rw [hname]
      exact (text_of_mem_tokens hmem).2.1
    name := by
      rw [hname]
      exact isWordChar_of_mem_tokens hmem hkind
    body := fun s hs => (hitem s hs).1
    object := fun s hs => (hitem s hs).2.1
    ranges := fun name ranges hs => (hitem _ hs).2.2 name ranges rfl }

end MacroModules
