import MacroModules.Proofs.Document.Rename
import MacroModules.Proofs.Grammar

/-!
# Documents and the places of their tokens

The form of a document depends on the kinds and texts of its tokens, not on where they stand, and of
a newline not even on its text. So a map that changes nothing else (`Relabels`) takes documents to
documents, with the same statements in the same modules.

* `Items.map`: the statements of a module stay what they are.
* `File.relabel`: the sections of a document, token by token.
* `File.map`: the same up to places and up to newlines in raw text.
-/

namespace MacroModules.Grammar

/-- A map that leaves the kinds of tokens and, newlines apart, their texts as they are. -/
structure Relabels (f : Token → Token) : Prop where
  kind : ∀ t, (f t).kind = t.kind
  text : ∀ t, t.kind ≠ .newline → (f t).text = t.text

variable {f : Token → Token} (hf : Relabels f) {numeral : String → Prop} {ts : List Token}

include hf

theorem Skip.map (h : Skip ts) : Skip (ts.map f) := by
  intro u hu
  obtain ⟨t, ht, rfl⟩ := List.mem_map.1 hu
  rw [hf.kind]
  exact h t ht

theorem Entry.map {shape : List Kind} {e : List String} (h : Entry shape ts e)
    (hs : Kind.newline ∉ shape) : Entry shape (ts.map f) e := by
  induction h with
  | done hgap => exact .done (hgap.map hf)
  | @token k ks gap ts t texts hgap ht _ ih =>
    rw [List.map_append, List.map_cons, ← hf.text t (by rintro he; exact hs (by simp [← ht, he]))]
    exact .token (hgap.map hf) (by rw [hf.kind, ht]) (ih fun hk => hs (List.mem_cons_of_mem _ hk))

theorem Entries.map {shapes : List (List Kind)} {es : List (List String)}
    (h : Entries shapes ts es) (hs : ∀ shape ∈ shapes, Kind.newline ∉ shape) :
    Entries shapes (ts.map f) es := by
  induction h with
  | last hmem he => exact .last hmem (he.map hf (hs _ hmem))
  | more hmem he hcomma _ ih =>
    rw [List.map_append, List.map_cons]
    exact .more hmem (he.map hf (hs _ hmem)) (by rw [hf.kind, hcomma]) ih

theorem Bracketed.map {opener closer : Kind} {shapes : List (List Kind)}
    {es : List (List String)} (h : Bracketed opener closer shapes ts es)
    (hs : ∀ shape ∈ shapes, Kind.newline ∉ shape) :
    Bracketed opener closer shapes (ts.map f) es := by
  cases h with
  | intro ho hts =>
    refine .intro (by rw [hf.kind, ho]) ?_
    cases hts with
    | empty hgap hc =>
      rw [List.map_append]
      exact .empty (hgap.map hf) (by rw [hf.kind, hc])
    | entries hes hc =>
      rw [List.map_append]
      exact .entries (hes.map hf hs) (by rw [hf.kind, hc])

theorem Head.map {h : Reader.Header} (hh : Head ts h) : Head (ts.map f) h := by
  cases hh with
  | plain => exact .plain
  | args ha => exact .args (ha.map hf (by decide))
  | params hp => exact .params (hp.map hf (by decide))
  | both hp ha =>
    rw [List.map_append]
    exact .both (hp.map hf (by decide)) (ha.map hf (by decide))

theorem Closed.map {h : Reader.Header} (hc : Closed h ts) : Closed h (ts.map f) := by
  have hhead : ∀ {k : Kind}, (∀ t, ts.head? = some t → t.kind ≠ k) →
      ∀ u, (ts.map f).head? = some u → u.kind ≠ k := by
    intro k hk u hu
    rw [List.head?_map] at hu
    obtain ⟨t, ht, rfl⟩ := Option.map_eq_some_iff.1 hu
    rw [hf.kind]
    exact hk t ht
  exact ⟨fun ha => hhead (hc.paren ha), fun ha hp => hhead (hc.angle ha hp)⟩

theorem Defined.map {name : Token} {h : Reader.Header} {d : Definition}
    (hd : Defined name ts h d) (hname : name.kind = .name) : Defined (f name) (ts.map f) h d := by
  cases hd with
  | @intro head line lineEnd h hhead hline hend hclosed =>
    have hdef : h.define name.text line = h.define (f name).text (line.map f) := by
      rw [Reader.Header.define, Reader.Header.define, hf.text name (by rw [hname]; decide),
        Body.fragments_map hf.kind _ fun t ht => hf.text t (hline t ht)]
    have hclosed := hclosed.map hf
    rw [List.map_append] at hclosed
    rw [hdef, List.map_append, List.map_append]
    refine .intro (hhead.map hf) (fun u hu => ?_) (by rw [hf.kind, hend]) hclosed
    obtain ⟨t, ht, rfl⟩ := List.mem_map.1 hu
    rw [hf.kind]
    exact hline t ht

theorem Command.map {name : String} {sign word : Token} (hc : Command name sign word) :
    Command name (f sign) (f word) := by
  refine ⟨by rw [hf.kind, hc.sign_kind], by rw [hf.kind, hc.word_kind], ?_⟩
  rw [hf.text word (by rw [hc.word_kind]; decide), hc.word_text]

theorem IsModuleName.map {t : Token} (ht : IsModuleName t) :
    IsModuleName (f t) ∧ (f t).text = t.text := by
  refine ⟨?_, hf.text t ?_⟩
  · unfold IsModuleName
    rwa [hf.kind]
  · rcases ht with ht | ht <;> rw [ht] <;> decide

/-- A statement stays what it is. -/
theorem Item.map {s : Statement} (h : Item numeral ts s) : Item numeral (ts.map f) s := by
  have hname : ∀ {t : Token}, t.kind = .name → (f t).kind = .name ∧ (f t).text = t.text :=
    fun ht => ⟨by rw [hf.kind, ht], hf.text _ (by rw [ht]; decide)⟩
  cases h with
  | object hn hd hp => exact .object (hname hn).1 (hd.map hf hn) hp
  | template hn hd hp => exact .template (hname hn).1 (hd.map hf hn) hp
  | imports hc hgap hm =>
    obtain ⟨hm, htext⟩ := hm.map hf
    rw [← htext, List.map_append, List.map_cons, List.map_cons]
    exact .imports (hc.map hf) (hgap.map hf) hm
  | exported hc hgap hn hd hp =>
    rw [List.map_append, List.map_cons, List.map_cons, List.map_cons]
    exact .exported (hc.map hf) (hgap.map hf) (hname hn).1 (hd.map hf hn) hp
  | instances hc hgap hn hts hrs htrail hend =>
    rw [← (hname hn).2]
    simp only [List.map_append, List.map_cons]
    exact .instances (hc.map hf) (hgap.map hf) (hname hn).1 (hts.map hf (by decide)) hrs
      (htrail.map hf) (by rw [hf.kind, hend])

/-- **The statements of a module do not depend on places.** -/
theorem Items.map {ss : List Statement} (h : Items numeral ts ss) :
    Items numeral (ts.map f) ss := by
  induction h with
  | nil => exact .nil
  | space ht _ ih => exact .space (by rwa [hf.kind]) ih
  | @comment t ts ss ht _ ih =>
    rw [List.map_cons, ← hf.text t (by rw [ht]; decide)]
    exact .comment (by rw [hf.kind, ht]) ih
  | item hitem _ ih =>
    rw [List.map_append]
    exact .item (hitem.map hf) ih

omit hf in
/-- Sections alike up to where they stand: a module has the same name and body, and raw text is
related as given. -/
inductive SectionRel (rel : String → String → Prop) : Section → Section → Prop
  | raw {text text' : String} : rel text text' → SectionRel rel (.raw text) (.raw text')
  | code {m n : Module} : n.name = m.name → n.body = m.body → SectionRel rel (.code m) (.code n)
  | unknown (label : String) : SectionRel rel (.unknown label) (.unknown label)

omit hf in
/-- Raw texts made of the same tokens, before and after the map. -/
def RawMap (f : Token → Token) (text text' : String) : Prop :=
  ∃ run : List Token,
    text = String.join (run.map (·.text)) ∧ text' = String.join ((run.map f).map (·.text))

omit hf in
/-- What becomes of a section read from some of the tokens `ts`: raw text is put together from the
new tokens, and a module has the places of the new tokens for `@` and for its name. -/
inductive Relabelled (f : Token → Token) (ts : List Token) : Section → Section → Prop
  | raw {run : List Token} : (∀ t ∈ run, t ∈ ts) →
      Relabelled f ts (.raw (String.join (run.map (·.text))))
        (.raw (String.join ((run.map f).map (·.text))))
  | code {m : Module} {sign name : Token} : sign ∈ ts → sign.kind = .atSign → name ∈ ts →
      IsModuleName name → m.line = sign.span.start.line → m.span = name.span →
      Relabelled f ts (.code m)
        (.code ⟨m.name, m.body, (f sign).span.start.line, (f name).span⟩)

omit hf in
theorem Relabelled.mono {us : List Token} {c c' : Section} (h : Relabelled f ts c c')
    (hsub : ∀ t ∈ ts, t ∈ us) : Relabelled f us c c' := by
  cases h with
  | raw hrun => exact .raw fun t ht => hsub t (hrun t ht)
  | code hsign hat hname hmod hline hspan =>
    exact .code (hsub _ hsign) hat (hsub _ hname) hmod hline hspan

theorem ModuleForm.map {m : Module} (h : ModuleForm numeral ts m) :
    ∃ n, ModuleForm numeral (ts.map f) n ∧ Relabelled f ts (.code m) (.code n) := by
  cases h with
  | @intro sign name o c gap gap' us body hsign hgap hmod hgap' ho hus hc =>
    obtain ⟨hmod', htext⟩ := hmod.map hf
    have hform : ModuleForm numeral
        (f sign :: gap.map f ++ f name :: gap'.map f ++ f o :: us.map f ++ [f c])
        ⟨(f name).text, body, (f sign).span.start.line, (f name).span⟩ :=
      .intro (by rw [hf.kind, hsign]) (hgap.map hf) hmod' (hgap'.map hf) (by rw [hf.kind, ho])
        (hus.map hf) (by rw [hf.kind, hc])
    rw [htext] at hform
    refine ⟨⟨name.text, body, (f sign).span.start.line, (f name).span⟩, by simpa using hform, ?_⟩
    exact .code (by simp) hsign (by simp) hmod rfl rfl

/-- **A document is one wherever its tokens stand**, and each section is made of the same tokens. -/
theorem File.relabel {ss : List Section} (h : File numeral ts ss) :
    ∃ ss', File numeral (ts.map f) ss' ∧ List.Forall₂ (Relabelled f ts) ss ss' := by
  induction h with
  | nil => exact ⟨[], .nil, .nil⟩
  | @code us ts m ss hm _ ih =>
    obtain ⟨n, hn, hmn⟩ := hm.map hf
    obtain ⟨ss', hss, hrel⟩ := ih
    have hin : ∀ t ∈ us, t ∈ us ++ ts := fun t ht => List.mem_append_left ts ht
    have hin' : ∀ t ∈ ts, t ∈ us ++ ts := fun t ht => List.mem_append_right us ht
    refine ⟨.code n :: ss', ?_, .cons (hmn.mono hin) (hrel.imp fun _ _ h => h.mono hin')⟩
    rw [List.map_append]
    exact .code hn hss
  | @raw run ts ss hne hrun hhead _ ih =>
    obtain ⟨ss', hss, hrel⟩ := ih
    have hin : ∀ t ∈ run, t ∈ run ++ ts := fun t ht => List.mem_append_left ts ht
    have hin' : ∀ t ∈ ts, t ∈ run ++ ts := fun t ht => List.mem_append_right run ht
    rw [List.map_append]
    refine ⟨_, .raw (by simpa using hne) ?_ ?_ hss,
      .cons (.raw hin) (hrel.imp fun _ _ h => h.mono hin')⟩
    · intro u hu
      obtain ⟨t, ht, rfl⟩ := List.mem_map.1 hu
      rw [hf.kind]
      exact hrun t ht
    · -- raw text stays raw text, so there is none behind the run now if there was none before
      intro text hraw
      cases hrel with
      | nil => cases hraw
      | cons hs _ =>
        cases hs with
        | raw => exact hhead _ rfl
        | code => cases hraw

/-- Up to places, the sections stay the same. -/
theorem File.map {ss : List Section} (h : File numeral ts ss) :
    ∃ ss', File numeral (ts.map f) ss' ∧ List.Forall₂ (SectionRel (RawMap f)) ss ss' := by
  obtain ⟨ss', hss, hrel⟩ := h.relabel hf
  refine ⟨ss', hss, hrel.imp fun c c' hc => ?_⟩
  cases hc with
  | @raw run => exact .raw ⟨run, rfl, rfl⟩
  | code => exact .code rfl rfl

end MacroModules.Grammar
