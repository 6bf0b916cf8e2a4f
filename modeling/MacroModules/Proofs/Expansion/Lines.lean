import MacroModules.Proofs.Expansion.Identifiers
import MacroModules.Proofs.Text.Parts

/-!
# One definition for each line

A definition has one line of its own. In front of it stand the lines of what it inlines, the last
reference first, and each of these has its own in front of it in the same way. No line is cut in
two, because nothing in it has a line feed. So the line ends of a module can be counted: there is
one for each definition, and one behind each statement.

* `Definition.references`: what a definition inlines, in the order of its body.
* `Scope.Inlinings`: how many references are met on the way, with repetition.
* `Inlined`, `define_inlined`: **the lines of a definition are those of its references, backwards,
  and its own**.
* `inlinings_of_define`: there is one line for each reference that is met, and one more.
* `IsLine`, `isLine_of_define`: a line has one line feed, at its end.
* `count_lf_of_blocks`: the line ends of a module.
* `one_definition_per_line`: all this for modules that have been read.
-/

namespace MacroModules

/-- The names of the module and of the object, if the fragment inlines it. -/
def Fragment.inlined? : Fragment → Option (String × String)
  | .foreign owner object true => some (owner, object)
  | _ => none

/-- The references that a definition inlines, in the order of its body. -/
def Definition.references (d : Definition) : List (String × String) :=
  d.body.filterMap Fragment.inlined?

namespace Expansion

variable {inline : Definition → Target → Result (List Define)} {r : Registry} {m : Module}
  {s : Scope} {name : String} {d : Definition} {t : Target} {ls : List Define}
  {ps : List (String × String)} {parts : List (List Define)}

/-! ## What is inlined -/

/-- So many references are met on the way through these: each of them, and with it all that are met
in the object it leads to. -/
inductive Scope.Inlinings (s : Scope) : List (String × String) → Nat → Prop
  | nil : Inlinings s [] 0
  | cons {p : String × String} {ps : List (String × String)} {e : Definition} {k n : Nat} :
      s.object? p = some e → Inlinings s e.references k → Inlinings s ps n →
      Inlinings s (p :: ps) (k + 1 + n)

theorem Scope.Inlinings.unique {n n' : Nat} (h : s.Inlinings ps n) (h' : s.Inlinings ps n') :
    n = n' := by
  induction h generalizing n' with
  | nil => cases h'; rfl
  | cons hp _ _ ihk ihn =>
    cases h' with
    | cons hp' hk' hn' =>
      obtain rfl := Option.some.inj (hp.symm.trans hp')
      rw [ihk hk', ihn hn']

variable (inline s name t) in
/-- The lines of the objects that these references of the definition `name` lead to, one list for
each. -/
def Inlined (ps : List (String × String)) (parts : List (List Define)) : Prop :=
  List.Forall₂ (fun p part => ∃ e, s.object? p = some e ∧
    inline e ⟨t.inlineStem name p.1, false, none⟩ = .ok part) ps parts

theorem fragment_inlined {f : Fragment} {y : List Define × String}
    (h : fragment inline s name t f = .ok y) :
    ∃ parts, Inlined inline s name t f.inlined?.toList parts ∧ y.1 = parts.reverse.flatten := by
  cases f with
  | text | word | call | unknown =>
    cases h
    exact ⟨[], .nil, rfl⟩
  | slot index =>
    rw [fragment] at h
    split at h
    · cases h
    split at h
    · cases h
      exact ⟨[], .nil, rfl⟩
    · cases h
  | foreign owner object inlined =>
    rw [fragment] at h
    unfold foreign at h
    split at h
    · cases h
    next k hk =>
    split at h
    · cases h
    next e he =>
    cases inlined with
    | false =>
      cases h
      exact ⟨[], .nil, rfl⟩
    | true =>
      obtain ⟨es, hes, h⟩ := bind_eq_ok_iff.1 h
      cases h
      have hobject : s.object? (owner, object) = some e := Scope.object?_eq_some_iff.2 ⟨k, hk, he⟩
      exact ⟨[es], .cons ⟨e, hobject, hes⟩ .nil, by simp⟩

/-- The lines for a later reference stand in front of those for an earlier one. -/
theorem fragments_inlined {fs : List Fragment} {y : List Define × String}
    (h : fragments inline s name t fs = .ok y) :
    ∃ parts, Inlined inline s name t (fs.filterMap Fragment.inlined?) parts ∧
      y.1 = parts.reverse.flatten := by
  induction fs generalizing y with
  | nil =>
    cases h
    exact ⟨[], .nil, rfl⟩
  | cons f fs ih =>
    rw [fragments] at h
    obtain ⟨first, hfirst, h⟩ := bind_eq_ok_iff.1 h
    obtain ⟨rest, hrest, h⟩ := bind_eq_ok_iff.1 h
    cases h
    obtain ⟨parts, hparts, hlines⟩ := fragment_inlined hfirst
    obtain ⟨more, hmore, hrest⟩ := ih hrest
    have hrefs : (f :: fs).filterMap Fragment.inlined? =
        f.inlined?.toList ++ fs.filterMap Fragment.inlined? := by
      cases hf : f.inlined? <;> simp [hf]
    refine ⟨parts ++ more, ?_, ?_⟩
    · rw [hrefs]
      exact List.rel_append hparts hmore
    · rw [hlines, hrest, List.reverse_append, List.flatten_append]

theorem defineWith_inlined (h : defineWith inline s d t = .ok ls) :
    ∃ parts, Inlined inline s d.name t d.references parts ∧
      ls = parts.reverse.flatten ++ [lineOf s.owner d t] := by
  unfold defineWith at h
  obtain ⟨y, hy, h⟩ := bind_eq_ok_iff.1 (within_eq_ok_iff.1 h)
  cases h
  obtain ⟨parts, hparts, hlines⟩ := fragments_inlined hy
  refine ⟨parts, hparts, ?_⟩
  rw [hlines, (fragments_origin hy).1]
  rfl

/-- **The lines of a definition are those of its references, backwards, and its own.** -/
theorem define_inlined (h : define s d t = .ok ls) :
    ∃ parts, Inlined (define s) s d.name t d.references parts ∧
      ls = parts.reverse.flatten ++ [lineOf s.owner d t] := by
  rw [define_eq_defineWith] at h
  exact defineWith_inlined h

theorem Inlined.inlinings (hinline : ∀ e t part, inline e t = .ok part →
      ∃ k, s.Inlinings e.references k ∧ part.length = k + 1)
    (h : Inlined inline s name t ps parts) : s.Inlinings ps parts.flatten.length := by
  induction h with
  | nil => exact .nil
  | @cons p part ps parts hp _ ih =>
    obtain ⟨e, he, hpart⟩ := hp
    obtain ⟨k, hk, hlength⟩ := hinline _ _ _ hpart
    rw [List.flatten_cons, List.length_append, hlength]
    exact .cons he hk ih

theorem inlinings_of_inlineAt {n : Nat} (h : inlineAt s n d t = .ok ls) :
    ∃ k, s.Inlinings d.references k ∧ ls.length = k + 1 := by
  -- each reference takes one level of the limit
  induction n generalizing d t ls with
  | zero => cases h
  | succ n ih =>
    rw [inlineAt_succ] at h
    obtain ⟨parts, hparts, rfl⟩ := defineWith_inlined h
    have hlength : parts.reverse.flatten.length = parts.flatten.length :=
      (List.reverse_perm parts).flatten.length_eq
    refine ⟨parts.flatten.length, hparts.inlinings fun e t part => ih, ?_⟩
    rw [List.length_append, hlength, List.length_singleton]

/-- **There is one line for each reference that is met, and one more.** -/
theorem inlinings_of_define (h : define s d t = .ok ls) :
    ∃ k, s.Inlinings d.references k ∧ ls.length = k + 1 := by
  rw [define_eq] at h
  exact inlinings_of_inlineAt (n := s.inlinable.card + 1) h

/-! ## Line feeds -/

theorem oneLine_symbol {stem name : String} (hstem : OneLine stem) (hname : OneLine name)
    (decorated : Bool) : OneLine (symbol stem name decorated) := by
  have hmark : OneLine (if decorated then "__" else "") := by cases decorated <;> decide
  simp only [symbol, oneLine_append_iff]
  exact ⟨⟨⟨hmark, hstem⟩, by decide⟩, hname⟩

theorem oneLine_inlineStem {owner : String} (hstem : OneLine t.stem) (hname : OneLine name)
    (howner : OneLine owner) : OneLine (t.inlineStem name owner) := by
  simp only [Target.inlineStem, oneLine_append_iff]
  exact ⟨⟨⟨⟨⟨by decide, hstem⟩, by decide⟩, hname⟩, by decide⟩, howner⟩

theorem oneLine_resolve {stem word : String} (hstem : OneLine stem) (hword : OneLine word) :
    OneLine (s.resolve stem word) := by
  unfold Scope.resolve
  split
  · exact oneLine_symbol hstem hword _
  · exact hword

theorem oneLine_call {stem callee : String} {args : List String} (hstem : OneLine stem)
    (hcallee : OneLine callee) (hargs : ∀ arg ∈ args, OneLine arg) (binding : Option Binding) :
    OneLine (s.call stem callee args binding) := by
  refine oneLine_append_iff.2 ⟨oneLine_resolve hstem hcallee, oneLine_join fun x hx => ?_⟩
  obtain ⟨arg, harg, rfl⟩ := List.mem_map.1 hx
  unfold Scope.argument
  split
  · exact oneLine_append_iff.2 ⟨by decide, oneLine_repr _⟩
  · exact oneLine_append_iff.2 ⟨by decide, hargs arg harg⟩

theorem oneLine_piece {f : Fragment} (hstem : OneLine t.stem) (hname : OneLine name)
    (hf : f.OneLine) : OneLine (piece m name t f) := by
  cases f with
  | text value => exact hf
  | unknown => simp [piece, OneLine]
  | word word => exact oneLine_resolve hstem hf
  | call callee args => exact oneLine_call hstem hf.1 hf.2 t.binding
  | slot index =>
    rw [piece]
    cases t.binding.bind (·.value? index) with
    | none => decide
    | some v => exact oneLine_repr v
  | foreign owner object inlined =>
    rw [piece]
    split
    · exact oneLine_inlineStem hstem hname hf.1
    · exact oneLine_symbol hf.1 hf.2 true

/-- The text is a line that defines something: its only line feed ends it. -/
def IsLine (text : String) : Prop :=
  ∃ content, text = "#define " ++ content ++ "\n" ∧ OneLine content

/-- What has no line feed is expanded to a line. -/
theorem isLine_lineOf (hstem : OneLine t.stem) (hd : d.OneLine) : IsLine (lineOf m d t).text := by
  have hsymbol : OneLine (t.symbolOf d.name) := by
    refine oneLine_append_iff.2 ⟨oneLine_symbol hstem hd.name _, ?_⟩
    cases t.binding with
    | none => decide
    | some b =>
      refine oneLine_join fun x hx => ?_
      obtain ⟨v, -, rfl⟩ := List.mem_map.1 hx
      exact oneLine_append_iff.2 ⟨by decide, oneLine_repr v⟩
  have hbody : OneLine (String.join (d.body.map (piece m d.name t))) := by
    refine oneLine_join fun x hx => ?_
    obtain ⟨f, hf, rfl⟩ := List.mem_map.1 hx
    exact oneLine_piece hstem hd.name (hd.body f hf)
  refine ⟨t.symbolOf d.name ++ String.join (d.body.map (piece m d.name t)), ?_, ?_⟩
  · simp [lineOf, Define.text, String.append_assoc]
  · exact oneLine_append_iff.2 ⟨hsymbol, hbody⟩

theorem keptByInlining_oneLine (hr : ∀ name k, r.find? name = some k → k.OneLine) :
    KeptByInlining r fun d t => OneLine t.stem ∧ d.OneLine := by
  rintro d t k owner object e ⟨hstem, hd⟩ hmem hk he
  exact ⟨oneLine_inlineStem hstem hd.name (hd.body _ hmem).1, (hr owner k hk).object? he⟩

theorem IsOrigin.oneLine (hr : ∀ name k, r.find? name = some k → k.OneLine) (hm : m.OneLine)
    (h : IsOrigin r m d t) : OneLine t.stem ∧ d.OneLine := by
  induction h with
  | own hc hd _ => exact ⟨hm.name, hm.definition _ hc _ hd⟩
  | inlined _ hmem hk he ih => exact keptByInlining_oneLine hr ih hmem hk he

/-- **Every line of a definition ends with its only line feed.** -/
theorem isLine_of_define (hr : ∀ name k, r.find? name = some k → k.OneLine) (hm : m.OneLine)
    (hs : s.Inside r m) (ht : IsOrigin r m d t) (h : define s d t = .ok ls) :
    ∀ x ∈ ls, IsLine x.text := by
  intro x hx
  rw [define_eq] at h
  obtain ⟨e, u, ⟨hstem, he⟩, rfl⟩ :=
    defineAt_origin hs (keptByInlining_oneLine hr) (ht.oneLine hr hm) h x hx
  exact isLine_lineOf hstem he

/-! ## Modules -/

theorem IsLine.count_lf {text : String} (h : IsLine text) : text.toList.count '\n' = 1 := by
  obtain ⟨content, rfl, hcontent⟩ := h
  have hnone : content.toList.count '\n' = 0 := List.count_eq_zero.2 hcontent
  have hhead : "#define ".toList.count '\n' = 0 := by decide
  simp only [String.toList_append, List.count_append, hnone, hhead]
  decide

theorem count_lf_textAll (h : ∀ x ∈ ls, IsLine x.text) :
    (Define.textAll ls).toList.count '\n' = ls.length := by
  induction ls with
  | nil => rfl
  | cons x ls ih =>
    obtain ⟨hx, hls⟩ := List.forall_mem_cons.1 h
    have hcount := hx.count_lf
    have hrest := ih hls
    rw [Define.textAll, List.map_cons, String.join_cons, String.toList_append, List.count_append]
    rw [Define.textAll] at hrest
    rw [hcount, hrest, List.length_cons]
    omega

theorem Block.count_lf {b : Block} (hlines : ∀ x ∈ b.lines, IsLine x.text)
    (hcomment : ∀ value, b = .comment value → OneLine value) :
    b.text.toList.count '\n' = b.lines.length := by
  cases b with
  | defines ds => exact count_lf_textAll hlines
  | comment value => exact List.count_eq_zero.2 (hcomment value rfl)

/-- There is a line feed for each line, and one behind each block. -/
theorem count_lf_blocksText {bs : List Block} (hlines : ∀ x ∈ bs.flatMap Block.lines, IsLine x.text)
    (hcomment : ∀ value, .comment value ∈ bs → OneLine value) :
    (blocksText bs).toList.count '\n' = bs.length + (bs.flatMap Block.lines).length := by
  induction bs with
  | nil => rfl
  | cons b bs ih =>
    have hrest := ih (fun x hx => hlines x (List.mem_append_right _ hx))
      fun value hvalue => hcomment value (List.mem_cons_of_mem b hvalue)
    have hblock : b.text.toList.count '\n' = b.lines.length := by
      refine Block.count_lf (fun x hx => hlines x (List.mem_append_left _ hx)) ?_
      rintro value rfl
      exact hcomment value List.mem_cons_self
    have hend : "\n".toList.count '\n' = 1 := by decide
    unfold blocksText at hrest ⊢
    rw [List.map_cons, String.join_cons, String.toList_append, String.toList_append,
      List.count_append, List.count_append, hblock, hend, hrest, List.flatMap_cons,
      List.length_append, List.length_cons]
    omega

theorem length_of_statements {cs : List Statement} {bs : List Block}
    (h : statements r s cs = .ok bs) : bs.length = cs.length := by
  induction cs generalizing s bs with
  | nil =>
    cases h
    rfl
  | cons c cs ih =>
    rw [statements] at h
    obtain ⟨y, -, h⟩ := bind_eq_ok_iff.1 h
    obtain ⟨rest, hrest, h⟩ := bind_eq_ok_iff.1 h
    cases h
    rw [List.length_cons, List.length_cons, ih hrest]

/-- Comments are passed on. -/
theorem comment_of_blocks {bs : List Block} (h : blocks r m = .ok bs) {value : String}
    (hvalue : .comment value ∈ bs) : .comment value ∈ m.body := by
  obtain ⟨before, c, after, s, s', hbody, -, hc⟩ :=
    exists_statement_of_block (within_eq_ok_iff.1 h) hvalue
  have hsame : c = .comment value := by
    cases c with
    | comment => cases hc; rfl
    | template | unknown => cases hc
    | object | exported | imports | instances =>
      obtain ⟨_, -, hc⟩ := bind_eq_ok_iff.1 hc
      cases hc
  rw [hbody, hsame]
  exact List.mem_append_right _ List.mem_cons_self

/-- **The text of a module has a line feed for each statement and one for each definition.** -/
theorem count_lf_of_blocks (hr : ∀ name k, r.find? name = some k → k.OneLine) (hm : m.OneLine)
    {bs : List Block} (h : blocks r m = .ok bs) :
    (blocksText bs).toList.count '\n' = m.body.length + (bs.flatMap Block.lines).length := by
  have hline : ∀ x ∈ bs.flatMap Block.lines, IsLine x.text := by
    intro x hx
    obtain ⟨s, d, t, ls, hreach, hls, hx⟩ := blocks_lines h x hx
    exact isLine_of_define hr hm hreach.inside hreach.isOrigin hls x hx
  have hlength : bs.length = m.body.length := length_of_statements (within_eq_ok_iff.1 h)
  rw [← hlength]
  exact count_lf_blocksText hline fun value hvalue => hm.comment value (comment_of_blocks h hvalue)

/-- **One definition for each line, and what is inlined in front of what it is inlined into.** Let a
module be among sources that have been read.

An object, an export or an instance of the module, or what is inlined into one (`IsOrigin`), has as
many lines as references that are met on the way, with repetition, and one more. Each begins with
`#define`, and its only line feed ends it. The last is its own, and in front of it stand all lines
of its last reference, then those of the one before, and so on.

The text of the module has a line feed for each statement and one for each of the definitions, which
are those of all that its expansion gets to. -/
theorem one_definition_per_line {sources : List Source} {ds : List Document}
    (hread : readAll sources = .ok ds) {m : Module} (hm : m ∈ ds.flatMap Document.modules) :
    let r := Registry.ofDocuments ds
    (∀ s d t ls, s.Inside r m → IsOrigin r m d t → define s d t = .ok ls →
      (∃ n, (∀ k, s.Inlinings d.references k ↔ k = n) ∧ ls.length = n + 1) ∧
      (∀ x ∈ ls, ∃ content, x.text = "#define " ++ content ++ "\n" ∧ '\n' ∉ content.toList) ∧
      ∃ parts, ls = parts.reverse.flatten ++ [lineOf m d t] ∧
        List.Forall₂ (fun p part => ∃ e, s.object? p = some e ∧
          define s e ⟨t.inlineStem d.name p.1, false, none⟩ = .ok part) d.references parts) ∧
    ∀ text, moduleText r m = .ok text → ∃ bs, blocks r m = .ok bs ∧ text = blocksText bs ∧
      text.toList.count '\n' = m.body.length + (bs.flatMap Block.lines).length ∧
      ∀ x, x ∈ bs.flatMap Block.lines ↔
        ∃ s d t ls, Reaches r m s d t ∧ define s d t = .ok ls ∧ x ∈ ls := by
  intro r
  have hmodules := isRead_of_readAll hread
  have hregistered : ∀ name k, r.find? name = some k → k.OneLine := by
    intro name k hk
    rw [Registry.find?_ofDocuments] at hk
    exact (hmodules k (List.mem_of_find?_eq_some hk)).oneLine
  have hone : m.OneLine := (hmodules m hm).oneLine
  refine ⟨fun s d t ls hs horigin h => ⟨?_, ?_, ?_⟩, fun text h => ?_⟩
  · obtain ⟨n, hn, hlength⟩ := inlinings_of_define h
    exact ⟨n, fun k => ⟨fun hk => hk.unique hn, fun hk => hk ▸ hn⟩, hlength⟩
  · exact isLine_of_define hregistered hone hs horigin h
  · obtain ⟨parts, hparts, hlines⟩ := define_inlined h
    rw [hs.owner] at hlines
    exact ⟨parts, hlines, hparts⟩
  · obtain ⟨bs, hbs, h⟩ := bind_eq_ok_iff.1 h
    cases h
    refine ⟨bs, hbs, rfl, count_lf_of_blocks hregistered hone hbs, fun x => ?_⟩
    refine ⟨blocks_lines hbs x, ?_⟩
    rintro ⟨s, d, t, ls, hreach, hls, hx⟩
    obtain ⟨ls', hls', hmem⟩ := define_of_blocks hbs hreach
    obtain rfl := Except.ok.inj (hls.symm.trans hls')
    exact hmem x hx

/-- The first reference leads to an object that inlines the second one once more. -/
theorem one_definition_per_line_nested :
    let source : Source := ⟨"a", "@N \x7b\nc 1\n\x7d\n@M \x7b\n@use N\nf N.c\n\x7d\n" ++
      "@A \x7b\n@use M\n@use N\ng M.f-N.c\n// x\n\x7d"⟩
    let n : Module := ⟨"N", [.object ⟨"c", [.text " 1"]⟩], 1, ⟨⟨1, 2, 1⟩, ⟨1, 3, 2⟩⟩⟩
    let m : Module := ⟨"M", [.imports "N", .object ⟨"f", [.text " ", .foreign "N" "c" true]⟩], 4,
      ⟨⟨4, 2, 12⟩, ⟨4, 3, 13⟩⟩⟩
    let g : Definition :=
      ⟨"g", [.text " ", .foreign "M" "f" true, .text "-", .foreign "N" "c" true]⟩
    let a : Module := ⟨"A", [.imports "M", .imports "N", .object g, .comment "// x"], 8,
      ⟨⟨8, 2, 32⟩, ⟨8, 3, 33⟩⟩⟩
    let d : Document := ⟨source, [.code n, .raw "\n", .code m, .raw "\n", .code a]⟩
    let s : Scope := ⟨a, [m, n], []⟩
    let ls : List Define := [⟨"__A_g_IMPL_N_c", " 1"⟩, ⟨"____A_g_IMPL_M_f_IMPL_N_c", " 1"⟩,
      ⟨"__A_g_IMPL_M_f", " ____A_g_IMPL_M_f_IMPL_N"⟩, ⟨"__A_g", " __A_g_IMPL_M-__A_g_IMPL_N"⟩]
    readAll [source] = .ok [d] ∧ define s g ⟨"A", true, none⟩ = .ok ls ∧
    (∀ k, s.Inlinings g.references k ↔ k = 3) ∧
    ∃ text, moduleText (Registry.ofDocuments [d]) a = .ok text ∧
      text.toList.count '\n' = 4 + 4 := by
  intro source n m g a d s ls
  have hread : readAll [source] = .ok [d] := by decide +kernel
  have hdefine : define s g ⟨"A", true, none⟩ = .ok ls := by decide +kernel
  have ha : a ∈ [d].flatMap Document.modules := by decide +kernel
  obtain ⟨hdefinition, hmodule⟩ := one_definition_per_line hread ha
  have hs : s.Inside (Registry.ofDocuments [d]) a :=
    ⟨rfl, by decide +kernel, fun t ht => (by cases ht)⟩
  have hown : Statement.object g ∈ a.body := by decide
  obtain ⟨⟨k, hk, hlength⟩, -⟩ := hdefinition s g _ ls hs (.own hown rfl (.object g)) hdefine
  obtain rfl : k = 3 := (Nat.succ.inj hlength).symm
  have htext : (moduleText (Registry.ofDocuments [d]) a).isOk := by decide +kernel
  obtain ⟨text, htext⟩ := exists_eq_ok_of_isOk htext
  obtain ⟨bs, hbs, -, hcount, -⟩ := hmodule text htext
  have hblocks : blocks (Registry.ofDocuments [d]) a =
      .ok [.defines [], .defines [], .defines ls, .comment "// x"] := by decide +kernel
  obtain rfl := Except.ok.inj (hbs.symm.trans hblocks)
  exact ⟨hread, hdefine, hk, text, htext, hcount⟩

end Expansion

end MacroModules
