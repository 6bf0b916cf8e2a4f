import MacroModules.Proofs.Document.Named
import MacroModules.Proofs.Expansion.Origin
import MacroModules.Proofs.Expansion.Verbatim
import MacroModules.Proofs.Text.Parts

/-!
# Symbols can be taken apart

A symbol is made of parts with underscores between them. The only part that may have underscores of
its own, the name of the module, stands first, and everything behind it is made of names and
numerals, so a symbol is read from its end. A numeral never passes for a name, which tells instances
of templates from all else.

* `append_tail_inj`, `append_word_inj`: words are found again, in front of underscores and behind.
* `Target.head`, `Target.values`, `parts_eq`: the parts of a symbol, and that it has only one way to
  be taken apart.
* `origin_eq`: **lines of one module with the same symbol have the same origin**.
* `same_symbol_same_line`: so they are the same line.
* `moduleOf`, `moduleOf_symbolOf`: the module that a symbol belongs to, if its name is a word.
* `symbols_apart`: **modules of different names have no symbol in common**.
-/

namespace MacroModules

namespace Expansion

/-! ## Words between underscores -/

/-- The text is empty or begins with an underscore. -/
def IsTail (x : String) : Prop := x = "" ∨ ∃ y, x = "_" ++ y

variable {x y v w : String}

theorem IsTail.stops (hx : IsTail x) : Stops (· != '_') x.toList := by
  rcases hx with rfl | ⟨y, rfl⟩
  · decide
  · exact stops_append (by decide) (by decide) y

/-- A word ends at the first underscore. -/
theorem append_tail_inj (hv : '_' ∉ v.toList) (hw : '_' ∉ w.toList) (hx : IsTail x) (hy : IsTail y)
    (h : v ++ x = w ++ y) : v = w ∧ x = y :=
  append_inj_of_notMem hv hw hx.stops hy.stops h

/-- A word begins behind the last underscore. -/
theorem append_word_inj (hv : '_' ∉ v.toList) (hw : '_' ∉ w.toList)
    (h : x ++ "_" ++ v = y ++ "_" ++ w) : x = y ∧ v = w := by
  have hback : ∀ a u : String, '_' ∉ u.toList →
      (a ++ "_" ++ u).toList.reverse.takeWhile (· != '_') = u.toList.reverse := by
    intro a u hu
    have hword : '_' ∉ u.toList.reverse := fun hmem => hu (List.mem_reverse.1 hmem)
    rw [String.toList_append, List.reverse_append]
    exact takeWhile_append_of_stops (bne_of_notMem hword) (by simp [Stops])
  have hvw : v.toList.reverse = w.toList.reverse := by
    rw [← hback x v hv, ← hback y w hw, h]
  obtain rfl : v = w := String.toList_inj.1 (List.reverse_inj.1 hvw)
  have hxy : x ++ "_" = y ++ "_" := (String.append_left_inj v).1 h
  exact ⟨(String.append_left_inj "_").1 hxy, rfl⟩

/-! ## Numerals -/

theorem underscore_notMem_repr (n : Int) : '_' ∉ (Int.repr n).toList :=
  notMem_repr (by decide) (by decide) n

/-- A numeral is no name: it begins with a digit or a sign. -/
theorem not_isName_repr (n : Int) : ¬ isName (Int.repr n) := by
  intro h
  obtain ⟨⟨c, cs, hcs, hc⟩, -⟩ := isName_iff.1 h
  have hmem : c ∈ (Int.repr n).toList := hcs ▸ List.mem_cons_self
  rcases isDigit_or_eq_dash_of_mem_repr hmem with hdigit | rfl
  · rw [Lexeme.isAlpha_eq_false_of_isDigit hdigit] at hc
    cases hc
  · exact absurd hc (by decide)

/-- What values add to a symbol. -/
def suffix (values : List Int) : String := String.join (values.map fun n => "_" ++ Int.repr n)

theorem suffix_cons (n : Int) (ns : List Int) :
    suffix (n :: ns) = "_" ++ (Int.repr n ++ suffix ns) := by
  rw [suffix, List.map_cons, String.join_cons, String.append_assoc]
  rfl

theorem isTail_suffix (ns : List Int) : IsTail (suffix ns) := by
  cases ns with
  | nil => exact .inl rfl
  | cons n ns => exact .inr ⟨_, suffix_cons n ns⟩

theorem suffix_cons_ne (n : Int) (ns : List Int) : suffix (n :: ns) ≠ "" := by
  rw [suffix_cons]
  intro h
  have hlength := congrArg String.length h
  rw [String.length_append, show "_".length = 1 from rfl, show "".length = 0 from rfl] at hlength
  omega

theorem suffix_inj {ns ks : List Int} (h : suffix ns = suffix ks) : ns = ks := by
  induction ns generalizing ks with
  | nil =>
    cases ks with
    | nil => rfl
    | cons k ks => exact absurd h.symm (suffix_cons_ne k ks)
  | cons n ns ih =>
    cases ks with
    | nil => exact absurd h (suffix_cons_ne n ns)
    | cons k ks =>
      rw [suffix_cons, suffix_cons, String.append_right_inj] at h
      obtain ⟨hn, hns⟩ := append_tail_inj (underscore_notMem_repr n) (underscore_notMem_repr k)
        (isTail_suffix ns) (isTail_suffix ks) h
      rw [repr_inj hn, ih hns]

/-- Behind the last underscore stands the last value. -/
theorem exists_suffix_eq {ns : List Int} (h : ns ≠ []) :
    ∃ x n, suffix ns = x ++ "_" ++ Int.repr n := by
  obtain rfl | ⟨ks, n, rfl⟩ := List.eq_nil_or_concat ns
  · exact absurd rfl h
  · refine ⟨suffix ks, n, ?_⟩
    simp [suffix, String.join_append, String.append_assoc]

/-! ## The parts of a symbol -/

/-- What stands in front of the name, with its decoration. -/
def Target.head (t : Target) : String := (if t.decorated then "__" else "") ++ t.stem

/-- The values that the symbol ends with. -/
def Target.values (t : Target) : List Int := (t.binding.map Binding.values).getD []

theorem Target.head_plain (stem : String) (b : Option Binding) : head ⟨stem, false, b⟩ = stem :=
  String.empty_append

theorem symbolOf_eq (t : Target) (name : String) :
    t.symbolOf name = t.head ++ "_" ++ (name ++ suffix t.values) := by
  have hsuffix : t.symbolOf name = t.head ++ "_" ++ name ++ suffix t.values := by
    unfold Target.symbolOf Target.values
    cases t.binding <;> rfl
  rw [hsuffix, String.append_assoc]

variable {t u : Target}

theorem symbolOf_of_values_eq_nil (h : t.values = []) (name : String) :
    t.symbolOf name = t.head ++ "_" ++ name := by
  have hsuffix : name ++ suffix [] = name := String.append_empty
  rw [symbolOf_eq, h, hsuffix]

theorem values_eq_nil_of_symbolOf_eq (hv : isName v) (ht : t.values = [])
    (h : t.symbolOf v = u.symbolOf w) : u.values = [] := by
  by_contra hu
  obtain ⟨x, n, hx⟩ := exists_suffix_eq hu
  have hend : u.symbolOf w = u.head ++ "_" ++ w ++ x ++ "_" ++ Int.repr n := by
    rw [symbolOf_eq, hx]
    simp only [String.append_assoc]
  rw [symbolOf_of_values_eq_nil ht, hend] at h
  have hlast := append_word_inj (underscore_notMem_of_isName hv) (underscore_notMem_repr n) h
  exact not_isName_repr n (hlast.2 ▸ hv)

/-- **A symbol has only one way to be taken apart**, if all symbols with values have the same
head. -/
theorem parts_eq (hv : isName v) (hw : isName w)
    (hhead : t.values ≠ [] → u.values ≠ [] → t.head = u.head) (h : t.symbolOf v = u.symbolOf w) :
    t.head = u.head ∧ v = w ∧ t.values = u.values := by
  have hv' := underscore_notMem_of_isName hv
  have hw' := underscore_notMem_of_isName hw
  -- with values, the name is found from the front, otherwise from the end
  by_cases ht : t.values = []
  · have hu := values_eq_nil_of_symbolOf_eq hv ht h
    rw [symbolOf_of_values_eq_nil ht, symbolOf_of_values_eq_nil hu] at h
    obtain ⟨hheads, hnames⟩ := append_word_inj hv' hw' h
    exact ⟨hheads, hnames, by rw [ht, hu]⟩
  · have hu : u.values ≠ [] := fun hu => ht (values_eq_nil_of_symbolOf_eq hw hu h.symm)
    have hheads := hhead ht hu
    rw [symbolOf_eq, symbolOf_eq, hheads, String.append_right_inj] at h
    obtain ⟨hnames, htails⟩ := append_tail_inj hv' hw' (isTail_suffix _) (isTail_suffix _) h
    exact ⟨hheads, hnames, suffix_inj htails⟩

/-! ## Origins are told apart by symbols -/

variable {r : Registry} {m : Module} {d e : Definition}

/-- The values decide the binding. -/
theorem binding_eq_of_values {c : Statement} {b b' : Option Binding} (h : c.Binds b)
    (h' : c.Binds b') (hvalues : (b.map Binding.values).getD [] = (b'.map Binding.values).getD []) :
    b = b' := by
  cases h with
  | object | exported => cases h'; rfl
  | template t values hlength =>
    cases h' with
    | template _ values' hlength' =>
      have hzip : ∀ ns : List Int, ns.length = t.slotNames.length →
          Binding.values (t.slotNames.zip ns) = ns :=
        fun ns hns => List.map_snd_zip (by omega)
      have hsame : values = values' := by
        rw [← hzip values hlength, ← hzip values' hlength']
        exact hvalues
      rw [hsame]

theorem IsOrigin.named (hm : m.Named) (hr : ∀ name k, r.find? name = some k → k.Named)
    (h : IsOrigin r m d t) : d.Named := by
  induction h with
  | own hc hd _ => exact hm _ hc _ hd
  | inlined _ _ hk he _ => exact ((hr _ _ hk).object? he).1

/-- Only instances have values, and they are decorated. -/
theorem IsOrigin.head_of_values (h : IsOrigin r m d t) (hvalues : t.values ≠ []) :
    t.head = "__" ++ m.name := by
  cases h with
  | own _ _ hb =>
    cases hb with
    | object | exported => exact absurd rfl hvalues
    | template => rfl
  | inlined => exact absurd rfl hvalues

theorem IsOrigin.length_le (h : IsOrigin r m d t) : m.name.length ≤ t.stem.length := by
  induction h with
  | own => exact Nat.le_refl _
  | inlined _ _ _ _ ih =>
    simp only [Target.inlineStem, String.length_append]
    omega

/-- The head of what is inlined is longer than any of the module's own. -/
theorem head_ne_inlineStem (h : IsOrigin r m d t) (decorated : Bool) (b : Option Binding)
    (owner : String) : Target.head ⟨m.name, decorated, b⟩ ≠ t.inlineStem d.name owner := by
  intro heq
  have hlength := congrArg String.length heq
  have hstem := h.length_le
  have hdecoration : (if decorated then "__" else "").length ≤ "__".length := by
    split <;> decide
  have hmark : "_IMPL_".length = 6 := rfl
  simp only [Target.head, Target.inlineStem, String.length_append] at hlength
  omega

/-- The stem of what is inlined ends with the name of its module. -/
theorem owner_eq_of_inlineStem (hv : isName v) (hw : isName w)
    (h : t.inlineStem x v = u.inlineStem y w) : v = w := by
  have hend : ∀ (t : Target) (x v : String),
      t.inlineStem x v = "__" ++ t.stem ++ "_" ++ x ++ "_IMPL" ++ "_" ++ v := by
    intro t x v
    have hmark : "_IMPL_" = "_IMPL" ++ "_" := by decide
    rw [Target.inlineStem, hmark, ← String.append_assoc]
  rw [hend, hend] at h
  exact (append_word_inj (underscore_notMem_of_isName hv) (underscore_notMem_of_isName hw) h).2

/-- **The head and the name of a symbol and its values lead back to one origin.** -/
theorem origin_eq_of_parts (hm : m.Named) (hr : ∀ name k, r.find? name = some k → k.Named)
    (hnames : m.declaredNames.Nodup) (h : IsOrigin r m d t) (h' : IsOrigin r m e u)
    (hhead : t.head = u.head) (hname : d.name = e.name) (hvalues : t.values = u.values) :
    d = e ∧ t = u := by
  cases h with
  | own ha hd hb =>
    cases h' with
    | own hc he hb' =>
      -- the decoration is the statement's, so that it need not be read off the head
      obtain rfl := Module.statement_eq_of_name hnames ha hc hd he hname
      obtain rfl := Option.some.inj (hd.symm.trans he)
      rw [binding_eq_of_values hb hb' hvalues]
      exact ⟨rfl, rfl⟩
    | inlined hinto _ _ _ =>
      rw [Target.head_plain] at hhead
      exact absurd hhead (head_ne_inlineStem hinto _ _ _)
  | @inlined d₀ _ t₀ k owner object hinto hmem hk hd =>
    rw [Target.head_plain] at hhead
    cases h' with
    | own _ _ _ => exact absurd hhead.symm (head_ne_inlineStem hinto _ _ _)
    | @inlined e₀ _ u₀ k' owner' object' hinto' hmem' hk' he =>
      rw [Target.head_plain] at hhead
      have hreference : isName owner ∧ isName object := (hinto.named hm hr).body _ hmem
      have hreference' : isName owner' ∧ isName object' := (hinto'.named hm hr).body _ hmem'
      -- the stems agree, so the objects come from the same module
      obtain rfl : owner = owner' := owner_eq_of_inlineStem hreference.1 hreference'.1 hhead
      obtain rfl : k = k' := Option.some.inj (hk.symm.trans hk')
      have hobject : object = object' := by
        have hkNamed := hr owner k hk
        rw [← (hkNamed.object? hd).2, ← (hkNamed.object? he).2, hname]
      subst hobject
      rw [hhead]
      exact ⟨Option.some.inj (hd.symm.trans he), rfl⟩

/-- **Lines of one module with the same symbol have the same origin.** -/
theorem origin_eq (hm : m.Named) (hr : ∀ name k, r.find? name = some k → k.Named)
    (hnames : m.declaredNames.Nodup) (h : IsOrigin r m d t) (h' : IsOrigin r m e u)
    (hsymbol : t.symbolOf d.name = u.symbolOf e.name) : d = e ∧ t = u := by
  have hheads : t.values ≠ [] → u.values ≠ [] → t.head = u.head := by
    intro ht hu
    rw [h.head_of_values ht, h'.head_of_values hu]
  obtain ⟨hhead, hname, hvalues⟩ :=
    parts_eq (h.named hm hr).name (h'.named hm hr).name hheads hsymbol
  exact origin_eq_of_parts hm hr hnames h h' hhead hname hvalues

/-- **No symbol of a module is defined in two ways.** If no name is declared twice in a module that
has been read, then all lines of its expansion with the same symbol are the same, be they for
objects, for instances of templates, or for what is inlined. The name of the module itself may be
any. -/
theorem same_symbol_same_line (hm : m.IsRead) (hr : ∀ name k, r.find? name = some k → k.IsRead)
    (hnames : m.declaredNames.Nodup) {text : String} (h : moduleText r m = .ok text) :
    ∃ bs, blocks r m = .ok bs ∧ text = blocksText bs ∧
      ∀ x ∈ bs.flatMap Block.lines, ∀ y ∈ bs.flatMap Block.lines, x.symbol = y.symbol → x = y := by
  obtain ⟨bs, hbs, htext⟩ := bind_eq_ok_iff.1 h
  cases htext
  refine ⟨bs, hbs, rfl, fun x hx y hy hsymbol => ?_⟩
  obtain ⟨d, t, hd, rfl⟩ := blocks_origin hbs x hx
  obtain ⟨e, u, he, rfl⟩ := blocks_origin hbs y hy
  have hnamed : ∀ name k, r.find? name = some k → k.Named := fun name k hk => (hr name k hk).named
  obtain ⟨rfl, rfl⟩ := origin_eq hm.named hnamed hnames hd he hsymbol
  rfl

/-- A template is instantiated for overlapping ranges, with an import in between, and inlines an
object that inlines another one. -/
theorem same_symbol_same_line_overlap :
    let source : Source := ⟨"a", "@K_1 \x7b\n@use A\n@use C\nT<i> A.B i\n@impl T<0..1>\n@use N\n" ++
      "@impl T<1..2>\n\x7d\n@A \x7b\n@use C\nB C.D\n\x7d\n@C \x7b\nD 1\n\x7d\n@N \x7b\n\x7d"⟩
    ∃ d m bs, Document.read source = .ok d ∧ m ∈ d.modules ∧ m.name = "K_1" ∧
      m.declaredNames.Nodup ∧ moduleText (Registry.ofDocuments [d]) m = .ok (blocksText bs) ∧
      ((bs.flatMap Block.lines).map (·.symbol)).count "__K_1_T_1" = 2 ∧
      ((bs.flatMap Block.lines).map (·.symbol)).count "____K_1_T_IMPL_A_B_IMPL_C_D" = 4 ∧
      ∀ x ∈ bs.flatMap Block.lines, ∀ y ∈ bs.flatMap Block.lines, x.symbol = y.symbol → x = y := by
  intro source
  obtain ⟨d, hread⟩ := exists_eq_ok_of_isOk (by decide +kernel : (Document.read source).isOk)
  have hcounts : (Document.read source).toOption.any fun d => d.modules.any fun m =>
      m.name == "K_1" && decide m.declaredNames.Nodup &&
      (blocks (Registry.ofDocuments [d]) m).toOption.any fun bs =>
        ((bs.flatMap Block.lines).map (·.symbol)).count "__K_1_T_1" == 2 &&
        ((bs.flatMap Block.lines).map (·.symbol)).count "____K_1_T_IMPL_A_B_IMPL_C_D" == 4 := by
    decide +kernel
  rw [hread] at hcounts
  obtain ⟨m, hm, hcounts⟩ := List.any_eq_true.1 hcounts
  simp only [Bool.and_eq_true, beq_iff_eq, decide_eq_true_eq] at hcounts
  obtain ⟨⟨hname, hnames⟩, hcounts⟩ := hcounts
  have hregistered : ∀ name k, (Registry.ofDocuments [d]).find? name = some k → k.IsRead := by
    intro name k hk
    rw [Registry.find?_ofDocuments] at hk
    have hmem : k ∈ d.modules := by simpa using List.mem_of_find?_eq_some hk
    exact ⟨source, d, hread, hmem⟩
  cases hbs : blocks (Registry.ofDocuments [d]) m with
  | error e =>
    rw [hbs] at hcounts
    cases hcounts
  | ok bs =>
    have htext : moduleText (Registry.ofDocuments [d]) m = .ok (blocksText bs) := by
      rw [moduleText, hbs]
      rfl
    obtain ⟨bs', hbs', -, hsame⟩ :=
      same_symbol_same_line ⟨source, d, hread, hm⟩ hregistered hnames htext
    obtain rfl : bs = bs' := Except.ok.inj (hbs.symm.trans hbs')
    rw [hbs] at hcounts
    simp only [Except.toOption, Option.any_some, Bool.and_eq_true, beq_iff_eq] at hcounts
    exact ⟨d, m, bs, hread, hm, hname, hnames, htext, hcounts.1, hcounts.2, hsame⟩

/-! ## The module of a symbol -/

/-- The module that a symbol belongs to: the first word in it. -/
def moduleOf (symbol : String) : String :=
  String.ofList ((symbol.toList.dropWhile (· == '_')).takeWhile (· != '_'))

theorem moduleOf_underscores (x : String) : moduleOf ("__" ++ x) = moduleOf x := by
  unfold moduleOf
  rw [String.toList_append, show "__".toList = ['_', '_'] from rfl]
  simp

theorem moduleOf_word (hv : isName v) (hx : IsTail x) : moduleOf (v ++ x) = v := by
  have hunderscore := underscore_notMem_of_isName hv
  have hdrop : (v ++ x).toList.dropWhile (· == '_') = (v ++ x).toList := by
    obtain ⟨c, cs, hcs, -⟩ := (isName_iff.1 hv).1
    rw [hcs] at hunderscore
    have hc : ¬ (c == '_') = true := fun h => hunderscore (beq_iff_eq.1 h ▸ List.mem_cons_self)
    rw [String.toList_append, hcs, List.cons_append]
    exact List.dropWhile_cons_of_neg hc
  unfold moduleOf
  rw [hdrop, String.toList_append, takeWhile_append_of_stops (bne_of_notMem hunderscore) hx.stops,
    String.ofList_toList]

/-- However deep something is inlined, its stem begins with the module. -/
theorem IsOrigin.moduleOf_stem (hm : isName m.name) (h : IsOrigin r m d t) (hx : IsTail x) :
    moduleOf (t.stem ++ x) = m.name := by
  -- what follows the stem grows with each level, but an underscore still begins it
  induction h generalizing x with
  | own => exact moduleOf_word hm hx
  | @inlined d _ t _ owner _ _ _ _ _ ih =>
    have hstem : t.inlineStem d.name owner ++ x =
        "__" ++ (t.stem ++ ("_" ++ (d.name ++ ("_IMPL_" ++ (owner ++ x))))) := by
      simp only [Target.inlineStem, String.append_assoc]
    rw [hstem, moduleOf_underscores]
    exact ih (.inr ⟨_, rfl⟩)

theorem IsOrigin.moduleOf_symbolOf (hm : isName m.name) (h : IsOrigin r m d t) :
    moduleOf (t.symbolOf d.name) = m.name := by
  have htail : IsTail ("_" ++ (d.name ++ suffix t.values)) := .inr ⟨_, rfl⟩
  have hstem := h.moduleOf_stem hm htail
  rw [symbolOf_eq, Target.head, String.append_assoc, String.append_assoc]
  split
  · rw [moduleOf_underscores, hstem]
  · rw [String.empty_append, hstem]

/-- **Modules of different names have no symbol in common**, if the names are words without
underscores. -/
theorem symbols_apart {sources : List Source} {xs : List String} (h : compile sources = .ok xs) :
    ∃ ds, readAll sources = .ok ds ∧
      ∀ m ∈ ds.flatMap Document.modules, ∀ k ∈ ds.flatMap Document.modules,
        isName m.name → isName k.name → m.name ≠ k.name →
        ∃ bs cs, blocks (Registry.ofDocuments ds) m = .ok bs ∧
          blocks (Registry.ofDocuments ds) k = .ok cs ∧
          ∀ x ∈ bs.flatMap Block.lines, ∀ y ∈ cs.flatMap Block.lines, x.symbol ≠ y.symbol := by
  obtain ⟨ds, hread, hblocks⟩ := exists_blocks_of_compile h
  refine ⟨ds, hread, fun m hm k hk hmName hkName hne => ?_⟩
  obtain ⟨bs, hbs⟩ := hblocks m hm
  obtain ⟨cs, hcs⟩ := hblocks k hk
  refine ⟨bs, cs, hbs, hcs, fun x hx y hy hsymbol => hne ?_⟩
  obtain ⟨d, t, hd, rfl⟩ := blocks_origin hbs x hx
  obtain ⟨e, u, he, rfl⟩ := blocks_origin hcs y hy
  rw [← hd.moduleOf_symbolOf hmName, ← he.moduleOf_symbolOf hkName]
  exact congrArg moduleOf hsymbol

/-- What one module inlines of the other belongs to the one that inlines it, and both have an object
of the same name. -/
theorem symbols_apart_inlined :
    let sources : List Source := [⟨"a", "@M \x7b\n@use N\n@export A N.B\n\x7d"⟩,
      ⟨"b", "@N \x7b\nB 1\n@export A B\n\x7d"⟩]
    compile sources = .ok ["\n#define __M_A_IMPL_N_B 1\n#define M_A __M_A_IMPL_N\n\n",
      "#define __N_B 1\n\n#define N_A __N_B\n\n"] ∧
    ∃ ds m k bs cs, readAll sources = .ok ds ∧ ds.flatMap Document.modules = [m, k] ∧
      m.name = "M" ∧ k.name = "N" ∧ blocks (Registry.ofDocuments ds) m = .ok bs ∧
      blocks (Registry.ofDocuments ds) k = .ok cs ∧
      ∀ x ∈ bs.flatMap Block.lines, ∀ y ∈ cs.flatMap Block.lines, x.symbol ≠ y.symbol := by
  intro sources
  have hcompile : compile sources = .ok ["\n#define __M_A_IMPL_N_B 1\n#define M_A __M_A_IMPL_N\n\n",
      "#define __N_B 1\n\n#define N_A __N_B\n\n"] := by decide +kernel
  obtain ⟨ds, hread, hapart⟩ := symbols_apart hcompile
  have hnames : ((readAll sources).toOption.map fun ds =>
      (ds.flatMap Document.modules).map (·.name)) = some ["M", "N"] := by decide +kernel
  rw [hread] at hnames
  obtain ⟨m, rest, hmodules, hm, hrest⟩ := List.map_eq_cons_iff.1 (Option.some.inj hnames)
  obtain ⟨k, rfl, hk⟩ := List.map_eq_singleton_iff.1 hrest
  obtain ⟨bs, cs, hbs, hcs, hne⟩ := hapart m (by simp [hmodules]) k (by simp [hmodules])
    (by rw [hm]; decide) (by rw [hk]; decide) (by rw [hm, hk]; decide)
  exact ⟨hcompile, ds, m, k, bs, cs, hread, hmodules, hm, hk, hbs, hcs, hne⟩

end Expansion

end MacroModules
