import MacroModules.Proofs.Document.Spelled
import MacroModules.Proofs.Expansion.Instances

/-!
# The identifier that a line defines

A C preprocessor takes as the name of a macro the longest word behind `#define`. In a line of an
expansion it begins with the symbol, which is a word, and the body follows directly. So the name is
the symbol if and only if the body does not begin with a word. For objects this is so by the way
they are read, however deep they are inlined. For an instance of a template it depends on what
stands behind the parameters of the template.

* `Define.identifier`: the name that a line gives to its macro.
* `IsWord`, `isWord_symbolOf`: symbols are words.
* `Spelled`, `Reaches.spelled`, `keptByInlining_spelled`: the facts about a definition and its
  target that this rests on.
* `beginsWithWordChar_body`: a body begins in the line as it does in the source.
* `identifier_eq_symbol_iff`: **the identifier is the symbol unless an instance begins with a
  word**.
-/

namespace MacroModules

/-! ## Words -/

/-- All characters of the text may stand in a word. -/
def IsWord (x : String) : Prop := ∀ c ∈ x.toList, isWordChar c

instance (x : String) : Decidable (IsWord x) :=
  decidable_of_iff (x.toList.all isWordChar = true) List.all_eq_true

theorem IsWord.append {x y : String} (hx : IsWord x) (hy : IsWord y) : IsWord (x ++ y) := by
  intro c hc
  rw [String.toList_append] at hc
  exact (List.mem_append.1 hc).elim (hx c) (hy c)

theorem isWord_of_isName {x : String} (h : isName x) : IsWord x := by
  intro c hc
  rw [isWordChar, (isName_iff.1 h).2 c hc]
  rfl

theorem isWord_repr {n : Int} (h : 0 ≤ n) : IsWord (Int.repr n) := by
  obtain ⟨k, rfl⟩ := Int.eq_ofNat_of_zero_le h
  intro c hc
  rw [Int.repr_eq_if, if_pos h, Nat.toList_repr] at hc
  have hdigit : c.isDigit := Nat.isDigit_of_mem_toDigits (by omega) (by omega) hc
  simp [isWordChar, Char.isAlphanum, hdigit]

theorem beginsWithWordChar_of_isWord {x : String} (hx : IsWord x) (hne : x ≠ "") :
    beginsWithWordChar x := by
  unfold beginsWithWordChar
  unfold IsWord at hx
  cases hcs : x.toList with
  | nil => exact absurd (String.toList_eq_nil_iff.1 hcs) hne
  | cons c cs => exact hx c (hcs ▸ List.mem_cons_self)

theorem ne_empty_of_beginsWithWordChar {x : String} (h : beginsWithWordChar x) : x ≠ "" := by
  rintro rfl
  cases h

namespace Expansion

theorem isWord_suffix {values : List Int} (h : ∀ v ∈ values, 0 ≤ v) : IsWord (suffix values) := by
  induction values with
  | nil => exact fun c hc => (by cases hc)
  | cons v values ih =>
    obtain ⟨hv, hvalues⟩ := List.forall_mem_cons.1 h
    rw [suffix_cons]
    exact IsWord.append (by decide) ((isWord_repr hv).append (ih hvalues))

theorem isWord_symbol {stem name : String} (hstem : IsWord stem) (hname : IsWord name)
    (decorated : Bool) : IsWord (symbol stem name decorated) := by
  have hdecoration : IsWord (if decorated then "__" else "") := by
    cases decorated <;> decide
  exact ((hdecoration.append hstem).append (by decide)).append hname

theorem isWord_inlineStem {t : Target} {name owner : String} (hstem : IsWord t.stem)
    (hname : IsWord name) (howner : IsWord owner) : IsWord (t.inlineStem name owner) := by
  have hstart : IsWord ("__" ++ t.stem ++ "_") :=
    (IsWord.append (by decide) hstem).append (by decide)
  exact ((hstart.append hname).append (by decide)).append howner

theorem beginsWithWordChar_underscores (x : String) : beginsWithWordChar ("__" ++ x) := by
  rw [beginsWithWordChar_append (by decide)]
  decide

/-! ## Lines -/

/-- The name that the line gives to its macro: the longest word behind `#define`. -/
def Define.identifier (x : Define) : String :=
  String.ofList ((x.text.toList.drop "#define ".length).takeWhile isWordChar)

theorem Define.identifier_eq {x : Define} (h : IsWord x.symbol) :
    x.identifier = x.symbol ++ String.ofList (x.body.toList.takeWhile isWordChar) := by
  have htext : x.text.toList.drop "#define ".length =
      x.symbol.toList ++ (x.body.toList ++ ['\n']) := by
    rw [Define.text, String.append_assoc, String.append_assoc, String.toList_append,
      ← String.length_toList, List.drop_left]
    simp
  rw [Define.identifier, htext, List.takeWhile_append_of_pos h,
    Lexeme.takeWhile_append_lf _ _ _ (by decide), String.ofList_append, String.ofList_toList]

theorem Define.identifier_eq_symbol {x : Define} (h : IsWord x.symbol) :
    x.identifier = x.symbol ↔ beginsWithWordChar x.body = false := by
  rw [Define.identifier_eq h, String.append_eq_left_iff, String.ofList_eq_empty_iff,
    beginsWithWordChar]
  cases x.body.toList with
  | nil => simp
  | cons c cs => cases hc : isWordChar c <;> simp [hc]

variable {r : Registry} {m : Module} {s : Scope} {bs : List Block} {d : Definition} {t : Target}

/-- What the line of a definition rests on. -/
structure Spelled (d : Definition) (t : Target) : Prop where
  named : d.Named
  fragments : ∀ f ∈ d.body, f.Spelled
  stem : IsWord t.stem
  values : ∀ v ∈ t.values, 0 ≤ v
  plain : t.binding = none → d.beginsWithWord = false
  slots : ∀ index, .slot index ∈ d.body → ∀ b, t.binding = some b → ∃ v, b.value? index = some v

theorem symbolOf_eq_symbol (t : Target) (name : String) :
    t.symbolOf name = symbol t.stem name t.decorated ++ suffix t.values := by
  rw [symbolOf_eq, ← String.append_assoc]
  rfl

theorem Spelled.isWord_symbolOf (h : Spelled d t) : IsWord (t.symbolOf d.name) := by
  rw [symbolOf_eq_symbol]
  exact (isWord_symbol h.stem (isWord_of_isName h.named.name) _).append (isWord_suffix h.values)

theorem Spelled.beginsWithWordChar_resolve (h : Spelled d t) {word : String} (hword : isName word) :
    beginsWithWordChar ((Scope.start m).resolve t.stem word) := by
  unfold Scope.resolve
  split
  · refine beginsWithWordChar_of_isWord (isWord_symbol h.stem (isWord_of_isName hword) _) ?_
    intro hempty
    have hmark := (String.append_eq_empty_iff.1 (String.append_eq_empty_iff.1 hempty).1).2
    exact absurd hmark (by decide)
  · exact beginsWithWordChar_of_isName hword

theorem Binding.mem_of_value? {b : Binding} {index v : Int} (h : b.value? index = some v) :
    v ∈ b.values := by
  unfold Binding.value? at h
  split at h
  · exact List.mem_of_getElem? h
  · exact List.mem_reverse.1 (List.mem_of_getElem? h)

/-- The first fragment begins in the line as it does in the source. -/
theorem Spelled.beginsWithWordChar_piece (h : Spelled d t) {f : Fragment}
    (hf : d.body.head? = some f) : piece m d.name t f ≠ "" ∧
      beginsWithWordChar (piece m d.name t f) = f.beginsWithWord := by
  have hmem : f ∈ d.body := List.mem_of_head? hf
  have hspelled := h.fragments f hmem
  -- where it begins with a word, it is not empty
  have hword : beginsWithWordChar (piece m d.name t f) →
      f.beginsWithWord → piece m d.name t f ≠ "" ∧
        beginsWithWordChar (piece m d.name t f) = f.beginsWithWord := by
    intro hpiece hbegins
    exact ⟨ne_empty_of_beginsWithWordChar hpiece, hpiece.trans hbegins.symm⟩
  cases f with
  | text value => exact ⟨hspelled, rfl⟩
  | word name => exact hword (h.beginsWithWordChar_resolve hspelled) rfl
  | call name args =>
    have hresolve := h.beginsWithWordChar_resolve (m := m) hspelled
    refine hword ?_ rfl
    rw [piece, Scope.call, beginsWithWordChar_append (ne_empty_of_beginsWithWordChar hresolve)]
    exact hresolve
  | foreign owner object inlined =>
    refine hword ?_ rfl
    cases inlined with
    | true =>
      simp only [piece, if_true, Target.inlineStem, String.append_assoc]
      exact beginsWithWordChar_underscores _
    | false =>
      simp only [piece, symbol, if_true, String.append_assoc]
      exact beginsWithWordChar_underscores _
  | slot index =>
    -- without values there is no slot at the beginning
    cases hb : t.binding with
    | none =>
      have hplain := h.plain hb
      rw [Definition.beginsWithWord, hf] at hplain
      cases hplain
    | some b =>
      obtain ⟨v, hv⟩ := h.slots index hmem b hb
      have hpiece : piece m d.name t (.slot index) = Int.repr v := by
        rw [piece, hb, Option.bind_some, hv]
        rfl
      have hnonneg : 0 ≤ v := by
        apply h.values
        rw [Target.values, hb]
        exact Binding.mem_of_value? hv
      refine hword ?_ rfl
      rw [hpiece]
      refine beginsWithWordChar_of_isWord (isWord_repr hnonneg) ?_
      rw [Int.repr_eq_if, if_pos hnonneg]
      exact Nat.repr_ne_empty
  | unknown => exact hspelled.elim

/-- **A body begins in the line as it does in the source.** -/
theorem Spelled.beginsWithWordChar_body (h : Spelled d t) :
    beginsWithWordChar (lineOf m d t).body = d.beginsWithWord := by
  unfold lineOf Definition.beginsWithWord
  cases hbody : d.body with
  | nil => rfl
  | cons f fs =>
    obtain ⟨hne, hpiece⟩ := h.beginsWithWordChar_piece (m := m) (f := f) (by rw [hbody]; rfl)
    rw [List.map_cons, String.join_cons, beginsWithWordChar_append hne, hpiece]
    rfl

/-! ## Modules -/

theorem Reaches.values_nonneg (hm : m.Spelled) (h : Reaches r m s d t) : ∀ v ∈ t.values, 0 ≤ v := by
  obtain ⟨before, c, after, hbody, -, h⟩ := h
  cases h with
  | object | exported => exact fun v hv => (by cases hv)
  | @instances name e ranges _ first later values _ hcount _ hsplit _ =>
    have hmem : values ∈ rangeTuples ranges := by
      rw [hsplit]
      exact List.mem_append_right _ List.mem_cons_self
    rw [Template.values_target ((length_of_mem_rangeTuples hmem).trans hcount)]
    intro v hv
    obtain ⟨range, hrange, hlo, -⟩ := exists_of_mem_left (mem_rangeTuples.1 hmem) hv
    have hstatement : .instances name ranges ∈ m.body := by
      rw [hbody]
      exact List.mem_append_right _ List.mem_cons_self
    have hnonneg := hm.ranges name ranges hstatement range hrange
    omega

/-- **Whatever the expansion of a module gets to is spelled.** -/
theorem Reaches.spelled (hm : m.IsRead) (hbs : blocks r m = .ok bs) (h : Reaches r m s d t) :
    Spelled d t := by
  have hspelled := hm.spelled
  have hvalues := h.values_nonneg hspelled
  obtain ⟨ds, hds, -⟩ := define_of_blocks hbs h
  obtain ⟨c, hc, b, hd, hb, rfl⟩ := h.exists_statement
  refine ⟨hm.named c hc d hd, hspelled.body c hc d hd, hspelled.name, hvalues, fun hnone => ?_,
    fun index hindex b' hb' => ?_⟩
  · dsimp only at hnone
    subst hnone
    cases hb with
    | object | exported => exact hspelled.object _ hc d hd
  · -- the expansion has found the slot
    obtain ⟨inline, z, hz⟩ := exists_fragment_of_define hds hindex
    dsimp only at hb'
    subst hb'
    rw [fragment] at hz
    cases hv : b'.value? index with
    | some v => exact ⟨v, rfl⟩
    | none =>
      simp only [hv] at hz
      cases hz

theorem keptByInlining_spelled (hr : ∀ name k, r.find? name = some k → k.IsRead) :
    KeptByInlining r Spelled := by
  intro d t k owner object e hd hmem hk he
  have hread := hr owner k hk
  obtain ⟨hnamed, -⟩ := hread.named.object? he
  obtain ⟨c, hc, hobject⟩ := List.mem_filterMap.1 (List.mem_of_find?_eq_some he)
  have howner : isName owner := (hd.named.body _ hmem).1
  have hbody := hread.spelled.body c hc e (Statement.declared?_of_object? hobject)
  exact {
    named := hnamed
    fragments := hbody
    stem := isWord_inlineStem hd.stem (isWord_of_isName hd.named.name) (isWord_of_isName howner)
    values := fun v hv => (by cases hv)
    plain := fun _ => hread.spelled.object c hc e hobject
    slots := fun _ _ b hb => (by cases hb) }

theorem isRead_of_readAll {sources : List Source} {ds : List Document}
    (h : readAll sources = .ok ds) : ∀ m ∈ ds.flatMap Document.modules, m.IsRead := by
  intro m hm
  obtain ⟨d, hd, hm⟩ := List.mem_flatMap.1 hm
  obtain ⟨source, -, hsource⟩ := exists_of_mem_left (readAll_eq_ok_iff.1 h).flip hd
  exact ⟨source, d, hsource, hm⟩

/-- **The identifier that a line defines is its symbol, unless an instance begins with a word.**
Each line of sources that compile is made from a definition, under a symbol of the module or of the
place where it is inlined, its name and its values. The name of the macro is this symbol and what
the body begins with of a word. That is nothing for all objects, exported or not, wherever they are
inlined. For an instance it is nothing exactly if the body of the template does not begin with a
word: with a name, or with text of which this is so. -/
theorem identifier_eq_symbol_iff {sources : List Source} {xs : List String}
    (h : compile sources = .ok xs) : ∃ ds, readAll sources = .ok ds ∧
      ∀ m ∈ ds.flatMap Document.modules, ∃ bs, blocks (Registry.ofDocuments ds) m = .ok bs ∧
        ∀ x ∈ bs.flatMap Block.lines, ∃ d t, IsOrigin (Registry.ofDocuments ds) m d t ∧
          x = lineOf m d t ∧ x.symbol = symbol t.stem d.name t.decorated ++ suffix t.values ∧
          x.identifier = x.symbol ++ String.ofList (x.body.toList.takeWhile isWordChar) ∧
          (x.identifier = x.symbol ↔ ¬ (t.binding.isSome ∧ d.beginsWithWord)) := by
  obtain ⟨ds, hread, hblocks⟩ := exists_blocks_of_compile h
  have hmodules := isRead_of_readAll hread
  have hregistered : ∀ name k, (Registry.ofDocuments ds).find? name = some k → k.IsRead := by
    intro name k hk
    rw [Registry.find?_ofDocuments] at hk
    exact hmodules k (List.mem_of_find?_eq_some hk)
  refine ⟨ds, hread, fun m hm => ?_⟩
  obtain ⟨bs, hbs⟩ := hblocks m hm
  refine ⟨bs, hbs, fun x hx => ?_⟩
  have hkept : KeptByInlining (Registry.ofDocuments ds)
      fun d t => Spelled d t ∧ IsOrigin (Registry.ofDocuments ds) m d t :=
    fun _ _ _ _ _ _ hd hmem hk he =>
      ⟨keptByInlining_spelled hregistered hd.1 hmem hk he, hd.2.inlined hmem hk he⟩
  obtain ⟨d, t, ⟨hspelled, horigin⟩, rfl⟩ := lines_origin
    (fun _ _ _ hreach => ⟨hreach.spelled (hmodules m hm) hbs, hreach.isOrigin⟩) hkept hbs x hx
  have hword : IsWord (lineOf m d t).symbol := hspelled.isWord_symbolOf
  refine ⟨d, t, horigin, rfl, symbolOf_eq_symbol t d.name, Define.identifier_eq hword, ?_⟩
  rw [Define.identifier_eq_symbol hword, hspelled.beginsWithWordChar_body]
  cases hb : t.binding with
  | none => simp [hspelled.plain hb]
  | some b => simp

/-- Without a blank behind the name, the body of an object begins with a sign. An instance may
begin with a word if it has arguments or a blank in front of it. -/
theorem identifier_eq_symbol_iff_kinds :
    let sources : List Source := [⟨"a", "@M_1 \x7b\n@use N\nA+1\n@export B N.C\nT<i> i\n" ++
      "@impl T<10..10>\nU<i>(x)x\n@impl U<7..7>\n\x7d\n@N \x7b\nC 1\n\x7d"⟩]
    compile sources = .ok ["\n#define __M_1_A+1\n\n#define __M_1_B_IMPL_N_C 1\n" ++
      "#define M_1_B __M_1_B_IMPL_N\n\n\n#define __M_1_T_10 10\n\n\n#define __M_1_U_7(x)x\n\n\n" ++
      "#define __N_C 1\n\n"] ∧
    ∃ ds m bs, readAll sources = .ok ds ∧ m ∈ ds.flatMap Document.modules ∧
      blocks (Registry.ofDocuments ds) m = .ok bs ∧
      (bs.flatMap Block.lines).map (·.symbol) =
        ["__M_1_A", "__M_1_B_IMPL_N_C", "M_1_B", "__M_1_T_10", "__M_1_U_7"] ∧
      ∀ x ∈ bs.flatMap Block.lines, ∃ d t, x = lineOf m d t ∧
        (x.identifier = x.symbol ↔ ¬ (t.binding.isSome ∧ d.beginsWithWord)) := by
  intro sources
  have hcompile : compile sources = .ok ["\n#define __M_1_A+1\n\n#define __M_1_B_IMPL_N_C 1\n" ++
      "#define M_1_B __M_1_B_IMPL_N\n\n\n#define __M_1_T_10 10\n\n\n#define __M_1_U_7(x)x\n\n\n" ++
      "#define __N_C 1\n\n"] := by decide +kernel
  obtain ⟨ds, hread, hidentifiers⟩ := identifier_eq_symbol_iff hcompile
  have hsymbols : (readAll sources).toOption.any fun ds =>
      (ds.flatMap Document.modules).any fun m =>
      (blocks (Registry.ofDocuments ds) m).toOption.any fun bs =>
        (bs.flatMap Block.lines).map (·.symbol) ==
          ["__M_1_A", "__M_1_B_IMPL_N_C", "M_1_B", "__M_1_T_10", "__M_1_U_7"] := by
    decide +kernel
  rw [hread] at hsymbols
  obtain ⟨m, hm, hsymbols⟩ := List.any_eq_true.1 hsymbols
  obtain ⟨bs, hbs, hlines⟩ := hidentifiers m hm
  rw [hbs] at hsymbols
  refine ⟨hcompile, ds, m, bs, hread, hm, hbs, beq_iff_eq.1 hsymbols, fun x hx => ?_⟩
  obtain ⟨d, t, -, hx, -, -, hiff⟩ := hlines x hx
  exact ⟨d, t, hx, hiff⟩

/-- **The identifier of an instance may be longer than its symbol.** The body begins directly behind
the parameters. -/
theorem identifier_of_adjacent_instance :
    let source : Source := ⟨"a", "@M \x7b\nT<a>b\n@impl T<1..1>\n\x7d\n"⟩
    compile [source] = .ok ["\n#define __M_T_1b\n\n\n"] ∧
    ∃ d m, Document.read source = .ok d ∧ d.modules = [m] ∧
      blocks (Registry.ofDocuments [d]) m = .ok [.defines [], .defines [⟨"__M_T_1", "b"⟩]] ∧
      Define.identifier ⟨"__M_T_1", "b"⟩ = "__M_T_1b" := by
  intro source
  obtain ⟨d, hread⟩ := exists_eq_ok_of_isOk (by decide +kernel : (Document.read source).isOk)
  have hblocks : (Document.read source).toOption.any fun d => d.modules.length == 1 &&
      d.modules.all fun m => blocks (Registry.ofDocuments [d]) m ==
        .ok [.defines [], .defines [⟨"__M_T_1", "b"⟩]] := by
    decide +kernel
  rw [hread] at hblocks
  obtain ⟨hlength, hblocks⟩ := Bool.and_eq_true_iff.1 hblocks
  obtain ⟨m, hm⟩ := List.length_eq_one_iff.1 (beq_iff_eq.1 hlength)
  rw [hm] at hblocks
  have hmodule := List.all_eq_true.1 hblocks m List.mem_cons_self
  exact ⟨by decide +kernel, d, m, hread, hm, eq_of_beq hmodule, by decide +kernel⟩

end Expansion

end MacroModules
