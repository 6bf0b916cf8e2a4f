import Mathlib.Data.Fin.VecNotation
import Mathlib.Data.List.FinRange
import MacroModules.Proofs.Expansion.Agree
import MacroModules.Proofs.Expansion.Batch

/-!
# Sources in another order, and more of them

The expansion of a document depends on the registry as a map from names to modules. Sources that do
not share names give the same map in every order. More sources behind the others may add to the map
but not change it, because the first module of a name counts; and a document that can be expanded
imports only what is in the map already.

* `registered_of_document`: a document that can be expanded imports modules that there are.
* `compile_append_prefix`: **more sources do not change the output for the first ones**.
* `Document.Apart`, `find?_ofDocuments_perm`: documents without common names, in any order.
* `compile_perm`: **the order of the sources is that of the output, and nothing else**.
-/

namespace MacroModules

/-! ## More sources -/

namespace Expansion

variable {r : Registry}

theorem registered_of_statements {s : Scope} {cs : List Statement} {bs : List Block}
    (h : statements r s cs = .ok bs) :
    ∀ name ∈ cs.filterMap Statement.used?, ∃ m, r.find? name = some m := by
  induction cs generalizing s bs with
  | nil => simp
  | cons c cs ih =>
    rw [statements] at h
    obtain ⟨p, hc, h⟩ := bind_eq_ok_iff.1 h
    obtain ⟨bs', hcs, -⟩ := bind_eq_ok_iff.1 h
    intro name hname
    obtain ⟨c', hmem, hused⟩ := List.mem_filterMap.1 hname
    rcases List.mem_cons.1 hmem with rfl | hmem
    · cases c' with
      | imports =>
        -- the statement has found its module, since it did not fail
        cases hused
        rw [statement, findModule] at hc
        cases hm : r.find? name with
        | none => rw [hm] at hc; cases hc
        | some m => exact ⟨m, rfl⟩
      | object | template | exported | instances | comment | unknown => cases hused
    · exact ih hcs name (List.mem_filterMap.2 ⟨c', hmem, hused⟩)

theorem registered_of_moduleText {m : Module} {x : String} (h : moduleText r m = .ok x) :
    ∀ name ∈ m.uses, ∃ n, r.find? name = some n := by
  obtain ⟨bs, hbs, -⟩ := bind_eq_ok_iff.1 h
  exact registered_of_statements (within_eq_ok_iff.1 hbs)

/-- A document that can be expanded imports modules that there are. -/
theorem registered_of_document {d : Document} {x : String} (h : document r d = .ok x) :
    ∀ name ∈ d.uses, ∃ m, r.find? name = some m := by
  have hsections : ∀ (cs : List Section) ys, sectionTexts r d.source cs = .ok ys →
      ∀ c ∈ cs, ∃ y, sectionText r d.source c = .ok y := by
    intro cs
    induction cs with
    | nil => simp
    | cons c cs ih =>
      intro ys hys
      rw [sectionTexts] at hys
      obtain ⟨y, hy, hys⟩ := bind_eq_ok_iff.1 hys
      obtain ⟨zs, hzs, -⟩ := bind_eq_ok_iff.1 hys
      exact List.forall_mem_cons.2 ⟨⟨y, hy⟩, ih zs hzs⟩
  obtain ⟨ys, hys, -⟩ := bind_eq_ok_iff.1 h
  intro name hname
  obtain ⟨m, hm, hname⟩ := List.mem_flatMap.1 hname
  obtain ⟨c, hc, hcm⟩ := List.mem_filterMap.1 hm
  cases c with
  | raw | unknown => cases hcm
  | code n =>
    cases hcm
    obtain ⟨y, hy⟩ := hsections d.sections ys hys _ hc
    rw [sectionText] at hy
    cases hx : moduleText r m with
    | error e => rw [hx] at hy; cases hy
    | ok x => exact registered_of_moduleText hx name hname

end Expansion

/-- A module stays what it is when more documents follow. -/
theorem Registry.find?_ofDocuments_append {ds : List Document} {name : String} {m : Module}
    (h : (ofDocuments ds).find? name = some m) (es : List Document) :
    (ofDocuments (ds ++ es)).find? name = some m := by
  rw [find?_ofDocuments] at h
  rw [find?_ofDocuments, List.flatMap_append, List.find?_append, h, Option.some_or]

theorem Registry.exists_find?_ofDocuments {ds : List Document} {d : Document} {m : Module}
    (hd : d ∈ ds) (hm : m ∈ d.modules) : ∃ k, (ofDocuments ds).find? m.name = some k := by
  rw [find?_ofDocuments]
  apply Option.isSome_iff_exists.1
  rw [List.find?_isSome]
  exact ⟨m, List.mem_flatMap.2 ⟨d, hd, hm⟩, beq_self_eq_true _⟩

namespace Expansion

theorem readAll_append {fs gs : List Source} {ds es : List Document} (hfs : readAll fs = .ok ds)
    (hgs : readAll gs = .ok es) : readAll (fs ++ gs) = .ok (ds ++ es) :=
  readAll_eq_ok_iff.2 (List.rel_append (readAll_eq_ok_iff.1 hfs) (readAll_eq_ok_iff.1 hgs))

/-- **More sources do not change the output for the first ones**, whatever modules they declare. -/
theorem compile_append_prefix {fs gs : List Source} {xs : List String} {es : List Document}
    (hfs : compile fs = .ok xs) (hgs : readAll gs = .ok es) :
    ∃ ds, readAll fs = .ok ds ∧ readAll (fs ++ gs) = .ok (ds ++ es) ∧ xs.length = fs.length ∧
      (documents (ds ++ es)).1.take fs.length = xs ∧
      ∀ d ∈ ds, ∀ m ∈ d.modules, ∃ k, (Registry.ofDocuments ds).find? m.name = some k ∧
        (Registry.ofDocuments (ds ++ es)).find? m.name = some k := by
  obtain ⟨ds, hds, hxs⟩ := compile_eq_ok_iff.1 hfs
  have hlength : xs.length = fs.length := by
    have hread := (readAll_eq_ok_iff.1 hds).length_eq
    have hexpand := (mapM_eq_ok_iff.1 hxs).length_eq
    omega
  have hsame : ∀ d x, document (Registry.ofDocuments ds) d = .ok x →
      document (Registry.ofDocuments (ds ++ es)) d = .ok x := by
    intro d x hx
    rw [← hx]
    -- whatever the document imports was registered without the other documents
    refine document_agree (Registry.agreeOn_of_object? fun name hname => ?_)
    obtain ⟨m, hm⟩ := registered_of_document hx name hname
    rw [hm, Registry.find?_ofDocuments_append hm]
  have hxs' : ds.mapM (document (Registry.ofDocuments (ds ++ es))) = .ok xs := by
    rw [mapM_eq_ok_iff] at hxs ⊢
    exact hxs.imp hsame
  refine ⟨ds, hds, readAll_append hds hgs, hlength, ?_, fun d hd m hm => ?_⟩
  · rw [documents, documentsWith_append hxs', ← hlength, List.take_left]
  · obtain ⟨k, hk⟩ := Registry.exists_find?_ofDocuments hd hm
    exact ⟨k, hk, Registry.find?_ofDocuments_append hk es⟩

/-- The source behind the others declares a module again, and it cannot be expanded itself. -/
theorem compile_append_prefix_again :
    compile [⟨"a", "@M \x7b\n@use N\nA N.B\n\x7d"⟩, ⟨"b", "@N \x7b\nB 1\n\x7d"⟩] =
      .ok ["\n#define __M_A_IMPL_N_B 1\n#define __M_A __M_A_IMPL_N\n\n", "#define __N_B 1\n\n"] ∧
    ∃ ds es, readAll [⟨"c", "@N \x7b\nB 2\n@use P\n\x7d"⟩] = .ok es ∧
      readAll ([⟨"a", "@M \x7b\n@use N\nA N.B\n\x7d"⟩, ⟨"b", "@N \x7b\nB 1\n\x7d"⟩] ++
        [⟨"c", "@N \x7b\nB 2\n@use P\n\x7d"⟩]) = .ok (ds ++ es) ∧
      (documents (ds ++ es)).1.take 2 =
        ["\n#define __M_A_IMPL_N_B 1\n#define __M_A __M_A_IMPL_N\n\n", "#define __N_B 1\n\n"] := by
  have hfs : compile [⟨"a", "@M \x7b\n@use N\nA N.B\n\x7d"⟩, ⟨"b", "@N \x7b\nB 1\n\x7d"⟩] =
      .ok ["\n#define __M_A_IMPL_N_B 1\n#define __M_A __M_A_IMPL_N\n\n",
        "#define __N_B 1\n\n"] := by
    decide +kernel
  obtain ⟨es, hgs⟩ := exists_eq_ok_of_isOk
    (by decide +kernel : (readAll [⟨"c", "@N \x7b\nB 2\n@use P\n\x7d"⟩]).isOk)
  obtain ⟨ds, -, hall, -, htake, -⟩ := compile_append_prefix hfs hgs
  exact ⟨hfs, ds, es, hgs, hall, htake⟩

end Expansion

/-! ## Another order -/

/-- The documents have no module name in common. -/
def Document.Apart (d e : Document) : Prop :=
  ∀ m ∈ d.modules, ∀ k ∈ e.modules, m.name ≠ k.name

section

variable {ds es : List Document} (hapart : ∀ d ∈ ds, ∀ e ∈ ds, d ≠ e → d.Apart e)

include hapart

/-- A name leads to the module of that name in any of the documents that have one: there is one such
document at most, though it may be there several times. -/
theorem Registry.find?_ofDocuments_eq_some_iff {name : String} {m : Module} :
    (ofDocuments ds).find? name = some m ↔
      ∃ d ∈ ds, d.modules.find? (·.name == name) = some m := by
  rw [find?_ofDocuments, List.find?_flatMap]
  constructor
  · exact List.exists_of_findSome?_eq_some
  · rintro ⟨d, hd, hm⟩
    have hfound : (ds.findSome? fun e => e.modules.find? (·.name == name)).isSome :=
      List.findSome?_isSome_iff.2 ⟨d, hd, by rw [hm]; rfl⟩
    obtain ⟨k, hk⟩ := Option.isSome_iff_exists.1 hfound
    obtain ⟨e, he, hke⟩ := List.exists_of_findSome?_eq_some hk
    rw [hk]
    by_cases hde : d = e
    · rw [← hde, hm] at hke
      exact hke.symm
    · have hmname : m.name = name := by simpa using List.find?_some hm
      have hkname : k.name = name := by simpa using List.find?_some hke
      exact absurd (hmname.trans hkname.symm) (hapart d hd e he hde m
        (List.mem_of_find?_eq_some hm) k (List.mem_of_find?_eq_some hke))

/-- **Names lead to the same modules in every order.** -/
theorem Registry.find?_ofDocuments_perm (h : es.Perm ds) (name : String) :
    (ofDocuments es).find? name = (ofDocuments ds).find? name := by
  have hapart' : ∀ d ∈ es, ∀ e ∈ es, d ≠ e → d.Apart e :=
    fun d hd e he => hapart d (h.mem_iff.1 hd) e (h.mem_iff.1 he)
  ext m
  rw [find?_ofDocuments_eq_some_iff hapart, find?_ofDocuments_eq_some_iff hapart']
  simp only [h.mem_iff]

end

namespace Expansion

section

variable {α β : Type} {n : Nat}

theorem forall₂_ofFn {R : α → β → Prop} {f : Fin n → α} {g : Fin n → β} :
    List.Forall₂ R (List.ofFn f) (List.ofFn g) ↔ ∀ i, R (f i) (g i) := by
  simp only [List.forall₂_iff_get, List.length_ofFn, List.get_ofFn, true_and]
  exact ⟨fun h i => h i i.isLt i.isLt, fun h i hi _ => h ⟨i, hi⟩⟩

theorem exists_ofFn_of_length {xs : List α} (h : xs.length = n) :
    ∃ f : Fin n → α, xs = List.ofFn f := by
  subst h
  exact ⟨xs.get, (List.ofFn_get xs).symm⟩

end

variable {n : Nat} {files : Fin n → Source} {docs : Fin n → Document}

/-- Sources are compiled if each of their documents can be expanded. -/
theorem compile_ofFn_eq_ok_iff (hread : ∀ i, Document.read (files i) = .ok (docs i))
    {xs : List String} :
    compile (List.ofFn files) = .ok xs ↔ ∃ texts : Fin n → String, xs = List.ofFn texts ∧
      ∀ i, document (Registry.ofDocuments (List.ofFn docs)) (docs i) = .ok (texts i) := by
  have hds : readAll (List.ofFn files) = .ok (List.ofFn docs) :=
    readAll_eq_ok_iff.2 (forall₂_ofFn.2 hread)
  rw [compile_eq_ok_iff]
  constructor
  · rintro ⟨ds, hds', hxs⟩
    rw [hds, Except.ok.injEq] at hds'
    subst hds'
    rw [mapM_eq_ok_iff] at hxs
    obtain ⟨texts, rfl⟩ := exists_ofFn_of_length (n := n) (by simpa using hxs.length_eq.symm)
    rw [forall₂_ofFn] at hxs
    exact ⟨texts, rfl, hxs⟩
  · rintro ⟨texts, rfl, htexts⟩
    exact ⟨_, hds, mapM_eq_ok_iff.2 (forall₂_ofFn.2 htexts)⟩

/-- **The order of the sources is that of the output, and nothing else.** Sources of which no two
different ones share a module name are compiled in every order or in none, and to the same texts.
All names lead to the same modules, so that every document has the same outcome. -/
theorem compile_perm (hread : ∀ i, Document.read (files i) = .ok (docs i))
    (hapart : ∀ i j, files i ≠ files j → (docs i).Apart (docs j)) (σ : Equiv.Perm (Fin n)) :
    ((∃ xs, compile (List.ofFn (files ∘ σ)) = .ok xs) ↔ ∃ xs, compile (List.ofFn files) = .ok xs) ∧
    (∀ xs, compile (List.ofFn files) = .ok xs → ∃ texts : Fin n → String, xs = List.ofFn texts ∧
      compile (List.ofFn (files ∘ σ)) = .ok (List.ofFn (texts ∘ σ))) ∧
    (∀ name, (Registry.ofDocuments (List.ofFn (docs ∘ σ))).find? name =
      (Registry.ofDocuments (List.ofFn docs)).find? name) ∧
    ∀ d, document (Registry.ofDocuments (List.ofFn (docs ∘ σ))) d =
      document (Registry.ofDocuments (List.ofFn docs)) d := by
  have hfind : ∀ name, (Registry.ofDocuments (List.ofFn (docs ∘ σ))).find? name =
      (Registry.ofDocuments (List.ofFn docs)).find? name := by
    refine Registry.find?_ofDocuments_perm ?_ (σ.ofFn_comp_perm docs)
    intro d hd e he hde
    obtain ⟨i, rfl⟩ := (List.mem_ofFn' docs d).1 hd
    obtain ⟨j, rfl⟩ := (List.mem_ofFn' docs e).1 he
    refine hapart i j fun hfiles => hde ?_
    -- the same source is read as the same document
    have hi := hread i
    rw [hfiles, hread j, Except.ok.injEq] at hi
    exact hi.symm
  have hdocument : ∀ d, document (Registry.ofDocuments (List.ofFn (docs ∘ σ))) d =
      document (Registry.ofDocuments (List.ofFn docs)) d :=
    fun d => document_agree (Registry.agreeOn_of_object? fun name _ => by rw [hfind])
  have hread' : ∀ i, Document.read ((files ∘ σ) i) = .ok ((docs ∘ σ) i) := fun i => hread (σ i)
  have hpermuted : ∀ xs, compile (List.ofFn files) = .ok xs → ∃ texts : Fin n → String,
      xs = List.ofFn texts ∧ compile (List.ofFn (files ∘ σ)) = .ok (List.ofFn (texts ∘ σ)) := by
    intro xs hxs
    obtain ⟨texts, hxs, htexts⟩ := (compile_ofFn_eq_ok_iff hread).1 hxs
    refine ⟨texts, hxs, (compile_ofFn_eq_ok_iff hread').2 ?_⟩
    exact ⟨texts ∘ σ, rfl, fun i => (hdocument _).trans (htexts (σ i))⟩
  refine ⟨⟨?_, ?_⟩, hpermuted, hfind, hdocument⟩
  · rintro ⟨xs, hxs⟩
    obtain ⟨texts, -, htexts⟩ := (compile_ofFn_eq_ok_iff hread').1 hxs
    refine ⟨_, (compile_ofFn_eq_ok_iff hread).2 ⟨texts ∘ σ.symm, rfl, fun i => ?_⟩⟩
    have hi := htexts (σ.symm i)
    rw [hdocument, Function.comp_apply, σ.apply_symm_apply] at hi
    exact hi
  · rintro ⟨xs, hxs⟩
    obtain ⟨texts, -, htexts⟩ := hpermuted xs hxs
    exact ⟨_, htexts⟩

/-- A module of the first source inlines an object of the second, which comes first after the
exchange. -/
theorem compile_perm_swap :
    let files : Fin 2 → Source :=
      ![⟨"a", "@M \x7b\n@use N\nA N.B\n\x7d"⟩, ⟨"b", "@N \x7b\nB 1\n\x7d"⟩]
    ∃ docs : Fin 2 → Document, (∀ i, Document.read (files i) = .ok (docs i)) ∧
      (∀ i j, files i ≠ files j → (docs i).Apart (docs j)) ∧
      compile (List.ofFn files) = .ok
        ["\n#define __M_A_IMPL_N_B 1\n#define __M_A __M_A_IMPL_N\n\n", "#define __N_B 1\n\n"] ∧
      compile (List.ofFn (files ∘ Equiv.swap 0 1)) = .ok
        ["#define __N_B 1\n\n", "\n#define __M_A_IMPL_N_B 1\n#define __M_A __M_A_IMPL_N\n\n"] := by
  intro files
  have hisOk : ∀ i, (Document.read (files i)).isOk := by decide +kernel
  choose docs hread using fun i => exists_eq_ok_of_isOk (hisOk i)
  have hnames : ∀ i, (docs i).modules.map (·.name) = ![["M"], ["N"]] i := by
    have hread' : ∀ i, (Document.read (files i)).map (fun d => d.modules.map (·.name)) =
        .ok (![["M"], ["N"]] i) := by decide +kernel
    intro i
    have hi := hread' i
    rw [hread i] at hi
    exact Except.ok.inj hi
  have hapart : ∀ i j, files i ≠ files j → (docs i).Apart (docs j) := by
    intro i j hij m hm k hk hmk
    have hm := List.mem_map_of_mem (f := (·.name)) hm
    have hk := List.mem_map_of_mem (f := (·.name)) hk
    rw [hnames, hmk] at hm
    rw [hnames] at hk
    have hdisjoint : ∀ i j, files i ≠ files j → ∀ name ∈ ![["M"], ["N"]] i,
        name ∉ ![["M"], ["N"]] j := by decide +kernel
    exact hdisjoint i j hij _ hm hk
  have hcompile : compile (List.ofFn files) = .ok
      ["\n#define __M_A_IMPL_N_B 1\n#define __M_A __M_A_IMPL_N\n\n", "#define __N_B 1\n\n"] := by
    decide +kernel
  obtain ⟨texts, htexts, hswapped⟩ := (compile_perm hread hapart (Equiv.swap 0 1)).2.1 _ hcompile
  refine ⟨docs, hread, hapart, hcompile, ?_⟩
  simp only [List.ofFn_succ, List.ofFn_zero, List.cons.injEq, and_true] at htexts
  rw [hswapped, htexts.1, htexts.2]
  simp [List.ofFn_succ]

end Expansion

end MacroModules
