import Mathlib.Logic.Equiv.Basic
import MacroModules.Document.Reader.Statement
import MacroModules.Proofs.Document.Rename
import MacroModules.Proofs.Expansion.Depth
import MacroModules.Token.Lexer

/-!
# Parameters under another name

A parameter is found by its name twice: when the body is read, and when an argument of a template
is looked up. Both go along with a renaming, so what a parameter is called makes no difference, as
long as the new name is not in use and the old one means nothing else.

* `Template.ofTokens`: a template by its parts.
* `Binding.rename`, `define_rename`, `define_ofTokens_rename`: other names for the slots, in a
  binding, in a body and in a template.
* `replaceName`, `map_replaceName`: one name for another. Where the new name does not occur, this is
  to exchange the two, which takes different names to different names.
* `define_renamed_parameter`: **a template is expanded to the same lines, or fails in the same way,
  whatever its parameters are called**.
-/

namespace MacroModules

/-- The template with these parts: its name, the texts in front of what is read, the names in angle
brackets, the arguments, whether these are open-ended, and the tokens of the body. -/
def Template.ofTokens (name : String) (lead params args : List String) (variadic : Bool)
    (body : List Token) : Template :=
  ⟨⟨name, lead.map .text ++
    Body.fragments ⟨Param.slotNames (Param.ofNames params), args, variadic⟩ body⟩,
    Param.ofNames params⟩

/-- A header and a line make up such a template. -/
theorem Reader.Header.template_eq_ofTokens (h : Reader.Header) (name : String)
    (line : List Token) : ⟨h.define name line, h.paramList⟩ = Template.ofTokens name
      (h.args.toList.map fun args => "(" ++ ", ".intercalate args ++ ")") (h.params.getD [])
      (h.args.getD []) ((h.args.getD []).contains "...") line := by
  simp [Template.ofTokens, Reader.Header.define, Reader.Header.argText, Reader.Header.scope,
    Reader.Header.paramList]

namespace Expansion

variable {π : String → String}

/-! ## Bindings -/

namespace Binding

/-- The values of slots that are called differently. -/
def rename (π : String → String) (b : Binding) : Binding := b.map (Prod.map π id)

theorem values_rename (b : Binding) : (b.rename π).values = b.values := by
  simp [rename, values]

theorem rename_zip (slots : List String) (values : List Int) :
    rename π (slots.zip values) = (slots.map π).zip values := by
  rw [rename, List.zip_map_left]

theorem lookup_rename (hπ : Function.Injective π) (b : Binding) (name : String) :
    (b.rename π).lookup (π name) = b.lookup name := by
  induction b with
  | nil => rfl
  | cons p b ih =>
    have hhead : (π name == π p.1) = (name == p.1) := by
      rw [Bool.eq_iff_iff, beq_iff_eq, beq_iff_eq, hπ.eq_iff]
    have htail : List.lookup (π name) (b.map (Prod.map π id)) = b.lookup name := ih
    rw [rename, List.map_cons, List.lookup_cons, List.lookup_cons, htail]
    simp only [Prod.map_fst, Prod.map_snd, hhead, id_eq]

/-- With a value for each slot, every slot is bound. -/
theorem exists_lookup_zip {slots : List String} {values : List Int} {name : String}
    (hname : name ∈ slots) (hcount : values.length = slots.length) :
    ∃ v, (slots.zip values).lookup name = some v := by
  have hmem : name ∈ (slots.zip values).map (·.1) := by
    rw [List.map_fst_zip (by omega)]
    exact hname
  obtain ⟨p, hp, rfl⟩ := List.mem_map.1 hmem
  cases hlookup : (slots.zip values).lookup p.1 with
  | some v => exact ⟨v, rfl⟩
  | none => exact absurd (List.lookup_eq_none_iff.1 hlookup p hp) (by simp)

end Binding

/-! ## Definitions -/

section

variable {s : Scope} {inline : Definition → Target → Result (List Define)} {name stem : String}
  {decorated : Bool} {b : Binding} {slots : List String}

theorem argument_rename (hπ : Function.Injective π) {arg : String}
    (harg : (∃ v, b.lookup arg = some v) ∨ π arg = arg) :
    Scope.argument (some (b.rename π)) (π arg) = Scope.argument (some b) arg := by
  unfold Scope.argument
  rw [Option.bind_some, Option.bind_some, Binding.lookup_rename hπ]
  rcases harg with ⟨v, hv⟩ | harg
  · rw [hv]
  · rw [harg]

theorem fragment_rename (hπ : Function.Injective π)
    (hslots : ∀ slot ∈ slots, ∃ v, b.lookup slot = some v) {f : Fragment}
    (hf : Body.KeepsReferences π slots f) :
    fragment inline s name ⟨stem, decorated, some (b.rename π)⟩ (f.rename π) =
      fragment inline s name ⟨stem, decorated, some b⟩ f := by
  cases f with
  | text | unknown => rfl
  | word word => rw [Fragment.rename, (hf : π word = word)]; rfl
  | foreign owner object inlined =>
    obtain ⟨howner, hobject⟩ := hf
    rw [Fragment.rename, howner, hobject]
    rfl
  | slot index =>
    have hlength : (b.rename π).length = b.length := List.length_map _
    simp only [Fragment.rename, fragment, Binding.value?, Binding.values_rename, hlength]
  | call callee args =>
    obtain ⟨hcallee, hargs⟩ := hf
    have hsame : ∀ arg ∈ args,
        Scope.argument (some (b.rename π)) (π arg) = Scope.argument (some b) arg :=
      fun arg harg => argument_rename hπ ((hargs arg harg).imp_left (hslots arg))
    have hargs : (args.map π).map (Scope.argument (some (b.rename π))) =
        args.map (Scope.argument (some b)) := by
      rw [List.map_map]
      exact List.map_congr_left hsame
    simp only [Fragment.rename, fragment, Scope.call, hcallee, hargs]

/-- **Other names for the slots make no difference to a definition.** -/
theorem define_rename (hπ : Function.Injective π)
    (hslots : ∀ slot ∈ slots, ∃ v, b.lookup slot = some v) {body : List Fragment}
    (hbody : ∀ f ∈ body, Body.KeepsReferences π slots f) :
    define s ⟨name, body.map (Fragment.rename π)⟩ ⟨stem, decorated, some (b.rename π)⟩ =
      define s ⟨name, body⟩ ⟨stem, decorated, some b⟩ := by
  have hfragments : ∀ inline : Definition → Target → Result (List Define),
      fragments inline s name ⟨stem, decorated, some (b.rename π)⟩ (body.map (Fragment.rename π)) =
        fragments inline s name ⟨stem, decorated, some b⟩ body := by
    intro inline
    induction body with
    | nil => rfl
    | cons f body ih =>
      obtain ⟨hf, hbody⟩ := List.forall_mem_cons.1 hbody
      rw [List.map_cons, fragments, fragments, fragment_rename hπ hslots hf, ih hbody]
  rw [define_eq, define_eq, defineAt_eq]
  simp only [defineWith, hfragments, Binding.frame, Target.symbolOf, Option.map_some, Binding.tail,
    Binding.values_rename]

end

/-! ## Templates -/

section

variable (name : String) (lead ns args : List String) (variadic : Bool) (ts : List Token)

theorem slotNames_ofTokens_rename (hπ : Function.Injective π) :
    (Template.ofTokens name lead (ns.map π) args variadic (ts.map (Token.rename π))).slotNames =
      (Template.ofTokens name lead ns args variadic ts).slotNames.map π :=
  Param.slotNames_ofNames_map hπ ns

theorem definition_ofTokens_rename (hπ : Function.Injective π) (hargs : ∀ arg ∈ args, π arg = arg) :
    (Template.ofTokens name lead (ns.map π) args variadic (ts.map (Token.rename π))).definition =
      ⟨name, (Template.ofTokens name lead ns args variadic ts).definition.body.map
        (Fragment.rename π)⟩ := by
  have hkept : args.map π = args := by rw [List.map_congr_left hargs, List.map_id']
  have hread := Body.fragments_rename hπ ⟨Param.slotNames (Param.ofNames ns), args, variadic⟩
    (Body.renames_rename π ts)
  rw [Body.Header.rename, hkept, ← Param.slotNames_ofNames_map hπ] at hread
  simp [Template.ofTokens, hread, Function.comp_def, Fragment.rename]

/-- **A template is expanded in the same way with other names for its slots.** -/
theorem define_ofTokens_rename (hπ : Function.Injective π) (hargs : ∀ arg ∈ args, π arg = arg)
    (hbody : ∀ f ∈ Body.fragments ⟨Param.slotNames (Param.ofNames ns), args, variadic⟩ ts,
      Body.KeepsReferences π (Param.slotNames (Param.ofNames ns)) f) (s : Scope) (stem : String)
    (decorated : Bool) {values : List Int} :
    let old := Template.ofTokens name lead ns args variadic ts
    let new := Template.ofTokens name lead (ns.map π) args variadic (ts.map (Token.rename π))
    values.length = old.slotNames.length →
      define s new.definition ⟨stem, decorated, some (new.slotNames.zip values)⟩ =
        define s old.definition ⟨stem, decorated, some (old.slotNames.zip values)⟩ := by
  intro old new hcount
  have hbound : ∀ slot ∈ old.slotNames, ∃ v, (old.slotNames.zip values).lookup slot = some v :=
    fun slot hslot => Binding.exists_lookup_zip hslot hcount
  have hslots : new.slotNames = old.slotNames.map π :=
    slotNames_ofTokens_rename name lead ns args variadic ts hπ
  have hdefinition : new.definition = ⟨name, old.definition.body.map (Fragment.rename π)⟩ :=
    definition_ofTokens_rename name lead ns args variadic ts hπ hargs
  rw [hslots, hdefinition, ← Binding.rename_zip]
  refine define_rename hπ hbound fun f hf => ?_
  rcases List.mem_append.1 hf with hlead | hf
  · obtain ⟨value, -, rfl⟩ := List.mem_map.1 hlead
    trivial
  · exact hbody f hf

/-! ## One parameter -/

/-- The name `c` in place of `a`. -/
def replaceName (a c name : String) : String := if name = a then c else name

theorem map_replaceName {a c : String} {names : List String} (h : c ∉ names) :
    names.map (replaceName a c) = names.map (Equiv.swap a c) := by
  refine List.map_congr_left fun n hn => ?_
  have hne : n ≠ c := by
    rintro rfl
    exact h hn
  rw [replaceName, Equiv.swap_apply_def, if_neg hne]

theorem map_rename_replaceName {a c : String} (h : ∀ t ∈ ts, t.kind = .name → t.text ≠ c) :
    ts.map (Token.rename (replaceName a c)) = ts.map (Token.rename (Equiv.swap a c)) := by
  refine List.map_congr_left fun t ht => ?_
  unfold Token.rename
  split
  · next hname => rw [replaceName, Equiv.swap_apply_def, if_neg (h t ht hname)]
  · rfl

/-- **A template is expanded to the same lines, or fails in the same way, whatever its parameters
are called.** A parameter `a` may be called `c` if `c` is neither in the header nor in the body, and
`a` is neither an argument nor the object of a reference. -/
theorem define_renamed_parameter (a c : String) (ha : a ∈ ns) (haArgs : a ∉ args) (hc : c ∉ ns)
    (hcArgs : c ∉ args) (hfresh : ∀ t ∈ ts, t.kind = .name → t.text ≠ c)
    (hobject : ∀ owner inlined, .foreign owner a inlined ∉
      (Template.ofTokens name lead ns args variadic ts).definition.body) :
    let old := Template.ofTokens name lead ns args variadic ts
    let new := Template.ofTokens name lead (ns.map (replaceName a c)) args variadic
      (ts.map (Token.rename (replaceName a c)))
    new.slotNames = old.slotNames.map (replaceName a c) ∧
    ∀ s stem decorated values, values.length = old.slotNames.length →
      define s new.definition ⟨stem, decorated, some (new.slotNames.zip values)⟩ =
        define s old.definition ⟨stem, decorated, some (old.slotNames.zip values)⟩ := by
  -- where the new name does not occur, to replace is to exchange
  have hcSlots : c ∉ (Template.ofTokens name lead ns args variadic ts).slotNames :=
    fun hmem => hc (Param.mem_slotNames_ofNames.1 hmem)
  rw [map_replaceName hc, map_rename_replaceName ts hfresh]
  have hinj : Function.Injective (Equiv.swap a c) := (Equiv.swap a c).injective
  have hother : ∀ n, n ≠ a → n ≠ c → Equiv.swap a c n = n :=
    fun n hna hnc => Equiv.swap_apply_of_ne_of_ne hna hnc
  have hargs : ∀ arg ∈ args, Equiv.swap a c arg = arg :=
    fun arg harg => hother arg (ne_of_mem_of_not_mem harg haArgs) (ne_of_mem_of_not_mem harg hcArgs)
  intro old new
  refine ⟨?_, fun s stem decorated values hcount => ?_⟩
  · rw [map_replaceName hcSlots]
    exact slotNames_ofTokens_rename name lead ns args variadic ts hinj
  · refine define_ofTokens_rename name lead ns args variadic ts hinj hargs (fun f hf => ?_) s stem
      decorated hcount
    refine Body.keepsReferences_of_mem (Param.mem_slotNames_ofNames.2 ha) hargs hother hfresh ?_ hf
    exact fun owner inlined hmem => hobject owner inlined (List.mem_append_right _ hmem)

end

/-- The parameter is listed twice, and a template in the body takes it for an argument, beside one
that is not a parameter. -/
theorem define_renamed_parameter_call :
    let s : Scope := ⟨⟨"A", [.template ⟨⟨"U", []⟩, []⟩], 1, .point .first⟩,
      [⟨"M", [.object ⟨"f", [.text " 1"]⟩], 1, .point .first⟩], []⟩
    let ts := tokens " U< i,x> j-i.M.f"
    let old := Template.ofTokens "T" ["(x)"] ["i", "j", "i"] ["x"] false ts
    let new := Template.ofTokens "T" ["(x)"] ["k", "j", "k"] ["x"] false (tokens " U< k,x> j-k.M.f")
    (∀ t ∈ ts, t.kind = .name → t.text ≠ "k") ∧
    old.definition.body = [.text "(x)", .text " ", .call "U" ["i", "x"], .text " ", .slot 1,
      .text "-", .slot 0, .text ".", .foreign "M" "f" true] ∧
    new.slotNames = ["k", "j"] ∧
    define s new.definition ⟨"A", true, some [("k", 3), ("j", 4)]⟩ =
      define s old.definition ⟨"A", true, some [("i", 3), ("j", 4)]⟩ ∧
    define s old.definition ⟨"A", true, some [("i", 3), ("j", 4)]⟩ =
      .ok [⟨"__A_T_IMPL_M_f", " 1"⟩, ⟨"__A_T_3_4", "(x) __A_U_3##_##x 4-3.__A_T_IMPL_M"⟩] := by
  intro s ts old new
  have hfresh : ∀ t ∈ ts, t.kind = .name → t.text ≠ "k" := by decide +kernel
  have hbody : old.definition.body = [.text "(x)", .text " ", .call "U" ["i", "x"], .text " ",
      .slot 1, .text "-", .slot 0, .text ".", .foreign "M" "f" true] := by decide +kernel
  have hobject : ∀ owner inlined, .foreign owner "i" inlined ∉ old.definition.body := by
    simp [hbody]
  have hnew : new = Template.ofTokens "T" ["(x)"] (["i", "j", "i"].map (replaceName "i" "k")) ["x"]
      false (ts.map (Token.rename (replaceName "i" "k"))) := by decide +kernel
  obtain ⟨hslots, hdefine⟩ := define_renamed_parameter "T" ["(x)"] ["i", "j", "i"] ["x"] false ts
    "i" "k" (by decide) (by decide) (by decide) (by decide) hfresh hobject
  rw [← hnew] at hslots hdefine
  have hnewSlots : new.slotNames = ["k", "j"] := hslots
  have hsame := hdefine s "A" true [3, 4] rfl
  rw [hnewSlots] at hsame
  exact ⟨hfresh, hbody, hnewSlots, hsame, by decide +kernel⟩

end Expansion

end MacroModules
