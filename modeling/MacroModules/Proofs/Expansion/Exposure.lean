import MacroModules.Proofs.Expansion.Agree

/-!
# What a document sees of the registry

The modules that a document imports are looked up by name, and in them objects by name. Objects that
are inlined are expanded in the scope of the module that inlines them, so the imports and templates
of their own module do not count.

* `Module.exposed`, `Registry.exposedTo`: what is left of a registry for those who import certain
  modules.
* `document_sees_only_uses`: **nothing else has an influence**, be it on the text, on an error or on
  whether there is an end.
-/

namespace MacroModules

/-- The module as others see it: its objects, and nothing of where it stands. -/
def Module.exposed (m : Module) : Module :=
  ⟨m.name, m.objects.map Statement.object, 1, Span.point Position.first⟩

/-- The registry as it is seen by those who import only modules of these names. -/
def Registry.exposedTo (names : List String) (r : Registry) : Registry :=
  ⟨(names.filterMap r.find?).map Module.exposed⟩

theorem Module.object?_exposed (m : Module) : m.exposed.object? = m.object? := by
  have hobjects : m.exposed.objects = m.objects := by
    unfold Module.exposed
    simp only [Module.objects, List.filterMap_map]
    exact List.filterMap_some
  funext name
  rw [Module.object?, Module.object?, hobjects]

namespace Registry

variable {names : List String} {name : String}

/-- Looking up one of the names leads to the same module as before. -/
theorem find?_filterMap_find? (r : Registry) (hname : name ∈ names) :
    (names.filterMap r.find?).find? (·.name == name) = r.find? name := by
  cases hm : r.find? name with
  | none =>
    rw [List.find?_eq_none]
    intro m hmem hmname
    obtain ⟨n, -, hn⟩ := List.mem_filterMap.1 hmem
    have hn' : n = name := (name_of_find? hn).symm.trans (beq_iff_eq.1 hmname)
    rw [hn', hm] at hn
    cases hn
  | some m =>
    have hmem : m ∈ names.filterMap r.find? := List.mem_filterMap.2 ⟨name, hname, hm⟩
    have hfound : ((names.filterMap r.find?).find? (·.name == name)).isSome :=
      List.find?_isSome.2 ⟨m, hmem, beq_iff_eq.2 (name_of_find? hm)⟩
    obtain ⟨k, hk⟩ := Option.isSome_iff_exists.1 hfound
    obtain ⟨n, -, hn⟩ := List.mem_filterMap.1 (List.mem_of_find?_eq_some hk)
    have hkname : k.name = name := by simpa using List.find?_some hk
    -- there is only one module that a name leads to
    have hn' : n = name := (name_of_find? hn).symm.trans hkname
    rw [hn', hm] at hn
    rw [hk, hn]

theorem find?_exposedTo (r : Registry) (hname : name ∈ names) :
    (r.exposedTo names).find? name = (r.find? name).map Module.exposed := by
  have hsame : (fun m : Module => m.name == name) ∘ Module.exposed = (·.name == name) := rfl
  rw [exposedTo, find?, List.find?_map, hsame, find?_filterMap_find? r hname]

end Registry

namespace Expansion

/-- **A document sees of the registry only the objects that it imports.** Two registries lead to the
same outcome if they have the same objects under the names that are imported: to the same text, the
same error with its context and its place, or to no end. So it is enough to keep these modules, and
of them nothing but the objects. -/
theorem document_sees_only_uses (d : Document) :
    (∀ r q : Registry,
      (∀ name ∈ d.uses, (r.find? name).map Module.object? = (q.find? name).map Module.object?) →
      document r d = document q d) ∧
    ∀ r : Registry, document (r.exposedTo d.uses) d = document r d := by
  refine ⟨fun r q h => (document_agree (Registry.agreeOn_of_object? h)).symm, fun r => ?_⟩
  refine document_agree (Registry.agreeOn_of_object? fun name hname => ?_)
  rw [Registry.find?_exposedTo r hname, Option.map_map]
  congr 1
  funext m
  exact (Module.object?_exposed m).symm

/-- The object that is inlined refers to a module which its own module imports, in one registry, but
which the document does not. -/
theorem document_sees_only_uses_nested :
    let place : Span := ⟨⟨1, 2, 1⟩, ⟨1, 3, 2⟩⟩
    let d : Document := ⟨⟨"a", "@M"⟩,
      [.code ⟨"M", [.imports "N", .object ⟨"A", [.foreign "N" "B" true]⟩], 1, place⟩]⟩
    let b : Definition := ⟨"B", [.foreign "K" "C" true]⟩
    let r : Registry := ⟨[⟨"N", [.imports "K", .comment "// c", .exported b, .object ⟨"B", []⟩], 4,
      place⟩, ⟨"K", [.object ⟨"C", [.text " 1"]⟩], 9, place⟩]⟩
    let q : Registry := ⟨[⟨"N", [.object b], 1, place⟩]⟩
    (∀ name ∈ d.uses, (r.find? name).map Module.object? = (q.find? name).map Module.object?) ∧
    document r d = document q d ∧
    document q d = .error (.error ⟨.notImported "K", ["M", "A", "B"], some (place, d.source)⟩) := by
  intro place d b r q
  have hsame : ∀ name ∈ d.uses,
      (r.find? name).map Module.object? = (q.find? name).map Module.object? := by
    intro name hname
    obtain rfl : name = "N" := List.mem_singleton.1 hname
    have hr : r.find? "N" = some ⟨"N", [.imports "K", .comment "// c", .exported b,
        .object ⟨"B", []⟩], 4, place⟩ := by decide +kernel
    have hq : q.find? "N" = some ⟨"N", [.object b], 1, place⟩ := by decide +kernel
    rw [hr, hq, Option.map_some, Option.map_some]
    congr 1
    funext object
    by_cases hobject : "B" = object <;>
    simp [Module.object?, Module.objects, Statement.object?, b, hobject]
  exact ⟨hsame, (document_sees_only_uses d).1 r q hsame, by decide +kernel⟩

end Expansion

end MacroModules
