import MacroModules.Document

/-!
# The registry of modules

Every document is read before any is expanded, and the modules of all of them go into one registry.
If several modules have the same name, the first one counts.

* `Registry.insert`, `Registry.ofDocuments`: building a registry.
* `Registry.find?`: the module of a name.
* `Registry.notices`: what there is to say about the building of a registry.
-/

namespace MacroModules

/-- The modules known by name, in the order in which they were registered. -/
structure Registry where
  modules : List Module
  deriving DecidableEq

namespace Registry

/-- A registry without modules. -/
def empty : Registry := ⟨[]⟩

/-- The module of a name. -/
def find? (r : Registry) (name : String) : Option Module :=
  r.modules.find? (·.name == name)

/-- Registers a module, unless its name is taken. -/
def insert (r : Registry) (m : Module) : Registry :=
  if (r.find? m.name).isSome then r else ⟨r.modules ++ [m]⟩

/-- The registry of the modules of some documents, in order. -/
def ofDocuments (ds : List Document) : Registry :=
  (ds.flatMap Document.modules).foldl insert empty

@[simp] theorem find?_empty (name : String) : empty.find? name = none := rfl

/-- **The first of a name wins:** a registered module stays what it is. -/
theorem find?_insert (r : Registry) (m : Module) (name : String) :
    (r.insert m).find? name = (r.find? name).or (if m.name = name then some m else none) := by
  unfold insert
  split
  · next h =>
    cases hn : r.find? name with
    | some x => simp
    | none =>
      by_cases he : m.name = name
      · subst he; simp [hn] at h
      · simp [he]
  · next h =>
    simp only [find?, List.find?_append, List.find?_cons, List.find?_nil]
    by_cases he : m.name = name
    · simp [he]
    · simp [he, beq_eq_false_iff_ne.2 he]

/-- What there is to say while a registry is built. -/
inductive Notice where
  /-- A module is left out because its name is taken. -/
  | duplicate (name file : String) (line : Int)
  /-- The registry is complete, with so many modules. -/
  | complete (count : Nat)
  deriving DecidableEq

/-- The wording of a notice. -/
def Notice.message : Notice → String
  | duplicate name file line =>
    "ignoring duplicate module " ++ name ++ " in " ++ file ++ ":" ++ Int.repr line
  | complete count => "registered " ++ Nat.repr count ++ " module(s)"

/-- The modules that are left out when some are registered one after another, each with the name of
its file. -/
def duplicates (r : Registry) : List (String × Module) → List Notice
  | [] => []
  | (file, m) :: ms =>
    if (r.find? m.name).isSome then .duplicate m.name file m.line :: duplicates r ms
    else duplicates (r.insert m) ms

/-- What there is to say about the registry of some documents. -/
def notices (ds : List Document) : List Notice :=
  duplicates empty (ds.flatMap fun d => d.modules.map fun m => (d.source.name, m)) ++
    [.complete (ofDocuments ds).modules.length]

end Registry

end MacroModules
