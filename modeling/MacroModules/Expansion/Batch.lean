import MacroModules.Document.Reader
import MacroModules.Expansion.Module

/-!
# Expanding several sources together

All sources are read before any is expanded, so that a module may be used in any of them, whatever
their order.

* `readAll`: the sources as documents.
* `documents`: the expansions of some documents up to the first that fails.
* `compile`: both together.
-/

namespace MacroModules.Expansion

/-- The sources as documents, or the first that cannot be read. -/
def readAll : List Source → Except (Source × ReadFailure) (List Document)
  | [] => .ok []
  | s :: ss => return (← (Document.read s).mapError (s, ·)) :: (← readAll ss)

/-- The expansions of some documents with a registry, up to the first that fails, and its
failure. -/
def documentsWith (r : Registry) : List Document → List String × Option Failure
  | [] => ([], none)
  | d :: ds =>
    match document r d with
    | .error e => ([], some e)
    | .ok text =>
      let rest := documentsWith r ds
      (text :: rest.1, rest.2)

/-- The expansions of some documents that may use each other's modules, up to the first that fails,
and its failure. -/
def documents (ds : List Document) : List String × Option Failure :=
  documentsWith (Registry.ofDocuments ds) ds

/-- Why some sources cannot be compiled. -/
inductive BatchFailure where
  /-- A source cannot be read. -/
  | unreadable (source : Source) (failure : ReadFailure)
  /-- A document cannot be expanded. -/
  | unexpanded (failure : Failure)
  deriving DecidableEq

/-- The expansions of all sources. -/
def compile (sources : List Source) : Except BatchFailure (List String) :=
  match readAll sources with
  | .error (s, e) => .error (.unreadable s e)
  | .ok ds =>
    match documents ds with
    | (texts, none) => .ok texts
    | (_, some e) => .error (.unexpanded e)

end MacroModules.Expansion
