import MacroModules.Expansion.Batch

/-!
# Workspaces

A workspace holds the documents that are open in an editor, each under a URI. A document is checked
against all of them, and what is wrong with it comes back as findings for the editor to show.

* `Workspace.put`, `Workspace.close`: opening, changing and closing documents.
* `Workspace.fileName`: the name a document goes by.
* `Workspace.findings`: what is wrong with a document.
* `Workspace.notifications`: what the editor is told about it.
-/

namespace MacroModules

/-- The open documents with their texts, by URI, in the order in which they were opened. -/
structure Workspace where
  documents : List (String × String)
  /-- There is one document at a URI. -/
  distinct : (documents.map (·.1)).Nodup
  deriving DecidableEq

/-- A stretch of a text by lines and characters, both counted from zero. -/
structure Range where
  startLine : Int
  startCharacter : Int
  stopLine : Int
  stopCharacter : Int
  deriving DecidableEq

/-- A span counted from zero. -/
def Range.ofSpan (s : Span) : Range :=
  ⟨s.start.line - 1, s.start.column - 1, s.stop.line - 1, s.stop.column - 1⟩

/-- How grave a finding is. -/
inductive Severity where
  /-- The document cannot be read. -/
  | error
  /-- The document cannot be expanded. -/
  | warning
  deriving DecidableEq

/-- Something wrong with a document. -/
structure Finding where
  range : Range
  severity : Severity
  message : String
  deriving DecidableEq

/-- What an editor is told about a document, in place of what it was told before. -/
structure Notification where
  uri : String
  findings : List Finding
  deriving DecidableEq

/-- Why a check gives no findings. -/
inductive CheckFailure where
  /-- A range bound in an open document has this many digits, which is too many. -/
  | longBound (digits : Nat)
  /-- The expansion gets stuck. -/
  | stuck (i : Expansion.Impasse)
  deriving DecidableEq

namespace Finding

/-- The name under which findings are published. -/
def publisher : String := "mmgx"

/-- The finding for a fault. -/
def ofFault (f : Fault) : Finding :=
  ⟨.ofSpan f.span, .error, f.message⟩

/-- The finding for an error in an expansion. Without a place, it goes to the top of the
document. -/
def ofError (e : Expansion.CompileError) : Finding :=
  ⟨(e.place.map fun p => Range.ofSpan p.1).getD ⟨0, 0, 0, 0⟩, .warning,
    e.cause.message ++
      (if e.context = [] then ""
       else " (while compiling: " ++ " -> ".intercalate e.context ++ ")")⟩

end Finding

namespace Workspace

/-- The workspace without documents. -/
def empty : Workspace := ⟨[], List.nodup_nil⟩

variable {ds : List (String × String)} {uri : String}

theorem nodup_replace (h : (ds.map (·.1)).Nodup) (text : String) :
    ((ds.map fun d => if d.1 = uri then (uri, text) else d).map (·.1)).Nodup := by
  have hsame : (ds.map fun d => if d.1 = uri then (uri, text) else d).map (·.1) = ds.map (·.1) := by
    rw [List.map_map]
    apply List.map_congr_left
    intro d _
    by_cases hd : d.1 = uri <;> simp [hd]
  rw [hsame]
  exact h

theorem nodup_add (h : (ds.map (·.1)).Nodup) (hnew : ¬ ds.any (·.1 == uri)) (text : String) :
    ((ds ++ [(uri, text)]).map (·.1)).Nodup := by
  have hne : ∀ d ∈ ds, d.1 ≠ uri := by
    intro d hd huri
    exact hnew (List.any_eq_true.2 ⟨d, hd, beq_iff_eq.2 huri⟩)
  rw [List.map_append, List.nodup_append]
  refine ⟨h, by simp, ?_⟩
  intro a ha b hb
  obtain ⟨d, hd, rfl⟩ := List.mem_map.1 ha
  rw [List.mem_singleton.1 hb]
  exact hne d hd

theorem nodup_remove (h : (ds.map (·.1)).Nodup) : ((ds.filter (·.1 != uri)).map (·.1)).Nodup :=
  h.sublist (List.filter_sublist.map _)

/-- Gives a document a text. An open document keeps its place, a new one comes last. -/
def put (w : Workspace) (uri text : String) : Workspace :=
  if h : w.documents.any (·.1 == uri) then
    ⟨w.documents.map fun d => if d.1 = uri then (uri, text) else d, nodup_replace w.distinct text⟩
  else ⟨w.documents ++ [(uri, text)], nodup_add w.distinct h text⟩

/-- Closes a document. -/
def close (w : Workspace) (uri : String) : Workspace :=
  ⟨w.documents.filter (·.1 != uri), nodup_remove w.distinct⟩

/-- The name of the document at a URI: what follows the last slash. -/
def fileName (uri : String) : String :=
  String.ofList (uri.toList.reverse.takeWhile (· != '/')).reverse

/-- The document at a URI as a source. -/
def source (d : String × String) : Source := ⟨fileName d.1, d.2⟩

/-- Those of some open documents that can be read; the faults of the others are found when these are
checked themselves. -/
def readable : List (String × String) → Except CheckFailure (List Document)
  | [] => .ok []
  | d :: ds =>
    match Document.read (source d) with
    | .error (.fault _) => readable ds
    | .error (.longBound n) => .error (.longBound n)
    | .ok doc => (readable ds).map (doc :: ·)

/-- What is wrong with the document at a URI that has the given text. Its own modules come before
those of the same name in other documents. -/
def check (w : Workspace) (uri text : String) : Except CheckFailure (List Finding) :=
  match Document.read (source (uri, text)) with
  | .error (.fault f) => .ok [.ofFault f]
  | .error (.longBound n) => .error (.longBound n)
  | .ok doc =>
    match readable (w.documents.filter (·.1 != uri)) with
    | .error e => .error e
    | .ok others =>
      match Expansion.document (Registry.ofDocuments (doc :: others)) doc with
      | .ok _ => .ok []
      | .error (.error e) => .ok [.ofError e]
      | .error (.stuck i) => .error (.stuck i)

/-- What is wrong with an open document. -/
def findings (w : Workspace) (uri : String) : Except CheckFailure (List Finding) :=
  match w.documents.lookup uri with
  | none => .ok []
  | some text => w.check uri text

/-- What an editor is told when an open document has come to have another text. -/
def notifications (w : Workspace) (uri : String) : Except CheckFailure (List Notification) :=
  (w.findings uri).map fun found => [⟨uri, found⟩]

end Workspace

end MacroModules
