/-!
# TOML values

A TOML document is a table of values by key. Keys may have several parts, which lead through tables
inside of tables.

* `Value`, `Entries`: values and the entries of a table.
* `Fault`: what can be wrong with a document.
* `Entries.modify`, `Entries.insert`, `Entries.append`: changing the table that a key leads to.
-/

namespace MacroModules.Toml

/-- A value. -/
inductive Value where
  | text (value : String)
  | truth (value : Bool)
  /-- A whole number. -/
  | number (value : Int)
  /-- Another number, as written. -/
  | real (written : String)
  /-- A date, a time of day or both, as written. -/
  | moment (written : String)
  | list (values : List Value)
  | table (entries : List (String × Value))

/-- Whether a value has other values in it. -/
def Value.isCollection : Value → Bool
  | list _ | table _ => true
  | _ => false

/-- What is wrong with a document. -/
inductive Fault where
  /-- The text has not the form of a document. -/
  | malformed
  /-- A key or a header contradicts what stands before it. -/
  | conflict
  /-- A number has this many digits, which is too many. -/
  | longNumber (digits : Nat)
  deriving DecidableEq

/-- The entries of a table, each key once. -/
abbrev Entries := List (String × Value)

namespace Entries

/-- The entries with another value for a key. -/
def replace (es : Entries) (key : String) (v : Value) : Entries :=
  es.map fun e => if e.1 = key then (key, v) else e

/-- The entries after `f` has been applied to those of the table that a path leads to. Missing
tables are made on the way. If `lists` is set, a list on the way stands for its last value. -/
def modify (lists : Bool) (f : Entries → Option Entries) : List String → Entries → Option Entries
  | [], es => f es
  | key :: path, es =>
    match es.lookup key with
    | none => (modify lists f path []).map fun inner => es ++ [(key, .table inner)]
    | some (.table inner) =>
      (modify lists f path inner).map fun inner => replace es key (.table inner)
    | some (.list vs) =>
      match lists, vs.getLast? with
      | true, some (.table inner) =>
        (modify lists f path inner).map fun inner =>
          replace es key (.list (vs.dropLast ++ [.table inner]))
      | _, _ => none
    | some _ => none

/-- The entries with one more, whose key must be new. -/
def insert (key : String) (v : Value) (es : Entries) : Option Entries :=
  if (es.lookup key).isSome then none else some (es ++ [(key, v)])

/-- The entries with one more empty table in the list of a key. -/
def append (key : String) (es : Entries) : Option Entries :=
  match es.lookup key with
  | none => some (es ++ [(key, .list [.table []])])
  | some (.list vs) => some (replace es key (.list (vs ++ [.table []])))
  | some _ => none

end Entries

end MacroModules.Toml
