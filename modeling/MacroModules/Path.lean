import MacroModules.Text.Quoted

/-!
# Paths

A path is a list of names below an anchor. Empty names and single dots say nothing and are left out;
double dots stay, because what they mean depends on the file system.

* `Path.ofString`, `Path.toString`: reading and writing paths.
* `Path.name`, `Path.parent`, `Path.child`: the last name, the path without it, and a path with one
  more.
* `Path.hasNull`, `Path.size`: what decides whether a path can be given to the system.
* `Path.stem`, `Path.withExtension`: the last name without its extension, and the path with another
  one.
-/

namespace MacroModules

/-- Where a path begins. Two slashes at the beginning of a path are not the same as one or three. -/
inductive Anchor where
  | relative
  | root
  | doubleRoot
  deriving DecidableEq

/-- A list of names below an anchor. -/
structure Path where
  anchor : Anchor
  names : List String
  deriving DecidableEq

/-- An anchor as written at the beginning of a path. -/
def Anchor.text : Anchor → String
  | relative => ""
  | root => "/"
  | doubleRoot => "//"

/-- The anchor of a path that begins with so many slashes. -/
def Anchor.ofSlashes : Nat → Anchor
  | 0 => relative
  | 2 => doubleRoot
  | _ => root

namespace Path

/-- The names between the slashes of a path. -/
def namesOf (cs : List Char) : List String :=
  ((cs.splitOn '/').map String.ofList).filter fun name => name != "" && name != "."

/-- The path that a text spells. -/
def ofString (text : String) : Path :=
  ⟨.ofSlashes (text.toList.takeWhile (· == '/')).length, namesOf text.toList⟩

/-- A path as a text. The path without names and anchor is a single dot. -/
protected def toString (p : Path) : String :=
  if p.anchor = .relative ∧ p.names = [] then "."
  else p.anchor.text ++ "/".intercalate p.names

/-- The last name, empty if there is none. -/
def name (p : Path) : String := p.names.getLastD ""

/-- The path without its last name. -/
def parent (p : Path) : Path := ⟨p.anchor, p.names.dropLast⟩

/-- The path of a name below another path. -/
def child (p : Path) (name : String) : Path := ⟨p.anchor, p.names ++ [name]⟩

/-- Whether a path holds a null character. The system knows no such paths. -/
def hasNull (p : Path) : Bool := p.names.any (·.toList.contains '\x00')

/-- The length of a path in bytes. -/
def size (p : Path) : Nat := p.toString.utf8ByteSize

/-- A name without its extension, which runs from the last dot. A dot at the beginning or at the end
of the name begins no extension. -/
def stemOf (cs : List Char) : List Char :=
  match cs.reverse.span (· != '.') with
  | (_ :: _, _ :: c :: before) => (c :: before).reverse
  | _ => cs

/-- The last name without its extension. -/
def stem (p : Path) : String := String.ofList (stemOf p.name.toList)

/-- Why a path cannot have an extension. -/
inductive Fault where
  /-- The extension is empty or holds a slash. -/
  | invalidExtension (extension : String)
  /-- The path has no name. -/
  | emptyName (path : Path)
  deriving DecidableEq

/-- The wording of a fault. -/
def Fault.message : Fault → String
  | invalidExtension extension => "Invalid suffix " ++ Text.quote ("." ++ extension)
  | emptyName path => "PosixPath(" ++ Text.quote path.toString ++ ") has an empty name"

/-- The path with its extension replaced, or with one added if it has none. -/
def withExtension (p : Path) (extension : String) : Except Fault Path :=
  if extension = "" ∨ '/' ∈ extension.toList then .error (.invalidExtension extension)
  else if p.name = "" then .error (.emptyName p)
  else .ok (p.parent.child (p.stem ++ "." ++ extension))

end Path

end MacroModules
