import MacroModules.Text.Digit
import MacroModules.Text.Quoted

/-!
# Command-line arguments

Arguments are options, which begin with a dash, and input files. An option may be shortened, short
options may be written in one word, and a value may be attached to its option. The files stand
together in one place; behind two dashes everything is a file. Platforms have their own ways with
some lines.

* `Platform`: what differs from one platform to the other.
* `Opt`: the options, with their spellings.
* `Item`, `Item.ofString`: what an argument is when taken by itself.
* `Opt.unfold`: the options that are written in one word.
* `Arguments.read`: the whole line.
* `Platform.classic`, `Platform.modern`: two platforms.
-/

namespace MacroModules

/-- What differs between the platforms that read command lines and look for files. -/
structure Platform where
  /-- Whether two dashes that are attached to an option are dropped, which leaves it without a
  value. -/
  dropsDashes : Bool
  /-- Whether an equals sign among short options in one word sets off a value, and what is no option
  there is left over. Otherwise an equals sign is a character like others, and what is no option is
  refused. -/
  partsJoined : Bool
  /-- Whether ambiguous words are found before anything else is done. -/
  findsAmbiguous : Bool
  /-- Which words that begin with a dash are numbers. -/
  isNumber : String → Bool
  /-- The text that explains the options. -/
  helpText : String
  /-- Whether nothing is taken to be at a path if the system refuses to look there, whatever the
  reason. -/
  overlooksRefusals : Bool

/-- An option. -/
inductive Opt where
  | help
  | extension
  | config
  | debug
  | verbose
  deriving DecidableEq

namespace Opt

/-- The spellings of the options. -/
def spellings : List (String × Opt) :=
  [("-h", help), ("--help", help), ("-e", extension), ("--extension", extension),
   ("--config", config), ("--debug", debug), ("-v", verbose), ("--verbose", verbose)]

/-- The option of a spelling. -/
def ofSpelling? (s : String) : Option Opt := spellings.lookup s

/-- Whether an option has a value. -/
def takesValue : Opt → Bool
  | extension | config => true
  | _ => false

/-- How messages name an option: by all of its spellings. -/
def title (o : Opt) : String :=
  "/".intercalate ((spellings.filter (·.2 == o)).map (·.1))

end Opt

/-- What is attached to an option in the same word. -/
inductive Attached where
  | nothing
  /-- A text that can only be a value. -/
  | assigned (text : String)
  /-- A text that may be a value or more short options. -/
  | joined (text : String)
  deriving DecidableEq

/-- The text that is attached. -/
def Attached.text? : Attached → Option String
  | nothing => none
  | assigned text => some text
  | joined text => some text

/-- What an argument is when taken by itself. -/
inductive Item where
  /-- A file, or the value of an option before it. -/
  | value (word : String)
  | option (opt : Opt) (attached : Attached)
  /-- A word that looks like an option and is none. -/
  | unknown (word : String)
  /-- A word with which several options begin. -/
  | ambiguous (word : String) (spellings : List String)
  deriving DecidableEq

/-- A word split at its first equals sign. -/
def splitAssignment (word : String) : String × Option String :=
  match word.toList.span (· != '=') with
  | (left, _ :: right) => (String.ofList left, some (String.ofList right))
  | (_, []) => (word, none)

/-- Whether a word is a negative number, perhaps with a decimal point. A final line feed does not
count. -/
def isNegativeNumber (word : String) : Bool :=
  match word.toList with
  | '-' :: cs =>
    let cs := if cs.getLast? = some '\n' then cs.dropLast else cs
    match cs.dropWhile Text.isDecimal with
    | [] => cs != []
    | '.' :: ds => ds != [] && ds.all Text.isDecimal
    | _ => false
  | _ => false

namespace Item

variable (v : Platform)

/-- What follows the equals sign of a word with a long option. -/
def assignment : Option String → Attached
  | none => .nothing
  | some text => .assigned text

/-- What follows the equals sign of a word with a short option. -/
def joint : Option String → Attached
  | none => .nothing
  | some text => if v.partsJoined then .assigned text else .joined text

/-- A word that begins with a dash and is no option as it stands: a number or a word with a space is
a value after all. -/
def undeclared (word : String) : Item :=
  if v.isNumber word || word.toList.contains ' ' then value word else unknown word

/-- What an argument is when taken by itself. A long option may be cut short as long as only one
option begins that way. -/
def ofString (word : String) : Item :=
  match word.toList with
  | '-' :: second :: rest =>
    match Opt.ofSpelling? word with
    | some o => option o .nothing
    | none =>
      let (left, right) := splitAssignment word
      match right.bind fun _ => Opt.ofSpelling? left with
      | some o => option o (if second = '-' then assignment right else joint v right)
      | none =>
        if second = '-' then
          match Opt.spellings.filter (left.toList.isPrefixOf ·.1.toList) with
          | [] => undeclared v word
          | [(_, o)] => option o (assignment right)
          | several => ambiguous word (several.map (·.1))
        else
          match Opt.ofSpelling? (String.ofList ['-', second]) with
          | some o => option o (.joined (String.ofList rest))
          | none => undeclared v word
  | _ => value word

end Item

/-- Why arguments are refused. -/
inductive UsageFault where
  | ambiguous (word : String) (spellings : List String)
  /-- An option lacks its value. -/
  | missingValue (opt : Opt)
  /-- An option without values has been given one. -/
  | ignoredValue (opt : Opt) (text : String)
  | missingFiles
  | unrecognized (words : List String)
  deriving DecidableEq

/-- The wording of a fault. -/
def UsageFault.message : UsageFault → String
  | ambiguous word spellings =>
    "ambiguous option: " ++ word ++ " could match " ++ ", ".intercalate spellings
  | missingValue o => "argument " ++ o.title ++ ": expected one argument"
  | ignoredValue o text =>
    "argument " ++ o.title ++ ": ignored explicit argument " ++ Text.quote text
  | missingFiles => "the following arguments are required: files"
  | unrecognized words => "unrecognized arguments: " ++ " ".intercalate words

/-- What comes of an option together with what is attached to it. -/
structure Unfolded where
  /-- The options without values, in order. -/
  switches : List Opt
  /-- The option with a value at the end, and the value if it is attached. -/
  valued : Option (Opt × Option String)
  /-- What is left over. -/
  extras : List String
  deriving DecidableEq

namespace Opt

variable (v : Platform)

/-- What is attached to a short option if these characters follow it in the same word. -/
def attachment : List Char → Attached
  | [] => .nothing
  | '=' :: cs =>
    if v.partsJoined then .assigned (String.ofList cs) else .joined (String.ofList ('=' :: cs))
  | cs => .joined (String.ofList cs)

/-- The short options in a text that is joined to the option `o`, which has no value. Every
character of the text has to be a short option, up to one that takes the rest as its value. -/
def unfoldJoined (o : Opt) : List Char → Except UsageFault Unfolded
  | [] => .error (.ignoredValue o "")
  | c :: cs =>
    match ofSpelling? (String.ofList ['-', c]) with
    | none =>
      if v.partsJoined && c != '-' then .ok ⟨[o], none, [String.ofList ('-' :: c :: cs)]⟩
      else .error (.ignoredValue o (String.ofList (c :: cs)))
    | some next =>
      if next.takesValue then .ok ⟨[o], some (next, (attachment v cs).text?), []⟩
      else
        match attachment v cs with
        | .nothing => .ok ⟨[o, next], none, []⟩
        | .assigned text => .error (.ignoredValue next text)
        | .joined _ => (unfoldJoined next cs).map fun u => { u with switches := o :: u.switches }

/-- The options that are written in one word. -/
def unfold (o : Opt) (attached : Attached) : Except UsageFault Unfolded :=
  if o.takesValue then .ok ⟨[], some (o, attached.text?), []⟩
  else
    match attached with
    | .nothing => .ok ⟨[o], none, []⟩
    | .assigned text => .error (.ignoredValue o text)
    | .joined text => o.unfoldJoined v text.toList

end Opt

/-- What is said about an option with a value. -/
inductive Setting where
  | missing
  /-- The option is given with two dashes for a value, which are none. -/
  | void
  | value (text : String)
  deriving DecidableEq

/-- The setting by a value. Two dashes can only be attached to an option. -/
def Setting.ofValue (v : Platform) (text : String) : Setting :=
  if v.dropsDashes && text = "--" then void else value text

/-- What the arguments of a line say. -/
structure Arguments where
  files : List String
  extension : Setting
  config : Setting
  debug : Bool
  verbose : Bool
  deriving DecidableEq

namespace Arguments

variable (v : Platform)

/-- Why a line is not carried out: it asks for help, or it is at fault. -/
inductive Stop where
  | help
  | fault (fault : UsageFault)
  deriving DecidableEq

/-- A line as far as it has been read. -/
structure Progress where
  args : Arguments
  /-- Whether a file may still be added: the last argument was one, or none has been met. -/
  filesOpen : Bool
  /-- What has no meaning. -/
  extras : List String
  /-- The option whose value has to come next, and the options without values in front of it in the
  same word. -/
  pending : Option (List Opt × Opt)
  deriving DecidableEq

/-- A line of which nothing has been read. -/
def Progress.start : Progress := ⟨⟨[], .missing, .missing, false, false⟩, true, [], none⟩

/-- One more word that is no option. -/
def Progress.addValue (p : Progress) (word : String) : Progress :=
  if p.filesOpen then { p with args := { p.args with files := p.args.files ++ [word] } }
  else { p with extras := p.extras ++ [word] }

/-- An option, known or not, ends the files if there are any. -/
def Progress.close (p : Progress) : Progress :=
  { p with filesOpen := p.args.files.isEmpty }

/-- An option without a value. -/
def Progress.addSwitch (p : Progress) : Opt → Progress
  | .debug => { p with args := { p.args with debug := true } }
  | .verbose => { p with args := { p.args with verbose := true } }
  | _ => p

/-- An option with its value. The last one counts. -/
def Progress.addOption (p : Progress) (o : Opt) (text : String) : Progress :=
  match o with
  | .extension => { p with args := { p.args with extension := .ofValue v text } }
  | .config => { p with args := { p.args with config := .ofValue v text } }
  | _ => p

/-- What has no meaning, with some more words. -/
def Progress.addExtras (p : Progress) (words : List String) : Progress :=
  { p with extras := p.extras ++ words }

/-- Options without values. Help is given as soon as it is met. -/
def Progress.addSwitches (p : Progress) (switches : List Opt) : Except Stop Progress :=
  if .help ∈ switches then .error .help else .ok (switches.foldl addSwitch p.close)

/-- The options that are written in one word. If a value is still to come, so is everything else. -/
def Progress.addUnfolded (p : Progress) (u : Unfolded) : Except Stop Progress := do
  match u.valued with
  | none => return (← p.addSwitches u.switches).addExtras u.extras
  | some (o, some text) => return (← p.addSwitches u.switches).addOption v o text
  | some (o, none) => return { p with pending := some (u.switches, o) }

/-- One more item of a line. -/
def step (p : Progress) (item : Item) : Except Stop Progress := do
  match p.pending, item with
  | some (switches, o), .value word =>
    return { (← p.addSwitches switches).addOption v o word with pending := none }
  | some (_, o), _ => .error (.fault (.missingValue o))
  | none, .value word => return p.addValue word
  | none, .unknown word => return p.close.addExtras [word]
  | none, .ambiguous word spellings => .error (.fault (.ambiguous word spellings))
  | none, .option o attached => p.addUnfolded v (← (o.unfold v attached).mapError .fault)

/-- The items of a line, from left to right. -/
def consume (items : List Item) : Except Stop Progress := do
  let p ← items.foldlM (step v) .start
  match p.pending with
  | some (_, o) => .error (.fault (.missingValue o))
  | none => return p

/-- The words behind two dashes, which are files if these may still come. -/
def Progress.addRest (p : Progress) (words : List String) : Progress :=
  if p.filesOpen then { p with args := { p.args with files := p.args.files ++ words } }
  else p.addExtras ("--" :: words)

/-- The fault of an item that is ambiguous. -/
def ambiguity? : Item → Option UsageFault
  | .ambiguous word spellings => some (.ambiguous word spellings)
  | _ => none

/-- The items of some words. -/
def items (words : List String) : Except Stop (List Item) :=
  let items := words.map (Item.ofString v)
  match if v.findsAmbiguous then items.findSome? ambiguity? else none with
  | some f => .error (.fault f)
  | none => .ok items

/-- What comes of a line that has been read to its end. -/
def Progress.finish (p : Progress) : Except Stop Arguments :=
  if p.args.files = [] then .error (.fault .missingFiles)
  else if p.extras = [] then .ok p.args
  else .error (.fault (.unrecognized p.extras))

/-- The arguments of a line. -/
def read (words : List String) : Except Stop Arguments := do
  let p ← consume v (← items v (words.takeWhile (· != "--")))
  match words.dropWhile (· != "--") with
  | [] => p.finish
  | _ :: rest => (p.addRest rest).finish

/-- How the program is called. -/
def usage : String :=
  "usage: mmgx [-h] [-e EXT] [--config FILE] [--debug] [-v] files [files ...]\n"

/-- An explanation of the options. -/
def helpText : String :=
  usage ++
  "\n" ++
  "Expand MMGX modules and templates into C preprocessor definitions\n" ++
  "\n" ++
  "positional arguments:\n" ++
  "  files                 Input source files\n" ++
  "\n" ++
  "options:\n" ++
  "  -h, --help            show this help message and exit\n" ++
  "  -e EXT, --extension EXT\n" ++
  "                        Output file extension (default: c)\n" ++
  "  --config FILE         Config file (default: auto-discover mmgx.toml)\n" ++
  "  --debug               Dump parsed sections to stderr\n" ++
  "  -v, --verbose         Log progress to stderr\n"

/-- What a line that is not carried out gives: exit code, output and error output. -/
def Stop.answer : Stop → Nat × String × String
  | .help => (0, v.helpText, "")
  | .fault f => (2, "", usage ++ "mmgx: error: " ++ f.message ++ "\n")

end Arguments

namespace Platform

/-- A platform that drops dashes. -/
def classic : Platform where
  dropsDashes := true
  partsJoined := false
  findsAmbiguous := true
  isNumber := isNegativeNumber
  helpText := Arguments.helpText
  overlooksRefusals := false

/-- A platform that keeps dashes and parts short options from their values. -/
def modern : Platform := { classic with dropsDashes := false, partsJoined := true }

end Platform

end MacroModules
