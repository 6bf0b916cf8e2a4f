import MacroModules.CommandLine.Arguments
import MacroModules.Config
import MacroModules.FileSystem

/-!
# Options

What a run is asked to do, from the command line and from a configuration. The command line comes
before the configuration, and the configuration before the defaults.

* `Options.configPath`, `Options.loadConfig`: where the configuration is looked for, and what is in
  it.
* `Options.resolve`: the options of a run.
-/

namespace MacroModules

/-- What a run is asked to do. -/
structure Options where
  inputs : List Path
  /-- The extension of output files. -/
  extension : String
  /-- Whether to show the outlines of the inputs. -/
  debug : Bool
  /-- Whether to tell what is being done. -/
  verbose : Bool
  deriving DecidableEq

namespace Options

/-- The extension of output files if none is chosen. -/
def defaultExtension : String := "c"

/-- The name of a configuration that is found without being named. -/
def configName : String := "mmgx.toml"

/-- Why there are no options. -/
inductive Fault where
  | config (fault : Config.Fault)
  /-- The system does not say what is at the path of the configuration, or does not give it away. -/
  | configFile (path : Path) (fault : FileSystem.Fault)
  /-- The extension is empty or holds a slash or a backslash. -/
  | invalidExtension (extension : String)
  /-- The extension is asked for without a value. -/
  | voidExtension
  deriving DecidableEq

/-- The wording of a fault. -/
def Fault.message : Fault → String
  | config (.encoding fault) => fault.message
  | config (.format line) => "Invalid statement (at line " ++ Nat.repr line ++ ")"
  | config (.longNumber digits) => Numeral.longMessage digits
  | configFile path fault =>
    let code := (fault.number?.map fun n => "[Errno " ++ Nat.repr n ++ "] ").getD ""
    code ++ fault.message ++ ": " ++ Text.quote path.toString
  | invalidExtension extension => "invalid extension '" ++ extension ++ "'"
  | voidExtension => "'list' object has no attribute 'lstrip'"

/-- Where the configuration is looked for: where the command line says, or beside the first
input. -/
def configPath (args : Arguments) : Path :=
  match args.config with
  | .value path => if path = "" then beside else .ofString path
  | _ => beside
where
  beside : Path := (Path.ofString (args.files.headD "")).parent.child configName

/-- Whether nothing is taken to be at a path where looking fails in this way. -/
def overlooks (v : Platform) (f : FileSystem.Fault) : Bool :=
  match f.number? with
  | none => true
  | some n => v.overlooksRefusals || [2, 9, 20].contains n

/-- The configuration of a run. If there is no file, all settings are left open. -/
def loadConfig (v : Platform) (fs : FileSystem) (path : Path) : Except Fault Config :=
  match fs.look path with
  | .error f => if overlooks v f then .ok .empty else .error (.configFile path f)
  | .ok .directory => .ok .empty
  | .ok (.file _) => do
    let bytes ← (fs.load path).mapError (.configFile path)
    (Config.ofBytes bytes).mapError .config

/-- An extension without the dots in front of it. -/
def stripDots (extension : String) : String :=
  String.ofList (extension.toList.dropWhile (· == '.'))

/-- Whether an extension can be put behind a name. -/
def isExtension (extension : String) : Bool :=
  extension != "" && !extension.toList.contains '/' && !extension.toList.contains '\\'

/-- The extension from the command line and a configuration. -/
def extensionOf (args : Arguments) (config : Config) : Except Fault String :=
  match args.extension with
  | .missing => .ok (config.extension.getD defaultExtension)
  | .void => .error .voidExtension
  | .value extension => .ok extension

/-- The options from the command line and a configuration. -/
def merge (args : Arguments) (config : Config) : Except Fault Options := do
  let extension := stripDots (← extensionOf args config)
  if isExtension extension then
    return ⟨args.files.map .ofString, extension, args.debug || config.debug,
      args.verbose || config.verbose⟩
  else .error (.invalidExtension extension)

/-- The options of a run. -/
def resolve (v : Platform) (fs : FileSystem) (args : Arguments) : Except Fault Options := do
  merge args (← loadConfig v fs (configPath args))

end Options

end MacroModules
