import MacroModules.CommandLine.Run

/-!
# The program

Everything a run does is decided by `CommandLine.run`. This module gives it the part of the file
system that it looks at, and carries out what it has decided.
-/

namespace MacroModules.Program

/-- The platform that command lines are read for. -/
def platform : Platform := .classic

/-- The error of the disk if something may not be done. -/
def denied : SystemError := ⟨13, "Permission denied", by decide⟩

/-- The file system with what is at a location of the disk. -/
def probe (fs : FileSystem) (l : Location) : IO FileSystem := do
  try
    let bytes ← IO.FS.readBinFile ("/" ++ "/".intercalate l)
    return { fs with nodes := (l, .file bytes.toList) :: fs.nodes }
  catch
    | .noFileOrDirectory .. => return fs
    | .permissionDenied .. =>
      return { fs with
        nodes := (l, .file []) :: fs.nodes
        refusals := ((l, .read), denied) :: fs.refusals }
    | _ => return { fs with nodes := (l, .directory) :: fs.nodes }

/-- Adds to a file system what is on the disk along some paths. -/
def scan (fs : FileSystem) (paths : List Path) : IO FileSystem := do
  let mut fs := fs
  for p in paths do
    for k in List.range (p.names.length + 1) do
      fs ← probe fs (fs.normalize ⟨p.anchor, p.names.take k⟩)
  return fs

/-- The part of the disk that a run looks at: the configuration, the inputs and the places of the
outputs. -/
def snapshot (words : List String) : IO FileSystem := do
  let here := Path.namesOf (← IO.currentDir).toString.toList
  let fs : FileSystem := { workingDirectory := here, nodes := [] }
  match Arguments.read platform words with
  | .error _ => return fs
  | .ok args =>
    let fs ← scan fs (Options.configPath args :: args.files.map .ofString)
    match Options.resolve platform fs args with
    | .error _ => return fs
    | .ok o => scan fs (o.inputs.filterMap fun p => (p.withExtension o.extension).toOption)

/-- Puts on the disk what a run has written. -/
def store (before after : FileSystem) : IO Unit := do
  for (l, node) in after.nodes do
    if let .file content := node then
      if before.node? l != some node then
        IO.FS.writeBinFile ("/" ++ "/".intercalate l) ⟨content.toArray⟩

/-- Why a run breaks off. -/
def reason : CommandLine.Failure → String
  | .longBound digits => Numeral.longMessage digits
  | .path f => f.message
  | .options f => f.message
  | .nullCharacter => FileSystem.Fault.nullCharacter.message
  | .unclosed e => e.reason
  | .stuck .missingSlot => "a slot is counted back beyond the first one"
  | .stuck .uncountableRange => "a range has more members than can be counted"
  | .stuck (.notSection label) => label ++ " is no section"
  | _ => "inlining never ends"

/-- The exit code of a run. A run that breaks off says why. -/
def exitCode : CommandLine.Ending → IO UInt32
  | .exit code => return code.toUInt32
  | .broken failure => do
    IO.eprintln (reason failure)
    return 1

end MacroModules.Program

open MacroModules in
/-- Expands the files named on the command line. -/
def main (words : List String) : IO UInt32 := do
  let fs ← Program.snapshot words
  let r := CommandLine.run Program.platform fs words
  Program.store fs r.files
  IO.print r.stdout
  IO.eprint r.stderr
  Program.exitCode r.ending
