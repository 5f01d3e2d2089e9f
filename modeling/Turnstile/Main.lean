/-
The command line program.

What a command looks at is loaded into a file system, the command runs on that, and what it changed is written back.
-/
import Turnstile.CommandLine.Run
import Turnstile.Grammar.Program

namespace Turnstile

/-- the places that a path leads through -/
def Path.places (workingDirectory : List String) (p : Path) : List (List String) :=
  (List.range (p.parts.length + 1)).map fun n => Path.resolve workingDirectory ⟨p.root, p.parts.take n⟩

/-- the paths that a command looks at -/
def Command.paths (workingDirectory : List String) : Command → List Path
  | .instrument c => c.files ++ c.output.toList ++
    (c.output.bind fun output => InstrumentCommand.outputPaths? workingDirectory output c.files).getD []
  | .map c => [c.file]

namespace Program

def placeText (place : List String) : String := "/" ++ "/".intercalate place

/-- adds what is really at a place; a link is what it leads to, if it leads anywhere -/
def load (files : FileSystem) (place : List String) : IO FileSystem := do
  let path := (← IO.currentDir) / placeText place
  if ← path.isDir then return files.put place .directory
  if ← path.pathExists then return files.put place (.file (← IO.FS.readBinFile path).toList)
  match ← path.symlinkMetadata.toBaseIO, ← (IO.FS.readBinFile path).toBaseIO with
  | .ok _, .error (.noFileOrDirectory ..) => return files
  | .ok _, .error _ => return files.put place .loop
  | _, _ => return files

/-- makes real what was changed -/
def save (files : FileSystem) (before : FileSystem) : IO Unit := do
  for (place, entry) in files.entries.entries do
    if entry = .directory && (before.entry? place).isNone then IO.FS.createDirAll (placeText place)
  for (place, bytes) in files.changedSince before do
    IO.FS.writeBinFile (placeText place) ⟨bytes.toArray⟩

def crashText : Crash → String
  | .file .notFound => "Error: no such file or directory"
  | .file .occupied => "Error: a file is in the way of a directory"
  | .file .notDirectory => "Error: not a directory"
  | .file .isDirectory => "Error: is a directory"
  | .file .loop => "Error: too many levels of symbolic links"
  | .path .loop => "Error: a symbolic link leads back to itself"
  | .path .null => "Error: a null character in a path"
  | .noFiles => "Error: no files"
  | .failure (.console _) => "Error: the console takes no more"
  | .failure _ => "Error: the tree of a file is defective"

def run (args : List String) : IO UInt32 := do
  let workingDirectory := (Path.ofString (← IO.currentDir).toString).parts
  let paths := match Command.ofArguments args with
    | .ok c => c.paths workingDirectory
    | .error _ => []
  let files ← (paths.flatMap (Path.places workingDirectory)).foldlM load (FileSystem.empty workingDirectory)
  match runCommandLine Grammar.readProgram (fun n => Float.ofNat n * 0.001) files args with
  | .error e =>
    IO.eprintln (crashText e)
    return 1
  | .ok r =>
    IO.print r.stdout
    IO.eprint r.stderr
    save r.files files
    return UInt32.ofNat r.exitCode

end Program

end Turnstile

def main (args : List String) : IO UInt32 := Turnstile.Program.run args
