/-
Files and directories.

A file system holds entries by place, which is the list of names from the top. Paths are walked name by name, so every name
in front of the last must be that of a directory. The only links are those that lead back to themselves, so a place is found by
names alone. Files are read as UTF-8 text in which every line end is one newline.
-/
import Turnstile.CommandLine.Path
import Turnstile.OrderedMap
import Turnstile.Text.Integer
import Turnstile.Text.Quoted
import Turnstile.Text.Utf8

namespace Turnstile

inductive FileEntry where
  | file (bytes : List UInt8)
  | directory
  /-- a symbolic link that leads back to itself -/
  | loop
  deriving DecidableEq, Repr

structure FileSystem where
  workingDirectory : List String
  entries : OrderedMap (List String) FileEntry

/-- why an operation on a path fails -/
inductive FileFault where
  | notFound
  | notDirectory
  | isDirectory
  | occupied
  | loop
  deriving DecidableEq, Repr

namespace FileFault

def number : FileFault → Nat
  | notFound => 2
  | occupied => 17
  | notDirectory => 20
  | isDirectory => 21
  | loop => 40

def reason : FileFault → String
  | notFound => "No such file or directory"
  | occupied => "File exists"
  | notDirectory => "Not a directory"
  | isDirectory => "Is a directory"
  | loop => "Too many levels of symbolic links"

/-- the fault at some path, as a message -/
def message (e : FileFault) (p : Path) : String :=
  "[Errno " ++ Text.integerText e.number ++ "] " ++ e.reason ++ ": " ++ Text.quoted p.text

end FileFault

/-- why a path has no place -/
inductive PathFault where
  /-- it leads to a link that leads back to itself -/
  | loop
  /-- a null character is in it -/
  | null
  deriving DecidableEq, Repr

/-- why a file has no text -/
inductive TextFault where
  | file (e : FileFault)
  | bytes (e : Text.Utf8.Fault)
  deriving DecidableEq, Repr

/-- the bytes that are no text, by position, and why -/
def byteFaultMessage (e : Text.Utf8.Fault) : String :=
  let place :=
    if e.width = 1 then
      "byte 0x" ++ String.ofList (Text.hexDigits 2 e.byte.toNat) ++ " in position " ++ Text.integerText e.position
    else "bytes in position " ++ Text.integerText e.position ++ "-" ++ Text.integerText (e.position + e.width - 1 : Nat)
  "'utf-8' codec can't decode " ++ place ++ ": " ++ e.defect.message

def TextFault.message (e : TextFault) (p : Path) : String :=
  match e with
  | file e => e.message p
  | bytes e => byteFaultMessage e

/-- every line end as one newline -/
def unifyLineEnds : List Char → List Char
  | [] => []
  | '\r' :: '\n' :: r => '\n' :: unifyLineEnds r
  | '\r' :: r => '\n' :: unifyLineEnds r
  | c :: r => c :: unifyLineEnds r

namespace FileSystem

/-- an empty working directory -/
def empty (workingDirectory : List String) : FileSystem := ⟨workingDirectory, .empty⟩

/-- what is at a place; the top and the directories around the working directory are always there -/
def entry? (fs : FileSystem) (place : List String) : Option FileEntry :=
  if place <+: fs.workingDirectory then some .directory else fs.entries.get? place

def put (fs : FileSystem) (place : List String) (e : FileEntry) : FileSystem :=
  { fs with entries := fs.entries.put place e }

/-- where a walk over some names starts -/
def origin (fs : FileSystem) (p : Path) : List String := if p.root = "" then fs.workingDirectory else []

/-- the place that names lead to, if all but the last are those of directories -/
def walk (fs : FileSystem) (place : List String) : List String → Except FileFault (List String)
  | [] => .ok place
  | name :: names =>
    match fs.entry? place with
    | some .directory => fs.walk (if name = ".." then place.dropLast else place ++ [name]) names
    | some (.file _) => .error .notDirectory
    | some .loop => .error .loop
    | none => .error .notFound

def find (fs : FileSystem) (p : Path) : Except FileFault (List String) := fs.walk (fs.origin p) p.parts

def readBytes (fs : FileSystem) (p : Path) : Except FileFault (List UInt8) := do
  match fs.entry? (← fs.find p) with
  | some (.file bytes) => return bytes
  | some .directory => .error .isDirectory
  | some .loop => .error .loop
  | none => .error .notFound

/-- a link that leads back to itself is at a place, or on the way to it behind directories only -/
def leadsToLoop (fs : FileSystem) (place : List String) : Bool :=
  match fs.walk [] place with
  | .ok place => fs.entry? place = some .loop
  | .error e => e = .loop

/-- the place of a path, if it has one; nothing need be there -/
def resolve? (fs : FileSystem) (p : Path) : Except PathFault (List String) :=
  if p.hasNull then .error .null
  else if fs.leadsToLoop (p.resolve fs.workingDirectory) then .error .loop
  else .ok (p.resolve fs.workingDirectory)

/-- the text of a file -/
def readText (fs : FileSystem) (p : Path) : Except TextFault String :=
  match fs.readBytes p with
  | .error e => .error (.file e)
  | .ok bytes =>
    match Text.Utf8.decode bytes with
    | .error e => .error (.bytes e)
    | .ok cs => .ok (String.ofList (unifyLineEnds cs))

/-- makes the directories that names lead through, from a place on -/
def makeDirectoriesFrom (fs : FileSystem) (place : List String) : List String → Except FileFault FileSystem
  | [] => .ok fs
  | name :: names =>
    let place := if name = ".." then place.dropLast else place ++ [name]
    match fs.entry? place with
    | some .directory => fs.makeDirectoriesFrom place names
    | some (.file _) => .error (if names.isEmpty then .occupied else .notDirectory)
    | some .loop => .error (if names.isEmpty then .occupied else .loop)
    | none => (fs.put place .directory).makeDirectoriesFrom place names

/-- makes a directory and those around it, unless they are there -/
def makeDirectories (fs : FileSystem) (p : Path) : Except FileFault FileSystem :=
  fs.makeDirectoriesFrom (fs.origin p) p.parts

/-- writes a text in place of whatever the file held -/
def writeText (fs : FileSystem) (p : Path) (s : String) : Except FileFault FileSystem := do
  let place ← fs.find p
  match fs.entry? place with
  | some .directory => .error .isDirectory
  | some .loop => .error .loop
  | _ => return fs.put place (.file s.toUTF8.toList)

/-- the files that another file system has not, or holds other bytes in -/
def changedSince (fs before : FileSystem) : List (List String × List UInt8) :=
  fs.entries.entries.filterMap fun (place, e) =>
    match e with
    | .file bytes => if before.entry? place = some (.file bytes) then none else some (place, bytes)
    | _ => none

end FileSystem

end Turnstile
