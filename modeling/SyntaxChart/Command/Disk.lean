import SyntaxChart.Command.Outcome

/-!
# Disks held in memory

Files and folders by their place, and what following a path among them gives, so that a run can be
described without a real disk. A place lists the names on the way down from the top; the top is its
own parent, so a path can climb as often as it likes.
-/

namespace SyntaxChart

inductive DiskEntry where
  | file (bytes : ByteArray)
  | folder

/-- A disk. Folders exist as far as a file lies in them, a listed folder does, or the working folder
does, where paths start that do not start at the top. -/
structure Disk where
  files : List (List String × ByteArray)
  folders : List (List String)
  working : List String

namespace Disk

def steps (path : String) : List String :=
  path.splitOn "/"

def file? (disk : Disk) (place : List String) : Option ByteArray :=
  (disk.files.find? fun file => file.1 = place).map Prod.snd

def isFolder (disk : Disk) (place : List String) : Bool :=
  place.isPrefixOf disk.working || disk.folders.any place.isPrefixOf ||
    disk.files.any fun file => place.isPrefixOf file.1.dropLast

/-- What lies at a place, if anything does. -/
def entry? (disk : Disk) (place : List String) : Option DiskEntry :=
  match disk.file? place with
  | some bytes => some (.file bytes)
  | none => if disk.isFolder place then some .folder else none

/-- The longest name of a file or folder, in bytes. -/
def nameLimit : Nat := 255

/-- The longest path, in bytes. -/
def pathLimit : Nat := 4095

/-- Follows steps from a place that is a folder, and reads the file they end at. -/
def follow (disk : Disk) (place : List String) : List String → Except InputError ByteArray
  | [] => .error .directory
  | step :: path =>
    if step = "" ∨ step = "." then
      follow disk place path
    else if step = ".." then
      follow disk place.dropLast path
    else if nameLimit < step.utf8ByteSize then
      .error .nameTooLong
    else
      match disk.entry? (place ++ [step]) with
      | some (.file bytes) => if path = [] then .ok bytes else .error .notDirectory
      | some .folder => follow disk (place ++ [step]) path
      | none => .error .missing

/-- The place where a path starts. -/
def start (disk : Disk) (path : String) : List String :=
  if "/".isPrefixOf path then [] else disk.working

/-- Reads the file that a path leads to. -/
def read (disk : Disk) (path : String) : Except InputError ByteArray :=
  if path = "" then .error .missing
  else if pathLimit < path.utf8ByteSize then .error .nameTooLong
  else disk.follow (disk.start path) (steps path)

/-- The folders at the top of every disk. -/
def topFolders : List String :=
  ["bin", "boot", "dev", "etc", "home", "lib", "media", "mnt", "opt", "proc", "root", "run", "sbin",
    "srv", "sys", "tmp", "usr", "var"]

/-- The disk around a working folder with these files, by name, where the standard input can also be
read as a file. No name leads down to the working folder. -/
def around (files : List (String × ByteArray)) (standard : ByteArray) : Disk where
  files := files.map (fun file => (["tmp", ""] ++ steps file.1, file.2)) ++
    [(["dev", "null"], .empty), (["dev", "stdin"], standard)]
  folders := topFolders.map fun name => [name]
  working := ["tmp", ""]

end Disk

/-- What a run can read that starts in a folder with these files. -/
def Inputs.around (files : List (String × ByteArray)) (standard : ByteArray) : Inputs :=
  ⟨(Disk.around files standard).read, .ok standard⟩

end SyntaxChart
