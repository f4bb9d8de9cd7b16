import Script.Path

/-!
# Disks

The files that a command can reach from the directory it runs in, by the names that lead to them.
A directory exists as long as it holds a file. Of what lies outside, only files that are named in
full are known. There are no permissions and the disk has room: a file can be read wherever it is,
and written wherever no directory is in its place and no name is too long.
-/
namespace Script

structure Disk where
  files : List (List String × String)

namespace Disk

def empty : Disk := ⟨[]⟩

def file? (d : Disk) (names : List String) : Option String := d.files.lookup names

def isDirectory (d : Disk) (names : List String) : Bool :=
  names.isEmpty || d.files.any fun f => names.isPrefixOf f.1 && f.1 ≠ names

def write (d : Disk) (names : List String) (text : String) : Disk :=
  match d.file? names with
  | some _ => ⟨d.files.map fun f => if f.1 = names then (names, text) else f⟩
  | none => ⟨d.files ++ [(names, text)]⟩

/-- What a path leads to: a file, a directory, nothing, a way through a file, or a way with a name
that no disk has. -/
inductive Target where
  | file (names : List String) (text : String)
  | directory
  | missing
  | notDirectory
  | nameTooLong
  deriving DecidableEq

/-- How many bytes a name may have. -/
def nameLimit : Nat := 255

/-- How many bytes the text of a path may have. -/
def pathLimit : Nat := 4095

/-- Follows steps from a directory; `none` is a directory outside. -/
def follow (d : Disk) : Option (List String) → List String → Target
  | _, [] => .directory
  | here?, name :: rest =>
      if name = "." then follow d here? rest
      else if name = ".." then
        follow d (here?.bind fun here => if here.isEmpty then none else some here.dropLast) rest
      else if nameLimit < name.utf8ByteSize then .nameTooLong
      else
        match here? with
        | none => .missing
        | some here =>
            let there := here ++ [name]
            match d.file? there with
            | some text => if rest.isEmpty then .file there text else .notDirectory
            | none => if d.isDirectory there then follow d (some there) rest else .missing

def locate (d : Disk) (text : String) : Target :=
  if text.isEmpty then .missing
  else if pathLimit < text.utf8ByteSize then .nameTooLong
  else d.follow (if text.toList.head? = some '/' then none else some []) (Path.way text)

def find (d : Disk) (p : Path) : Target :=
  match d.file? p.steps with
  | some text => .file p.steps text
  | none => d.locate p.text

/-- The files that an earlier disk did not have, or had with another text. -/
def changes (before after : Disk) : List (List String × String) :=
  after.files.filter fun f => before.file? f.1 ≠ some f.2

end Disk
end Script
