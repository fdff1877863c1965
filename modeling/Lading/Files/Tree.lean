import Lading.Files.FilePath
import Lading.Text.Utf8

namespace Lading

inductive FileFault
  | notFound | isDirectory | notDirectory | nameTooLong | nulByte
deriving DecidableEq, Repr

def FileFault.message : FileFault → String
  | .notFound => "No such file or directory (os error 2)"
  | .isDirectory => "Is a directory (os error 21)"
  | .notDirectory => "Not a directory (os error 20)"
  | .nameTooLong => "File name too long (os error 36)"
  | .nulByte => "file name contained an unexpected NUL byte"

inductive FileNode
  | file (bytes : List UInt8)
  | directory
deriving DecidableEq, Repr

def FileNode.size : FileNode → Nat
  | .file bytes => bytes.length
  | .directory => 0

/-- Files and directories by the components of their absolute paths, the latest first. Whatever
leads to one of them is a directory. Relative paths start at the working directory. -/
structure FileTree where
  workingDirectory : String
  nodes : List (List (List Char) × FileNode)
deriving Repr

namespace FileTree

def size (tree : FileTree) : Nat := tree.nodes.foldr (fun (_, node) n ↦ node.size + n) 0

def components (path : String) : List (List Char) := path.toList.splitOn '/'

def place (path : String) : List (List Char) := (components path).filter (!·.isEmpty)

def add (tree : FileTree) (path : String) (node : FileNode) : FileTree :=
  { tree with nodes := (place path, node) :: tree.nodes }

def at? (tree : FileTree) (place : List (List Char)) : Option FileNode :=
  match tree.nodes.find? (·.1 == place) with
  | some (_, node) => some node
  | none =>
    if place = [] ∨ tree.nodes.any (place.isPrefixOf ·.1) then some .directory else none

def maxComponent : Nat := 255

def maxPath : Nat := 4095

/-- Follows components from a place on. Every step, also one by a dot, starts at a directory, and a
name that is too long is not looked for there. -/
def walk (tree : FileTree) (place : List (List Char)) :
    List (List Char) → Except FileFault FileNode
  | [] =>
    match tree.at? place with
    | some node => .ok node
    | none => .error .notFound
  | c :: rest =>
    match tree.at? place with
    | some .directory =>
      if c = [] ∨ c = ['.'] then tree.walk place rest
      else if c = ['.', '.'] then tree.walk place.dropLast rest
      else if maxComponent < Text.byteLength c then .error .nameTooLong
      else tree.walk (place ++ [c]) rest
    | some (.file _) => .error .notDirectory
    | none => .error .notFound

def find (tree : FileTree) (path : String) : Except FileFault FileNode :=
  if path.toList.contains '\x00' then .error .nulByte
  else if path = "" then .error .notFound
  else if maxPath < Text.byteLength path.toList then .error .nameTooLong
  else if FilePath.isAbsolute path then tree.walk [] (components path)
  else tree.walk (place tree.workingDirectory) (components path)

def exists? (tree : FileTree) (path : String) : Bool := (tree.find path).toBool

def isFile (tree : FileTree) (path : String) : Bool :=
  match tree.find path with
  | .ok (.file _) => true
  | _ => false

def read (tree : FileTree) (path : String) : Except FileFault String :=
  match tree.find path with
  | .ok (.file bytes) => .ok (Text.decodeUtf8 bytes)
  | .ok .directory => .error .isDirectory
  | .error fault => .error fault

def containingDirectory (tree : FileTree) (path : String) : String :=
  let absolute := FilePath.join tree.workingDirectory path
  (FilePath.parent? absolute).getD absolute

def isProject (tree : FileTree) (directory : String) : Bool :=
  tree.exists? (FilePath.join directory "nnp.json") || tree.exists? (FilePath.join directory ".git")

def climb (tree : FileTree) (directory : String) : Nat → Option String
  | 0 => none
  | fuel + 1 =>
    if tree.isProject directory then some directory
    else
      match FilePath.parent? directory with
      | some parent => tree.climb parent fuel
      | none => none

/-- The nearest directory at or above a path that is the root of a project. Each step up shortens
the path. -/
def projectRoot (tree : FileTree) (path : String) : Option String :=
  tree.climb path (path.length + 1)

end FileTree

end Lading
