import MipsLab.Files.Tree

/-! The files that a program has opened. Descriptors are handed out in increasing order behind the
three of the console and are never used again. Every descriptor has a position of its own, but
all of them share the contents of the tree. -/
namespace MipsLab

inductive OpenMode where
  | read
  /-- Create the file or cut it to nothing. -/
  | write
  /-- Create the file or add to its end. -/
  | append
  deriving DecidableEq, Inhabited

def OpenMode.ofFlags? : Int → Option OpenMode
  | 0 => some read
  | 1 => some write
  | 9 => some append
  | _ => none

structure OpenFile where
  descriptor : Int
  path : Path
  mode : OpenMode
  position : Nat
  deriving DecidableEq

structure FileTable where
  base : Path
  tree : FileTree
  next : Nat
  opened : List OpenFile
  deriving DecidableEq

namespace FileTable

def firstDescriptor : Nat := 3

def new (base : Path) (tree : FileTree) : FileTable := ⟨base, tree, firstDescriptor, []⟩

def find? (t : FileTable) (descriptor : Int) : Option OpenFile :=
  t.opened.find? (·.descriptor = descriptor)

def isOpen (t : FileTable) (descriptor : Int) : Bool := (t.find? descriptor).isSome

/-- The place and the tree after opening a written path. -/
def prepare? (tree : FileTree) (written : String) : OpenMode → Option (Path × FileTree)
  | .read => (tree.resolve? written).map (·, tree)
  | .write => (tree.place? written).map fun p => (p, tree.put p [])
  | .append => (tree.place? written).map fun p => (p, tree.put p ((tree.bytes? p).getD []))

def openFile (t : FileTable) (name : String) (flags : Int) : Int × FileTable :=
  let prepared := do
    let mode ← OpenMode.ofFlags? flags
    let written := Path.joinText t.base.text name
    let (path, tree) ←
      if name.toList.contains '\x00' ∨ FileTree.maxPath < written.utf8ByteSize then none
      else prepare? t.tree written mode
    return (mode, path, tree)
  match prepared with
  | none => (-1, t)
  | some (mode, path, tree) =>
    (t.next, { t with
      tree, next := t.next + 1, opened := t.opened ++ [⟨t.next, path, mode, 0⟩] })

def moveTo (t : FileTable) (file : OpenFile) (position : Nat) : FileTable :=
  { t with opened := t.opened.map fun f =>
      if f.descriptor = file.descriptor then { f with position } else f }

/-- Reads at most `count` bytes, or nothing at all if the descriptor cannot be read from. -/
def read (t : FileTable) (descriptor : Int) (count : Nat) : Option (List Byte × FileTable) := do
  let file ← t.find? descriptor
  let bytes ← if file.mode = .read then t.tree.bytes? file.path else none
  let taken := (bytes.drop file.position).take count
  return (taken, t.moveTo file (file.position + taken.length))

/-- Contents with `data` written over them from a position on; a gap is filled with zeros. -/
def overwrite (bytes : List Byte) (position : Nat) (data : List Byte) : List Byte :=
  let before := bytes.take position
  before ++ List.replicate (position - before.length) 0 ++ data ++
    bytes.drop (position + data.length)

/-- Writes all of `data`, or returns nothing if the descriptor cannot be written to. Nothing can
be written to every open file. -/
def write (t : FileTable) (descriptor : Int) (data : List Byte) : Option FileTable := do
  let file ← t.find? descriptor
  let bytes := (t.tree.bytes? file.path).getD []
  if data.isEmpty then some t
  else
    match file.mode with
    | .read => none
    | .append => some { t with tree := t.tree.put file.path (bytes ++ data) }
    | .write =>
      let written := overwrite bytes file.position data
      some ({ t with tree := t.tree.put file.path written }.moveTo file
        (file.position + data.length))

def close (t : FileTable) (descriptor : Int) : FileTable :=
  { t with opened := t.opened.filter (·.descriptor ≠ descriptor) }

def closeAll (t : FileTable) : FileTable := { t with opened := [] }

end FileTable

end MipsLab
