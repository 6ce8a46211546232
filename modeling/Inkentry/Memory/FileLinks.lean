/-
  Inkentry.Memory.FileLinks

  The path a linked file is stored under: forward-slashed, relative to the
  project root, with `.` and `..` resolved on the text alone.  A path that ends
  outside the root, or at the root itself, is refused.
-/

import Inkentry.Lib.JoinedText

namespace Inkentry
namespace Memory

open TextLines JoinedText

/-! ## Paths -/

/-- A path by its components, `.` left out. -/
structure FilePath where
  absolute : Bool
  parts : List (List Char)
  deriving DecidableEq, Repr

def FilePath.parse (text : List Char) : FilePath :=
  ⟨text.head? = some '/', (text.splitOn '/').filter fun part => part ≠ [] && part ≠ ['.']⟩

/-- `Path::join`: an absolute path replaces what it is joined to. -/
def FilePath.join (base path : FilePath) : FilePath :=
  if path.absolute then path else ⟨base.absolute, base.parts ++ path.parts⟩

/-- One component on top of the others; `..` at the top does nothing. -/
def pushPart (out : List (List Char)) (part : List Char) : List (List Char) :=
  if part = ['.', '.'] then out.dropLast else out ++ [part]

def FilePath.lexicallyNormalize (path : FilePath) : FilePath :=
  ⟨path.absolute, path.parts.foldl pushPart []⟩

/-- The components as texts, a root among them. -/
def FilePath.components (path : FilePath) : List (List Char) :=
  if path.absolute then ['/'] :: path.parts else path.parts

/-- `Path::strip_prefix`: what is left behind the components of another path.  A path without
    components is in front of every path. -/
def FilePath.stripPrefix (path base : FilePath) : Option FilePath :=
  if path.absolute = base.absolute then (path.parts.dropPrefix? base.parts).map (⟨false, ·⟩)
  else if base.components = [] then some path
  else none

/-- Trimmed and forward-slashed. -/
def slashed (raw : List Char) : List Char := (trim raw).map fun c => if c = '\\' then '/' else c

/-- `normalize_relative_path`; `none` is an error. -/
def normalizeRelativePath (root raw : List Char) : Option (List Char) :=
  if slashed raw = [] then none
  else
    let candidate := (FilePath.parse root).join (FilePath.parse (slashed raw))
    match candidate.lexicallyNormalize.stripPrefix (FilePath.parse root).lexicallyNormalize with
    | none => none
    | some rel => if rel.components = [] then none else some (JoinedText.join '/' rel.components)

end Memory
end Inkentry
