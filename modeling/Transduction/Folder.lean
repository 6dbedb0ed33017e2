/-
Files: stores of texts by path, and one folder of them.

A program sees its files as a store, which gives the text at a path and takes a
text to a path.  Both may fail, and a path may take texts and not give them back
(as a null device does); `FileStore.ReadsBack` names the paths that do.

One store is a folder without folders inside.  It maps the names of its files to
their texts.  A path is split at its slashes; every part but the last must lead
to the folder itself, and the last one names a file.

* `FileStore` — reading and writing by path;
* `Folder.entry?` — the name that a path leads to, if it leads to a file;
* `Folder.read?`, `Folder.write?` — the text of a file by its path.
-/
import Transduction.Order
import Std.Data.TreeMap.Basic

namespace Transduction

/-- A store of texts by path. -/
class FileStore (σ : Type) where
  /-- The text at a path, if it can be read. -/
  read? (files : σ) (path : String) : Option String
  /-- The store with a text written to a path, if that is possible. -/
  write? (files : σ) (path text : String) : Option σ

/-- Whatever is written to the path is read back from it. -/
def FileStore.ReadsBack (σ : Type) [FileStore σ] (path : String) : Prop :=
  ∀ ⦃files files' : σ⦄ ⦃text : String⦄,
    write? files path text = some files' → read? files' path = some text

/-- The texts of files by name. -/
structure Folder where
  files : Std.TreeMap String String := ∅

namespace Folder

/-- The first part of a path, up to a slash, and the parts behind it. -/
def parts : List Char → List Char × List (List Char)
  | [] => ([], [])
  | c :: path =>
    let (first, further) := parts path
    if c = '/' then ([], first :: further) else (c :: first, further)

/-- The name in the parts of a path, if all parts in front of it lead to the
folder itself: they are empty or a dot. -/
def lastPart? (part : List Char) : List (List Char) → Option (List Char)
  | [] => some part
  | next :: further => if part = [] ∨ part = ['.'] then lastPart? next further else none

/-- Whether a part of a path names a file: it does not lead to the folder or
the one above it, and has at most 255 bytes, none of them zero. -/
def isName (part : List Char) : Bool :=
  part ≠ [] && part ≠ ['.'] && part ≠ ['.', '.'] && !part.contains '\x00'
    && (String.ofList part).utf8ByteSize ≤ 255

/-- The name of the file that a path leads to, if it leads to one.  A path has
at most 4095 bytes and does not begin with a slash. -/
def entry? (path : String) : Option String := do
  let (first, further) := parts path.toList
  if path.utf8ByteSize > 4095 ∨ first = [] then none
  let name ← lastPart? first further
  if isName name then some (String.ofList name) else none

/-- The text of a file, if there is such a file. -/
def read? (f : Folder) (path : String) : Option String := do f.files[← entry? path]?

/-- The folder with the text of a file set, unless the path leads elsewhere. -/
def write? (f : Folder) (path text : String) : Option Folder := do
  return { files := f.files.insert (← entry? path) text }

instance : FileStore Folder where
  read? := read?
  write? := write?

end Folder

end Transduction
