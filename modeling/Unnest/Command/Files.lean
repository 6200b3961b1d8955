import Unnest.Failure
import Unnest.Text.Line
import Unnest.Text.Utf8

namespace Unnest.Command

-- What a path can lead to.
inductive Entry where
  | file (bytes : ByteArray)
  | directory

-- What is known to be there, under the paths that lead to it.
abbrev Disk := List (Text × Entry)

namespace Disk

-- A directory: the current one or one below it, one above it, or one that is counted from the
-- root.
inductive Place where
  | current (names : List Text)
  | above
  | system (names : List Text)

def Place.parent : Place → Place
  | current [] => above
  | current names => current names.dropLast
  | above => above
  | system names => system names.dropLast

-- What every system has at its root.
def systemDirectories : List Text :=
  ["bin", "boot", "dev", "etc", "home", "lib", "lib64", "media", "mnt", "opt", "proc", "root",
    "run", "sbin", "srv", "sys", "tmp", "usr", "var"]

-- A file that can be read and is empty.
def nullDevice : List Text :=
  ["dev", "null"]

-- What has a name in a directory, and where that is if it is a directory itself.
def child? (disk : Disk) (place : Place) (name : Text) : Option (Entry × Place) :=
  match place with
  | .current names =>
      let path := names ++ [name]
      let inner := Text.concat [.join "/" path, "/"]
      match disk.lookup (.join "/" path) with
      | some entry => some (entry, .current path)
      | none =>
          if disk.any fun (known, _) => inner.isPrefixOf known then
            some (.directory, .current path)
          else none
  | .above => none
  | .system names =>
      let path := names ++ [name]
      if path = nullDevice then some (.file .empty, .system path)
      else if names.isEmpty ∧ systemDirectories.contains name then some (.directory, .system path)
      else none

-- Follows the pieces of a path. Nothing comes after a file, not even an empty piece.
def follow (disk : Disk) (place : Place) : List Text → Option Entry
  | [] => some .directory
  | piece :: rest =>
      if piece.isEmpty || piece = "." then disk.follow place rest
      else if piece = ".." then disk.follow place.parent rest
      else
        match disk.child? place piece with
        | some (.directory, place) => disk.follow place rest
        | some (entry, _) => if rest.isEmpty then some entry else none
        | none => none

-- The text of a path. Texts that are encoded in the same way are one path.
def spelling (repair : List UInt8 → Text) (path : Text) : Text :=
  match Utf8.encode? path with
  | some bytes => Utf8.decode repair bytes
  | none => path

def find? (disk : Disk) (path : Text) : Option Entry :=
  let path := spelling Utf8.keep path
  match disk.lookup path, path with
  | some entry, _ => some entry
  | none, [] => none
  | none, .char '/' :: rest => disk.follow (.system []) (Text.split (.char '/') rest)
  | none, path => disk.follow (.current []) (Text.split (.char '/') path)

-- A path without the pieces that lead nowhere.
def plainPath (path : Text) : Text :=
  .join "/" ((Text.split (.char '/') path).filter fun piece => !piece.isEmpty && piece != ".")

-- The files that have been written, in order. What is written last stays.
def ofFiles (files : List (Text × ByteArray)) : Disk :=
  (files.map fun (path, bytes) => (plainPath (spelling Utf8.keep path), .file bytes)).reverse

-- No path holds a surrogate that stands for no byte, nor a null character.
def fault? (path : Text) : Option Failure :=
  if (Utf8.encode? path).isNone then some .unencodable
  else if path.contains (.char '\x00') then some .malformed
  else none

-- A path in a message.
def shown (path : Text) : Text :=
  spelling Utf8.replace path

end Disk

-- Files hold text in UTF-8.
def readText (bytes : ByteArray) : Except Failure Text :=
  match String.fromUTF8? bytes with
  | some s => .ok (Text.ofString s).unifyLineEnds
  | none => .error .undecodable

-- The documents of a file: its whole text, or each written line.
def documentsOf (byLine : Bool) (content : Text) : List Text :=
  if byLine then content.writtenLines else [content]

def readDocuments (byLine : Bool) (files : List ByteArray) : Except Failure (List Text) := do
  let contents ← files.mapM readText
  return contents.flatMap (documentsOf byLine)

end Unnest.Command
