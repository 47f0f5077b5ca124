import KubeSchema.Json.Basic
import KubeSchema.Text.Quoted

/-!
# Files

A directory tree as the contents of its files by place. A place is given by the names that lead to it from the current
directory, or from the root of all (`/`); in a path, blank parts and `.` mean nothing, and `..` means the directory
above. A directory is there if it is listed or something is below it.

* `Files.read`: the content of a file.
* `Files.write`: puts a content into a file, the directories above it being made; those stay if the file cannot be
  written.
* `Files.changedSince`: the files below the current directory that are new or have another content.
-/

namespace KubeSchema

/-! ## Paths -/

/-- The names that lead to a file or a directory. -/
abbrev Place := List String

namespace Path

/-- The parts of a path between its slashes. -/
def parts : List Char → List (List Char)
  | [] => [[]]
  | c :: r =>
    if c = '/' then [] :: parts r
    else
      match parts r with
      | [] => [[c]]
      | p :: ps => (c :: p) :: ps

/-- Parts with slashes between them. -/
def joinParts (ps : List (List Char)) : String := String.ofList (List.intercalate ['/'] ps)

/-- Where a path starts: at the root of all, or at the current directory. -/
def origin (path : String) : Place := if path.toList.head? = some '/' then ["/"] else []

/-- The place above a place. -/
def above (place : Place) : Place :=
  match place.getLast? with
  | none | some ".." => place ++ [".."]
  | some "/" => place
  | some _ => place.dropLast

/-- The place that a part leads to. -/
def step (place : Place) (part : List Char) : Place :=
  if part = [] ∨ part = ['.'] then place
  else if part = ['.', '.'] then above place
  else place ++ [String.ofList part]

/-- The place of a path. -/
def place (path : String) : Place := (parts path.toList).foldl step (origin path)

/-- The path of a place. -/
def ofPlace : Place → String
  | "/" :: names => "/" ++ joinParts (names.map String.toList)
  | names => joinParts (names.map String.toList)

/-- The parts of the directory that a path is in. -/
def parentParts (path : String) : List (List Char) := (parts path.toList).dropLast

/-- Whether a part has more bytes than a name may have. -/
def isLongPart (part : List Char) : Bool := 255 < (String.ofList part).utf8ByteSize

/-- Whether a path has more bytes than any path may have. -/
def isLong (path : String) : Bool := 4095 < path.utf8ByteSize

end Path

namespace Place

/-- Whether a place is the current directory or above it. -/
def isAbove (place : Place) : Bool := place.all (fun name => name = ".." || name = "/")

/-- Whether a place is below the current directory. -/
def isBelow (place : Place) : Bool := place.head? ≠ some ".." && place.head? ≠ some "/"

/-- The places on the way to a place, itself last. -/
def ancestors (place : Place) : List Place := (List.range place.length).map (fun i => place.take (i + 1))

end Place

/-! ## Directory trees -/

/-- Why a file cannot be read or written. -/
inductive FileError
  | notFound (path : String)
  | exists (path : String)
  | notDirectory (path : String)
  | isDirectory (path : String)
  /-- A path, or a name in it, has too many bytes. -/
  | nameTooLong (path : String)
  /-- A path holds the character zero. -/
  | nullCharacter
  deriving DecidableEq, Repr

def FileError.message : FileError → String
  | .notFound path => s!"[Errno 2] No such file or directory: {Text.quote path}"
  | .exists path => s!"[Errno 17] File exists: {Text.quote path}"
  | .notDirectory path => s!"[Errno 20] Not a directory: {Text.quote path}"
  | .isDirectory path => s!"[Errno 21] Is a directory: {Text.quote path}"
  | .nameTooLong path => s!"[Errno 36] File name too long: {Text.quote path}"
  | .nullCharacter => "embedded null byte"

/-- The contents of files by place, and directories that may be empty. -/
structure Files where
  entries : List (Place × String)
  directories : List Place := []
  deriving DecidableEq, Repr

namespace Files

/-- The place of the null device, from which nothing is read. -/
def nullDevice : Place := ["/", "dev", "null"]

/-- The tree of files given by path. The null device is in every such tree. -/
def ofList (files : List (String × String)) : Files where
  entries := (nullDevice, "") :: files.map (fun f => (Path.place f.1, f.2))

/-- The content of the file at a place. -/
def content? (fs : Files) (place : Place) : Option String := fs.entries.lookup place

/-- Whether a place is a file. -/
def isFile (fs : Files) (place : Place) : Bool := (fs.content? place).isSome

/-- Whether a place is a directory. -/
def isDirectory (fs : Files) (place : Place) : Bool :=
  Place.isAbove place || place ∈ fs.directories || fs.entries.any (fun e => place.isPrefixOf e.1 && place ≠ e.1)

/-- The place that parts lead to from a place, where every part has to be looked up in a directory. -/
def walk (fs : Files) (path : String) (place : Place) : List (List Char) → Except FileError Place
  | [] => .ok place
  | p :: ps =>
    if fs.isDirectory place then
      if Path.isLongPart p then .error (.nameTooLong path) else fs.walk path (Path.step place p) ps
    else if fs.isFile place then .error (.notDirectory path)
    else .error (.notFound path)

/-- The place of a path, at which there may be nothing. -/
def resolve (fs : Files) (path : String) : Except FileError Place :=
  if '\x00' ∈ path.toList then .error .nullCharacter
  else if path = "" then .error (.notFound path)
  else if Path.isLong path then .error (.nameTooLong path)
  else fs.walk path (Path.origin path) (Path.parts path.toList)

/-- Whether there is a file or a directory at a path. -/
def existsAt (fs : Files) (path : String) : Bool :=
  match fs.resolve path with
  | .ok place => fs.isFile place || fs.isDirectory place
  | .error _ => false

/-- The content of a file. -/
def read (fs : Files) (path : String) : Except FileError String := do
  let place ← fs.resolve path
  match fs.content? place with
  | some content => return content
  | none => if fs.isDirectory place then throw (.isDirectory path) else throw (.notFound path)

/-- Makes a directory, unless there is one. -/
def makeDirectory (fs : Files) (path : String) : Files × Option FileError :=
  match fs.resolve path with
  | .error e => (fs, some e)
  | .ok place =>
    if fs.isFile place then (fs, some (.exists path))
    else if fs.isDirectory place then (fs, none)
    else ({ fs with directories := place :: fs.directories }, none)

/-- Makes a directory given by its parts, latest first, after the missing ones above it: the tree afterwards, and what
went wrong. That one above is a file does not stop the others, the next below finds out; and `.` needs no making
after those above it. -/
def makeDirectories (fs : Files) : List (List Char) → Files × Option FileError
  | [] => (fs, none)
  | p :: above =>
    if p = [] then fs.makeDirectories above
    else
      let path := Path.joinParts (p :: above).reverse
      let parent := above.dropWhile (· = [])
      if parent = [] ∨ fs.existsAt (Path.joinParts parent.reverse) then fs.makeDirectory path
      else
        match fs.makeDirectories above with
        | (fs, none) | (fs, some (.exists _)) => if p = ['.'] then (fs, none) else fs.makeDirectory path
        | failed => failed

/-- Puts a content into the file at a place. -/
def put : List (Place × String) → Place → String → List (Place × String)
  | [], place, content => [(place, content)]
  | (k, old) :: r, place, content => if k = place then (k, content) :: r else (k, old) :: put r place content

/-- Puts a content into a file, after making the directories above it: the tree afterwards, and what went wrong. -/
def write (fs : Files) (path content : String) : Files × Option FileError :=
  match fs.makeDirectories (Path.parentParts path).reverse with
  | (fs, some e) => (fs, some e)
  | (fs, none) =>
    match fs.resolve path with
    | .error e => (fs, some e)
    | .ok place =>
      if fs.isDirectory place then (fs, some (.isDirectory path))
      else ({ fs with entries := put fs.entries place content }, none)

/-- Puts contents into the files at places, in directories that are there. -/
def putAll (fs : Files) (contents : List (Place × String)) : Files :=
  { fs with entries := contents.foldl (fun entries c => put entries c.1 c.2) fs.entries }

/-- Takes the files at places away. -/
def remove (fs : Files) (places : List Place) : Files :=
  { fs with entries := fs.entries.filter (fun e => e.1 ∉ places) }

/-- The files below the current directory that are new or have another content, by path in order. -/
def changedSince (before after : Files) : Members String :=
  let changed := after.entries.filter (fun e => Place.isBelow e.1 && before.content? e.1 ≠ some e.2)
  Members.sortByName (changed.map (fun e => (Path.ofPlace e.1, e.2)))

end Files

end KubeSchema
