import ShellAnalysis.Text.Utf8
import ShellAnalysis.Workspace.FileSystem
import ShellAnalysis.Workspace.OrderedMap

/-!
# A file tree held in memory

Files, directories and symbolic links by their place in the tree.  A path is
followed piece by piece from the top: every piece needs a directory to start
from, links are followed where they are met, and `..` leaves the directory that
was really reached.  There is a limit on the links that are met on one way, so a
way always ends.
-/

namespace ShellAnalysis

/-- A place in a file tree: the names that lead there from the top. -/
abbrev Location := List String

/-- What is at a place. -/
inductive DiskEntry where
  | file (bytes : List UInt8)
  | directory
  | link (target : Path)
  deriving DecidableEq

/-- A file tree.  The top is always a directory and not listed. -/
structure Disk where
  entries : OrderedMap Location DiskEntry

/-- Where a path leads. -/
inductive Place where
  /-- Something that is no link. -/
  | taken (location : Location)
  /-- Nothing yet, but the directory is there. -/
  | free (directory : Location) (name : String)
  deriving Repr, DecidableEq

namespace Disk

def empty : Disk := ⟨.empty⟩

def lookup? (disk : Disk) (location : Location) : Option DiskEntry :=
  if location = [] then some .directory else disk.entries.get? location

def isDirectoryAt (disk : Disk) (location : Location) : Bool :=
  disk.lookup? location == some .directory

/-! ## Following paths -/

/-- The step that a piece of a path takes.  An empty piece stays, and so asks for a directory. -/
def stepOf (piece : List Char) : PathStep := (Path.stepOf? piece).getD .here

/-- Where the steps lead from a directory, if at most so many links are met and every place with a
name on the way is one that `reaches` allows, and how many more links could still be met. -/
def follow (disk : Disk) (reaches : Location → Bool) (links : Nat) (location : Location)
    (steps : List PathStep) : Option (Place × Nat) :=
  match steps with
  | [] => some (.taken location, links)
  | step :: rest =>
    if disk.isDirectoryAt location then
      match step with
      | .top => disk.follow reaches links [] rest
      | .here => disk.follow reaches links location rest
      | .up => disk.follow reaches links location.dropLast rest
      | .name name =>
        if reaches (location ++ [name]) then
          match disk.lookup? (location ++ [name]) with
          | none => if rest = [] then some (.free location name, links) else none
          | some (.link target) =>
            match links with
            | 0 => none
            | links + 1 =>
              disk.follow reaches links (if target.isAbsolute then [] else location)
                (target.pieces.map stepOf ++ rest)
          | some _ => disk.follow reaches links (location ++ [name]) rest
        else none
    else none
termination_by (links, steps.length)

/-- No links are won on the way. -/
theorem follow_links_le {disk : Disk} {reaches : Location → Bool} {links : Nat}
    {location : Location} {steps : List PathStep} {place : Place} {left : Nat}
    (h : disk.follow reaches links location steps = some (place, left)) : left ≤ links := by
  fun_induction follow disk reaches links location steps <;> grind

/-- Where a link in a directory leads.  The link itself is one of those that are met. -/
def followLink (disk : Disk) (links : Nat) (directory : Location) (target : Path) :
    Option (Place × Nat) :=
  match links with
  | 0 => none
  | links + 1 =>
    disk.follow (fun _ => true) links (if target.isAbsolute then [] else directory)
      (target.pieces.map stepOf)

theorem followLink_links_lt {disk : Disk} {links : Nat} {directory : Location} {target : Path}
    {place : Place} {left : Nat}
    (h : disk.followLink links directory target = some (place, left)) : left < links := by
  cases links with
  | zero => simp [followLink] at h
  | succ links => exact Nat.lt_succ_of_le (follow_links_le h)

/-- More links than these on one way are taken for a loop. -/
def maxLinks : Nat := 40

/-- Where a path leads by places that `reaches` allows, and how many links could still be met after
it; relative paths start at the top. -/
def followPath (disk : Disk) (reaches : Location → Bool) (path : Path) : Option (Place × Nat) :=
  if path.text.isEmpty || path.text.toList.contains '\x00' then none
  else disk.follow reaches maxLinks [] (path.pieces.map stepOf)

/-- Where a path leads. -/
def place? (disk : Disk) (path : Path) : Option Place :=
  (disk.followPath (fun _ => true) path).map (·.1)

/-- A path with more bytes than these is refused, wherever it would lead. -/
def maxPathBytes : Nat := 4095

def isTooLong (path : Path) : Bool := maxPathBytes < path.text.utf8ByteSize

/-- What a path that is not too long leads to. -/
def find? (disk : Disk) (path : Path) : Option DiskEntry :=
  if isTooLong path then none
  else
    match disk.place? path with
    | some (.taken location) => disk.lookup? location
    | _ => none

/-! ## Changes -/

def put (disk : Disk) (location : Location) (entry : DiskEntry) : Disk :=
  ⟨disk.entries.insert location entry⟩

/-- Makes a directory where the path leads, if nothing is there and its parent is. -/
def makeDirectory (disk : Disk) (path : Path) : Disk :=
  match disk.place? path with
  | some (.free directory name) => disk.put (directory ++ [name]) .directory
  | _ => disk

/-- Makes a directory and those above it that are missing. -/
def makeDirectories (disk : Disk) (path : Path) : Disk :=
  (List.range path.pieces.length).foldl
    (fun disk n => disk.makeDirectory (.ofPieces (path.pieces.take (n + 1)))) disk

/-- Makes the directories above the path that are missing. -/
def makeParents (disk : Disk) (path : Path) : Disk :=
  match path.parent? with
  | some parent => disk.makeDirectories parent
  | none => disk

/-- Writes a file.  A link is written through. -/
def write (disk : Disk) (path : Path) (bytes : List UInt8) : Disk :=
  let disk := disk.makeParents path
  match disk.place? path with
  | some (.free directory name) => disk.put (directory ++ [name]) (.file bytes)
  | some (.taken location) =>
    if disk.isDirectoryAt location then disk else disk.put location (.file bytes)
  | none => disk

/-- The directory and the name that a path ends with; a link there is not followed. -/
def ending? (disk : Disk) (path : Path) : Option (Location × String) :=
  match path.parent?, path.lastName? with
  | some parent, some name =>
    if parent.text.isEmpty then some ([], name)
    else
      match disk.place? parent with
      | some (.taken location) => some (location, name)
      | _ => none
  | _, _ => none

/-- Removes what the path ends with, and everything below it. -/
def delete (disk : Disk) (path : Path) : Disk :=
  match disk.ending? path with
  | some (directory, name) =>
    ⟨disk.entries.filterKeys fun location => !(directory ++ [name]).isPrefixOf location⟩
  | none => disk

/-- Makes a link, if nothing is there. -/
def symlink (disk : Disk) (path target : Path) : Disk :=
  let disk := disk.makeParents path
  match disk.ending? path with
  | some (directory, name) =>
    if (disk.lookup? (directory ++ [name])).isNone then
      disk.put (directory ++ [name]) (.link target)
    else disk
  | none => disk

/-! ## Walking directories -/

/-- The names in a directory, with their entries. -/
def children (disk : Disk) (directory : Location) : List (Location × DiskEntry) :=
  disk.entries.entries.filter fun (location, _) =>
    location ≠ [] ∧ location.dropLast = directory

/-- An upper bound for the lengths of the locations. -/
def height (disk : Disk) : Nat := disk.entries.keys.foldr (fun l n => max l.length n) 0

theorem length_le_foldr_max (locations : List Location) {location : Location}
    (h : location ∈ locations) :
    location.length ≤ locations.foldr (fun l n => max l.length n) 0 := by
  induction locations with
  | nil => cases h
  | cons head tail ih =>
    rcases List.mem_cons.1 h with rfl | h
    · exact Nat.le_max_left ..
    · exact Nat.le_trans (ih h) (Nat.le_max_right ..)

theorem lt_height_of_mem_children {disk : Disk} {directory : Location}
    {child : Location × DiskEntry} (h : child ∈ disk.children directory) :
    directory.length < disk.height ∧ child.1.length = directory.length + 1 := by
  obtain ⟨mem, h⟩ := List.mem_filter.1 h
  obtain ⟨nonempty, rfl⟩ := of_decide_eq_true h
  have le := length_le_foldr_max disk.entries.keys (List.mem_map_of_mem mem)
  have pos := List.length_pos_iff.2 nonempty
  simp only [List.length_dropLast, height]
  omega

/-- The files below a directory, found by a walk that is inside the directories `entered` and may
still meet so many links on each way down.  A link back to one of the directories is left out, and
so is a link that leads nowhere. -/
def walk (disk : Disk) (links : Nat) (entered : List Location) (path : Path)
    (directory : Location) : List Path :=
  (disk.children directory).attach.flatMap fun ⟨(location, entry), _mem⟩ =>
    let path := path.join (location.getLastD "")
    match entry with
    | .file _ => [path]
    | .directory =>
      if isTooLong path then [] else disk.walk links (location :: entered) path location
    | .link target =>
      if isTooLong path then []
      else
        match _way : disk.followLink links directory target with
        | some (.taken location, left) =>
          match disk.lookup? location with
          | some (.file _) => [path]
          | some .directory =>
            if entered.contains location then []
            else disk.walk left (location :: entered) path location
          | _ => []
        | _ => []
termination_by (links, disk.height - directory.length)
decreasing_by
  · obtain ⟨lt, length⟩ := lt_height_of_mem_children _mem
    apply Prod.Lex.right
    simp only at length
    omega
  · exact Prod.Lex.left _ _ (followLink_links_lt _way)

/-! ## The tree as a file system -/

/-- The path that leads to a place from the top. -/
def pathOf (location : Location) : Path := ⟨"/" ++ "/".intercalate location⟩

/-- The path without links to what is there.  It is built up name by name, so the given path may
have any length, but each place on the way needs a path that is not too long. -/
def canonical? (disk : Disk) (path : Path) : Option Path :=
  match disk.followPath (fun location => !isTooLong (pathOf location)) path with
  | some (.taken location, _) => some (pathOf location)
  | _ => none

def isFile (disk : Disk) (path : Path) : Bool :=
  match disk.find? path with
  | some (.file _) => true
  | _ => false

def isDirectory (disk : Disk) (path : Path) : Bool := disk.find? path == some .directory

def read? (disk : Disk) (path : Path) : Option String :=
  match disk.find? path with
  | some (.file bytes) => Utf8.decode? bytes
  | _ => none

def filesBelow? (disk : Disk) (path : Path) : Option (List Path) :=
  if isTooLong path then none
  else
    match disk.followPath (fun _ => true) path with
    | some (.taken location, left) =>
      if disk.isDirectoryAt location then some (disk.walk left [location] path location) else none
    | _ => none

/-- What a workspace sees of the tree. -/
def fileSystem (disk : Disk) : FileSystem where
  canonical? := disk.canonical?
  isFile := disk.isFile
  isDirectory := disk.isDirectory
  read? := disk.read?
  filesBelow? := disk.filesBelow?

end Disk

end ShellAnalysis
