import ShellAnalysis.Symbol.Table
import ShellAnalysis.Workspace.OrderedMap

/-!
# The workspace index

The symbol table of every tracked file, with the files it sources.  Open
documents and loaded directories are roots; `prune` drops the files that no
root reaches.  A lookup from a file takes the file's own declarations, and only
if there are none those of the others: first the files it sources, nearest
first, then the rest.
-/

namespace ShellAnalysis

/-- A file of the workspace. -/
abbrev FileId := Nat

/-- What is known of a tracked file. -/
structure FileEntry where
  symbols : SymbolTable
  /-- The files it sources, each once, in the order of the statements. -/
  dependencies : List FileId

structure WorkspaceIndex where
  files : OrderedMap FileId FileEntry
  roots : List FileId

/-- A declaration and its file. -/
structure SymbolMatch where
  file : FileId
  symbol : SymbolInfo

/-- A literal key, its declaration and its file. -/
structure KeyMatch where
  file : FileId
  symbol : SymbolInfo
  key : KeyInfo

namespace WorkspaceIndex

def empty : WorkspaceIndex := ⟨.empty, []⟩

/-! ## Files -/

def contains (index : WorkspaceIndex) (file : FileId) : Bool := index.files.contains file

/-- The tracked files, in order. -/
def fileIds (index : WorkspaceIndex) : List FileId := index.files.keys

def symbols? (index : WorkspaceIndex) (file : FileId) : Option SymbolTable :=
  (index.files.get? file).map (·.symbols)

/-- What a tracked file sources; nothing for other files. -/
def dependencies (index : WorkspaceIndex) (file : FileId) : List FileId :=
  match index.files.get? file with
  | some entry => entry.dependencies
  | none => []

/-- Replaces what is known of one file.  A file is not its own dependency. -/
def insert (index : WorkspaceIndex) (file : FileId) (symbols : SymbolTable)
    (dependencies : List FileId) : WorkspaceIndex :=
  { index with
    files := index.files.insert file ⟨symbols, (dependencies.filter (· ≠ file)).eraseDups⟩ }

/-- Forgets a file. -/
def remove (index : WorkspaceIndex) (file : FileId) : WorkspaceIndex :=
  ⟨index.files.erase file, index.roots.filter (· ≠ file)⟩

/-! ## Roots -/

def isRoot (index : WorkspaceIndex) (file : FileId) : Bool := index.roots.contains file

def addRoot (index : WorkspaceIndex) (file : FileId) : WorkspaceIndex :=
  if index.isRoot file then index else { index with roots := index.roots ++ [file] }

def removeRoot (index : WorkspaceIndex) (file : FileId) : WorkspaceIndex :=
  { index with roots := index.roots.filter (· ≠ file) }

/-! ## Reachability -/

/-- The files of `remaining` that are met from the queue on, breadth first, each once. -/
def walkFrom (next : FileId → List FileId) (remaining queue : List FileId) : List FileId :=
  match queue with
  | [] => []
  | file :: queue =>
    if _h : file ∈ remaining then
      file :: walkFrom next (remaining.erase file) (queue ++ next file)
    else walkFrom next remaining queue
termination_by (remaining.length, queue.length)
decreasing_by
  · have := List.length_erase_of_mem _h
    have := List.length_pos_of_mem _h
    apply Prod.Lex.left
    omega
  · apply Prod.Lex.right
    simp only [List.length_cons]
    omega

/-- The tracked files that are reached from the starts, nearest first. -/
def walk (index : WorkspaceIndex) (starts : List FileId) : List FileId :=
  walkFrom index.dependencies index.fileIds starts

/-- The file, if it is tracked, and everything it sources, nearest first. -/
def closure (index : WorkspaceIndex) (start : FileId) : List FileId := index.walk [start]

/-- Everything that some root reaches. -/
def reachable (index : WorkspaceIndex) : List FileId := index.walk index.roots

/-- Drops the files that no root reaches; also gives the dropped ones. -/
def prune (index : WorkspaceIndex) : WorkspaceIndex × List FileId :=
  let kept := index.reachable
  ({ index with files := index.files.filterKeys kept.contains },
    index.fileIds.filter (!kept.contains ·))

/-! ## Lookup -/

/-- The files in the order in which a request from one of them looks: that file, what it sources,
the rest. -/
def searchOrder (index : WorkspaceIndex) (start : FileId) : List FileId :=
  let near := index.closure start
  near ++ index.fileIds.filter (!near.contains ·)

/-- The declarations of the name in one file. -/
def matchesIn (index : WorkspaceIndex) (name : String) (file : FileId) : List SymbolMatch :=
  match index.symbols? file with
  | some table => (table.lookup name).map (⟨file, ·⟩)
  | none => []

/-- The declarations of the name in the file, or else in the other files. -/
def lookup (index : WorkspaceIndex) (start : FileId) (name : String) : List SymbolMatch :=
  let own := index.matchesIn name start
  if own.isEmpty then
    ((index.searchOrder start).filter (· ≠ start)).flatMap (index.matchesIn name)
  else own

/-- The declarations of the name in all files. -/
def lookupGlobal (index : WorkspaceIndex) (name : String) : List SymbolMatch :=
  index.fileIds.flatMap (index.matchesIn name)

/-- The literal key of a constant in each file that has one, from the given file on if there is
one. -/
def lookupKey (index : WorkspaceIndex) (start : Option FileId) (name key : String) :
    List KeyMatch :=
  let order := match start with
    | some start => index.searchOrder start
    | none => index.fileIds
  order.filterMap fun file => do
    let (symbol, key) ← (← index.symbols? file).lookupKey? name key
    return ⟨file, symbol, key⟩

end WorkspaceIndex

end ShellAnalysis
