import ShellAnalysis.Proofs.NearestFirst

/-!
# Lookups from a file

The search order of a file puts its closure in front and is otherwise the order
of the index; no file is lost and none comes twice (`searchOrder_perm`).  So a
lookup from a file that does not declare the name itself, and every lookup of a
key, finds what the lookup in all files finds, in another order
(`lookup_reorders`).
-/

namespace ShellAnalysis

namespace WorkspaceIndex

variable {index : WorkspaceIndex} {start : FileId}

/-- The tracked files that are not in the closure of a file, in the order of the index. -/
def unrelated (index : WorkspaceIndex) (start : FileId) : List FileId :=
  index.fileIds.filter (· ∉ index.closure start)

/-- The declarations of the name in tracked files, one file after the other, each in the order of its
table. -/
inductive DeclaredIn (index : WorkspaceIndex) (name : String) : List FileId → List SymbolMatch → Prop
  | nil : DeclaredIn index name [] []
  | cons {file : FileId} {files : List FileId} {table : SymbolTable} {found : List SymbolMatch} :
    index.symbols? file = some table → DeclaredIn index name files found →
      DeclaredIn index name (file :: files) ((table.lookup name).map (⟨file, ·⟩) ++ found)

/-- The literal key of a constant in those of the tracked files that have it, in order. -/
inductive KeysIn (index : WorkspaceIndex) (name key : String) : List FileId → List KeyMatch → Prop
  | nil : KeysIn index name key [] []
  | absent {file : FileId} {files : List FileId} {table : SymbolTable} {found : List KeyMatch} :
    index.symbols? file = some table → table.lookupKey? name key = none →
      KeysIn index name key files found → KeysIn index name key (file :: files) found
  | present {file : FileId} {files : List FileId} {table : SymbolTable} {found : List KeyMatch}
      {symbol : SymbolInfo} {info : KeyInfo} :
    index.symbols? file = some table → table.lookupKey? name key = some (symbol, info) →
      KeysIn index name key files found →
      KeysIn index name key (file :: files) (⟨file, symbol, info⟩ :: found)

/-! ## The search order -/

theorem searchOrder_eq (index : WorkspaceIndex) (start : FileId) :
    index.searchOrder start = index.closure start ++ index.unrelated start := by
  simp only [searchOrder, unrelated, List.contains_eq_mem, decide_not]

/-- Of the tracked files those in a closure are a reordering of the closure. -/
theorem Sane.closure_perm (h : index.Sane) (start : FileId) :
    (index.closure start).Perm (index.fileIds.filter (· ∈ index.closure start)) := by
  have hwalk := h.walk_nearestFirst [start]
  refine (List.perm_ext_iff_of_nodup hwalk.nodup (h.fileIds.filter _)).2 fun file => ?_
  rw [List.mem_filter, decide_eq_true_eq]
  exact ⟨fun hfile => ⟨((hwalk.mem file).1 hfile).mem, hfile⟩, And.right⟩

theorem Sane.searchOrder_perm (h : index.Sane) (start : FileId) :
    (index.searchOrder start).Perm index.fileIds := by
  rw [searchOrder_eq]
  refine ((h.closure_perm start).append_right _).trans ?_
  have hsplit := List.filter_append_perm (· ∈ index.closure start) index.fileIds
  simpa only [unrelated, decide_not] using hsplit

/-! ## Lookups -/

/-- A tracked file has a table. -/
theorem symbols?_of_mem {file : FileId} (h : file ∈ index.fileIds) :
    ∃ table, index.symbols? file = some table := by
  obtain ⟨entry, hentry⟩ := Option.ne_none_iff_exists'.1 (mt OrderedMap.get?_eq_none.1 (not_not.2 h))
  exact ⟨entry.symbols, by rw [symbols?, hentry]; rfl⟩

theorem matchesIn_of_table {file : FileId} {table : SymbolTable}
    (h : index.symbols? file = some table) (name : String) :
    index.matchesIn name file = (table.lookup name).map (⟨file, ·⟩) := by
  rw [matchesIn, h]

theorem declaredIn_flatMap (name : String) {files : List FileId}
    (h : ∀ file ∈ files, file ∈ index.fileIds) :
    index.DeclaredIn name files (files.flatMap (index.matchesIn name)) := by
  induction files with
  | nil => exact .nil
  | cons file files ih =>
    rw [List.forall_mem_cons] at h
    obtain ⟨table, htable⟩ := symbols?_of_mem h.1
    rw [List.flatMap_cons, matchesIn_of_table htable]
    exact .cons htable (ih h.2)

theorem keysIn_filterMap (name key : String) {files : List FileId}
    (h : ∀ file ∈ files, file ∈ index.fileIds) :
    index.KeysIn name key files (files.filterMap fun file => do
      let (symbol, key) ← (← index.symbols? file).lookupKey? name key
      return ⟨file, symbol, key⟩) := by
  induction files with
  | nil => exact .nil
  | cons file files ih =>
    rw [List.forall_mem_cons] at h
    obtain ⟨table, htable⟩ := symbols?_of_mem h.1
    have ih := ih h.2
    cases hkey : table.lookupKey? name key with
    | none =>
      rw [List.filterMap_cons_none (by simp [htable, hkey])]
      exact .absent htable hkey ih
    | some found =>
      obtain ⟨symbol, info⟩ := found
      rw [List.filterMap_cons_some (b := ⟨file, symbol, info⟩) (by simp [htable, hkey])]
      exact .present htable hkey ih

/-- A file that does not declare the name itself may stay in the search order. -/
theorem lookup_eq (index : WorkspaceIndex) (start : FileId) (name : String) :
    index.lookup start name =
      if index.matchesIn name start = [] then
        (index.searchOrder start).flatMap (index.matchesIn name)
      else index.matchesIn name start := by
  unfold lookup
  simp only [List.isEmpty_iff]
  split
  · rename_i hnone
    generalize index.searchOrder start = order
    induction order with
    | nil => rfl
    | cons file rest ih =>
      rw [List.flatMap_cons, ← ih]
      by_cases heq : file = start
      · rw [List.filter_cons_of_neg (by simp [heq]), heq, hnone, List.nil_append]
      · rw [List.filter_cons_of_pos (by simp [heq]), List.flatMap_cons]
  · rfl

/-- If the table of a file declares the name, a lookup from the file gives exactly those declarations,
in the order of the table.  Otherwise it gives the declarations of all files, each once: first those of
the closure of the file, in its order, then the others in the order of the index.  A lookup of a key
from a file always does. -/
theorem lookup_reorders (edits : List Edit) (start : FileId) (name : String) :
    let index := run edits
    let order := index.closure start ++ index.unrelated start
    (∀ table, index.symbols? start = some table → table.lookup name ≠ [] →
      index.lookup start name = (table.lookup name).map (⟨start, ·⟩)) ∧
    ((∀ table, index.symbols? start = some table → table.lookup name = []) →
      index.DeclaredIn name order (index.lookup start name) ∧
      (index.lookup start name).Perm (index.lookupGlobal name)) ∧
    index.DeclaredIn name index.fileIds (index.lookupGlobal name) ∧
    ∀ key, index.KeysIn name key order (index.lookupKey (some start) name key) ∧
      index.KeysIn name key index.fileIds (index.lookupKey none name key) ∧
      (index.lookupKey (some start) name key).Perm (index.lookupKey none name key) := by
  intro index order
  have hsearch : order = index.searchOrder start := (searchOrder_eq index start).symm
  have hperm : (index.searchOrder start).Perm index.fileIds := (run_sane edits).searchOrder_perm start
  have horder : ∀ file ∈ index.searchOrder start, file ∈ index.fileIds := fun _ => hperm.mem_iff.1
  rw [hsearch]
  refine ⟨?_, ?_, declaredIn_flatMap name fun _ => id, fun key => ⟨?_, ?_, ?_⟩⟩
  · intro table htable hdeclares
    rw [lookup_eq, matchesIn_of_table htable, if_neg (mt List.map_eq_nil_iff.1 hdeclares)]
  · intro hnone
    have hown : index.matchesIn name start = [] := by
      unfold matchesIn
      split
      · rename_i table htable
        rw [hnone table htable, List.map_nil]
      · rfl
    rw [lookup_eq, if_pos hown]
    exact ⟨declaredIn_flatMap name horder, hperm.flatMap_right _⟩
  · exact keysIn_filterMap name key horder
  · exact keysIn_filterMap name key fun _ => id
  · exact hperm.filterMap _

/-- The table of a file that declares one dict constant with one key. -/
def constantTable (name key : String) : SymbolTable :=
  let lines := (LineIndex.ofText "").lineSpan (.empty 0)
  let keys := [⟨key, .empty 0, lines⟩]
  ⟨[⟨name, .const, .empty 0, .empty 0, lines, lines, none, none, some keys⟩], [], .ofText ""⟩

/-- Two files declare `d`, and a third one that does not sources the second of them. -/
def sourcingEdits : List Edit :=
  [.insert 0 (constantTable "d" "k") [], .insert 1 (constantTable "d" "k") [],
    .insert 2 (constantTable "e" "k") [1]]

/-- From the third file the sourced one is found first, and from the first one only that file. -/
theorem lookup_reorders_sourcing :
    ((run sourcingEdits).lookup 0 "d").map (·.file) = [0] ∧
      ((run sourcingEdits).lookup 2 "d").map (·.file) = [1, 0] ∧
      ((run sourcingEdits).lookup 2 "d").Perm ((run sourcingEdits).lookupGlobal "d") ∧
      (run sourcingEdits).KeysIn "d" "k" [2, 1, 0]
        ((run sourcingEdits).lookupKey (some 2) "d" "k") := by
  obtain ⟨hown, -⟩ := lookup_reorders sourcingEdits 0 "d"
  obtain ⟨-, hother, -, hkeys⟩ := lookup_reorders sourcingEdits 2 "d"
  have hwalk : (run sourcingEdits).closure 2 = [2, 1] := by
    have htwo : (run sourcingEdits).dependencies 2 = [1] := rfl
    have hone : (run sourcingEdits).dependencies 1 = [] := rfl
    have hfiles : (run sourcingEdits).fileIds = [0, 1, 2] := rfl
    simp [closure, walk, walkFrom, htwo, hone, hfiles]
  have horder : (run sourcingEdits).closure 2 ++ (run sourcingEdits).unrelated 2 = [2, 1, 0] := by
    rw [unrelated, hwalk]
    rfl
  refine ⟨?_, ?_, ?_, horder ▸ (hkeys "k").1⟩
  · rw [hown (constantTable "d" "k") rfl (by decide)]
    rfl
  · rw [lookup, searchOrder, hwalk]
    rfl
  · refine (hother fun table htable => ?_).2
    obtain rfl : constantTable "e" "k" = table := Option.some.inj htable
    rfl

end WorkspaceIndex

end ShellAnalysis
