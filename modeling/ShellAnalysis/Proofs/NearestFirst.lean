import Mathlib.Data.Nat.Find
import Mathlib.Order.Bounds.Basic
import ShellAnalysis.Proofs.Reachability

/-!
# The order of a walk

A walk lists each file that it meets once, and the files come in the order of
their distances from the starts (`NearestFirst`).

The queue of a walk holds files of two distances at most: the near ones, and
behind them the far ones, one step further.  `ReachesWithin` counts steps from
such a queue.  Taking the first file off and putting what it sources at the end
does not change it for the other files (`reachesWithin_cons_of_mem`), and so
the order is kept by induction on the walk (`walkFrom_sorted`).

No file is tracked twice and none sources itself in an index that is made by
edits, one after the other (`run_sane`); for those `closure_nearestFirst` says
what a closure and the reachable files are.
-/

namespace ShellAnalysis

namespace WorkspaceIndex

/-! ## Edits -/

/-- A change of the index. -/
inductive Edit
  | insert (file : FileId) (symbols : SymbolTable) (dependencies : List FileId)
  | remove (file : FileId)
  | addRoot (file : FileId)
  | removeRoot (file : FileId)
  | prune

def edit (index : WorkspaceIndex) : Edit → WorkspaceIndex
  | .insert file symbols dependencies => index.insert file symbols dependencies
  | .remove file => index.remove file
  | .addRoot file => index.addRoot file
  | .removeRoot file => index.removeRoot file
  | .prune => index.prune.1

/-- The index after edits, the first of them of an empty index. -/
def run (edits : List Edit) : WorkspaceIndex := edits.foldl edit empty

/-- No file is tracked twice or is a root twice; no file sources a file twice or itself. -/
structure Sane (index : WorkspaceIndex) : Prop where
  fileIds : index.fileIds.Nodup
  roots : index.roots.Nodup
  dependencies : ∀ file, (index.dependencies file).Nodup
  not_self : ∀ file, file ∉ index.dependencies file

section

variable {index : WorkspaceIndex} {file : FileId} {symbols : SymbolTable} {sources : List FileId}
  {keep : FileId → Bool} {roots : List FileId}

theorem sane_empty : Sane empty where
  fileIds := List.nodup_nil
  roots := List.nodup_nil
  dependencies := fun _ => List.nodup_nil
  not_self := fun _ => List.not_mem_nil

theorem Sane.insert (h : index.Sane) : (index.insert file symbols sources).Sane where
  fileIds := by
    rw [fileIds_insert]
    split
    · exact h.fileIds
    · exact (List.perm_append_singleton _ _).nodup_iff.2 (List.nodup_cons.2 ⟨‹_›, h.fileIds⟩)
  roots := h.roots
  dependencies := fun other => by
    rw [dependencies_insert]
    split
    · exact nodup_eraseDups _
    · exact h.dependencies other
  not_self := fun other => by
    rw [dependencies_insert]
    split
    · rename_i heq
      simp [heq]
    · exact h.not_self other

/-- Dropping files, and any change of the roots. -/
theorem Sane.filterKeys (h : index.Sane) (keep : FileId → Bool) (hroots : roots.Nodup) :
    Sane ⟨index.files.filterKeys keep, roots⟩ where
  fileIds := by
    rw [WorkspaceIndex.fileIds, OrderedMap.keys_filterKeys]
    exact h.fileIds.filter keep
  roots := hroots
  dependencies := fun other => by
    rw [dependencies_filterKeys]
    split
    · exact h.dependencies other
    · exact List.nodup_nil
  not_self := fun other => by
    rw [dependencies_filterKeys]
    split
    · exact h.not_self other
    · exact List.not_mem_nil

theorem Sane.addRoot (h : index.Sane) : (index.addRoot file).Sane := by
  unfold WorkspaceIndex.addRoot
  split
  · exact h
  · rename_i hnew
    have hnew : file ∉ index.roots := fun hmem => hnew (List.contains_iff_mem.2 hmem)
    have hroots := List.nodup_cons.2 ⟨hnew, h.roots⟩
    exact { h with roots := (List.perm_append_singleton _ _).nodup_iff.2 hroots }

theorem Sane.edit (h : index.Sane) (change : Edit) : (index.edit change).Sane := by
  cases change with
  | insert => exact h.insert
  | remove file => exact h.filterKeys (· ≠ file) (h.roots.filter _)
  | addRoot => exact h.addRoot
  | removeRoot => exact { h with roots := h.roots.filter _ }
  | prune => exact h.filterKeys _ h.roots

theorem run_sane (edits : List Edit) : (run edits).Sane := by
  unfold run
  have h : empty.Sane := sane_empty
  generalize empty = index at h ⊢
  induction edits generalizing index with
  | nil => exact h
  | cons change rest ih => exact ih (index.edit change) (h.edit change)

end

/-! ## Distances -/

/-- There is a way of so many steps to the file from one of the starts along `next`, through
tracked files only. -/
inductive ReachesIn (next : FileId → List FileId) (tracked starts : List FileId) :
    Nat → FileId → Prop
  | start {file : FileId} : file ∈ starts → file ∈ tracked → ReachesIn next tracked starts 0 file
  | step {n : Nat} {file target : FileId} : ReachesIn next tracked starts n file →
      target ∈ next file → target ∈ tracked → ReachesIn next tracked starts (n + 1) target

/-- The number of steps on a shortest way to the file from one of the starts. -/
def Distance (index : WorkspaceIndex) (starts : List FileId) (file : FileId) (n : Nat) : Prop :=
  IsLeast {n | ReachesIn index.dependencies index.fileIds starts n file} n

/-- There is a way of at most so many steps to the file, where one is counted in advance for the
ways that start from a far file. -/
inductive ReachesWithin (next : FileId → List FileId) (tracked near far : List FileId) :
    Nat → FileId → Prop
  | near {n : Nat} {file : FileId} : file ∈ near → file ∈ tracked →
      ReachesWithin next tracked near far n file
  | far {n : Nat} {file : FileId} : file ∈ far → file ∈ tracked →
      ReachesWithin next tracked near far (n + 1) file
  | step {n : Nat} {file target : FileId} : ReachesWithin next tracked near far n file →
      target ∈ next file → target ∈ tracked → ReachesWithin next tracked near far (n + 1) target

section

variable {next : FileId → List FileId} {tracked starts near far queue : List FileId}
  {first file other : FileId} {n : Nat}

theorem reaches_iff_reachesIn :
    Reaches next tracked starts file ↔ ∃ n, ReachesIn next tracked starts n file := by
  constructor
  · intro h
    induction h with
    | start hstart hin => exact ⟨0, .start hstart hin⟩
    | step _ htarget hin ih =>
      obtain ⟨n, hway⟩ := ih
      exact ⟨n + 1, .step hway htarget hin⟩
  · rintro ⟨n, h⟩
    induction h with
    | start hstart hin => exact .start hstart hin
    | step _ htarget hin ih => exact .step ih htarget hin

/-- Each file that is reached has a distance. -/
theorem exists_distances (index : WorkspaceIndex) (starts : List FileId) :
    ∃ steps : FileId → Nat, ∀ file, Reaches index.dependencies index.fileIds starts file →
      index.Distance starts file (steps file) := by
  classical
  have h : ∀ file, ∃ n, Reaches index.dependencies index.fileIds starts file →
      index.Distance starts file n := by
    intro file
    by_cases hway : ∃ n, ReachesIn index.dependencies index.fileIds starts n file
    · exact ⟨Nat.find hway, fun _ => ⟨Nat.find_spec hway, fun _ hn => Nat.find_min' hway hn⟩⟩
    · exact ⟨0, fun h => absurd (reaches_iff_reachesIn.1 h) hway⟩
  exact Classical.axiomOfChoice h

theorem ReachesWithin.mono {m : Nat} (h : ReachesWithin next tracked near far n file)
    (hle : n ≤ m) : ReachesWithin next tracked near far m file := by
  induction h generalizing m with
  | near hnear hin => exact .near hnear hin
  | far hfar hin =>
    obtain ⟨m, rfl⟩ := Nat.exists_eq_succ_of_ne_zero (Nat.ne_zero_of_lt hle)
    exact .far hfar hin
  | step _ htarget hin ih =>
    obtain ⟨m, rfl⟩ := Nat.exists_eq_succ_of_ne_zero (Nat.ne_zero_of_lt hle)
    exact .step (ih (Nat.le_of_succ_le_succ hle)) htarget hin

theorem reachesWithin_iff : ReachesWithin next tracked starts [] n file ↔
    ∃ m ≤ n, ReachesIn next tracked starts m file := by
  constructor
  · intro h
    induction h with
    | near hstart hin => exact ⟨0, Nat.zero_le _, .start hstart hin⟩
    | far hfar _ => exact absurd hfar List.not_mem_nil
    | step _ htarget hin ih =>
      obtain ⟨m, hle, hway⟩ := ih
      exact ⟨m + 1, Nat.succ_le_succ hle, .step hway htarget hin⟩
  · rintro ⟨m, hle, h⟩
    refine .mono ?_ hle
    clear hle
    induction h with
    | start hstart hin => exact .near hstart hin
    | step _ htarget hin ih => exact .step ih htarget hin

/-! ## One step of a walk -/

/-- The other files are as far as before when the first one goes and what it sources comes last. -/
theorem reachesWithin_cons_of_mem (hfirst : first ∈ tracked) :
    ReachesWithin next tracked (first :: near) far n file ↔
      file = first ∨
        ReachesWithin next (tracked.erase first) near (far ++ next first) n file := by
  constructor
  · intro h
    induction h with
    | @near n file hnear hin =>
      by_cases heq : file = first
      · exact .inl heq
      · exact .inr (.near ((List.mem_cons.1 hnear).resolve_left heq)
          ((List.mem_erase_of_ne heq).2 hin))
    | @far n file hfar hin =>
      by_cases heq : file = first
      · exact .inl heq
      · exact .inr (.far (List.mem_append_left _ hfar) ((List.mem_erase_of_ne heq).2 hin))
    | @step n file target _ htarget hin ih =>
      by_cases heq : target = first
      · exact .inl heq
      · have hin := (List.mem_erase_of_ne heq).2 hin
        rcases ih with rfl | hway
        · exact .inr (.far (List.mem_append_right _ htarget) hin)
        · exact .inr (.step hway htarget hin)
  · rintro (rfl | h)
    · exact .near List.mem_cons_self hfirst
    · induction h with
      | near hnear hin => exact .near (List.mem_cons_of_mem _ hnear) (List.mem_of_mem_erase hin)
      | far hfar hin =>
        have hin := List.mem_of_mem_erase hin
        rcases List.mem_append.1 hfar with hfar | hnext
        · exact .far hfar hin
        · exact .step (.near List.mem_cons_self hfirst) hnext hin
      | step _ htarget hin ih => exact .step ih htarget (List.mem_of_mem_erase hin)

/-- A first file that is not tracked brings no file nearer. -/
theorem reachesWithin_cons_of_not_mem (hfirst : first ∉ tracked) :
    ReachesWithin next tracked (first :: near) far n file ↔
      ReachesWithin next tracked near far n file := by
  constructor
  · intro h
    induction h with
    | near hnear hin =>
      rcases List.mem_cons.1 hnear with rfl | hnear
      · exact absurd hin hfirst
      · exact .near hnear hin
    | far hfar hin => exact .far hfar hin
    | step _ htarget hin ih => exact .step ih htarget hin
  · intro h
    induction h with
    | near hnear hin => exact .near (List.mem_cons_of_mem _ hnear) hin
    | far hfar hin => exact .far hfar hin
    | step _ htarget hin ih => exact .step ih htarget hin

/-- When no near file is left, the far ones are the near ones and one step is taken. -/
theorem reachesWithin_nil : ReachesWithin next tracked [] far n file ↔
    ∃ m, n = m + 1 ∧ ReachesWithin next tracked far [] m file := by
  constructor
  · intro h
    induction h with
    | near hnear _ => exact absurd hnear List.not_mem_nil
    | far hfar hin => exact ⟨_, rfl, .near hfar hin⟩
    | step _ htarget hin ih =>
      obtain ⟨m, rfl, hway⟩ := ih
      exact ⟨m + 1, rfl, .step hway htarget hin⟩
  · rintro ⟨m, rfl, h⟩
    induction h with
    | near hnear hin => exact .far hnear hin
    | far hfar _ => exact absurd hfar List.not_mem_nil
    | step _ htarget hin ih => exact .step ih htarget hin

/-- A file is at most as far as another one. -/
def NoFurther (next : FileId → List FileId) (tracked near far : List FileId)
    (file other : FileId) : Prop :=
  ∀ n, ReachesWithin next tracked near far n other → ReachesWithin next tracked near far n file

theorem NoFurther.of_near (h : NoFurther next tracked near [] file other) :
    NoFurther next tracked [] near file other := by
  intro n hway
  obtain ⟨m, rfl, hnear⟩ := reachesWithin_nil.1 hway
  exact reachesWithin_nil.2 ⟨m, rfl, h m hnear⟩

/-- It is enough to look at queues with a near file in front. -/
theorem sorted_of_cons {order : List FileId}
    (h : ∀ near far, near ++ far = queue →
      order.Pairwise (NoFurther next tracked (first :: near) far)) :
    ∀ near far, near ++ far = first :: queue →
      order.Pairwise (NoFurther next tracked near far) := by
  intro near far hqueue
  cases near with
  | nil =>
    obtain rfl : far = first :: queue := hqueue
    exact (h queue [] (List.append_nil queue)).imp .of_near
  | cons head near =>
    obtain ⟨rfl, htail⟩ := List.cons.inj hqueue
    exact h near far htail

/-! ## A whole walk -/

theorem walkFrom_nodup (h : tracked.Nodup) : (walkFrom next tracked queue).Nodup := by
  fun_induction walkFrom next tracked queue with
  | case1 => exact List.nodup_nil
  | case2 tracked first queue hfirst ih =>
    refine List.nodup_cons.2 ⟨fun hagain => ?_, ih (h.erase first)⟩
    exact h.not_mem_erase (mem_walkFrom.1 hagain).mem
  | case3 tracked first queue hfirst ih => exact ih h

/-- No file of a walk is further than those behind it. -/
theorem walkFrom_sorted (h : tracked.Nodup) (near far : List FileId) (hqueue : near ++ far = queue) :
    (walkFrom next tracked queue).Pairwise (NoFurther next tracked near far) := by
  fun_induction walkFrom next tracked queue generalizing near far with
  | case1 => exact .nil
  | case2 tracked first queue hfirst ih =>
    revert near far
    refine sorted_of_cons fun near far hqueue => List.pairwise_cons.2 ⟨?_, ?_⟩
    · exact fun _ _ _ _ => .near List.mem_cons_self hfirst
    · have hrest := ih (h.erase first) near (far ++ next first) (by rw [← hqueue, List.append_assoc])
      refine hrest.imp_of_mem fun {file other} _ hother hle n hway => ?_
      have hne : other ≠ first := fun heq =>
        h.not_mem_erase (heq ▸ (mem_walkFrom.1 hother).mem)
      rw [reachesWithin_cons_of_mem hfirst] at hway ⊢
      exact .inr (hle n (hway.resolve_left hne))
  | case3 tracked first queue hfirst ih =>
    revert near far
    refine sorted_of_cons fun near far hqueue => (ih h near far hqueue).imp fun hle n hway => ?_
    rw [reachesWithin_cons_of_not_mem hfirst] at hway ⊢
    exact hle n hway

end

/-! ## Closures and reachable files -/

/-- The files to which there are ways from the starts, each once, nearer ones before further
ones. -/
structure NearestFirst (index : WorkspaceIndex) (starts order : List FileId) : Prop where
  nodup : order.Nodup
  mem : ∀ file, file ∈ order ↔ Reaches index.dependencies index.fileIds starts file
  sorted : ∃ steps : FileId → Nat, (∀ file ∈ order, index.Distance starts file (steps file)) ∧
    order.Pairwise fun file other => steps file ≤ steps other

variable {index : WorkspaceIndex} {starts : List FileId} {file other : FileId}

theorem NoFurther.distance_le {m n : Nat}
    (h : NoFurther index.dependencies index.fileIds starts [] file other)
    (hfile : index.Distance starts file m) (hother : index.Distance starts other n) : m ≤ n := by
  have hway := h n (reachesWithin_iff.2 ⟨n, Nat.le_refl n, hother.1⟩)
  obtain ⟨k, hle, hway⟩ := reachesWithin_iff.1 hway
  exact Nat.le_trans (hfile.2 hway) hle

theorem Sane.walk_nearestFirst (h : index.Sane) (starts : List FileId) :
    index.NearestFirst starts (index.walk starts) where
  nodup := walkFrom_nodup h.fileIds
  mem := fun _ => mem_walk
  sorted := by
    obtain ⟨steps, hsteps⟩ := exists_distances index starts
    have hdistance : ∀ file ∈ index.walk starts, index.Distance starts file (steps file) :=
      fun file hfile => hsteps file (mem_walk.1 hfile)
    have hsorted : (index.walk starts).Pairwise _ :=
      walkFrom_sorted h.fileIds starts [] (List.append_nil starts)
    refine ⟨steps, hdistance, hsorted.imp_of_mem fun {file other} hfile hother hle => ?_⟩
    exact hle.distance_le (hdistance file hfile) (hdistance other hother)

/-- A closure has its start in front, if that is tracked, and is empty otherwise. -/
theorem head?_closure (index : WorkspaceIndex) (start : FileId) :
    (index.closure start).head? = if start ∈ index.fileIds then some start else none := by
  unfold closure walk
  rw [walkFrom]
  split
  · rfl
  · rw [walkFrom]
    rfl

/-- A closure lists exactly the tracked files that its start reaches, each once and nearest first,
and so the reachable files for all roots. -/
theorem closure_nearestFirst (edits : List Edit) (start : FileId) :
    let index := run edits
    index.NearestFirst [start] (index.closure start) ∧
      (index.closure start).head? = (if start ∈ index.fileIds then some start else none) ∧
      index.NearestFirst index.roots index.reachable ∧
      ∀ file, file ∉ index.dependencies file := by
  intro index
  have hsane : index.Sane := run_sane edits
  exact ⟨hsane.walk_nearestFirst _, head?_closure index start, hsane.walk_nearestFirst _,
    hsane.not_self⟩

end WorkspaceIndex

end ShellAnalysis
