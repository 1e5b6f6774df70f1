import ShellAnalysis.Proofs.Built.Statements
import ShellAnalysis.Proofs.Outcome

/-!
# Parsed trees are built

The tree of a parse is built from its text, however reading ended:

    Built text (limits.depth * (8 + limits.chain) + 9) (parseWith limits text).root
                                                                     (root_built)

That bounds its height by the limits on depth and chain, and says of every node
in it that its construct has the parts it must have and that its names and texts
are pieces of the text.  The depth of a tree counts a chain for each level: an
operator is no longer counted when its expression is read, but it stays in the
tree.
-/

namespace ShellAnalysis.Parse

open Text Node

section

variable {text : String} {limits : Limits} {h : Nat}

theorem levelHeight_eq (levels : Nat) :
    levelHeight limits levels = levels * (8 + limits.chain) := by
  induction levels with
  | zero => exact (Nat.zero_mul _).symm
  | succ levels ih => rw [levelHeight, ih, Nat.succ_mul, Nat.add_assoc]

/-- The statements of the last state are built. -/
theorem lastState_built (text : String) (limits : Limits) :
    AllBuilt text (limits.depth * (8 + limits.chain) + 8)
      (lastState (run text limits)).statements.toList := by
  have hempty : Balanced ⟨text, limits⟩ (levelHeight limits limits.depth + 8)
      State.initial.nesting .initial :=
    ⟨⟨nofun, nofun⟩, rfl⟩
  have hruns : Runs ⟨text, limits⟩ _ (program limits) .initial _ :=
    statementList_balanced (opens_level limits.depth) hempty
  rw [← levelHeight_eq]
  unfold Runs at hruns
  unfold run
  split at hruns
  · rename_i s hrun
    rw [hrun]
    exact hruns.1.statements
  · rename_i e s hrun
    rw [hrun]
    exact hruns.statements

theorem concludedStatements_built {r : EStateM.Result Stopped State Unit} (hpos : 0 < h)
    (hr : AllBuilt text h (lastState r).statements.toList) :
    AllBuilt text h (concludedStatements text r) := by
  rcases r with ⟨_, s⟩ | ⟨error | _, s⟩
  · exact hr
  · unfold concludedStatements
    simp only
    split
    · exact hr
    · rw [AllBuilt, List.forall_mem_append, List.forall_mem_singleton]
      exact ⟨hr, (built_error _).mono hpos⟩
  · exact List.forall_mem_nil _

theorem root_built (text : String) (limits : Limits) :
    (parseWith limits text).root.Built text (limits.depth * (8 + limits.chain) + 9) := by
  have hroot : (parseWith limits text).root =
      programNode text (concludedStatements text (run text limits)) := conclude_root _ _
  rw [hroot]
  have hstatements := concludedStatements_built (Nat.succ_pos _) (lastState_built text limits)
  exact built_make hstatements rfl trivial rfl

theorem walk_fine {v : Node} (hv : v ∈ (parseWith limits text).root.walk) : v.Fine text :=
  (root_built text limits).all.walk v hv

/-- What stands under the span of a node that is a piece of the text. -/
theorem slice?_spelling {v : Node} {t : String} (hv : v ∈ (parseWith limits text).root.walk)
    (ht : v.form.spelling? = some t) : slice? text v.span.start v.span.stop = some t :=
  (walk_cut hv).slice?.trans (congrArg some ((walk_fine hv).spelled t ht))

/-- What stands under the span of a name. -/
theorem slice?_name {v : Node} {name : Name} (hv : v ∈ (parseWith limits text).root.walk)
    (hname : name ∈ v.form.names) :
    slice? text name.span.start name.span.stop = some name.text :=
  (walk_cut_name hv hname).slice?.trans (congrArg some ((walk_fine hv).names name hname))

end

/-! ## Main results -/

/-- No way down the tree passes more nodes than a fixed number and a chain of operators for each
construct that may be open. -/
theorem height_parseWith_le (text : String) (limits : Limits) :
    (parseWith limits text).root.height ≤
      16 * (limits.depth + 2) + limits.depth * limits.chain := by
  have hle := (root_built text limits).height_le
  rw [Nat.mul_add] at hle
  omega

/-- Every node has the parts its construct must have. -/
theorem parseWith_shaped (text : String) (limits : Limits) :
    ∀ v ∈ (parseWith limits text).root.walk, v.form.Shaped :=
  fun _ hv => (walk_fine hv).shaped

/-- A script with a command list. -/
theorem parseWith_shaped_script :
    ∃ v ∈ (parseWith {} "a && b").root.walk, v.form.joins = true ∧ v.form.Shaped := by
  have hany : (parseWith {} "a && b").statements.any (·.form.joins) = true := by decide +kernel
  obtain ⟨v, hv, hjoins⟩ := List.any_eq_true.1 hany
  have hwalk := mem_walk_of_mem_statements hv (mem_walk_self v)
  exact ⟨v, hwalk, hjoins, parseWith_shaped "a && b" {} v hwalk⟩

/-- The texts and names in the tree stand in the text under their spans. -/
theorem parseWith_faithful (text : String) (limits : Limits) :
    ∀ v ∈ (parseWith limits text).root.walk,
      (∀ t, v.form = .text t ∨ v.form = .var t →
        slice? text v.span.start v.span.stop = some t) ∧
      (∀ t, v.form = .simpleVarSub t → slice? text v.span.start v.span.stop = some ("$" ++ t)) ∧
      (∀ t, v.form = .splice t → slice? text v.span.start v.span.stop = some ("@" ++ t)) ∧
      (∀ name ∈ v.form.names,
        slice? text name.span.start name.span.stop = some name.text) ∧
      (∀ name suffix, v.form = .bracedVarSub name suffix → Suffixed text v.span name suffix) := by
  intro v hv
  refine ⟨?_, ?_, ?_, fun name => slice?_name hv, (walk_fine hv).suffixed⟩
  · rintro t (hform | hform) <;> exact slice?_spelling hv (by rw [hform]; rfl)
  · exact fun t hform => slice?_spelling hv (by rw [hform]; rfl)
  · exact fun t hform => slice?_spelling hv (by rw [hform]; rfl)

/-- A script that declares a name. -/
theorem parseWith_faithful_script :
    ∃ v ∈ (parseWith {} "var x").root.walk, ∃ name ∈ v.form.names, name.text = "x" ∧
      slice? "var x" name.span.start name.span.stop = some "x" := by
  have hany : (parseWith {} "var x").statements.any (·.form.names.any (·.text == "x")) = true := by
    decide +kernel
  obtain ⟨v, hv, hany⟩ := List.any_eq_true.1 hany
  obtain ⟨name, hname, htext⟩ := List.any_eq_true.1 hany
  have hwalk := mem_walk_of_mem_statements hv (mem_walk_self v)
  have hslice := (parseWith_faithful "var x" {} v hwalk).2.2.2.1 name hname
  rw [beq_iff_eq.1 htext] at hslice
  exact ⟨v, hwalk, name, hname, beq_iff_eq.1 htext, hslice⟩

end ShellAnalysis.Parse
