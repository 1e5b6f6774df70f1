import ShellAnalysis.Proofs.Outcome

/-!
# Where the parts of a node lie

Two things put a node elsewhere than where it was read: a heredoc body is handed
to a statement that may stand behind it, and a command without any parts is put
at the token ahead.  `parseWith_parts` says that nothing else does.  Every part
ends in its node and starts in it unless it is a heredoc body, and no two parts
of a node have a byte in common unless one of them was put elsewhere.
-/

namespace ShellAnalysis

open Text

namespace Node

/-- The node ends in a command without any parts, or starts at a heredoc body that it was handed. -/
def Displaced (v : Node) : Prop := v.EndsLate ∨ v.StartsEarly

/-- Neither node has a byte of the other between its ends, if both stand where they were read. -/
def KeepsApart (x y : Node) : Prop := Apart x y ∨ x.Displaced ∨ y.Displaced

variable {x y v : Node} {text : String}

theorem Before.keepsApart (h : Before x y) : KeepsApart x y := by
  rcases h with hle | hlate | hearly
  · exact .inl (.inl hle)
  · exact .inr (.inl (.inl hlate))
  · exact .inr (.inr (.inr hearly))

theorem Fits.keepsApart (h : Fits x y) : KeepsApart x y := by
  rcases h with hbefore | ⟨hle, -⟩ | hlate | hearly
  · exact hbefore.keepsApart
  · exact .inl (.inr hle)
  · exact .inr (.inr (.inl hlate))
  · exact .inr (.inl (.inr hearly))

theorem keepsApart_of_lined {f : Form Node} (h : f.Lined) : f.items.Pairwise KeepsApart := by
  cases f with
  | command | argList => exact List.Pairwise.imp Fits.keepsApart h
  | _ => exact List.Pairwise.imp Before.keepsApart h

/-- The parts of a sound node: what was read in order, and the heredoc bodies clear of it. -/
theorem Local.keepsApart (h : v.Local text) : v.form.children.Pairwise KeepsApart := by
  rw [Form.children_eq, List.pairwise_append]
  refine ⟨keepsApart_of_lined h.lined, h.apart.imp .inl, fun x hx b hb => ?_⟩
  exact .inl ((h.bodies b hb).2.2 x hx)

/-- A part ends in its node, and starts in it unless it is a heredoc body. -/
theorem Local.part_within (h : v.Local text) :
    ∀ c ∈ v.form.children, c.stop ≤ v.stop ∧ (v.start ≤ c.start ∨ c.IsBody) := by
  intro c hc
  refine ⟨h.stop_le c hc, ?_⟩
  rcases Form.mem_children.1 hc with hitem | hbody
  · exact .inl (h.le_start c hitem)
  · exact .inr (h.bodies c hbody).1

end Node

namespace Parse

open Node

variable {doc : Document} {s₀ s : State} {text : String} {limits : Limits}

/-- What stands for the part of a document that was not read comes after all statements. -/
theorem Open.before_rest (h : Open doc s₀ s) (stop : Nat) :
    ∀ x ∈ s.statements.toList,
      Before x (.error (.upTo (lastStop s.statements.toList) stop)) := by
  intro x hx
  rcases List.eq_nil_or_concat s.statements.toList with hnil | ⟨init, last, hsplit⟩
  · rw [hnil] at hx
    cases hx
  rw [List.concat_eq_append] at hsplit
  rw [hsplit, lastStop_concat]
  rw [hsplit, List.mem_append, List.mem_singleton] at hx
  rcases hx with hx | rfl
  · exact (h.ends init last hsplit x hx).imp id .inl
  · exact .inl (Nat.le_refl _)

/-- The statements of a parse are in source order. -/
theorem statements_before (text : String) (limits : Limits) :
    (parseWith limits text).statements.Pairwise Before := by
  rw [statements_eq]
  cases outcome_open text limits with
  | complete s hrun hwithin _ =>
    rw [hrun]
    exact hwithin.inv.laid.inOrder
  | aborted error s hrun hquits =>
    obtain ⟨-, s₁, hopen, -, hstatements⟩ := hquits
    have horder : s.statements.toList.Pairwise Before := hstatements ▸ hopen.laid.inOrder
    have hbefore := hopen.before_rest (size text)
    rw [hstatements] at hbefore
    rw [hrun]
    unfold concludedStatements
    simp only
    split
    · exact horder
    · refine List.pairwise_append.2 ⟨horder, List.pairwise_singleton _ _, fun x hx rest hrest => ?_⟩
      rw [List.mem_singleton.1 hrest]
      exact hbefore x hx

/-- In every tree a parse gives, the parts of a node end in it and start in it, heredoc bodies apart,
and they do not overlap, displaced parts apart. -/
theorem parseWith_parts (text : String) (limits : Limits) :
    ∀ v ∈ (parseWith limits text).root.walk,
      (∀ c ∈ v.form.children, c.stop ≤ v.stop ∧ (v.start ≤ c.start ∨ c.IsBody)) ∧
      v.form.children.Pairwise KeepsApart := by
  intro v hv
  rcases walk_local hv with rfl | hlocal
  · have hchildren : (parseWith limits text).root.form.children =
        (parseWith limits text).statements := by
      rw [root_eq]
      rfl
    have hitems : (parseWith limits text).root.form.items = (parseWith limits text).statements := by
      rw [root_eq]
      rfl
    rw [hchildren]
    refine ⟨fun c hc => ?_, (statements_before text limits).imp Before.keepsApart⟩
    obtain ⟨hstart, hstop⟩ := walk_within hv (hitems.symm ▸ hc)
    exact ⟨hstop, .inl hstart⟩
  · exact ⟨hlocal.part_within, hlocal.keepsApart⟩

/-- The condition of this loop ends in a command without any parts, at the closing brace, and the
body that is missing stands before it. -/
example : (parseWith {} "while ! \x7d").statements.flatMap (·.form.children.map Node.span) =
    [⟨6, 2⟩, ⟨7, 0⟩] := by
  decide +kernel

end Parse

end ShellAnalysis
