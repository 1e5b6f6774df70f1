import ShellAnalysis.Proofs.Layout

/-!
# Statements in place

A statement list goes on after a statement was read: heredoc bodies are put into
the statement, and its block argument may be taken off.  `Settled doc s m` says
where a node that could receive a body lies when the position is at `s`.  It is
kept by everything that is read later (`Along.passes`), and every body that
waits then stands clear of the node.

`Placed doc s v s'` is the promise of every production that gives a statement.
Most statements are constructs of their own (`Stands`), which neither take
bodies nor give a block away.
-/

namespace ShellAnalysis

open Text

/-! ## Closed constructs -/

/-- Constructs other than commands and what joins them. -/
def Form.isClosed {α : Type} : Form α → Bool
  | .command _ | .pipeline .. | .andOr .. | .background _ => false
  | _ => true

namespace Form

variable {f : Form Node}

theorem spine_of_isClosed (h : f.isClosed = true) : f.spine = [] := by
  cases f <;> first | rfl | cases h

theorem heredocs_of_isClosed (h : f.isClosed = true) : f.heredocs = [] := by
  cases f <;> first | rfl | cases h

theorem joins_of_isClosed (h : f.isClosed = true) : f.joins = false := by
  cases f <;> first | rfl | cases h

end Form

namespace Node

variable {v : Node}

theorem takeBlock?_of_isClosed (h : v.form.isClosed = true) : v.takeBlock? = some none := by
  obtain ⟨span, form⟩ := v
  cases form <;> first | rfl | cases h

theorem solid_of_isClosed (h : v.form.isClosed = true) (hp : v.form.isOrdered = true) :
    v.Solid := by
  intro b
  cases hw : v.attachHeredoc? b with
  | none => rfl
  | some w =>
    exfalso
    rcases attachHeredoc?_cases hw with ⟨_, _, hform, -⟩ | ⟨_, _, _, hform, -⟩ | ⟨hj, -⟩ | ⟨hj, -⟩
    · rw [hform] at h
      cases h
    · rw [hform] at hp
      cases hp
    · rw [Form.joins_of_isClosed h] at hj
      cases hj
    · rw [Form.joins_of_isClosed h] at hj
      cases hj

/-- What is left of a node starts where the node does, so it stands in the same row if it ends in
time. -/
theorem Row.rest {text : String} {lo hi edge : Nat} {held : List Node} {v' k : Node}
    (h : Row text lo held hi edge [v]) (ht : v.takeBlock? = some (some (v', k)))
    (hdone : v'.stop ≤ hi ∨ v'.EndsLate ∧ (v'.stop = edge ∨ v'.stop = size text)) :
    Row text lo held hi edge [v'] := by
  have htaken := takeBlock?_taken (h.sound v (by simp)) ht
  have hlike := htaken.startsLike ht
  refine .one htaken.sound ?_ hdone (keys_of_takeBlock ht)
  rw [hlike.start_eq]
  exact (h.late v (by simp)).imp_right fun ⟨hearly, hheld⟩ =>
    ⟨hearly.imp hlike.early hlike.body, hheld⟩

end Node

namespace Parse

open Node

/-! ## Settled nodes -/

/-- Where a node that could receive heredoc bodies lies when the position is at `s`. -/
structure Settled (doc : Document) (s : State) (m : Node) : Prop where
  start_le : m.start ≤ s.front doc
  stop_le : m.stop ≤ s.front doc ∨ m.stop = size doc.text ∧ m.EndsLate
  heredocs : ∀ h ∈ m.form.heredocs, h.IsBody ∧ h.stop ≤ s.front doc
  clears : ∀ b ∈ s.bodies, Clears b m

section

variable {doc : Document} {s s' : State} {m v : Node}

/-- A body that stands behind the token ahead is clear of the node.  If the node reaches over it,
it does so by an item that reaches to the end of the text. -/
theorem clears_later {b : Node} {hi : Nat} (h : Along Form.spine (Settled doc s) m)
    (hb : HeldBody doc.text hi b) (hle : s.front doc ≤ b.start) : Clears b m := by
  have hlt := hb.lt
  have hstop : b.stop ≤ size doc.text := hb.sound.here.cut.stop_le
  rcases h.here.stop_le with hdone | ⟨hsize, hlate⟩
  · exact .inl (Nat.le_trans hdone hle)
  · have hstart := h.here.start_le
    refine .inr ⟨.inr ⟨Nat.le_trans hstart hle, hsize ▸ hstop⟩, ?_, ?_, ?_⟩
    · intro x hx
      exact .inl (Nat.le_trans (h.here.heredocs x hx).2 hle)
    · intro inner hinner
      cases hlate with
      | bare hform => simp [hinner] at hform
      | part hc heq =>
        rw [hinner] at hc
        obtain rfl : _ = inner := by simpa [Form.children] using hc
        omega
    · intro hj k _
      cases hlate with
      | bare hform => exact absurd hform (Form.not_command_of_joins hj _)
      | @part _ c hc heq hlate =>
        rcases Form.mem_children.1 hc with hc | hc
        · have hspine : c ∈ m.form.spine := by
            rw [Form.spine_of_joins hj]
            exact hc
          have hstart := Nat.le_trans (h.part hspine).here.start_le hle
          have hstop : b.start < c.stop := by omega
          exact .inr ⟨c, hc, contains_iff.2 ⟨hstart, hstop⟩⟩
        · exact absurd hlate (not_endsLate_of_isBody (h.here.heredocs c hc).1)

/-- What is settled stays so. -/
theorem Along.passes (h : Along Form.spine (Settled doc s) v) (hp : Passes doc s s') :
    Along Form.spine (Settled doc s') v := by
  induction h with
  | @mk m hm hparts ih =>
    have hle := hp.front_le
    refine .mk ?_ ih
    exact {
      start_le := Nat.le_trans hm.start_le hle
      stop_le := hm.stop_le.imp_left (Nat.le_trans · hle)
      heredocs := fun x hx => ⟨(hm.heredocs x hx).1, Nat.le_trans (hm.heredocs x hx).2 hle⟩
      clears := fun b hb => by
        rcases hp.past b hb with hold | hnew
        · exact hm.clears b hold
        · exact clears_later (.mk hm hparts) (hp.valid.bodies b hb) (Nat.le_of_lt hnew) }

/-- A node that was just read is settled. -/
theorem Yields.settled (h : Yields doc .ahead s [m] s') (hv : Valid doc s)
    (hstart : m.start ≤ s.front doc) (hstop : s'.pos ≤ m.stop) (hheredocs : m.form.heredocs = [])
    (hback : ∀ inner, m.form = .background inner → ∀ b ∈ s'.bodies, b.stop ≤ inner.stop)
    (htrail : m.form.joins = true → ∀ k, m.trailing? = some k → s'.pos ≤ k.stop) :
    Settled doc s' m where
  start_le := Nat.le_trans hstart h.front_le
  stop_le := by
    rcases h.laid.done m (by simp) with hle | ⟨hlate, heq | heq⟩
    · exact .inl (Nat.le_trans hle h.valid.pos_le_front)
    · exact .inl (Nat.le_of_eq heq)
    · exact .inr ⟨heq, hlate⟩
  heredocs := by simp [hheredocs]
  clears := by
    intro b hb
    have hheld := h.valid.bodies b hb
    have hlt := hheld.lt
    have hle := hheld.le
    refine .inr ⟨?_, by simp [hheredocs], ?_, ?_⟩
    · rcases h.past b hb with hold | hnew
      · -- The body was waiting before the node was read, and the node may start at another one.
        have hheld := hv.bodies b hold
        rcases h.laid.late m (by simp) with hlate | ⟨-, b', hb', heq⟩
        · exact .inl (Nat.le_trans hheld.le hlate)
        · have hin := hv.inOrder
          have heach : ∀ x ∈ s.bodies, ∀ y ∈ s.bodies, x = y ∨ x.stop ≤ y.start ∨ y.stop ≤ x.start :=
            List.Pairwise.forall_of_forall_of_flip (fun _ _ => .inl rfl)
              (hin.imp fun h => .inr (.inl h)) (hin.imp fun h => .inr (.inr h))
          rcases heach b hold b' hb' with rfl | happart | happart
          · exact .inr ⟨Nat.le_of_eq heq.symm, by omega⟩
          · exact .inl (heq ▸ happart)
          · have := (hv.bodies b' hb').lt
            exact .inr ⟨by omega, by omega⟩
      · exact .inr ⟨by omega, by omega⟩
    · intro inner hinner
      have := hback inner hinner b hb
      omega
    · intro hj k hk
      have := htrail hj k hk
      exact .inl (by omega)

end

/-! ## Placed statements -/

/-- A block argument and what it is taken off, as they were read between the two states. -/
structure Parted (doc : Document) (s : State) (v k : Node) (s' : State) : Prop where
  rest : Laid doc .ahead s [v] s'
  block : Laid doc .ahead s [k] s'
  firm : ¬ k.IsBody
  le_stop : s'.pos ≤ k.stop

/-- A statement that was read, and that bodies can be put into and a block be taken off. -/
structure Placed (doc : Document) (s : State) (v : Node) (s' : State) : Prop
    extends Yields doc .ahead s [v] s' where
  start_le : v.start ≤ s.front doc
  le_stop : s'.pos ≤ v.stop
  settled : Along Form.spine (Settled doc s') v
  parted : ∀ v' k, v.takeBlock? = some (some (v', k)) → Parted doc s v' k s'

/-- A statement that is a construct of its own. -/
structure Stands (doc : Document) (e : Edge) (s : State) (v : Node) (s' : State) : Prop
    extends Yields doc e s [v] s' where
  lt : s.pos < s'.pos
  start_le : v.start ≤ s.front doc
  le_stop : s'.pos ≤ v.stop
  closed : v.form.isClosed = true
  solid : v.Solid

section

variable {doc : Document} {e : Edge} {s s₁ s₂ s' : State} {v k : Node}

theorem Stands.ahead (h : Stands doc .final s v s') : Stands doc .ahead s v s' :=
  { h with toYields := h.toYields.ahead }

theorem Stands.settled (h : Stands doc .ahead s v s') (hv : Valid doc s) : Settled doc s' v := by
  refine h.toYields.settled hv h.start_le h.le_stop (Form.heredocs_of_isClosed h.closed) ?_ ?_
  · intro inner hinner
    have := h.closed
    rw [hinner] at this
    cases this
  · intro hj
    rw [Form.joins_of_isClosed h.closed] at hj
    cases hj

theorem Stands.placed (h : Stands doc .ahead s v s') (hv : Valid doc s) : Placed doc s v s' where
  toYields := h.toYields
  start_le := h.start_le
  le_stop := h.le_stop
  settled := .mk (h.settled hv) (by simp [Form.spine_of_isClosed h.closed])
  parted := by
    intro v' k ht
    rw [takeBlock?_of_isClosed h.closed] at ht
    cases ht

/-- A node over what was consumed. -/
theorem le_stop_make (f : Form Node) (start stop : Nat) :
    stop ≤ (Node.make f (.upTo start stop)).stop := by
  refine Nat.le_trans ?_ (make_spans f (.upTo start stop)).le_stop
  rw [stop_upTo_eq_max]
  exact Nat.le_max_right _ _

theorem start_le_make (f : Form Node) (start stop : Nat) :
    (Node.make f (.upTo start stop)).start ≤ start := (make_spans f (.upTo start stop)).start_le

/-- An ordered construct that was read from its first token to the position. -/
theorem Moves.standsKeyed {f : Form Node} (h : Moves doc s s') (hlt : s.pos < s'.pos)
    (hv : Valid doc s) (hl : Laid doc e s f.children s') (hf : f.isOrdered = true)
    (hc : f.isClosed = true)
    (hnames : ∀ name ∈ f.names, Cut doc.text name.span)
    (hkeys : ∀ k ∈ f.keys, s.pos ≤ k.span.start)
    (hkeyed : f.Keyed (Node.make f (.upTo (s.front doc) s'.pos)).span) :
    Stands doc e s (.make f (.upTo (s.front doc) s'.pos)) s' where
  toYields := h.madeKeyed hlt hv hl hf hnames hkeys hkeyed
  lt := hlt
  start_le := start_le_make _ _ _
  le_stop := le_stop_make _ _ _
  closed := hc
  solid := solid_of_isClosed hc hf

/-- A plain construct that was read from its first token to the position. -/
theorem Moves.stands {f : Form Node} (h : Moves doc s s') (hlt : s.pos < s'.pos)
    (hv : Valid doc s) (hl : Laid doc e s f.children s') (hf : f.isPlain = true)
    (hc : f.isClosed = true)
    (hnames : ∀ name ∈ f.names, Cut doc.text name.span) :
    Stands doc e s (.make f (.upTo (s.front doc) s'.pos)) s' :=
  h.standsKeyed hlt hv hl (Form.isOrdered_of_isPlain hf) hc hnames (Row.le_key hl hf)
    (Form.keyed_of_isPlain hf _)

/-- A token that does not fit, in the place of a statement. -/
theorem Bumped.stands (h : Bumped doc s s') (hv : Valid doc s)
    (hk : (s.ahead doc).kind ≠ .newline) : Stands doc e s (.error (s.ahead doc).span) s' where
  toYields := h.error hv
  lt := h.pos_lt hv
  start_le := Nat.le_refl _
  le_stop := Nat.le_of_eq (h.advanced hk).pos
  closed := rfl
  solid := solid_of_isClosed rfl rfl

/-- What is left when a block argument is taken off lies where the whole did. -/
theorem Laid.shrunk {v' : Node} {f : Form Node} (h : Laid doc e s [v] s')
    (ht : v.takeBlock? = some (some (v', k))) (hv' : Shrunk f v.start v')
    (hstart : v.start ≤ s'.pos)
    (hdone : ∀ c ∈ f.children, c.stop ≤ s'.pos ∨
      c.EndsLate ∧ (c.stop = e.offset doc s' ∨ c.stop = size doc.text)) :
    Laid doc e s [v'] s' := by
  refine Row.rest h ht ?_
  rcases hv'.reaches.eq with heq | ⟨c, hc, heq⟩
  · exact .inl (Nat.le_trans (Nat.le_of_eq heq) hstart)
  · rw [← heq]
    refine (hdone c hc).imp_right fun hlate => ⟨?_, hlate.2⟩
    exact .part (hv'.form_eq ▸ hc) heq hlate.1

end

end Parse

end ShellAnalysis
