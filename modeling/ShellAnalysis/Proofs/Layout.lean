import ShellAnalysis.Proofs.Steps

/-!
# Nodes along the text

`Row text lo held hi edge nodes` says of nodes that were read one after the
other: they are sound, they follow each other, they start at `lo` or later and
end at `hi` or earlier.  The two exceptions of `Shape` return here with the
places they can reach: a node that starts early starts at one of the bodies
that were `held`, and a node that ends late ends at `edge` or at the end of the
text.  The literal keys of a dict or of an entry start at `lo` or later whatever
the node does.

`Laid` is a row between two states and `Yields` a move with such a row.  Rows
are put one behind the other (`Yields.then`) and become the parts of a node
(`Moves.made`).
-/

namespace ShellAnalysis.Node

open Text

/-! ## Rows -/

/-- Nodes read one after the other from `lo` to `hi`. -/
structure Row (text : String) (lo : Nat) (held : List Node) (hi edge : Nat) (nodes : List Node) :
    Prop where
  sound : ∀ x ∈ nodes, x.Sound text
  late : ∀ x ∈ nodes, lo ≤ x.start ∨
    (x.StartsEarly ∨ x.IsBody) ∧ ∃ b ∈ held, b.start = x.start
  done : ∀ x ∈ nodes, x.stop ≤ hi ∨ x.EndsLate ∧ (x.stop = edge ∨ x.stop = size text)
  keys : ∀ x ∈ nodes, ∀ k ∈ x.form.keys, lo ≤ k.span.start
  inOrder : nodes.Pairwise Before

section

variable {text : String} {lo lo' hi hi' edge edge' : Nat} {held held' : List Node}
  {xs ys : List Node}

theorem Row.nil : Row text lo held hi edge [] := ⟨nofun, nofun, nofun, nofun, .nil⟩

/-- The row ends later. -/
theorem Row.until (h : Row text lo held hi edge xs) (hhi : hi ≤ hi')
    (hedge : edge ≤ hi' ∨ edge = edge') : Row text lo held hi' edge' xs :=
  { h with
    done := fun x hx => by
      rcases h.done x hx with hle | ⟨hlate, heq | heq⟩
      · exact .inl (Nat.le_trans hle hhi)
      · rcases hedge with hle | hedge
        · exact .inl (heq ▸ hle)
        · exact .inr ⟨hlate, .inl (heq.trans hedge)⟩
      · exact .inr ⟨hlate, .inr heq⟩ }

/-- The row starts earlier. -/
theorem Row.since (h : Row text lo' held' hi edge xs) (hlo : lo ≤ lo')
    (hheld : ∀ b ∈ held', b ∈ held ∨ lo ≤ b.start) : Row text lo held hi edge xs :=
  { h with
    late := fun x hx => by
      rcases h.late x hx with hle | ⟨hearly, b, hb, heq⟩
      · exact .inl (Nat.le_trans hlo hle)
      · rcases hheld b hb with hb | hle
        · exact .inr ⟨hearly, b, hb, heq⟩
        · exact .inl (heq ▸ hle)
    keys := fun x hx k hk => Nat.le_trans hlo (h.keys x hx k hk) }

/-- What ended where the next row starts stands before it. -/
theorem Row.before (h : Row text lo held hi edge xs) (h' : Row text lo' held' hi' edge' ys)
    (hle : hi ≤ lo') (hfirm : ∀ y ∈ ys, ¬ y.IsBody) : ∀ x ∈ xs, ∀ y ∈ ys, Before x y := by
  intro x hx y hy
  rcases h.done x hx with hdone | ⟨hlate, -⟩
  · rcases h'.late y hy with hlate | ⟨hearly | hbody, -⟩
    · exact .inl (Nat.le_trans hdone (Nat.le_trans hle hlate))
    · exact .inr (.inr hearly)
    · exact absurd hbody (hfirm y hy)
  · exact .inr (.inl hlate)

theorem Row.append (h : Row text lo held hi edge xs) (h' : Row text lo held hi edge ys)
    (hbefore : ∀ x ∈ xs, ∀ y ∈ ys, Before x y) : Row text lo held hi edge (xs ++ ys) where
  sound := fun x hx => (List.mem_append.1 hx).elim (h.sound x) (h'.sound x)
  late := fun x hx => (List.mem_append.1 hx).elim (h.late x) (h'.late x)
  done := fun x hx => (List.mem_append.1 hx).elim (h.done x) (h'.done x)
  keys := fun x hx => (List.mem_append.1 hx).elim (h.keys x) (h'.keys x)
  inOrder := List.pairwise_append.2 ⟨h.inOrder, h'.inOrder, hbefore⟩

theorem Row.sublist (h : Row text lo held hi edge ys) (hsub : xs.Sublist ys) :
    Row text lo held hi edge xs where
  sound := fun x hx => h.sound x (hsub.subset hx)
  late := fun x hx => h.late x (hsub.subset hx)
  done := fun x hx => h.done x (hsub.subset hx)
  keys := fun x hx => h.keys x (hsub.subset hx)
  inOrder := List.Pairwise.sublist hsub h.inOrder

/-- A row of one node. -/
theorem Row.one {v : Node} (hv : v.Sound text)
    (hlate : lo ≤ v.start ∨ (v.StartsEarly ∨ v.IsBody) ∧ ∃ b ∈ held, b.start = v.start)
    (hdone : v.stop ≤ hi ∨ v.EndsLate ∧ (v.stop = edge ∨ v.stop = size text))
    (hkeys : v.form.keys = []) : Row text lo held hi edge [v] where
  sound := by simpa using hv
  late := by simpa using hlate
  done := by simpa using hdone
  keys := by simp [hkeys]
  inOrder := List.pairwise_singleton _ _

/-- A sound node between the two offsets. -/
theorem Row.single {v : Node} (hv : v.Sound text) (hlo : lo ≤ v.start) (hhi : v.stop ≤ hi)
    (hkeys : v.form.keys = []) : Row text lo held hi edge [v] :=
  .one hv (.inl hlo) (.inl hhi) hkeys

/-! ## Nodes over rows -/

variable {f : Form Node} {span : Span}

/-- A node that is made over sound parts in order is sound. -/
theorem sound_make (hparts : ∀ c ∈ f.children, c.Sound text) (hcut : Cut text span)
    (hnames : ∀ name ∈ f.names, Cut text name.span) (hkeyed : f.Keyed (make f span).span)
    (hheredocs : f.heredocs = []) (hlined : f.Lined)
    (hbeside : ∀ k, (make f span).trailing? = some k → ∀ c ∈ f.beside, Before c k)
    (hsolid : ∀ inner redirects, f = .redirected inner redirects → inner.Solid) :
    (make f span).Sound text := by
  have hspans := make_spans f span
  refine .mk ?_ hparts
  exact {
    cut := hspans.cut hcut fun c hc => (hparts c hc).here.cut
    names := hnames
    keyed := hkeyed
    stop_le := hspans.part_le_stop
    le_start := fun c hc => hspans.start_le_part c (Form.mem_children.2 (.inl hc))
    lined := hlined
    bodies := by simp [hheredocs]
    apart := by simp [hheredocs]
    beside := hbeside
    solid := hsolid }

/-- Where a node starts that is made over a row. -/
theorem Row.start_make (h : Row text lo held hi edge xs) (hsub : ∀ c ∈ f.children, c ∈ xs)
    (hlo : lo ≤ span.start ∨ ∃ c ∈ f.children, c.start = span.start) :
    lo ≤ (make f span).start ∨ ∃ c ∈ f.children, c.start = (make f span).start ∧
      (c.StartsEarly ∨ c.IsBody) ∧ ∃ b ∈ held, b.start = (make f span).start := by
  have hpart : ∀ c ∈ f.children, c.start = (make f span).start →
      lo ≤ (make f span).start ∨ ∃ c ∈ f.children, c.start = (make f span).start ∧
        (c.StartsEarly ∨ c.IsBody) ∧ ∃ b ∈ held, b.start = (make f span).start := by
    intro c hc heq
    rcases h.late c (hsub c hc) with hle | ⟨hearly, b, hb, hbc⟩
    · exact .inl (heq ▸ hle)
    · exact .inr ⟨c, hc, heq, hearly, b, hb, hbc.trans heq⟩
  rcases (make_spans f span).start_eq with heq | ⟨c, hc, heq⟩
  · rcases hlo with hle | ⟨c, hc, hstart⟩
    · exact .inl (Nat.le_trans hle (Nat.le_of_eq heq.symm))
    · exact hpart c hc (hstart.trans heq.symm)
  · exact hpart c hc heq

/-- Where a node ends that is made over a row. -/
theorem Row.stop_make (h : Row text lo held hi edge xs) (hsub : ∀ c ∈ f.children, c ∈ xs)
    (hhi : span.stop ≤ hi ∨ ∃ c ∈ f.children, c.stop = span.stop) :
    (make f span).stop ≤ hi ∨ (make f span).EndsLate ∧
      ((make f span).stop = edge ∨ (make f span).stop = size text) := by
  have hpart : ∀ c ∈ f.children, c.stop = (make f span).stop →
      (make f span).stop ≤ hi ∨ (make f span).EndsLate ∧
        ((make f span).stop = edge ∨ (make f span).stop = size text) := by
    intro c hc heq
    rcases h.done c (hsub c hc) with hle | ⟨hlate, hedge⟩
    · exact .inl (heq ▸ hle)
    · exact .inr ⟨.part hc heq hlate, heq ▸ hedge⟩
  rcases (make_spans f span).stop_eq with heq | ⟨c, hc, heq⟩
  · rcases hhi with hle | ⟨c, hc, hstop⟩
    · exact .inl (Nat.le_trans (Nat.le_of_eq heq) hle)
    · exact hpart c hc (hstop.trans heq.symm)
  · exact hpart c hc heq

end

end Node

/-- Constructs whose parts are read in the order of the fields, and which neither hold heredoc
bodies nor a block argument. -/
def Form.isOrdered {α : Type} : Form α → Bool
  | .command _ | .argList .. | .pipeline .. | .andOr .. | .redirected .. | .heredocBody .. => false
  | _ => true

/-- Such constructs, if it is not asked where their names stand. -/
def Form.isPlain {α : Type} : Form α → Bool
  | .dictEntry .. | .varDecl .. => false
  | form => form.isOrdered

namespace Form

variable {f : Form Node}

theorem isOrdered_of_isPlain (h : f.isPlain = true) : f.isOrdered = true := by
  cases f <;> first | exact h | cases h

theorem keyed_of_isPlain (h : f.isPlain = true) (span : Span) : f.Keyed span := by
  cases f <;> trivial

theorem heredocs_of_isOrdered (h : f.isOrdered = true) : f.heredocs = [] := by
  cases f <;> first | rfl | cases h

theorem leading_of_isOrdered (h : f.isOrdered = true) : f.leading = f.children := by
  cases f <;> first | rfl | cases h

theorem beside_of_isOrdered (h : f.isOrdered = true) : f.beside = [] := by
  cases f <;> first | rfl | cases h

theorem lined_of_isOrdered (h : f.isOrdered = true) (hp : f.children.Pairwise Node.Before) :
    f.Lined := by
  cases f <;> first | exact hp | cases h

theorem not_isBody_of_isOrdered {v : Node} (h : v.form.isOrdered = true) : ¬ v.IsBody := by
  unfold Node.IsBody
  split
  · rename_i heq
    rw [heq] at h
    cases h
  · exact id

theorem solid_of_isOrdered (h : f.isOrdered = true) :
    ∀ inner redirects, f = .redirected inner redirects → inner.Solid := by
  rintro inner redirects rfl
  cases h

end Form

namespace Node

open Text

variable {text : String} {lo hi edge : Nat} {held xs : List Node} {f : Form Node} {span : Span}

/-- A construct whose parts are among those of a row is a row of one node. -/
theorem Row.assemble (h : Row text lo held hi edge xs) (hsub : ∀ c ∈ f.children, c ∈ xs)
    (hcut : Cut text span) (hnames : ∀ name ∈ f.names, Cut text name.span)
    (hkeys : ∀ k ∈ f.keys, lo ≤ k.span.start) (hkeyed : f.Keyed (Node.make f span).span)
    (hheredocs : f.heredocs = []) (hlined : f.Lined)
    (hbeside : ∀ k, (Node.make f span).trailing? = some k → ∀ c ∈ f.beside, Before c k)
    (hsolid : ∀ inner redirects, f = .redirected inner redirects → inner.Solid)
    (hlo : lo ≤ span.start ∨ ∃ c ∈ f.children, c.start = span.start)
    (hhi : span.stop ≤ hi ∨ ∃ c ∈ f.children, c.stop = span.stop)
    (hearly : ∀ c ∈ f.children, c.start = (Node.make f span).start → c.StartsEarly ∨ c.IsBody →
      (∃ b ∈ held, b.start = (Node.make f span).start) → (Node.make f span).StartsEarly) :
    Row text lo held hi edge [Node.make f span] where
  sound := by
    rw [List.forall_mem_singleton]
    exact sound_make (fun c hc => h.sound c (hsub c hc)) hcut hnames hkeyed hheredocs hlined
      hbeside hsolid
  late := by
    rw [List.forall_mem_singleton]
    rcases h.start_make hsub hlo with hle | ⟨c, hc, heq, hpart, hheld⟩
    · exact .inl hle
    · exact .inr ⟨.inl (hearly c hc heq hpart hheld), hheld⟩
  done := by
    rw [List.forall_mem_singleton]
    exact h.stop_make hsub hhi
  keys := by
    rw [List.forall_mem_singleton]
    exact hkeys
  inOrder := List.pairwise_singleton _ _

/-- A node starts early together with a part in front. -/
theorem startsEarly_of_leading {v c : Node} (hlead : c ∈ v.form.leading) (heq : c.start = v.start)
    (h : c.StartsEarly ∨ c.IsBody) : v.StartsEarly := by
  rcases h with hearly | hbody
  · exact .part hlead heq hearly
  · exact .body hlead heq hbody

/-- An ordered construct over a row is a row of one node. -/
theorem Row.makeKeyed (h : Row text lo held hi edge f.children) (hf : f.isOrdered = true)
    (hcut : Cut text span) (hnames : ∀ name ∈ f.names, Cut text name.span)
    (hkeys : ∀ k ∈ f.keys, lo ≤ k.span.start) (hkeyed : f.Keyed (Node.make f span).span)
    (hlo : lo ≤ span.start ∨ ∃ c ∈ f.children, c.start = span.start)
    (hhi : span.stop ≤ hi ∨ ∃ c ∈ f.children, c.stop = span.stop) :
    Row text lo held hi edge [Node.make f span] := by
  refine h.assemble (fun _ hc => hc) hcut hnames hkeys hkeyed (Form.heredocs_of_isOrdered hf)
    (Form.lined_of_isOrdered hf h.inOrder) ?_ (Form.solid_of_isOrdered hf) hlo hhi ?_
  · rw [Form.beside_of_isOrdered hf]
    simp
  · intro c hc heq hpart _
    refine startsEarly_of_leading ?_ heq hpart
    rw [make_form, Form.leading_of_isOrdered hf]
    exact hc

theorem mem_keys_of_entryKey? {v : Node} {k : Name} (h : v.entryKey? = some k) :
    k ∈ v.form.keys := by
  obtain ⟨span, form⟩ := v
  cases form with
  | dictEntry key value => exact Option.mem_toList.2 h
  | _ => cases h

/-- The keys of a dict are those of its entries. -/
theorem Row.le_key (h : Row text lo held hi edge f.children) (hf : f.isPlain = true) :
    ∀ k ∈ f.keys, lo ≤ k.span.start := by
  cases f with
  | dict entries =>
    intro k hk
    obtain ⟨entry, hentry, hk⟩ := List.mem_filterMap.1 hk
    exact h.keys entry hentry k (mem_keys_of_entryKey? hk)
  | dictEntry => cases hf
  | _ => exact nofun

/-- A plain construct over a row is a row of one node. -/
theorem Row.make (h : Row text lo held hi edge f.children) (hf : f.isPlain = true)
    (hcut : Cut text span) (hnames : ∀ name ∈ f.names, Cut text name.span)
    (hlo : lo ≤ span.start ∨ ∃ c ∈ f.children, c.start = span.start)
    (hhi : span.stop ≤ hi ∨ ∃ c ∈ f.children, c.stop = span.stop) :
    Row text lo held hi edge [Node.make f span] :=
  h.makeKeyed (Form.isOrdered_of_isPlain hf) hcut hnames (h.le_key hf)
    (Form.keyed_of_isPlain hf _) hlo hhi

end Node

namespace Parse

open Text Node

/-! ## Rows between states -/

/-- How far a node can lie beyond what is consumed: to the end of the text, or also to the token
ahead. -/
inductive Edge where
  | final
  | ahead

def Edge.offset (doc : Document) : Edge → State → Nat
  | final, _ => size doc.text
  | ahead, s => s.front doc

/-- The nodes were read between the two states. -/
def Laid (doc : Document) (edge : Edge) (s : State) (nodes : List Node) (s' : State) : Prop :=
  Row doc.text s.pos s.bodies s'.pos (edge.offset doc s') nodes

/-- The nodes were read in one move, and none is a heredoc body by itself. -/
structure Yields (doc : Document) (edge : Edge) (s : State) (nodes : List Node) (s' : State) : Prop
    extends Moves doc s s' where
  laid : Laid doc edge s nodes s'
  firm : ∀ x ∈ nodes, ¬ x.IsBody

section

variable {doc : Document} {e : Edge} {s s₁ s₂ s' : State} {xs ys : List Node}

theorem Laid.after (h : Laid doc e s₁ xs s₂) (hd : Drifts doc s s₁) : Laid doc e s xs s₂ :=
  Row.since h hd.pos_le hd.fresh

/-- A token edge is passed over or stays where it is. -/
theorem Edge.offset_passes (e : Edge) (h : Passes doc s s₁) :
    e.offset doc s ≤ s₁.pos ∨ e.offset doc s = e.offset doc s₁ := by
  cases e with
  | final => exact .inr rfl
  | ahead =>
    rcases h.leap with heq | hlt
    · exact .inr (front_congr heq h.skip).symm
    · exact .inl (Nat.le_of_lt hlt)

theorem Laid.until (h : Laid doc e s xs s₁) (hp : Passes doc s₁ s₂) : Laid doc e s xs s₂ :=
  Row.until h hp.pos_le (e.offset_passes hp)

theorem Laid.until_drift (h : Laid doc .final s xs s₁) (hd : Drifts doc s₁ s₂) :
    Laid doc .final s xs s₂ :=
  Row.until h hd.pos_le (.inr rfl)

theorem Laid.ahead (h : Laid doc .final s xs s') : Laid doc e s xs s' where
  sound := h.sound
  late := h.late
  keys := h.keys
  done := fun x hx => (h.done x hx).imp_right fun hlate => ⟨hlate.1, .inr (hlate.2.elim id id)⟩
  inOrder := h.inOrder

/-- At the end of the text the two edges are the same. -/
theorem Laid.final_of_eof (h : Laid doc .ahead s xs s') (hv : Valid doc s')
    (heof : (s'.ahead doc).kind = .eof) : Laid doc .final s xs s' :=
  Row.until h (Nat.le_refl _) (.inr (hv.ahead.start_eq_size heof))

/-- Behind the token ahead there is no token edge any more. -/
theorem Laid.final_of_lt (h : Laid doc .ahead s xs s₁) (hle : s₁.pos ≤ s₂.pos)
    (hlt : s₁.front doc < s₂.pos) : Laid doc .final s xs s₂ :=
  Row.until h hle (.inl (Nat.le_of_lt hlt))

theorem Laid.append (h : Laid doc e s xs s₁) (h' : Laid doc e s₁ ys s₂)
    (hd : Drifts doc s s₁) (hp : Passes doc s₁ s₂) (hfirm : ∀ y ∈ ys, ¬ y.IsBody) :
    Laid doc e s (xs ++ ys) s₂ :=
  Row.append (h.until hp) (h'.after hd) (Row.before h h' (Nat.le_refl _) hfirm)

theorem Laid.append_drift (h : Laid doc .final s xs s₁) (h' : Laid doc .final s₁ ys s₂)
    (hd : Drifts doc s s₁) (hd' : Drifts doc s₁ s₂) (hfirm : ∀ y ∈ ys, ¬ y.IsBody) :
    Laid doc .final s (xs ++ ys) s₂ :=
  Row.append (h.until_drift hd') (h'.after hd) (Row.before h h' (Nat.le_refl _) hfirm)

/-- A plain construct over a row, from an offset to what is consumed. -/
theorem Laid.make {f : Form Node} {start : Nat} (h : Laid doc e s f.children s')
    (hf : f.isPlain = true) (hnames : ∀ name ∈ f.names, Cut doc.text name.span)
    (hv : Valid doc s') (hstart : Boundary doc.text start) (hle : s.pos ≤ start)
    (hle' : start ≤ s'.pos) : Laid doc e s [Node.make f (.upTo start s'.pos)] s' :=
  Row.make h hf (cut_upTo hstart hv.boundary) hnames (.inl hle)
    (.inl (Nat.le_of_eq (Span.stop_upTo hle')))

/-! ## Moves with rows -/

theorem Moves.yields (h : Moves doc s s') : Yields doc e s [] s' :=
  { h with laid := .nil, firm := by simp }

theorem Yields.then (h : Yields doc e s xs s₁) (h' : Yields doc e s₁ ys s₂) :
    Yields doc e s (xs ++ ys) s₂ where
  toMoves := h.toMoves.trans h'.toMoves
  laid := h.laid.append h'.laid h.toDrifts h'.toPasses h'.firm
  firm := fun x hx => (List.mem_append.1 hx).elim (h.firm x) (h'.firm x)

theorem Yields.push {parts : Array Node} {v : Node} (h : Yields doc e s parts.toList s₁)
    (h' : Yields doc e s₁ [v] s₂) : Yields doc e s (parts.push v).toList s₂ := by
  rw [Array.toList_push]
  exact h.then h'

/-- More is consumed without a node. -/
theorem Yields.step (h : Yields doc e s xs s₁) (h' : Moves doc s₁ s₂) :
    Yields doc e s xs s₂ where
  toMoves := h.toMoves.trans h'
  laid := h.laid.until h'.toPasses
  firm := h.firm

/-- Something was consumed before the nodes. -/
theorem Yields.after (h : Yields doc e s₁ xs s₂) (h' : Moves doc s s₁) :
    Yields doc e s xs s₂ where
  toMoves := h'.trans h.toMoves
  laid := h.laid.after h'.toDrifts
  firm := h.firm

theorem Yields.ahead (h : Yields doc .final s xs s') : Yields doc e s xs s' :=
  { h with laid := h.laid.ahead }

/-- The row becomes the parts of an ordered construct. -/
theorem Moves.madeKeyed {f : Form Node} (h : Moves doc s s') (hlt : s.pos < s'.pos)
    (hv : Valid doc s) (hl : Laid doc e s f.children s') (hf : f.isOrdered = true)
    (hnames : ∀ name ∈ f.names, Cut doc.text name.span)
    (hkeys : ∀ k ∈ f.keys, s.pos ≤ k.span.start)
    (hkeyed : f.Keyed (Node.make f (.upTo (s.front doc) s'.pos)).span) :
    Yields doc e s [Node.make f (.upTo (s.front doc) s'.pos)] s' where
  toMoves := h
  laid := Row.makeKeyed hl hf (cut_upTo hv.front_boundary h.valid.boundary) hnames hkeys hkeyed
    (.inl hv.pos_le_front) (.inl (Nat.le_of_eq (Span.stop_upTo (Nat.le_of_lt (h.front_lt hlt)))))
  firm := by
    rw [List.forall_mem_singleton]
    exact Form.not_isBody_of_isOrdered hf

/-- The row becomes the parts of a plain construct. -/
theorem Moves.made {f : Form Node} (h : Moves doc s s') (hlt : s.pos < s'.pos)
    (hv : Valid doc s) (hl : Laid doc e s f.children s') (hf : f.isPlain = true)
    (hnames : ∀ name ∈ f.names, Cut doc.text name.span) :
    Yields doc e s [Node.make f (.upTo (s.front doc) s'.pos)] s' :=
  h.madeKeyed hlt hv hl (Form.isOrdered_of_isPlain hf) hnames (Row.le_key hl hf)
    (Form.keyed_of_isPlain hf _)

/-- A construct that begins with a token. -/
theorem Bumped.made {f : Form Node} (h : Bumped doc s s₁) (hv : Valid doc s)
    (hy : Yields doc e s₁ f.children s') (hf : f.isPlain = true)
    (hnames : ∀ name ∈ f.names, Cut doc.text name.span) :
    Yields doc e s [Node.make f (.upTo (s.front doc) s'.pos)] s' ∧ s.pos < s'.pos := by
  have hlt := Nat.lt_of_lt_of_le (h.pos_lt hv) hy.pos_le
  exact ⟨(h.toMoves.trans hy.toMoves).made hlt hv (hy.laid.after h.toDrifts) hf hnames, hlt⟩

/-- A node without parts over the token that was consumed. -/
theorem Bumped.leaf {f : Form Node} (h : Bumped doc s s') (hv : Valid doc s)
    (hchildren : f.children = []) (hf : f.isPlain = true)
    (hnames : ∀ name ∈ f.names, Cut doc.text name.span) :
    Yields doc e s [Node.make f (s.ahead doc).span] s' where
  toMoves := h.toMoves
  laid := by
    refine Row.make ?_ hf hv.ahead.cut hnames (.inl hv.pos_le_front) (.inl h.stop_le)
    rw [hchildren]
    exact .nil
  firm := by
    rw [List.forall_mem_singleton]
    exact Form.not_isBody_of_isOrdered (Form.isOrdered_of_isPlain hf)

/-- A token that does not fit. -/
theorem Bumped.error (h : Bumped doc s s') (hv : Valid doc s) :
    Yields doc e s [.error (s.ahead doc).span] s' :=
  h.leaf (f := .error) hv rfl rfl (by simp [Form.names])

/-- Something that is missing, at the end of what is consumed. -/
theorem Still.missing (h : Still doc s s') (hv : Valid doc s) :
    Yields doc e s [.error (.empty s.pos)] s' where
  toMoves := h.moves
  laid := by
    have hsound : (Node.error (.empty s.pos)).Sound doc.text :=
      sound_leaf (cut_empty hv.boundary) rfl (by simp [Node.error, Node.form, Form.names]) trivial
    exact .single hsound (Nat.le_refl _) (Nat.le_of_eq h.pos.symm) rfl
  firm := by
    rw [List.forall_mem_singleton]
    exact id

end

/-! ## Parts of a construct -/

/-- The nodes that were read on the way from `s`. -/
structure Parts (doc : Document) (s : State) (nodes : List Node) (s' : State) : Prop
    extends Drifts doc s s' where
  laid : Laid doc .final s nodes s'
  firm : ∀ x ∈ nodes, ¬ x.IsBody

section

variable {doc : Document} {s s₁ s₂ : State} {xs ys : List Node}

theorem Parts.nil (h : Valid doc s) : Parts doc s [] s := ⟨(Moves.refl h).toDrifts, .nil, by simp⟩

theorem Parts.append (h : Parts doc s xs s₁) (h' : Parts doc s₁ ys s₂) :
    Parts doc s (xs ++ ys) s₂ where
  toDrifts := h.toDrifts.trans h'.toDrifts
  laid := h.laid.append_drift h'.laid h.toDrifts h'.toDrifts h'.firm
  firm := fun x hx => (List.mem_append.1 hx).elim (h.firm x) (h'.firm x)

theorem Parts.drift (h : Parts doc s xs s₁) (hd : Drifts doc s₁ s₂) : Parts doc s xs s₂ :=
  ⟨h.toDrifts.trans hd, h.laid.until_drift hd, h.firm⟩

theorem Yields.parts (h : Yields doc .final s xs s₁) : Parts doc s xs s₁ :=
  ⟨h.toDrifts, h.laid, h.firm⟩

theorem Parts.push {parts : Array Node} {v : Node} (h : Parts doc s parts.toList s₁)
    (h' : Parts doc s₁ [v] s₂) : Parts doc s (parts.push v).toList s₂ := by
  rw [Array.toList_push]
  exact h.append h'

/-- What was consumed pays for another round. -/
theorem Parts.again (h : Parts doc s xs s₁) (h' : Yields doc .final s₁ ys s₂)
    (hlt : s₁.pos < s₂.pos) : Parts doc s (xs ++ ys) s₂.charge :=
  h.append ⟨(h'.toMoves.charge h.valid hlt).toDrifts, h'.laid, h'.firm⟩

theorem Parts.again_push {parts : Array Node} {v : Node} (h : Parts doc s parts.toList s₁)
    (h' : Yields doc .final s₁ [v] s₂) (hlt : s₁.pos < s₂.pos) :
    Parts doc s (parts.push v).toList s₂.charge := by
  rw [Array.toList_push]
  exact h.again h' hlt

theorem Valid.of_charge (h : Valid doc s.charge) : Valid doc s :=
  { h with debt := by have := h.debt; rw [debt_charge] at this; omega }

/-- A round that was not made. -/
theorem Parts.uncharge (h : Parts doc s xs s₁.charge) : Parts doc s xs s₁ :=
  h.drift h.valid.of_charge.uncharge

end

/-! ## Statement lists as blocks -/

section

variable {text : String} {lo hi edge off : Nat} {held xs ys : List Node}

/-- A list of statements has the span of its first and its last one. -/
theorem coverAll_cases (xs : List Node) (off : Nat) :
    xs = [] ∧ coverAll xs off = .empty off ∨
      ∃ first ∈ xs, ∃ last ∈ xs, coverAll xs off = first.span.cover last.span := by
  cases xs with
  | nil => exact .inl ⟨rfl, rfl⟩
  | cons x xs =>
    refine .inr ⟨x, List.mem_cons_self, (x :: xs).getLast (by simp), List.getLast_mem _, ?_⟩
    unfold coverAll
    rw [List.getLast?_eq_some_getLast (by simp)]
    rfl

/-- A list of statements starts where one of them does, and ends where one does. -/
theorem coverAll_ends (xs : List Node) (off : Nat) :
    xs = [] ∧ coverAll xs off = .empty off ∨
      (∃ c ∈ xs, c.start = (coverAll xs off).start) ∧
        ∃ c ∈ xs, c.stop = (coverAll xs off).stop := by
  rcases coverAll_cases xs off with hnil | ⟨first, hfirst, last, hlast, heq⟩
  · exact .inl hnil
  · rw [heq, start_cover, stop_cover]
    refine .inr ⟨?_, ?_⟩
    · rcases Nat.le_total first.start last.start with hle | hle
      · exact ⟨first, hfirst, (Nat.min_eq_left hle).symm⟩
      · exact ⟨last, hlast, (Nat.min_eq_right hle).symm⟩
    · rcases Nat.le_total first.stop last.stop with hle | hle
      · exact ⟨last, hlast, (Nat.max_eq_right hle).symm⟩
      · exact ⟨first, hfirst, (Nat.max_eq_left hle).symm⟩

/-- A block ends where one of its statements does. -/
theorem stop_blockOf (xs : List Node) (off : Nat) :
    xs = [] ∧ (blockOf xs off).stop = off ∨ ∃ c ∈ xs, c.stop = (blockOf xs off).stop := by
  have hspans : (blockOf xs off).stop = (coverAll xs off).stop ∨
      ∃ c ∈ xs, c.stop = (blockOf xs off).stop :=
    (make_spans (.block xs) (coverAll xs off)).stop_eq
  rcases hspans with heq | hpart
  · rw [heq]
    rcases coverAll_ends xs off with ⟨hnil, hcover⟩ | ⟨-, hstop⟩
    · exact .inl ⟨hnil, by rw [hcover]; rfl⟩
    · exact .inr hstop
  · exact .inr hpart

/-- A row of statements becomes a block in front of the rest. -/
theorem blockOf_row (ys : List Node) (h : Row text lo held hi edge (xs ++ ys))
    (hoff : Boundary text off) (hlo : lo ≤ off) (hhi : off ≤ hi)
    (hnil : xs = [] → ∀ y ∈ ys, off ≤ y.start ∨ y.StartsEarly) :
    Row text lo held hi edge (blockOf xs off :: ys) := by
  have hxs := h.sublist (List.sublist_append_left xs ys)
  have hys := h.sublist (List.sublist_append_right xs ys)
  have hcut : Cut text (coverAll xs off) := by
    rcases coverAll_cases xs off with ⟨-, heq⟩ | ⟨first, hfirst, last, hlast, heq⟩
    · rw [heq]
      exact cut_empty hoff
    · rw [heq]
      exact (hxs.sound first hfirst).here.cut.cover (hxs.sound last hlast).here.cut
  have hblock : Row text lo held hi edge [blockOf xs off] := by
    rcases coverAll_ends xs off with ⟨-, heq⟩ | ⟨hstart, hstop⟩
    · exact Row.make (f := .block xs) hxs rfl hcut nofun (.inl (heq ▸ hlo)) (.inl (heq ▸ hhi))
    · exact Row.make (f := .block xs) hxs rfl hcut nofun (.inr hstart) (.inr hstop)
  refine Row.append hblock hys fun x hx y hy => ?_
  rw [List.mem_singleton.1 hx]
  rcases stop_blockOf xs off with ⟨hempty, heq⟩ | ⟨c, hc, heq⟩
  · exact (hnil hempty y hy).imp (Nat.le_trans (Nat.le_of_eq heq)) .inr
  · rcases (List.pairwise_append.1 h.inOrder).2.2 c hc y hy with hle | hlate | hearly
    · exact .inl (heq ▸ hle)
    · exact .inr (.inl (.part (v := blockOf xs off) hc heq hlate))
    · exact .inr (.inr hearly)

end

end Parse

end ShellAnalysis
