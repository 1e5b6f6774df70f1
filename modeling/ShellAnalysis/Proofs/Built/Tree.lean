import ShellAnalysis.Proofs.HeredocPlace
import ShellAnalysis.Proofs.Lossless

/-!
# What a tree is built of

`Built text h v` says of a tree that no way down from it passes more than `h`
nodes, and that every node of it is `Fine`: its construct has the parts it must
have (`Form.Shaped`), and the names and texts in it are the pieces of the text
under their spans.

Trees are changed after they were built.  Neither putting a heredoc body into a
tree nor taking a block argument off it breaks any of this (`Built.attach`,
`Built.takeBlock`).
-/

namespace ShellAnalysis

open Text

/-! ## Shape -/

namespace Form

/-- Constructs after which redirects may stand. -/
def isCompound {α : Type} : Form α → Bool
  | block _ | subshell _ | ifElse .. | whileLoop .. | forLoop .. | caseOf .. => true
  | _ => false

/-- A parameter, or input that does not fit. -/
def isParam {α : Type} : Form α → Bool
  | param .. | error => true
  | _ => false

/-- An entry of a dict, or input that does not fit. -/
def isEntry {α : Type} : Form α → Bool
  | dictEntry .. | error => true
  | _ => false

/-- A named argument. -/
def isNamedArg {α : Type} : Form α → Bool
  | namedArg .. => true
  | _ => false

/-- The parts of the construct are as many as they must be, and of the kinds they must be. -/
def Shaped : Form Node → Prop
  | andOr ops commands _ => ops ≠ [] ∧ commands.length = ops.length + 1
  | compare ops operands => ops ≠ [] ∧ operands.length = ops.length + 1
  | pipeline negated stages _ => stages ≠ [] ∧ (negated = true ∨ 2 ≤ stages.length)
  | word parts => parts ≠ []
  | command c => c.typedArgs.isSome = true ∨ c.block.isSome = true → c.words ≠ []
  | redirected inner redirects => redirects ≠ [] ∧ inner.form.isCompound = true
  | forLoop .expr _ iterable _ => iterable.length = 1
  | callable _ _ params _ => ∀ p ∈ params, p.form.isParam = true
  | dict entries => ∀ e ∈ entries, e.form.isEntry = true
  | argList _ named => ∀ a ∈ named, a.form.isNamedArg = true
  | _ => True

/-- Forms that hold a piece of the text without a span of its own. -/
def isText {α : Type} : Form α → Bool
  | text _ | var _ | simpleVarSub _ | splice _ | bracedVarSub .. => true
  | _ => false

/-- What stands in the text where a leaf of this form does. -/
def spelling? {α : Type} : Form α → Option String
  | text t | var t => some t
  | simpleVarSub name => some ("$" ++ name)
  | splice name => some ("@" ++ name)
  | _ => none

/-- What the construct declares or assigns to, where this is never missing.  A callable, a parameter
and a shell function are built without a name too. -/
def given {α : Type} : Form α → List String
  | varDecl _ names _ => names.map (·.name.text)
  | forLoop _ vars _ _ => vars.map (·.text)
  | shellAssignment name _ _ => [name.text]
  | var name => [name]
  | _ => []

variable {f : Form Node} {items heredocs : List Node}

/-- Other items in the same number make the same shape. -/
theorem Shaped.rejoin (h : f.Shaped) (hj : f.joins = true)
    (hlength : items.length = f.items.length) : (f.rejoin items heredocs).Shaped := by
  cases f with
  | pipeline negated stages _ =>
    have hlength : items.length = stages.length := hlength
    refine ⟨fun hnil => h.1 ?_, h.2.imp_right fun htwo => hlength ▸ htwo⟩
    rw [hnil] at hlength
    exact List.length_eq_zero_iff.1 hlength.symm
  | andOr => exact ⟨h.1, hlength.trans h.2⟩
  | _ => cases hj

/-- A pipeline or a command list has an item. -/
theorem Shaped.items_ne_nil (h : f.Shaped) (hj : f.joins = true) : f.items ≠ [] := by
  cases f with
  | pipeline => exact h.1
  | andOr _ commands =>
    obtain ⟨-, hlength⟩ := h
    rintro rfl
    cases hlength
  | _ => cases hj

theorem spelling?_eq_none (h : f.isText = false) : f.spelling? = none := by
  cases f <;> first | rfl | cases h

theorem given_eq_nil (hnames : f.names = []) (htext : f.isText = false) : f.given = [] := by
  cases f with
  | varDecl keyword names value =>
    cases names with
    | nil => rfl
    | cons => cases hnames
  | forLoop style vars =>
    obtain rfl : vars = [] := hnames
    rfl
  | shellAssignment => cases hnames
  | var => cases htext
  | _ => rfl

theorem isText_rejoin (hj : f.joins = true) : (f.rejoin items heredocs).isText = false := by
  cases f <;> first | rfl | cases hj

end Form

/-! ## Names and `${...}` -/

/-- The name is what stands under its span. -/
def Name.Traced (text : String) (name : Name) : Prop :=
  slice text name.span.start name.span.stop = name.text

/-- Reading on from `i`, with `depth` braces open inside of `${`, comes to `stop` with `left` of
them: it passes neither the brace that closes `${` nor a line feed, and a backslash hides the byte
after it. -/
inductive InBraces (text : String) : (depth i left stop : Nat) → Prop
  | here (depth i : Nat) : InBraces text depth i depth i
  | opening {depth i left stop : Nat} : byte? text i = some 0x7b →
      InBraces text (depth + 1) (i + 1) left stop → InBraces text depth i left stop
  | closing {depth i left stop : Nat} : byte? text i = some 0x7d →
      InBraces text depth (i + 1) left stop → InBraces text (depth + 1) i left stop
  | escape {depth i left stop : Nat} : byte? text i = some 0x5c →
      InBraces text depth (min (i + 2) (size text)) left stop → InBraces text depth i left stop
  | plain {depth i left stop : Nat} {b : UInt8} : byte? text i = some b →
      b ≠ 0x7b → b ≠ 0x7d → b ≠ 0x0a → b ≠ 0x5c →
      InBraces text depth (i + 1) left stop → InBraces text depth i left stop

/-- The suffix of `${...}` is what stands between the name and the brace that closes it, or the end
of the node if none does. -/
inductive Suffixed (text : String) (span : Span) (name : Name) (suffix : String) : Prop
  | closed {stop : Nat} : slice? text name.span.stop stop = some suffix →
      InBraces text 0 name.span.stop 0 stop → byte? text stop = some 0x7d →
      span.stop = stop + 1 → Suffixed text span name suffix
  | unclosed {left : Nat} : slice? text name.span.stop span.stop = some suffix →
      InBraces text 0 name.span.stop left span.stop →
      byte? text span.stop = none ∨ byte? text span.stop = some 0x0a →
      Suffixed text span name suffix

namespace Node

variable {text : String} {h k : Nat} {v w b c : Node} {form : Form Node} {span : Span}

/-! ## Height -/

/-- The number of nodes on the longest way down from the node, itself included. -/
def height (node : Node) : Nat :=
  (node.children.attach.map fun ⟨child, _⟩ => child.height).max?.getD 0 + 1
termination_by node
decreasing_by exact sizeOf_lt_of_mem_children ‹_›

theorem height_eq (v : Node) : v.height = (v.children.map height).max?.getD 0 + 1 := by
  rw [height]
  congr 3
  exact List.attach_map_val (f := height)

theorem height_lt_of_mem (hc : c ∈ v.form.children) : c.height < v.height := by
  rw [height_eq v]
  exact Nat.lt_succ_of_le
    (List.le_max?_getD_of_mem (List.mem_map_of_mem (List.mem_mergeSort.2 hc)))

theorem height_le (hparts : ∀ c ∈ v.form.children, c.height ≤ h) : v.height ≤ h + 1 := by
  rw [height_eq]
  refine Nat.succ_le_succ ?_
  cases hmax : (v.children.map height).max? with
  | none => exact Nat.zero_le h
  | some k =>
    obtain ⟨c, hc, rfl⟩ := List.mem_map.1 (List.max?_mem hmax)
    exact hparts c (List.mem_mergeSort.1 hc)

/-! ## Built trees -/

/-- What holds at one node of a tree that was built from a text. -/
structure Fine (text : String) (v : Node) : Prop where
  shaped : v.form.Shaped
  names : ∀ name ∈ v.form.names, name.Traced text
  given : ∀ name ∈ v.form.given, name ≠ ""
  spelled : ∀ t, v.form.spelling? = some t → slice text v.span.start v.span.stop = t
  suffixed : ∀ name suffix, v.form = .bracedVarSub name suffix →
    Suffixed text v.span name suffix

/-- No way down passes more than `h` nodes, and all of them are fine. -/
inductive Built (text : String) : (h : Nat) → (v : Node) → Prop
  | mk {h : Nat} {v : Node} : v.Fine text → (∀ c ∈ v.form.children, Built text h c) →
      Built text (h + 1) v

theorem Built.mono (hv : Built text h v) (hle : h ≤ k) : Built text k v := by
  induction hv generalizing k with
  | mk hfine _ ih =>
    obtain ⟨k, rfl⟩ : ∃ n, k = n + 1 := ⟨k - 1, by omega⟩
    exact .mk hfine fun c hc => ih c hc (Nat.le_of_succ_le_succ hle)

theorem Built.pos (hv : Built text h v) : 0 < h := by
  cases hv with
  | mk => exact Nat.succ_pos _

theorem Built.all (hv : Built text h v) : All (Fine text) v := by
  induction hv with
  | mk hfine _ ih => exact .mk hfine ih

theorem Built.height_le (hv : Built text h v) : v.height ≤ h := by
  induction hv with
  | mk _ _ ih => exact Node.height_le ih

theorem fine_named (hnames : ∀ name ∈ v.form.names, name.Traced text)
    (hgiven : ∀ name ∈ v.form.given, name ≠ "") (hshaped : v.form.Shaped)
    (htext : v.form.isText = false) : v.Fine text where
  shaped := hshaped
  names := hnames
  given := hgiven
  spelled t ht := by
    rw [Form.spelling?_eq_none htext] at ht
    cases ht
  suffixed name suffix hform := by
    rw [hform] at htext
    cases htext

/-- Neither names nor texts stand in the construct. -/
theorem fine_plain (hnames : v.form.names = []) (hshaped : v.form.Shaped)
    (htext : v.form.isText = false) : v.Fine text := by
  refine fine_named ?_ ?_ hshaped htext
  · rw [hnames]
    exact List.forall_mem_nil _
  · rw [Form.given_eq_nil hnames htext]
    exact List.forall_mem_nil _

theorem built_named (hparts : ∀ c ∈ form.children, Built text h c)
    (hnames : ∀ name ∈ form.names, name.Traced text) (hgiven : ∀ name ∈ form.given, name ≠ "")
    (hshaped : form.Shaped) (htext : form.isText = false) :
    Built text (h + 1) (make form span) :=
  .mk (fine_named hnames hgiven hshaped htext) hparts

/-- A node over built parts. -/
theorem built_make (hparts : ∀ c ∈ form.children, Built text h c) (hnames : form.names = [])
    (hshaped : form.Shaped) (htext : form.isText = false) :
    Built text (h + 1) (make form span) := .mk (fine_plain hnames hshaped htext) hparts

theorem built_leaf (hparts : form.children = []) (hnames : form.names = [])
    (hshaped : form.Shaped) (htext : form.isText = false) :
    Built text (h + 1) (make form span) := by
  refine built_make (fun c hc => ?_) hnames hshaped htext
  rw [hparts] at hc
  cases hc

/-- A leaf that stands for a piece of the text. -/
theorem built_spelled {t : String} (hspelled : form.spelling? = some t)
    (hgiven : ∀ name ∈ form.given, name ≠ "") (hslice : slice text span.start span.stop = t) :
    Built text 1 (make form span) := by
  cases form with
  | text | var | simpleVarSub | splice =>
    refine .mk ⟨trivial, List.forall_mem_nil _, hgiven, ?_, nofun⟩ (List.forall_mem_nil _)
    intro t' ht'
    exact hslice.trans (Option.some.inj (hspelled.symm.trans ht'))
  | _ => cases hspelled

theorem built_error (span : Span) : Built text 1 (error span) :=
  (built_leaf rfl rfl trivial rfl : Built text 1 (make .error span))

theorem built_body (hb : b.IsBody) : Built text 1 b := by
  obtain ⟨span, form⟩ := b
  cases form with
  | heredocBody => exact .mk (fine_plain rfl trivial rfl) (List.forall_mem_nil _)
  | _ => exact hb.elim

/-! ## Changes -/

theorem attachHeredoc?_of_isCompound (hv : v.form.isCompound = true) :
    v.attachHeredoc? b = none := by
  obtain ⟨span, form⟩ := v
  cases form <;> first | rfl | cases hv

/-- A pipeline or a command list over other items in the same number. -/
theorem Fine.rejoin {items heredocs : List Node} (hv : v.Fine text) (hj : v.form.joins = true)
    (hlength : items.length = v.form.items.length) :
    Fine text ⟨span, v.form.rejoin items heredocs⟩ :=
  fine_plain (Form.names_rejoin hj) (hv.shaped.rejoin hj hlength) (Form.isText_rejoin hj)

/-- A statement takes a heredoc body in. -/
theorem Built.attach (hv : Built text h v) (hb : b.IsBody) (hw : v.attachHeredoc? b = some w) :
    Built text h w := by
  induction hv generalizing w with
  | @mk h v hfine hparts ih =>
    rcases attachHeredoc?_cases hw with ⟨inner, inner', hform, hinner, rfl⟩ |
      ⟨inner, _, redirects, hform, hinner, -⟩ |
      ⟨hj, pre, x, x', post, hitems, -, hx, rfl⟩ | ⟨hj, -, rfl⟩
    · refine .mk (fine_plain rfl trivial rfl) fun c hc => ?_
      rw [List.mem_singleton.1 hc]
      exact ih inner (by simp [hform, Form.children]) hinner
    · have hshaped := hfine.shaped
      rw [hform] at hshaped
      rw [attachHeredoc?_of_isCompound hshaped.2] at hinner
      cases hinner
    · refine .mk (hfine.rejoin hj (by simp [hitems])) fun c hc => ?_
      have hmem : ∀ y ∈ pre ++ x :: post ++ v.form.heredocs, y ∈ v.form.children := by
        intro y hy
        rw [Form.children_eq, hitems]
        exact hy
      rw [Node.form, Form.children_rejoin hj, List.append_assoc] at hc
      rcases List.mem_append.1 hc with hc | hc
      · exact hparts c (hmem c (by simp [hc]))
      · rcases List.mem_cons.1 hc with rfl | hc
        · exact ih x (hmem x (by simp)) hx
        · exact hparts c (hmem c (by simpa using .inr (.inr (List.mem_append.1 hc))))
    · refine .mk (hfine.rejoin hj rfl) fun c hc => ?_
      rw [Node.form, Form.children_rejoin hj, ← List.append_assoc, ← Form.children_eq] at hc
      rcases List.mem_append.1 hc with hc | hc
      · exact hparts c hc
      · rw [List.mem_singleton.1 hc]
        obtain ⟨x, hx⟩ := List.exists_mem_of_ne_nil _ (hfine.shaped.items_ne_nil hj)
        exact (built_body hb).mono (hparts x (Form.mem_children.2 (.inl hx))).pos

/-- The block argument is taken off a statement. -/
theorem Built.takeBlock {v' : Node} (hv : Built text h v)
    (htake : v.takeBlock? = some (some (v', b))) : Built text h v' ∧ Built text h b := by
  induction hv generalizing v' with
  | @mk h v hfine hparts ih =>
    rcases takeBlock?_cases htake with ⟨c, hform, hblock, hs⟩ | ⟨hj, init, x, x', hitems, hx, hs⟩
    · obtain ⟨span, form⟩ := v'
      obtain rfl : form = _ := hs.form_eq
      have hshaped := hfine.shaped
      rw [hform] at hshaped hparts
      have hwords : c.typedArgs.isSome = true → c.words ≠ [] := fun hargs => hshaped (.inl hargs)
      refine ⟨.mk (fine_plain rfl (fun hargs => hwords (hargs.resolve_right ?_)) rfl) ?_, ?_⟩
      · exact Bool.false_ne_true
      · intro y hy
        refine hparts y ?_
        rw [Node.form] at hy
        simp only [Form.children, List.mem_append] at hy ⊢
        exact .inl (hy.resolve_right List.not_mem_nil)
      · exact (hparts b (by simp [Form.children, hblock])).mono (Nat.le_succ h)
    · obtain ⟨span, form⟩ := v'
      obtain rfl : form = _ := hs.form_eq
      have hmem : ∀ y ∈ init ++ [x] ++ v.form.heredocs, y ∈ v.form.children := by
        intro y hy
        rw [Form.children_eq, hitems]
        exact hy
      obtain ⟨hx', hb⟩ := ih x (hmem x (by simp)) hx
      refine ⟨.mk (hfine.rejoin hj (by simp [hitems])) fun y hy => ?_, hb.mono (Nat.le_succ h)⟩
      rw [Node.form, Form.children_rejoin hj, List.append_assoc] at hy
      rcases List.mem_append.1 hy with hy | hy
      · exact hparts y (hmem y (by simp [hy]))
      · rcases List.mem_cons.1 hy with rfl | hy
        · exact hx'
        · exact hparts y (hmem y (List.mem_append_right _ hy))

theorem Built.takeLastBlock {xs xs' : List Node} (hxs : ∀ x ∈ xs, Built text h x)
    (htake : takeLastBlock? xs = some (some (xs', b))) :
    (∀ x ∈ xs', Built text h x) ∧ Built text h b := by
  obtain ⟨init, c, c', rfl, rfl, hc⟩ := takeLastBlock?_cases htake
  rw [List.forall_mem_append, List.forall_mem_singleton] at hxs ⊢
  obtain ⟨hc', hb⟩ := hxs.2.takeBlock hc
  exact ⟨⟨hxs.1, hc'⟩, hb⟩

end Node

end ShellAnalysis
