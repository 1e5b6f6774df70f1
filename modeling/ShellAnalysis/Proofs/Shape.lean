import ShellAnalysis.Proofs.Boundary
import ShellAnalysis.Tree.Edit

/-!
# The shape of a syntax tree

`Sound text v` is what every tree that a parse builds satisfies at every node
(`Local`): spans are cut at character boundaries, no part ends after the whole,
no part starts before it except a heredoc body that was put into it, and parts
follow each other.

Parts follow each other up to two exceptions, which both come from the parser:

    StartsEarly v   the span of `v` was pulled back to a heredoc body that had
                    been waiting since before `v` was read
    EndsLate v      the span of `v` was pulled forward by a command that is empty
                    and was put at the start of the token after it

`Before x y` is the order of two parts up to these.

The names in a construct are no parts of it.  Where they stand is said only of
those that a dict literal needs: a bare key lies in its entry, and the names of
a declaration end before the keys of its value (`Form.Keyed`).
-/

namespace ShellAnalysis

open Text

/-! ## Parts of a form -/

namespace Form

variable {α : Type}

/-- The heredoc bodies that a command list or a pipeline holds between its lines. -/
def heredocs : Form α → List α
  | pipeline _ _ bodies | andOr _ _ bodies => bodies
  | _ => []

/-- The parts other than such bodies. -/
def items : Form α → List α
  | pipeline _ items _ | andOr _ items _ => items
  | form => form.children

/-- The parts that can hold a heredoc body, or that a block argument can be taken from. -/
def spine : Form α → List α
  | pipeline _ items _ | andOr _ items _ => items
  | background inner => [inner]
  | command c => c.block.toList
  | _ => []

/-- The names that a construct mentions besides its parts. -/
def names : Form α → List Name
  | shellAssignment name _ _ | shellFunction name _ | callable _ name _ _ | bracedVarSub name _
  | namedArg name _ | member _ _ name | dictEntry (.name name) _ => [name]
  | param name type _ _ _ => name :: type.toList
  | varDecl _ names _ => names.flatMap fun n => n.name :: n.type.toList
  | forLoop _ vars _ _ => vars
  | _ => []

theorem children_eq (f : Form α) : f.children = f.items ++ f.heredocs := by
  cases f <;> simp [children, items, heredocs]

theorem mem_children {f : Form α} {a : α} :
    a ∈ f.children ↔ a ∈ f.items ∨ a ∈ f.heredocs := by
  rw [children_eq, List.mem_append]

theorem mem_children_of_mem_spine {f : Form α} {a : α} (h : a ∈ f.spine) : a ∈ f.children := by
  cases f <;> simp_all [spine, children]

/-- The parts of a command besides a block argument at its end, and all parts of the rest. -/
def leading : Form α → List α
  | command c => c.assignments ++ c.words ++ c.redirects ++ c.typedArgs.toList
  | form => form.children

theorem mem_children_of_mem_leading {f : Form α} {a : α} (h : a ∈ f.leading) :
    a ∈ f.children := by
  cases f with
  | command c => exact List.mem_append_left _ h
  | _ => exact h

end Form

namespace Node

/-- Where the node starts. -/
abbrev start (v : Node) : Nat := v.span.start

/-- The offset right after the node. -/
abbrev stop (v : Node) : Nat := v.span.stop

theorem start_le_stop (v : Node) : v.start ≤ v.stop := Span.start_le_stop _

/-! ## Properties of all nodes below one -/

/-- The property holds of the node and, along some of their parts, of all nodes below it. -/
inductive Along (parts : Form Node → List Node) (P : Node → Prop) : Node → Prop
  | mk {v : Node} : P v → (∀ c ∈ parts v.form, Along parts P c) → Along parts P v

/-- The property holds of the node and of everything below it. -/
abbrev All (P : Node → Prop) : Node → Prop := Along Form.children P

section

variable {parts : Form Node → List Node} {P Q : Node → Prop} {v c : Node}

theorem Along.here (h : Along parts P v) : P v := by
  cases h with
  | mk hv _ => exact hv

theorem Along.part (h : Along parts P v) (hc : c ∈ parts v.form) : Along parts P c := by
  cases h with
  | mk _ hparts => exact hparts c hc

theorem Along.imp (h : Along parts P v) (hPQ : ∀ m, P m → Q m) : Along parts Q v := by
  induction h with
  | mk hv _ ih => exact .mk (hPQ _ hv) ih

theorem mem_walk {m : Node} :
    m ∈ v.walk ↔ m = v ∨ ∃ c ∈ v.form.children, m ∈ c.walk := by
  rw [walk_eq, List.mem_cons, List.mem_flatMap]
  simp only [children, List.mem_mergeSort]

theorem mem_walk_self (v : Node) : v ∈ v.walk := mem_walk.2 (.inl rfl)

/-- Going down by a child stays in the walk. -/
theorem mem_walk_of_child {r : Node} (h : v ∈ r.walk) (hc : c ∈ v.form.children) : c ∈ r.walk := by
  rcases mem_walk.1 h with rfl | ⟨d, hd, hv⟩
  · exact mem_walk.2 (.inr ⟨c, hc, mem_walk_self c⟩)
  · exact mem_walk.2 (.inr ⟨d, hd, mem_walk_of_child hv hc⟩)
termination_by r
decreasing_by exact sizeOf_lt_of_mem_parts hd

/-- A property of all nodes of the walk is one of the node and everything below it. -/
theorem All.of_walk (v : Node) (h : ∀ m ∈ v.walk, P m) : All P v := by
  refine .mk (h v (mem_walk_self v)) fun c hc => ?_
  exact All.of_walk c fun m hm => h m (mem_walk.2 (.inr ⟨c, hc, hm⟩))
termination_by v
decreasing_by exact sizeOf_lt_of_mem_parts hc

theorem All.walk (h : All P v) : ∀ m ∈ v.walk, P m := by
  induction h with
  | @mk v hv _ ih =>
    intro m hm
    rcases mem_walk.1 hm with rfl | ⟨c, hc, hm⟩
    · exact hv
    · exact ih c hc m hm

end

/-! ## The order of parts -/

/-- The node is a heredoc body. -/
def IsBody (v : Node) : Prop :=
  match v.form with
  | .heredocBody .. => True
  | _ => False

/-- The node starts at a heredoc body that it was handed although the body stands before it: the
body is its first part, or the first part of its first part and so on, or it belongs to the block
argument of a command, whose other parts all start later. -/
inductive StartsEarly : Node → Prop
  | body {v b : Node} : b ∈ v.form.leading → b.start = v.start → b.IsBody → StartsEarly v
  | part {v c : Node} : c ∈ v.form.leading → c.start = v.start → StartsEarly c → StartsEarly v
  | hollow {v : Node} {c : Command Node} : v.form = .command c → v.form.leading ≠ [] →
      (∀ x ∈ v.form.leading, v.start < x.start) → StartsEarly v

/-- The node ends in a command without any parts. -/
inductive EndsLate : Node → Prop
  | bare {v : Node} {c : Command Node} : v.form = .command c → v.form.children = [] →
      v.span.length = 0 → EndsLate v
  | part {v c : Node} : c ∈ v.form.children → c.stop = v.stop → EndsLate c → EndsLate v

/-- The first node ends where the second starts or before. -/
def Before (x y : Node) : Prop := x.stop ≤ y.start ∨ x.EndsLate ∨ y.StartsEarly

/-- Neither node has a byte of the other between its ends. -/
def Apart (x y : Node) : Prop := x.stop ≤ y.start ∨ y.stop ≤ x.start

/-- The nodes stand one before the other, in this order or, if they do not start at the same
place, in the other. -/
def Fits (x y : Node) : Prop :=
  Before x y ∨ (y.stop ≤ x.start ∧ y.start < x.start) ∨ y.EndsLate ∨ x.StartsEarly

theorem Before.fits {x y : Node} (h : Before x y) : Fits x y := .inl h

theorem isBody_iff {v : Node} : v.IsBody ↔
    ∃ delimiter text terminated, v.form = .heredocBody delimiter text terminated := by
  obtain ⟨span, form⟩ := v
  constructor
  · intro h
    cases form with
    | heredocBody delimiter text terminated => exact ⟨delimiter, text, terminated, rfl⟩
    | _ => exact h.elim
  · rintro ⟨delimiter, text, terminated, rfl⟩
    trivial

theorem children_of_isBody {v : Node} (h : v.IsBody) : v.form.children = [] := by
  obtain ⟨_, _, _, hform⟩ := isBody_iff.1 h
  rw [hform]
  rfl

theorem not_endsLate_of_isBody {v : Node} (h : v.IsBody) : ¬ v.EndsLate := by
  intro hlate
  cases hlate with
  | bare hform =>
    obtain ⟨_, _, _, hbody⟩ := isBody_iff.1 h
    cases hbody.symm.trans hform
  | part hc => simp [children_of_isBody h] at hc

theorem not_startsEarly_of_isBody {v : Node} (h : v.IsBody) : ¬ v.StartsEarly := by
  have hnil : v.form.leading = [] := by
    obtain ⟨_, _, _, hform⟩ := isBody_iff.1 h
    rw [hform]
    rfl
  intro hearly
  cases hearly with
  | body hb => simp [hnil] at hb
  | part hc => simp [hnil] at hc
  | hollow _ hne => exact hne hnil

/-- What stands before a body ends before it. -/
theorem Before.of_isBody {x b : Node} (h : Before x b) (hb : b.IsBody) :
    x.stop ≤ b.start ∨ x.EndsLate := by
  rcases h with hdone | hlate | hearly
  · exact .inl hdone
  · exact .inr hlate
  · exact absurd hearly (not_startsEarly_of_isBody hb)

/-- The block argument that can be taken off the node. -/
def trailing? (v : Node) : Option Node := v.takeBlock?.join.map Prod.snd

/-- No heredoc body can be put into the node. -/
def Solid (v : Node) : Prop := ∀ b, v.attachHeredoc? b = none

end Node

/-- The parts of a construct that do not hold its block argument. -/
def Form.beside : Form Node → List Node
  | .command c => (Form.command c).leading
  | .pipeline _ items heredocs | .andOr _ items heredocs => items.dropLast ++ heredocs
  | _ => []

/-- The parts are in source order, where the fields of the construct keep it. -/
def Form.Lined : Form Node → Prop
  | .command c => (Form.command c).children.Pairwise Node.Fits
  | .argList positional named => (positional ++ named).Pairwise Node.Fits
  | form => form.items.Pairwise Node.Before

/-- The literal key of an entry of a dict. -/
def Node.entryKey? (v : Node) : Option Name :=
  match v.form with
  | .dictEntry key _ => literalKey? key
  | _ => none

/-- The literal keys of a dict or of one entry. -/
def Form.keys : Form Node → List Name
  | .dict entries => entries.filterMap Node.entryKey?
  | .dictEntry key _ => (Node.literalKey? key).toList
  | _ => []

/-- A bare key lies in its entry.  The names of a declaration end before the keys of its value. -/
def Form.Keyed (span : Span) : Form Node → Prop
  | .dictEntry (.name name) _ => name.span.Within span
  | .varDecl _ names (some value) =>
    ∀ n ∈ names, ∀ k ∈ value.form.keys, n.name.span.stop < k.span.start
  | _ => True

theorem Form.mem_children_of_mem_beside {f : Form Node} {c : Node} (h : c ∈ f.beside) :
    c ∈ f.children := by
  cases f with
  | command c => exact mem_children_of_mem_leading h
  | pipeline _ items _ | andOr _ items _ =>
    rcases List.mem_append.1 h with h | h
    · exact List.mem_append_left _ (List.dropLast_subset items h)
    · exact List.mem_append_right _ h
  | _ => cases h

theorem Form.lined_of_children_eq_nil {f : Form Node} (h : f.children = []) : f.Lined := by
  have hitems : f.items = [] := by
    rw [children_eq] at h
    exact (List.append_eq_nil_iff.1 h).1
  have hnil : ∀ (R : Node → Node → Prop) (l : List Node), l = [] → l.Pairwise R := by
    rintro R _ rfl
    exact .nil
  cases f with
  | command c => exact hnil _ _ h
  | argList positional named => exact hnil _ _ h
  | _ => exact hnil _ _ hitems

namespace Node

/-- What holds at one node of a parsed tree. -/
structure Local (text : String) (v : Node) : Prop where
  cut : Cut text v.span
  names : ∀ name ∈ v.form.names, Cut text name.span
  keyed : v.form.Keyed v.span
  stop_le : ∀ c ∈ v.form.children, c.stop ≤ v.stop
  le_start : ∀ c ∈ v.form.items, v.start ≤ c.start
  lined : v.form.Lined
  bodies : ∀ h ∈ v.form.heredocs, h.IsBody ∧ h.start < h.stop ∧ ∀ c ∈ v.form.items, Apart c h
  apart : v.form.heredocs.Pairwise Apart
  /-- What stands beside a block argument at the end stands before it. -/
  beside : ∀ k, v.trailing? = some k → ∀ c ∈ v.form.beside, Before c k
  /-- Redirects are read only after constructs that hold no heredoc bodies. -/
  solid : ∀ inner redirects, v.form = .redirected inner redirects → inner.Solid

/-- What holds at every node of a parsed tree. -/
abbrev Sound (text : String) : Node → Prop := All (Local text)

/-! ## Spans over parts -/

/-- `r` is the smallest span over `s` and the nodes. -/
structure Spans (s : Span) (nodes : List Node) (r : Span) : Prop where
  start_le : r.start ≤ s.start
  le_stop : s.stop ≤ r.stop
  start_le_part : ∀ c ∈ nodes, r.start ≤ c.start
  part_le_stop : ∀ c ∈ nodes, c.stop ≤ r.stop
  start_eq : r.start = s.start ∨ ∃ c ∈ nodes, c.start = r.start
  stop_eq : r.stop = s.stop ∨ ∃ c ∈ nodes, c.stop = r.stop

theorem start_cover (s t : Span) : (s.cover t).start = min s.start t.start := rfl

theorem stop_cover (s t : Span) : (s.cover t).stop = max s.stop t.stop := by
  have hs := s.start_le_stop
  rw [Span.cover, stop_upTo_eq_max]
  omega

/-- Covering one more node first. -/
theorem Spans.cons {s r : Span} {c : Node} {nodes : List Node}
    (h : Spans (s.cover c.span) nodes r) : Spans s (c :: nodes) r := by
  have hstart := h.start_le
  have hstop := h.le_stop
  rw [start_cover] at hstart
  rw [stop_cover] at hstop
  constructor
  · exact Nat.le_trans hstart (Nat.min_le_left _ _)
  · exact Nat.le_trans (Nat.le_max_left _ _) hstop
  · intro x hx
    rcases List.mem_cons.1 hx with rfl | hx
    · exact Nat.le_trans hstart (Nat.min_le_right _ _)
    · exact h.start_le_part x hx
  · intro x hx
    rcases List.mem_cons.1 hx with rfl | hx
    · exact Nat.le_trans (Nat.le_max_right _ _) hstop
    · exact h.part_le_stop x hx
  · rcases h.start_eq with heq | ⟨x, hx, heq⟩
    · rw [start_cover] at heq
      rcases Nat.le_total s.start c.span.start with hle | hle
      · exact .inl (heq.trans (Nat.min_eq_left hle))
      · exact .inr ⟨c, List.mem_cons_self, (heq.trans (Nat.min_eq_right hle)).symm⟩
    · exact .inr ⟨x, List.mem_cons_of_mem _ hx, heq⟩
  · rcases h.stop_eq with heq | ⟨x, hx, heq⟩
    · rw [stop_cover] at heq
      rcases Nat.le_total c.span.stop s.stop with hle | hle
      · exact .inl (heq.trans (Nat.max_eq_left hle))
      · exact .inr ⟨c, List.mem_cons_self, (heq.trans (Nat.max_eq_right hle)).symm⟩
    · exact .inr ⟨x, List.mem_cons_of_mem _ hx, heq⟩

theorem spans_foldl (nodes : List Node) (s : Span) :
    Spans s nodes (nodes.foldl (fun s child => s.cover child.span) s) := by
  induction nodes generalizing s with
  | nil => exact ⟨Nat.le_refl _, Nat.le_refl _, by simp, by simp, .inl rfl, .inl rfl⟩
  | cons c nodes ih => exact (ih (s.cover c.span)).cons

theorem make_spans (form : Form Node) (s : Span) :
    Spans s form.children (make form s).span := spans_foldl _ _

@[simp]
theorem make_form (form : Form Node) (s : Span) : (make form s).form = form := rfl

/-- A node without parts is sound if it is cut at boundaries. -/
theorem sound_leaf {text : String} {v : Node} (hcut : Cut text v.span)
    (hparts : v.form.children = []) (hnames : ∀ name ∈ v.form.names, Cut text name.span)
    (hkeyed : v.form.Keyed v.span) : v.Sound text := by
  have hitems : v.form.items = [] := by
    rw [Form.children_eq] at hparts
    exact (List.append_eq_nil_iff.1 hparts).1
  have hheredocs : v.form.heredocs = [] := by
    rw [Form.children_eq] at hparts
    exact (List.append_eq_nil_iff.1 hparts).2
  refine .mk ?_ (by simp [hparts])
  exact {
    cut := hcut
    names := hnames
    keyed := hkeyed
    stop_le := by simp [hparts]
    le_start := by simp [hitems]
    lined := Form.lined_of_children_eq_nil hparts
    bodies := by simp [hheredocs]
    apart := by simp [hheredocs]
    beside := fun k _ c hc => by
      have := Form.mem_children_of_mem_beside hc
      simp [hparts] at this
    solid := fun inner redirects h => by
      rw [h] at hparts
      cases hparts }

theorem Spans.cut {text : String} {s r : Span} {nodes : List Node} (h : Spans s nodes r)
    (hs : Cut text s) (hnodes : ∀ c ∈ nodes, Cut text c.span) : Cut text r := by
  constructor
  · rcases h.start_eq with heq | ⟨c, hc, heq⟩
    · rw [heq]; exact hs.1
    · rw [← heq]; exact (hnodes c hc).1
  · rcases h.stop_eq with heq | ⟨c, hc, heq⟩
    · rw [heq]; exact hs.2
    · rw [← heq]; exact (hnodes c hc).2

/-- A span that holds all the nodes is not widened. -/
theorem Spans.eq {s r : Span} {nodes : List Node} (h : Spans s nodes r)
    (hin : ∀ c ∈ nodes, s.start ≤ c.start ∧ c.stop ≤ s.stop) : r = s := by
  have hstart : r.start = s.start := by
    rcases h.start_eq with heq | ⟨c, hc, heq⟩
    · exact heq
    · exact Nat.le_antisymm h.start_le (heq ▸ (hin c hc).1)
  have hstop : r.stop = s.stop := by
    rcases h.stop_eq with heq | ⟨c, hc, heq⟩
    · exact heq
    · exact Nat.le_antisymm (heq ▸ (hin c hc).2) h.le_stop
  cases r
  cases s
  simp only [Span.stop] at hstart hstop
  subst hstart
  rw [Nat.add_left_cancel hstop]

end Node

end ShellAnalysis
