import ShellAnalysis.Proofs.Built.Tree
import ShellAnalysis.Proofs.Steps

/-!
# Error nodes, and parts that fill their node

`Node.errors v` counts the error nodes of a tree.  Neither putting a heredoc
body into a tree nor taking a block argument off it changes the count
(`errors_attach`, `errors_takeBlock`): nodes are moved, none is lost or made.

`Snug text v` says how the parts of one node lie in it.  No part reaches out of
the node, and neither does a name in it; the parts of a word follow each other
from its start to its end; and those of a string do so between the token that
opens it and the quote that closes it (`Quoted`).
-/

namespace ShellAnalysis

open Text Lexer

namespace Form

variable {α : Type} {f : Form α} {items heredocs : List α}

/-- Constructs that their parts need not fill: those other than words and strings. -/
def isLoose : Form α → Bool
  | word _ | stringLit .. | error => false
  | _ => true

/-- Such constructs that mention no name. -/
def isOrdinary (f : Form α) : Bool := f.isLoose && f.names.isEmpty

theorem isLoose_of_isOrdinary (h : f.isOrdinary = true) : f.isLoose = true :=
  (Bool.and_eq_true_iff.1 h).1

theorem names_of_isOrdinary (h : f.isOrdinary = true) : f.names = [] :=
  List.isEmpty_iff.1 (Bool.and_eq_true_iff.1 h).2

theorem isOrdinary_rejoin (hj : f.joins = true) : (f.rejoin items heredocs).isOrdinary = true := by
  cases f <;> first | rfl | cases hj

end Form

namespace Node

variable {text : String} {lo lo' hi hi' : Nat} {v v' w b k : Node} {f : Form Node} {span : Span}
  {xs xs' ys : List Node}

/-! ## Counting error nodes -/

/-- How many nodes of the tree are error nodes. -/
def errors (v : Node) : Nat := v.walk.countP isError

/-- How many error nodes there are in all of the trees. -/
def errorsIn (xs : List Node) : Nat := (xs.flatMap walk).countP isError

@[simp]
theorem errorsIn_nil : errorsIn [] = 0 := rfl

@[simp]
theorem errorsIn_cons (v : Node) (xs : List Node) :
    errorsIn (v :: xs) = v.errors + errorsIn xs := List.countP_append

@[simp]
theorem errorsIn_append (xs ys : List Node) : errorsIn (xs ++ ys) = errorsIn xs + errorsIn ys := by
  unfold errorsIn
  rw [List.flatMap_append, List.countP_append]

theorem errorsIn_perm (h : xs.Perm ys) : errorsIn xs = errorsIn ys := by
  induction h with
  | nil => rfl
  | cons _ _ ih => rw [errorsIn_cons, errorsIn_cons, ih]
  | swap => simp only [errorsIn_cons]; omega
  | trans _ _ ih ih' => exact ih.trans ih'

/-- The node itself may count, and its parts do. -/
theorem errors_eq (v : Node) :
    v.errors = (if v.isError then 1 else 0) + errorsIn v.form.children := by
  have hchildren : errorsIn v.children = errorsIn v.form.children :=
    errorsIn_perm (List.mergeSort_perm _ _)
  rw [← hchildren, errors, walk_eq, List.countP_cons, Nat.add_comm]
  rfl

theorem errors_of_isError (h : v.isError = false) : v.errors = errorsIn v.form.children := by
  rw [errors_eq, h, if_neg Bool.false_ne_true, Nat.zero_add]

theorem isError_of_isLoose (h : v.form.isLoose = true) : v.isError = false := by
  obtain ⟨span, form⟩ := v
  cases form <;> first | rfl | cases h

theorem isError_of_isOrdinary (h : v.form.isOrdinary = true) : v.isError = false :=
  isError_of_isLoose (Form.isLoose_of_isOrdinary h)

theorem errors_of_form (hform : v.form = f) (hf : f.isLoose = true) :
    v.errors = errorsIn f.children := by
  subst hform
  exact errors_of_isError (isError_of_isLoose hf)

@[simp]
theorem errors_error (span : Span) : (error span).errors = 1 := errors_eq _

theorem errors_body (hb : b.IsBody) : b.errors = 0 := by
  obtain ⟨span, form⟩ := b
  cases form with
  | heredocBody => exact errors_eq _
  | _ => exact hb.elim

theorem errors_joined (hj : v.form.joins = true) :
    v.errors = errorsIn v.form.items + errorsIn v.form.heredocs := by
  obtain ⟨span, form⟩ := v
  rw [errors_of_form rfl (by cases form <;> first | rfl | cases hj), ← errorsIn_append,
    Form.children_eq]

/-- A pipeline or a command list over other items and heredoc bodies. -/
theorem errors_rejoin {items heredocs : List Node} (hj : f.joins = true)
    (hv : v.form = f.rejoin items heredocs) : v.errors = errorsIn items + errorsIn heredocs := by
  rw [errors_joined (by rw [hv, Form.joins_rejoin, hj]), hv, Form.items_rejoin hj,
    Form.heredocs_rejoin hj]

/-- A heredoc body that is put into a tree brings no error node and takes none away. -/
theorem errors_attach (hb : b.IsBody) (h : v.attachHeredoc? b = some w) : w.errors = v.errors := by
  have hall : All (fun _ => True) v := .of_walk v fun _ _ => trivial
  induction hall generalizing w with
  | @mk v _ _ ih =>
    rcases attachHeredoc?_cases h with ⟨inner, inner', hform, hinner, rfl⟩ |
      ⟨inner, inner', redirects, hform, hinner, rfl⟩ |
      ⟨hj, pre, x, x', post, hitems, -, hx, rfl⟩ | ⟨hj, -, rfl⟩
    · have hsame := ih inner (by simp [hform, Form.children]) hinner
      rw [errors_of_form rfl rfl, errors_of_form hform rfl]
      show errorsIn [inner'] = errorsIn [inner]
      rw [errorsIn_cons, errorsIn_cons, hsame]
    · have hsame := ih inner (by simp [hform, Form.children]) hinner
      rw [errors_of_form rfl rfl, errors_of_form hform rfl]
      show errorsIn (inner' :: redirects) = errorsIn (inner :: redirects)
      rw [errorsIn_cons, errorsIn_cons, hsame]
    · have hsame := ih x (Form.mem_children.2 (.inl (by simp [hitems]))) hx
      rw [errors_rejoin hj rfl, errors_joined hj, hitems]
      simp only [errorsIn_append, errorsIn_cons, hsame]
    · rw [errors_rejoin hj rfl, errors_joined hj]
      simp [errors_body hb]

/-- A block argument takes its error nodes along. -/
theorem errors_takeBlock (h : v.takeBlock? = some (some (v', k))) :
    v'.errors + k.errors = v.errors := by
  have hall : All (fun _ => True) v := .of_walk v fun _ _ => trivial
  induction hall generalizing v' with
  | @mk v _ _ ih =>
    rcases takeBlock?_cases h with ⟨c, hform, hblock, hs⟩ | ⟨hj, init, x, x', hitems, hx, hs⟩
    · rw [errors_of_form hs.form_eq rfl, errors_of_form hform rfl]
      simp [Form.children, hblock, Nat.add_assoc]
    · have hsame := ih x (Form.mem_children.2 (.inl (by simp [hitems]))) hx
      rw [errors_rejoin hj hs.form_eq, errors_joined hj, hitems]
      simp only [errorsIn_append, errorsIn_cons, errorsIn_nil]
      omega

theorem errors_takeLastBlock (h : takeLastBlock? xs = some (some (xs', k))) :
    errorsIn (xs' ++ [k]) = errorsIn xs := by
  obtain ⟨init, c, c', rfl, rfl, hc⟩ := takeLastBlock?_cases h
  have := errors_takeBlock hc
  simp only [errorsIn_append, errorsIn_cons, errorsIn_nil]
  omega

/-! ## Parts that fill their node -/

/-- The parts fill a string from the token that opens it up to `close`, where it is closed. -/
structure Quoted (text : String) (span : Span) (style : StringStyle) (parts : List Node)
    (close : Nat) : Prop where
  start : (tokenAt text span.start).span.start = span.start
  isQuote : (tokenAt text span.start).kind.isQuote = true
  style_eq : Parse.stringStyle (tokenAt text span.start).kind = style
  tiles : Parse.Tiles (tokenAt text span.start).span.stop parts close
  closing : hasPiece text close (Parse.closingQuote style) = true
  stop : span.stop = close + size (Parse.closingQuote style)

/-- The parts of a word or of a string fill it, and the names in another construct lie in it. -/
def Packed (text : String) (v : Node) : Prop :=
  match v.form with
  | .word parts => Parse.Tiles v.start parts v.stop
  | .stringLit style parts => ∃ close, Quoted text v.span style parts close
  | form => ∀ name ∈ form.names, name.span.Within v.span

theorem packed_of_names (h : v.form.isLoose = true)
    (hnames : ∀ name ∈ v.form.names, name.span.Within v.span) : v.Packed text := by
  unfold Packed
  split
  · rename_i hform
    rw [hform] at h
    cases h
  · rename_i hform
    rw [hform] at h
    cases h
  · exact hnames

theorem packed_of_isOrdinary (h : v.form.isOrdinary = true) : v.Packed text := by
  refine packed_of_names (Form.isLoose_of_isOrdinary h) fun name hname => ?_
  rw [Form.names_of_isOrdinary h] at hname
  cases hname

/-- A construct that is made where the names in it stand. -/
theorem packed_make {i j : Nat} (h : f.isLoose = true)
    (hnames : ∀ name ∈ f.names, i ≤ name.span.start ∧ name.span.stop ≤ j) :
    (make f (.upTo i j)).Packed text := by
  have hspans := make_spans f (.upTo i j)
  refine packed_of_names h fun name hname => ⟨?_, ?_⟩
  · exact Nat.le_trans hspans.start_le (hnames name hname).1
  · refine Nat.le_trans (hnames name hname).2 (Nat.le_trans ?_ hspans.le_stop)
    exact stop_upTo_eq_max i j ▸ Nat.le_max_right i j

/-- No name reaches out of a node. -/
theorem Packed.names (h : v.Packed text) : ∀ name ∈ v.form.names, name.span.Within v.span := by
  unfold Packed at h
  split at h
  · rename_i hform
    rw [hform]
    exact nofun
  · rename_i hform
    rw [hform]
    exact nofun
  · exact h

/-- The parts of a word; other nodes have none. -/
def wordParts : Node → List Node
  | ⟨_, .word parts⟩ => parts
  | _ => []

/-- The parts of a string; other nodes have none. -/
def stringParts : Node → List Node
  | ⟨_, .stringLit _ parts⟩ => parts
  | _ => []

theorem form_of_mem_wordParts (hw : w ∈ v.wordParts) : v.form = .word v.wordParts := by
  obtain ⟨span, form⟩ := v
  cases form with
  | word parts => rfl
  | _ => cases hw

theorem form_of_stringParts (h : v.stringParts ≠ []) :
    ∃ style, v.form = .stringLit style v.stringParts := by
  obtain ⟨span, form⟩ := v
  cases form with
  | stringLit style parts => exact ⟨style, rfl⟩
  | _ => exact absurd rfl h

/-- Neither a part nor a name reaches out of the node, and the parts of a word or of a string fill
it. -/
structure Snug (text : String) (v : Node) : Prop where
  start_le : ∀ c ∈ v.form.children, v.start ≤ c.start
  le_stop : ∀ c ∈ v.form.children, c.stop ≤ v.stop
  packed : v.Packed text

/-- The node lies between the two offsets, and all nodes below it are snug. -/
structure Lies (text : String) (lo hi : Nat) (v : Node) : Prop where
  snug : All (Snug text) v
  start : lo ≤ v.start
  stop : v.stop ≤ hi

theorem Lies.mono (h : Lies text lo hi v) (hlo : lo' ≤ lo) (hhi : hi ≤ hi') :
    Lies text lo' hi' v :=
  ⟨h.snug, Nat.le_trans hlo h.start, Nat.le_trans h.stop hhi⟩

/-- A node over parts and a span that lie between the offsets. -/
theorem lies_make (hparts : ∀ c ∈ f.children, Lies text lo hi c) (hlo : lo ≤ span.start)
    (hhi : span.stop ≤ hi) (hpacked : (make f span).Packed text) :
    Lies text lo hi (make f span) := by
  have hspans := make_spans f span
  refine ⟨.mk ⟨hspans.start_le_part, hspans.part_le_stop, hpacked⟩ fun c hc => (hparts c hc).snug,
    ?_, ?_⟩
  · rcases hspans.start_eq with heq | ⟨c, hc, heq⟩
    · exact Nat.le_trans hlo (Nat.le_of_eq heq.symm)
    · exact Nat.le_trans (hparts c hc).start (Nat.le_of_eq heq)
  · rcases hspans.stop_eq with heq | ⟨c, hc, heq⟩
    · exact Nat.le_trans (Nat.le_of_eq heq) hhi
    · exact Nat.le_trans (Nat.le_of_eq heq.symm) (hparts c hc).stop

/-- A node whose parts lie in the span that it is made over has that span. -/
theorem make_span_of_lies (hle : lo ≤ hi) (hparts : ∀ c ∈ f.children, Lies text lo hi c) :
    (make f (.upTo lo hi)).span = .upTo lo hi :=
  (make_spans f _).eq fun c hc =>
    ⟨(hparts c hc).start, Nat.le_trans (hparts c hc).stop (Nat.le_of_eq (Span.stop_upTo hle).symm)⟩

/-- What is left over when a part is taken away lies where the whole did. -/
theorem Lies.shrink (hv : Lies text lo hi v) (hs : Shrunk f v.start v')
    (hparts : ∀ c ∈ f.children, Lies text v.start v.stop c) (hf : f.isOrdinary = true) :
    Lies text lo hi v' := by
  have hform := hs.form_eq
  subst hform
  refine ⟨.mk ⟨?_, hs.reaches.part_le, packed_of_isOrdinary hf⟩
    fun c hc => (hparts c hc).snug, ?_, ?_⟩
  · exact fun c hc => hs.start_eq ▸ (hparts c hc).start
  · exact hs.start_eq ▸ hv.start
  · exact Nat.le_trans (hs.stop_le v.start_le_stop fun c hc => (hparts c hc).stop) hv.stop

/-- A block argument that is taken off lies where the statement did, and so does the rest. -/
theorem Lies.takeBlock (hv : Lies text lo hi v) (htake : v.takeBlock? = some (some (v', k))) :
    Lies text lo hi v' ∧ Lies text lo hi k := by
  obtain ⟨hsnug, hlo, hhi⟩ := hv
  induction hsnug generalizing v' lo hi with
  | @mk v hv hparts ih =>
    have hlies : Lies text lo hi v := ⟨.mk hv hparts, hlo, hhi⟩
    have hwithin : ∀ c ∈ v.form.children, Lies text v.start v.stop c :=
      fun c hc => ⟨hparts c hc, hv.start_le c hc, hv.le_stop c hc⟩
    rcases takeBlock?_cases htake with ⟨c, hform, hblock, hs⟩ |
      ⟨hj, init, x, x', hitems, hx, hs⟩
    · rw [hform] at hwithin
      refine ⟨hlies.shrink hs (fun y hy => hwithin y ?_) rfl, ?_⟩
      · simp only [Form.children, List.mem_append] at hy ⊢
        exact .inl (hy.resolve_right List.not_mem_nil)
      · exact (hwithin k (by simp [Form.children, hblock])).mono hlo hhi
    · have hmem : ∀ y ∈ init ++ [x] ++ v.form.heredocs, y ∈ v.form.children := by
        intro y hy
        rw [Form.children_eq, hitems]
        exact hy
      have hxmem := hmem x (by simp)
      obtain ⟨hx', hk⟩ := ih x hxmem hx (hv.start_le x hxmem) (hv.le_stop x hxmem)
      refine ⟨hlies.shrink hs (fun y hy => ?_) (Form.isOrdinary_rejoin hj), hk.mono hlo hhi⟩
      rw [Form.children_rejoin hj, List.append_assoc] at hy
      rcases List.mem_append.1 hy with hy | hy
      · exact hwithin y (hmem y (by simp [hy]))
      · rcases List.mem_cons.1 hy with rfl | hy
        · exact hx'
        · exact hwithin y (hmem y (List.mem_append_right _ hy))

theorem Lies.takeLastBlock (hxs : ∀ x ∈ xs, Lies text lo hi x)
    (htake : takeLastBlock? xs = some (some (xs', k))) :
    ∀ x ∈ xs' ++ [k], Lies text lo hi x := by
  obtain ⟨init, c, c', rfl, rfl, hc⟩ := takeLastBlock?_cases htake
  rw [List.forall_mem_append, List.forall_mem_singleton] at hxs
  rw [List.forall_mem_append, List.forall_mem_append, List.forall_mem_singleton,
    List.forall_mem_singleton]
  obtain ⟨hc', hk⟩ := hxs.2.takeBlock hc
  exact ⟨⟨hxs.1, hc'⟩, hk⟩

end Node

end ShellAnalysis
