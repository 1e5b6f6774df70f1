import ShellAnalysis.Proofs.Shape

/-!
# Taking a block argument off

`takeBlock?_cases` says what `takeBlock?` can do: it takes the block of a
command, or goes into the last item of a pipeline or a command list.  What it
leaves behind is a sound tree that starts where it did and stands before the
block (`takeBlock?_taken`).
-/

namespace ShellAnalysis

open Text

/-! ## Joined forms -/

namespace Form

variable {α : Type}

/-- Pipelines and command lists. -/
def joins : Form α → Bool
  | pipeline .. | andOr .. => true
  | _ => false

/-- The same construct over other items and heredoc bodies. -/
def rejoin (f : Form α) (items heredocs : List α) : Form α :=
  match f with
  | pipeline negated _ _ => pipeline negated items heredocs
  | andOr ops _ _ => andOr ops items heredocs
  | f => f

variable {f : Form α} {items heredocs : List α}

theorem rejoin_self (f : Form α) : f.rejoin f.items f.heredocs = f := by
  cases f <;> rfl

theorem joins_rejoin : (f.rejoin items heredocs).joins = f.joins := by
  cases f <;> rfl

theorem rejoin_ne {g : Form α} (hf : f.joins = true) (hg : g.joins = false) :
    f.rejoin items heredocs ≠ g := by
  rintro rfl
  rw [joins_rejoin, hf] at hg
  cases hg

theorem rejoin_rejoin {items' heredocs' : List α} :
    (f.rejoin items heredocs).rejoin items' heredocs' = f.rejoin items' heredocs' := by
  cases f <;> rfl

theorem children_rejoin (h : f.joins = true) :
    (f.rejoin items heredocs).children = items ++ heredocs := by
  cases f <;> first | rfl | cases h

theorem items_rejoin (h : f.joins = true) : (f.rejoin items heredocs).items = items := by
  cases f <;> first | rfl | cases h

theorem heredocs_rejoin (h : f.joins = true) :
    (f.rejoin items heredocs).heredocs = heredocs := by
  cases f <;> first | rfl | cases h

theorem spine_rejoin (h : f.joins = true) : (f.rejoin items heredocs).spine = items := by
  cases f <;> first | rfl | cases h

theorem names_rejoin (h : f.joins = true) : (f.rejoin items heredocs).names = [] := by
  cases f <;> first | rfl | cases h

theorem leading_rejoin (h : f.joins = true) :
    (f.rejoin items heredocs).leading = items ++ heredocs := by
  cases f <;> first | rfl | cases h

theorem spine_of_joins (h : f.joins = true) : f.spine = f.items := by
  cases f <;> first | rfl | cases h

theorem leading_of_joins (h : f.joins = true) : f.leading = f.items ++ f.heredocs := by
  cases f <;> first | rfl | cases h

theorem not_command_of_joins (h : f.joins = true) (c : Command α) : f ≠ .command c := by
  rintro rfl
  cases h

theorem keys_rejoin {f : Form Node} {items heredocs : List Node} (h : f.joins = true) :
    (f.rejoin items heredocs).keys = [] := by
  cases f <;> first | rfl | cases h

theorem keyed_rejoin {f : Form Node} {items heredocs : List Node} (h : f.joins = true)
    (span : Span) : (f.rejoin items heredocs).Keyed span := by
  cases f <;> trivial

theorem lined_rejoin {f : Form Node} {items heredocs : List Node} (h : f.joins = true) :
    (f.rejoin items heredocs).Lined ↔ items.Pairwise Node.Before := by
  cases f <;> first | rfl | cases h

theorem lined_of_joins {f : Form Node} (h : f.joins = true) (hl : f.Lined) :
    f.items.Pairwise Node.Before := by
  cases f <;> first | exact hl | cases h

theorem beside_rejoin {f : Form Node} {items heredocs : List Node} (h : f.joins = true) :
    (f.rejoin items heredocs).beside = items.dropLast ++ heredocs := by
  cases f <;> first | rfl | cases h

theorem beside_of_joins {f : Form Node} (h : f.joins = true) :
    f.beside = f.items.dropLast ++ f.heredocs := by
  cases f <;> first | rfl | cases h

end Form

namespace Node

/-! ## Shrinking -/

/-- `m` is the largest of the start and the ends of the nodes. -/
structure Reaches (start : Nat) (nodes : List Node) (m : Nat) : Prop where
  le : start ≤ m
  part_le : ∀ c ∈ nodes, c.stop ≤ m
  eq : m = start ∨ ∃ c ∈ nodes, c.stop = m

/-- `w` is the construct over the span from `start` to the last end of its parts. -/
structure Shrunk (form : Form Node) (start : Nat) (w : Node) : Prop where
  form_eq : w.form = form
  start_eq : w.start = start
  reaches : Reaches start form.children w.stop

theorem shrunk_of_shrinkTo? {form : Form Node} {start : Nat} {w : Node}
    (h : shrinkTo? form start = some w) : Shrunk form start w := by
  obtain ⟨span, hspan, rfl⟩ := Option.map_eq_some_iff.1 h
  obtain ⟨hle, rfl⟩ := Span.of_between? hspan
  have hstop := Span.stop_upTo hle
  refine ⟨rfl, rfl, ?_⟩
  show Reaches start form.children (Span.upTo start _).stop
  rw [hstop]
  cases hmax : (form.children.map (·.span.stop)).max? with
  | none =>
    rw [List.max?_eq_none_iff, List.map_eq_nil_iff] at hmax
    rw [hmax]
    exact ⟨Nat.le_refl _, nofun, .inl rfl⟩
  | some m =>
    rw [hmax] at hle
    obtain ⟨hmem, hmost⟩ := List.max?_eq_some_iff.1 hmax
    obtain ⟨c, hc, rfl⟩ := List.mem_map.1 hmem
    exact ⟨hle, fun d hd => hmost _ (List.mem_map_of_mem hd), .inr ⟨c, hc, rfl⟩⟩

/-- A construct can be shrunk to its parts if one of them does not end before its start. -/
theorem exists_shrinkTo? (form : Form Node) (start : Nat)
    (h : ∀ c ∈ form.children, ∃ d ∈ form.children, start ≤ d.stop) :
    ∃ w, shrinkTo? form start = some w := by
  have hle : start ≤ (form.children.map (·.span.stop)).max?.getD start := by
    cases hmax : (form.children.map (·.span.stop)).max? with
    | none => exact Nat.le_refl _
    | some m =>
      obtain ⟨hmem, hmost⟩ := List.max?_eq_some_iff.1 hmax
      obtain ⟨c, hc, rfl⟩ := List.mem_map.1 hmem
      obtain ⟨d, hd, hle⟩ := h c hc
      exact Nat.le_trans hle (hmost _ (List.mem_map_of_mem hd))
  exact ⟨_, Option.map_eq_some_iff.2 ⟨_, Span.between?_of_le hle, rfl⟩⟩

/-! ## What `takeBlock?` does -/

variable {v v' k : Node}

theorem takeLastBlock?_concat (init : List Node) (c : Node) :
    takeLastBlock? (init ++ [c]) =
      c.takeBlock?.map (·.map fun p => (init ++ [p.1], p.2)) := by
  induction init with
  | nil => rfl
  | cons x init ih =>
    cases init with
    | nil =>
      simp only [List.cons_append, List.nil_append, takeLastBlock?, Option.map_map]
      congr 1
      funext found
      cases found <;> rfl
    | cons y init =>
      simp only [List.cons_append] at ih ⊢
      rw [takeLastBlock?, ih, Option.map_map]
      congr 1
      funext found
      cases found <;> rfl

theorem takeLastBlock?_cases {items items' : List Node}
    (h : takeLastBlock? items = some (some (items', k))) :
    ∃ init c c', items = init ++ [c] ∧ items' = init ++ [c'] ∧
      c.takeBlock? = some (some (c', k)) := by
  rcases List.eq_nil_or_concat items with rfl | ⟨init, c, rfl⟩
  · cases h
  · rw [List.concat_eq_append] at h ⊢
    rw [takeLastBlock?_concat] at h
    obtain ⟨found, hc, heq⟩ := Option.map_eq_some_iff.1 h
    obtain ⟨⟨c', k'⟩, rfl, heq⟩ := Option.map_eq_some_iff.1 heq
    cases heq
    exact ⟨init, c, c', rfl, rfl, hc⟩

/-- A pipeline or a command list gives the block argument of its last item. -/
theorem takeBlock?_joined (hj : v.form.joins = true) :
    v.takeBlock? = (takeLastBlock? v.form.items).bind fun
      | none => some none
      | some p => (shrinkTo? (v.form.rejoin p.1 v.form.heredocs) v.start).map fun w =>
        some (w, p.2) := by
  obtain ⟨span, form⟩ := v
  cases form with
  | pipeline | andOr =>
    rw [takeBlock?]
    exact congrArg _ (funext fun found => by cases found <;> rfl)
  | _ => cases hj

/-- What `takeBlock?` does to a pipeline or a command list. -/
theorem takeBlock?_joined_cases (hj : v.form.joins = true)
    (h : v.takeBlock? = some (some (v', k))) :
    ∃ init x x', v.form.items = init ++ [x] ∧ x.takeBlock? = some (some (x', k)) ∧
      Shrunk (v.form.rejoin (init ++ [x']) v.form.heredocs) v.start v' := by
  rw [takeBlock?_joined hj] at h
  obtain ⟨found, hitems, h⟩ := Option.bind_eq_some_iff.1 h
  cases found with
  | none => cases h
  | some p =>
    obtain ⟨w, hw, heq⟩ := Option.map_eq_some_iff.1 h
    cases heq
    obtain ⟨init, x, x', hinit, hp, hx⟩ := takeLastBlock?_cases hitems
    rw [hp] at hw
    exact ⟨init, x, x', hinit, hx, shrunk_of_shrinkTo? hw⟩

/-- What `takeBlock?` does to a command. -/
theorem takeBlock?_command_cases {c : Command Node} (hform : v.form = .command c)
    (h : v.takeBlock? = some (some (v', k))) :
    c.block = some k ∧ Shrunk (.command { c with block := none }) v.start v' := by
  obtain ⟨span, form⟩ := v
  cases hform
  rw [takeBlock?] at h
  split at h
  · cases h
  · rename_i block hblock
    obtain ⟨w, hw, heq⟩ := Option.map_eq_some_iff.1 h
    cases heq
    exact ⟨hblock, shrunk_of_shrinkTo? hw⟩

/-- Everything `takeBlock?` can do. -/
theorem takeBlock?_cases (h : v.takeBlock? = some (some (v', k))) :
    (∃ c, v.form = .command c ∧ c.block = some k ∧
      Shrunk (.command { c with block := none }) v.start v') ∨
    (v.form.joins = true ∧ ∃ init x x', v.form.items = init ++ [x] ∧
      x.takeBlock? = some (some (x', k)) ∧
      Shrunk (v.form.rejoin (init ++ [x']) v.form.heredocs) v.start v') := by
  by_cases hj : v.form.joins = true
  · exact .inr ⟨hj, takeBlock?_joined_cases hj h⟩
  · obtain ⟨span, form⟩ := v
    cases form with
    | command c => exact .inl ⟨c, rfl, takeBlock?_command_cases rfl h⟩
    | pipeline | andOr => exact absurd rfl hj
    | _ => cases h

/-- Neither a dict nor one of its entries has a block argument. -/
theorem keys_of_takeBlock (h : v.takeBlock? = some (some (v', k))) : v'.form.keys = [] := by
  rcases takeBlock?_cases h with ⟨_, -, -, hs⟩ | ⟨hj, _, _, _, -, -, hs⟩
  · rw [hs.form_eq]
    rfl
  · rw [hs.form_eq, Form.keys_rejoin hj]

theorem trailing?_eq_some :
    v.trailing? = some k ↔ ∃ v', v.takeBlock? = some (some (v', k)) := by
  unfold trailing?
  simp only [Option.map_eq_some_iff, Option.join_eq_some_iff, Prod.exists, exists_eq_right]

theorem trailing?_eq_none (h : v.takeBlock? = some none) : v.trailing? ≠ some k := by
  rw [ne_eq, trailing?_eq_some, h]
  rintro ⟨_, ⟨⟩⟩

/-- What is left of the node has no block argument any more. -/
theorem takeBlock?_idem {v v' k : Node} (h : v.takeBlock? = some (some (v', k))) :
    v'.takeBlock? = some none := by
  rcases takeBlock?_cases h with ⟨c, -, -, hs⟩ | ⟨hj, init, x, x', hitems, hx, hs⟩
  · obtain ⟨span, form⟩ := v'
    obtain rfl : form = _ := hs.form_eq
    rfl
  · have hx' := takeBlock?_idem hx
    rw [takeBlock?_joined (by rw [hs.form_eq, Form.joins_rejoin, hj]), hs.form_eq,
      Form.items_rejoin hj, takeLastBlock?_concat, hx']
    rfl
termination_by v
decreasing_by exact sizeOf_lt_of_mem_parts (Form.mem_children.2 (.inl (by simp [hitems])))

/-! ## Parts in the place of parts -/

section

variable {α : Type} {P : α → Prop} {R : α → α → Prop} {pre post : List α} {x x' : α}

theorem forall_mem_replace (h : ∀ y ∈ pre ++ x :: post, P y) (hx : P x → P x') :
    ∀ y ∈ pre ++ x' :: post, P y := by
  rw [List.forall_mem_append, List.forall_mem_cons] at h ⊢
  exact ⟨h.1, hx h.2.1, h.2.2⟩

theorem forall_mem_dropLast_replace (h : ∀ y ∈ (pre ++ x :: post).dropLast, P y)
    (hx : P x → P x') : ∀ y ∈ (pre ++ x' :: post).dropLast, P y := by
  cases post with
  | nil =>
    rw [List.dropLast_concat] at h ⊢
    exact h
  | cons z post =>
    rw [List.dropLast_append_cons, List.dropLast_cons_cons] at h ⊢
    exact forall_mem_replace h hx

theorem pairwise_replace (h : (pre ++ x :: post).Pairwise R)
    (hpre : ∀ y ∈ pre, R y x → R y x') (hpost : ∀ y ∈ post, R x y → R x' y) :
    (pre ++ x' :: post).Pairwise R := by
  rw [List.pairwise_append, List.pairwise_cons] at h ⊢
  obtain ⟨hfirst, ⟨hafter, hrest⟩, hacross⟩ := h
  refine ⟨hfirst, ⟨fun y hy => hpost y hy (hafter y hy), hrest⟩, fun y hy => ?_⟩
  have hy' := hacross y hy
  rw [List.forall_mem_cons] at hy' ⊢
  exact ⟨hpre y hy hy'.1, hy'.2⟩

end

/-- `y` starts where `x` does, and no later for another reason. -/
structure StartsLike (x y : Node) : Prop where
  start_eq : y.start = x.start
  body : x.IsBody → y.IsBody
  early : x.StartsEarly → y.StartsEarly

/-- `y` ends where `x` does, and no later for another reason. -/
structure EndsLike (x y : Node) : Prop where
  stop_eq : y.stop = x.stop
  late : x.EndsLate → y.EndsLate

theorem StartsLike.refl (x : Node) : StartsLike x x := ⟨rfl, id, id⟩

theorem EndsLike.refl (x : Node) : EndsLike x x := ⟨rfl, id⟩

theorem Before.startsLike {x y y' : Node} (h : Before x y) (hy : StartsLike y y') :
    Before x y' := by
  rcases h with hle | hlate | hearly
  · exact .inl (hy.start_eq ▸ hle)
  · exact .inr (.inl hlate)
  · exact .inr (.inr (hy.early hearly))

theorem Before.endsLike {x x' y : Node} (h : Before x y) (hx : EndsLike x x') : Before x' y := by
  rcases h with hle | hlate | hearly
  · exact .inl (hx.stop_eq ▸ hle)
  · exact .inr (.inl (hx.late hlate))
  · exact .inr (.inr hearly)

/-- Every node of the first list has one in its place in the second. -/
def Refilled (R : Node → Node → Prop) (xs ys : List Node) : Prop := ∀ x ∈ xs, ∃ y ∈ ys, R x y

section

variable {R : Node → Node → Prop} {xs ys xs' ys' : List Node}

theorem Refilled.of_subset (hR : ∀ x, R x x) (h : ∀ x ∈ xs, x ∈ ys) : Refilled R xs ys :=
  fun x hx => ⟨x, h x hx, hR x⟩

/-- One node is changed and the rest stays. -/
theorem Refilled.one {pre post : List Node} {x x' : Node} (hR : ∀ x, R x x) (h : R x x') :
    Refilled R (pre ++ x :: post) (pre ++ x' :: post) := by
  intro y hy
  rcases List.mem_append.1 hy with hy | hy
  · exact ⟨y, List.mem_append_left _ hy, hR y⟩
  · rcases List.mem_cons.1 hy with rfl | hy
    · exact ⟨x', List.mem_append_right _ List.mem_cons_self, h⟩
    · exact ⟨y, List.mem_append_right _ (List.mem_cons_of_mem _ hy), hR y⟩

theorem Refilled.head {post : List Node} {x x' : Node} (hR : ∀ x, R x x) (h : R x x') :
    Refilled R (x :: post) (x' :: post) :=
  (Refilled.one hR h : Refilled R ([] ++ x :: post) ([] ++ x' :: post))

theorem Refilled.append (h : Refilled R xs ys) (h' : Refilled R xs' ys') :
    Refilled R (xs ++ xs') (ys ++ ys') := by
  intro x hx
  rcases List.mem_append.1 hx with hx | hx
  · obtain ⟨y, hy, hxy⟩ := h x hx
    exact ⟨y, List.mem_append_left _ hy, hxy⟩
  · obtain ⟨y, hy, hxy⟩ := h' x hx
    exact ⟨y, List.mem_append_right _ hy, hxy⟩

end

section

variable {v w : Node}

theorem StartsEarly.refill (hstart : w.start = v.start) (hform : ∀ c, v.form ≠ .command c)
    (hparts : Refilled StartsLike v.form.leading w.form.leading) (h : v.StartsEarly) :
    w.StartsEarly := by
  cases h with
  | body hx heq hbody =>
    obtain ⟨y, hy, hxy⟩ := hparts _ hx
    exact .body hy (by rw [hxy.start_eq, heq, hstart]) (hxy.body hbody)
  | part hx heq hearly =>
    obtain ⟨y, hy, hxy⟩ := hparts _ hx
    exact .part hy (by rw [hxy.start_eq, heq, hstart]) (hxy.early hearly)
  | hollow hc => exact absurd hc (hform _)

theorem EndsLate.refill (hstop : w.stop = v.stop) (hform : ∀ c, v.form ≠ .command c)
    (hparts : Refilled EndsLike v.form.children w.form.children) (h : v.EndsLate) :
    w.EndsLate := by
  cases h with
  | bare hc => exact absurd hc (hform _)
  | part hx heq hlate =>
    obtain ⟨y, hy, hxy⟩ := hparts _ hx
    exact .part hy (by rw [hxy.stop_eq, heq, hstop]) (hxy.late hlate)

end

/-- A pipeline or a command list over other parts is sound if the parts stand as they must. -/
theorem sound_of_rejoin {text : String} {w : Node} {f : Form Node} {items heredocs : List Node}
    (hj : f.joins = true) (hform : w.form = f.rejoin items heredocs) (hcut : Cut text w.span)
    (hparts : ∀ c ∈ items ++ heredocs, c.Sound text) (hstop : ∀ c ∈ items ++ heredocs, c.stop ≤ w.stop)
    (hstart : ∀ c ∈ items, w.start ≤ c.start) (hlined : items.Pairwise Before)
    (hbodies : ∀ h ∈ heredocs, h.IsBody ∧ h.start < h.stop ∧ ∀ c ∈ items, Apart c h)
    (hapart : heredocs.Pairwise Apart)
    (hbeside : ∀ k, w.trailing? = some k → ∀ c ∈ items.dropLast ++ heredocs, Before c k) :
    w.Sound text := by
  have hchildren : w.form.children = items ++ heredocs := by rw [hform, Form.children_rejoin hj]
  refine .mk ?_ (hchildren ▸ hparts)
  exact {
    cut := hcut
    names := by
      rw [hform, Form.names_rejoin hj]
      exact nofun
    keyed := hform ▸ Form.keyed_rejoin hj _
    stop_le := hchildren ▸ hstop
    le_start := by
      rw [hform, Form.items_rejoin hj]
      exact hstart
    lined := hform ▸ (Form.lined_rejoin hj).2 hlined
    bodies := by
      rw [hform, Form.heredocs_rejoin hj, Form.items_rejoin hj]
      exact hbodies
    apart := by
      rw [hform, Form.heredocs_rejoin hj]
      exact hapart
    beside := by
      rw [hform, Form.beside_rejoin hj]
      exact hbeside
    solid := fun _ _ h => absurd (hform.symm.trans h) (Form.rejoin_ne hj rfl) }

/-! ## What is left -/

/-- What is known of a node, what is left of it, and the block argument that was taken off. -/
structure Taken (text : String) (v v' k : Node) : Prop where
  sound : v'.Sound text
  block : k.Sound text
  before : Before v' k
  start_eq : v'.start = v.start
  stop_le : v'.stop ≤ v.stop
  early : v.StartsEarly → v'.StartsEarly
  le_start : v.start ≤ k.start
  le_stop : k.stop ≤ v.stop

namespace Shrunk

variable {text : String} {form : Form Node} {start : Nat} {w : Node}

/-- What is shrunk to its parts stands before whatever all of its parts stand before. -/
theorem before (h : Shrunk form start w) (hstart : start ≤ k.start)
    (hparts : ∀ c ∈ form.children, Before c k) : Before w k := by
  rcases h.reaches.eq with heq | ⟨c, hc, heq⟩
  · exact .inl (Nat.le_trans (Nat.le_of_eq heq) hstart)
  · rcases hparts c hc with hle | hlate | hearly
    · exact .inl (Nat.le_trans (Nat.le_of_eq heq.symm) hle)
    · exact .inr (.inl (.part (h.form_eq ▸ hc) heq hlate))
    · exact .inr (.inr hearly)

theorem cut (h : Shrunk form start w) (hstart : Boundary text start)
    (hparts : ∀ c ∈ form.children, Cut text c.span) : Cut text w.span := by
  refine ⟨?_, ?_⟩
  · show Boundary text w.start
    rwa [h.start_eq]
  · show Boundary text w.stop
    rcases h.reaches.eq with heq | ⟨c, hc, heq⟩
    · rwa [heq]
    · exact heq ▸ (hparts c hc).2

theorem stop_le {stop : Nat} (h : Shrunk form start w) (hstart : start ≤ stop)
    (hparts : ∀ c ∈ form.children, c.stop ≤ stop) : w.stop ≤ stop := by
  rcases h.reaches.eq with heq | ⟨c, hc, heq⟩
  · exact Nat.le_trans (Nat.le_of_eq heq) hstart
  · exact Nat.le_trans (Nat.le_of_eq heq.symm) (hparts c hc)

end Shrunk

/-- A command without its block is sound if the command was. -/
theorem sound_unblocked {text : String} {c : Command Node} (hv : v.Sound text)
    (hform : v.form = .command c) (hs : Shrunk (.command { c with block := none }) v.start v') :
    v'.Sound text := by
  have hl := hv.here
  have hrest : (Form.command { c with block := none }).children = (Form.command c).leading := by
    simp [Form.children, Form.leading]
  have hsub : ∀ x ∈ (Form.command { c with block := none }).children, x ∈ v.form.children := by
    rw [hrest, hform]
    exact fun x => Form.mem_children_of_mem_leading
  have hform' := hs.form_eq
  refine .mk ?_ fun x hx => hv.part (hsub x (hform' ▸ hx))
  exact {
    cut := hs.cut hl.cut.1 fun x hx => (hv.part (hsub x hx)).here.cut
    names := by simp [hform', Form.names]
    keyed := hform' ▸ trivial
    stop_le := hform' ▸ hs.reaches.part_le
    le_start := fun x hx => by
      rw [hform'] at hx
      have hx : x ∈ (Form.command c).leading := hrest ▸ hx
      rw [hs.start_eq]
      exact hl.le_start x (by rw [hform]; exact Form.mem_children_of_mem_leading hx)
    lined := by
      have hlined := hl.lined
      rw [hform] at hlined
      rw [hform']
      show (Form.command { c with block := none }).children.Pairwise Fits
      rw [hrest]
      exact List.Pairwise.sublist (List.sublist_append_left _ _) hlined
    bodies := by simp [hform', Form.heredocs]
    apart := by
      rw [hform']
      exact .nil
    beside := fun _ hk => by
      refine absurd hk (trailing?_eq_none ?_)
      obtain ⟨span, form⟩ := v'
      obtain rfl : form = _ := hform'
      rfl
    solid := fun _ _ h => by cases hform'.symm.trans h }

/-- The block of a command is taken off. -/
theorem taken_command {text : String} {c : Command Node} (hv : v.Sound text)
    (htake : v.takeBlock? = some (some (v', k))) (hform : v.form = .command c) :
    Taken text v v' k := by
  obtain ⟨hblock, hs⟩ := takeBlock?_command_cases hform htake
  have hl := hv.here
  have hrest : (Form.command { c with block := none }).children = (Form.command c).leading := by
    simp [Form.children, Form.leading]
  have hkitem : k ∈ v.form.items := by
    rw [hform]
    simp [Form.items, Form.children, hblock]
  have hk : k ∈ v.form.children := Form.mem_children.2 (.inl hkitem)
  have hbefore : ∀ x ∈ (Form.command c).leading, Before x k := fun x hx =>
    hl.beside k (trailing?_eq_some.2 ⟨v', htake⟩) x (by rw [hform]; exact hx)
  have hlead : v'.form.leading = v.form.leading := by
    rw [hform, hs.form_eq]
    rfl
  constructor
  · exact sound_unblocked hv hform hs
  · exact hv.part hk
  · exact hs.before (hl.le_start k hkitem) fun x hx => hbefore x (hrest ▸ hx)
  · exact hs.start_eq
  · refine hs.stop_le v.start_le_stop fun x hx => hl.stop_le x ?_
    rw [hform]
    exact Form.mem_children_of_mem_leading (hrest ▸ hx)
  · intro hearly
    have hstart := hs.start_eq.symm
    cases hearly with
    | body hb heq hbody => exact .body (hlead ▸ hb) (heq.trans hstart) hbody
    | part hx heq hx' => exact .part (hlead ▸ hx) (heq.trans hstart) hx'
    | hollow _ hne hlt => exact .hollow hs.form_eq (hlead ▸ hne) (hstart ▸ hlead ▸ hlt)
  · exact hl.le_start k hkitem
  · exact hl.stop_le k hk

theorem not_isBody_of_takeBlock (h : v.takeBlock? = some (some (v', k))) : ¬ v.IsBody := by
  intro hbody
  obtain ⟨span, form⟩ := v
  obtain ⟨_, _, _, rfl⟩ := isBody_iff.1 hbody
  cases h

theorem not_isBody_of_joins (h : v.form.joins = true) : ¬ v.IsBody := by
  intro hbody
  obtain ⟨_, _, _, hform⟩ := isBody_iff.1 hbody
  rw [hform] at h
  cases h

theorem Taken.startsLike {text : String} (h : Taken text v v' k)
    (htake : v.takeBlock? = some (some (v', k))) : StartsLike v v' :=
  ⟨h.start_eq, fun hbody => absurd hbody (not_isBody_of_takeBlock htake), h.early⟩

/-- The block argument of the last item is taken off. -/
theorem taken_joined {text : String} {init : List Node} {x x' : Node} (hv : v.Sound text)
    (htake : v.takeBlock? = some (some (v', k))) (hj : v.form.joins = true)
    (hitems : v.form.items = init ++ [x]) (hxtake : x.takeBlock? = some (some (x', k)))
    (hx : Taken text x x' k)
    (hs : Shrunk (v.form.rejoin (init ++ [x']) v.form.heredocs) v.start v') :
    Taken text v v' k := by
  have hl := hv.here
  have hxitem : x ∈ v.form.items := by simp [hitems]
  have hchildren : v.form.children = init ++ [x] ++ v.form.heredocs := by
    rw [Form.children_eq, hitems]
  have hxstop : x.stop ≤ v.stop := hl.stop_le x (Form.mem_children.2 (.inl hxitem))
  have hle : v.start ≤ k.start := Nat.le_trans (hl.le_start x hxitem) hx.le_start
  -- The last item keeps its start, so whatever stood before it still does.
  have hlike := hx.startsLike hxtake
  have hold : ∀ {P : Node → Prop}, (∀ y ∈ v.form.children, P y) → (P x → P x') →
      ∀ y ∈ init ++ [x'] ++ v.form.heredocs, P y := by
    intro P hall hP
    rw [hchildren, List.forall_mem_append] at hall
    exact List.forall_mem_append.2 ⟨forall_mem_replace hall.1 hP, hall.2⟩
  have hstop : ∀ y ∈ init ++ [x'] ++ v.form.heredocs, y.stop ≤ v.stop :=
    hold hl.stop_le fun _ => Nat.le_trans hx.stop_le hxstop
  have hsound : ∀ y ∈ init ++ [x'] ++ v.form.heredocs, y.Sound text :=
    hold (fun y => hv.part) fun _ => hx.sound
  have hbefore : (∀ y ∈ init, Before y k) ∧ ∀ y ∈ v.form.heredocs, Before y k := by
    rw [← List.forall_mem_append]
    intro y hy
    refine hl.beside k (trailing?_eq_some.2 ⟨v', htake⟩) y ?_
    rw [Form.beside_of_joins hj, hitems, List.dropLast_concat]
    exact hy
  have hrejoin : (v.form.rejoin (init ++ [x']) v.form.heredocs).children =
      init ++ [x'] ++ v.form.heredocs := Form.children_rejoin hj
  constructor
  · refine sound_of_rejoin hj hs.form_eq ?_ hsound ?_ ?_ ?_ ?_ hl.apart ?_
    · exact hs.cut hl.cut.1 (hrejoin ▸ fun y hy => (hsound y hy).here.cut)
    · exact hrejoin ▸ hs.reaches.part_le
    · rw [hs.start_eq]
      refine forall_mem_replace (hitems ▸ hl.le_start) fun hstart => ?_
      exact Nat.le_trans hstart (Nat.le_of_eq hx.start_eq.symm)
    · exact pairwise_replace (hitems ▸ Form.lined_of_joins hj hl.lined)
        (fun y _ hy => hy.startsLike hlike) nofun
    · intro h hh
      obtain ⟨hbody, hne, hapart⟩ := hl.bodies h hh
      refine ⟨hbody, hne, forall_mem_replace (hitems ▸ hapart) ?_⟩
      rintro (hle | hle)
      · exact .inl (Nat.le_trans hx.stop_le hle)
      · exact .inr (hx.start_eq ▸ hle)
    · exact fun k' hk' => absurd hk' (trailing?_eq_none (takeBlock?_idem htake))
  · exact hx.block
  · refine hs.before hle ?_
    rw [hrejoin, List.forall_mem_append, List.forall_mem_append, List.forall_mem_singleton]
    exact ⟨⟨hbefore.1, hx.before⟩, hbefore.2⟩
  · exact hs.start_eq
  · exact hs.stop_le v.start_le_stop (hrejoin ▸ hstop)
  · refine .refill hs.start_eq (Form.not_command_of_joins hj) ?_
    rw [Form.leading_of_joins hj, hitems, hs.form_eq, Form.leading_rejoin hj]
    exact .append (.one .refl hlike) (.of_subset .refl fun _ h => h)
  · exact hle
  · exact Nat.le_trans hx.le_stop hxstop

/-- Taking a block argument off a sound tree leaves a sound tree before the block. -/
theorem takeBlock?_taken {text : String} (hv : v.Sound text)
    (h : v.takeBlock? = some (some (v', k))) : Taken text v v' k := by
  induction hv generalizing v' with
  | @mk v hlocal hparts ih =>
    rcases takeBlock?_cases h with ⟨c, hform, -, -⟩ | ⟨hj, init, x, x', hitems, hx, hs⟩
    · exact taken_command (.mk hlocal hparts) h hform
    · have hmem : x ∈ v.form.children := by
        rw [Form.mem_children, hitems]
        exact .inl (by simp)
      exact taken_joined (.mk hlocal hparts) h hj hitems hx (ih x hmem hx) hs

/-! ## That it can be taken off -/

/-- The block of a sound command can be taken off. -/
theorem exists_takeBlock?_command {text : String} {c : Command Node} (hv : v.Sound text)
    (hform : v.form = .command c) : ∃ found, v.takeBlock? = some found := by
  have hl := hv.here
  obtain ⟨span, form⟩ := v
  cases hform
  rw [takeBlock?]
  split
  · exact ⟨_, rfl⟩
  · rename_i block hblock
    have hparts : ∀ x ∈ (Form.command { c with block := none }).children, span.start ≤ x.stop := by
      intro x hx
      have hx : x ∈ (Form.command c).items := by
        simp only [Form.children, Form.items, Option.toList_none, List.append_nil] at hx ⊢
        exact List.mem_append_left _ hx
      exact Nat.le_trans (hl.le_start x hx) x.start_le_stop
    obtain ⟨w, hw⟩ := exists_shrinkTo? _ span.start fun x hx => ⟨x, hx, hparts x hx⟩
    exact ⟨_, Option.map_eq_some_iff.2 ⟨w, hw, rfl⟩⟩

/-- From a sound tree a block argument can be taken off. -/
theorem exists_takeBlock? {text : String} (hv : v.Sound text) :
    ∃ found, v.takeBlock? = some found := by
  induction hv with
  | @mk v hlocal hparts ih =>
    by_cases hj : v.form.joins = true
    · rw [takeBlock?_joined hj]
      rcases List.eq_nil_or_concat v.form.items with hnil | ⟨init, x, hitems⟩
      · rw [hnil]
        exact ⟨_, rfl⟩
      · rw [List.concat_eq_append] at hitems
        have hxitem : x ∈ v.form.items := by simp [hitems]
        have hmem : x ∈ v.form.children := Form.mem_children.2 (.inl hxitem)
        obtain ⟨found, hfound⟩ := ih x hmem
        rw [hitems, takeLastBlock?_concat, hfound]
        cases found with
        | none => exact ⟨_, rfl⟩
        | some p =>
          -- What is left of the last item starts where it did, so no earlier than the construct.
          have htaken := takeBlock?_taken (hparts x hmem) hfound
          have hle : v.start ≤ p.1.stop := by
            have hstart := Nat.le_trans (hlocal.le_start x hxitem)
              (Nat.le_of_eq htaken.start_eq.symm)
            exact Nat.le_trans hstart p.1.start_le_stop
          have hleft : p.1 ∈ (v.form.rejoin (init ++ [p.1]) v.form.heredocs).children := by
            rw [Form.children_rejoin hj]
            simp
          obtain ⟨w, hw⟩ := exists_shrinkTo? _ v.start fun _ _ => ⟨p.1, hleft, hle⟩
          exact ⟨_, Option.map_eq_some_iff.2 ⟨w, hw, rfl⟩⟩
    · obtain ⟨span, form⟩ := v
      cases form with
      | command c => exact exists_takeBlock?_command (.mk hlocal hparts) rfl
      | pipeline | andOr => exact absurd rfl hj
      | _ => exact ⟨_, rfl⟩

theorem exists_takeLastBlock? {text : String} {xs : List Node} (hxs : ∀ x ∈ xs, x.Sound text) :
    ∃ found, takeLastBlock? xs = some found := by
  rcases List.eq_nil_or_concat xs with rfl | ⟨init, x, rfl⟩
  · exact ⟨_, rfl⟩
  · obtain ⟨found, hfound⟩ := exists_takeBlock? (hxs x (by simp))
    rw [List.concat_eq_append, takeLastBlock?_concat, hfound]
    exact ⟨_, rfl⟩

end Node

end ShellAnalysis
