import ShellAnalysis.Proofs.BlockArgument

/-!
# Putting a heredoc body into a statement

`attachHeredoc?_cases` says what `attachHeredoc?` can do: go into the command
of a background job, go into the item of a pipeline or command list that holds
the body's start, or add the body to that pipeline or list itself.

The span of the statement stays as it is (`attachHeredoc?_follows`).  The
statement stays sound if the body stands clear of every node that can receive
it (`Clears`, `attachHeredoc?_sound`).
-/

namespace ShellAnalysis.Node

open Text

variable {b v w : Node}

/-! ## What `attachHeredoc?` does -/

theorem contains_iff {s : Span} {i : Nat} : s.contains i = true ↔ s.start ≤ i ∧ i < s.stop := by
  simp [Span.contains]

theorem attachInside?_none {items : List Node} (h : attachInside? items b = none) :
    ∀ x ∈ items, x.span.contains b.start = false := by
  induction items with
  | nil => simp
  | cons x items ih =>
    rw [attachInside?] at h
    split at h
    · cases h
    · rename_i hx
      intro y hy
      rcases List.mem_cons.1 hy with rfl | hy
      · simpa using hx
      · exact ih (Option.map_eq_none_iff.1 h) y hy

theorem attachInside?_some {items : List Node} {r : Option (List Node)}
    (h : attachInside? items b = some r) :
    ∃ pre x post, items = pre ++ x :: post ∧ x.span.contains b.start = true ∧
      r = (x.attachHeredoc? b).map fun x' => pre ++ x' :: post := by
  induction items generalizing r with
  | nil => cases h
  | cons x items ih =>
    rw [attachInside?] at h
    split at h
    · rename_i hx
      cases h
      exact ⟨[], x, items, rfl, hx, rfl⟩
    · obtain ⟨r', hr', rfl⟩ := Option.map_eq_some_iff.1 h
      obtain ⟨pre, y, post, rfl, hy, rfl⟩ := ih hr'
      refine ⟨x :: pre, y, post, rfl, hy, ?_⟩
      rw [Option.map_map]
      rfl

/-- A pipeline or a command list hands the body to the item around it, or keeps it. -/
theorem attachHeredoc?_joined (hj : v.form.joins = true) :
    v.attachHeredoc? b = match attachInside? v.form.items b with
      | some items? => items?.map fun items => ⟨v.span, v.form.rejoin items v.form.heredocs⟩
      | none => some ⟨v.span, v.form.rejoin v.form.items (v.form.heredocs ++ [b])⟩ := by
  obtain ⟨span, form⟩ := v
  cases form with
  | pipeline | andOr => rw [attachHeredoc?]; rfl
  | _ => cases hj

/-- Everything `attachHeredoc?` can do. -/
theorem attachHeredoc?_cases (h : v.attachHeredoc? b = some w) :
    (∃ inner inner', v.form = .background inner ∧ inner.attachHeredoc? b = some inner' ∧
      w = ⟨v.span, .background inner'⟩) ∨
    (∃ inner inner' redirects, v.form = .redirected inner redirects ∧
      inner.attachHeredoc? b = some inner' ∧ w = ⟨v.span, .redirected inner' redirects⟩) ∨
    (v.form.joins = true ∧ ∃ pre x x' post, v.form.items = pre ++ x :: post ∧
      x.span.contains b.start = true ∧ x.attachHeredoc? b = some x' ∧
      w = ⟨v.span, v.form.rejoin (pre ++ x' :: post) v.form.heredocs⟩) ∨
    (v.form.joins = true ∧ (∀ x ∈ v.form.items, x.span.contains b.start = false) ∧
      w = ⟨v.span, v.form.rejoin v.form.items (v.form.heredocs ++ [b])⟩) := by
  by_cases hj : v.form.joins = true
  · rw [attachHeredoc?_joined hj] at h
    split at h
    · rename_i items? hitems
      obtain ⟨pre, x, post, hsplit, hx, rfl⟩ := attachInside?_some hitems
      rw [Option.map_map] at h
      obtain ⟨x', hx', rfl⟩ := Option.map_eq_some_iff.1 h
      exact .inr (.inr (.inl ⟨hj, pre, x, x', post, hsplit, hx, hx', rfl⟩))
    · rename_i hitems
      cases h
      exact .inr (.inr (.inr ⟨hj, attachInside?_none hitems, rfl⟩))
  · obtain ⟨span, form⟩ := v
    cases form with
    | background inner =>
      rw [attachHeredoc?] at h
      obtain ⟨inner', hinner, rfl⟩ := Option.map_eq_some_iff.1 h
      exact .inl ⟨inner, inner', rfl, hinner, rfl⟩
    | redirected inner redirects =>
      rw [attachHeredoc?] at h
      obtain ⟨inner', hinner, rfl⟩ := Option.map_eq_some_iff.1 h
      exact .inr (.inl ⟨inner, inner', redirects, rfl, hinner, rfl⟩)
    | pipeline | andOr => exact absurd rfl hj
    | _ => cases h

theorem attachHeredoc?_isBody (hv : v.IsBody) : v.attachHeredoc? b = none := by
  obtain ⟨span, form⟩ := v
  obtain ⟨_, _, _, rfl⟩ := isBody_iff.1 hv
  rfl

/-! ## The node after the body was put into it -/

/-- What is known of a node before and after the body was put into it. -/
structure Follows (b v w : Node) : Prop where
  span_eq : w.span = v.span
  early : v.StartsEarly → w.StartsEarly
  late : v.EndsLate → w.EndsLate
  joins : w.form.joins = v.form.joins
  heredocs : ∀ h ∈ w.form.heredocs, h = b ∨ h ∈ v.form.heredocs
  items : Refilled (fun c c' => c'.span = c.span) v.form.items w.form.items
  background : ∀ inner', w.form = .background inner' →
    ∃ inner, v.form = .background inner ∧ inner.span = inner'.span

theorem Follows.endsLike (h : Follows b v w) : EndsLike v w :=
  ⟨congrArg Span.stop h.span_eq, h.late⟩

theorem Follows.startsLike (h : Follows b v w) (hv : ¬ v.IsBody) : StartsLike v w :=
  ⟨congrArg Span.start h.span_eq, fun hb => absurd hb hv, h.early⟩

theorem not_isBody_of_attach (h : v.attachHeredoc? b = some w) : ¬ v.IsBody := by
  intro hbody
  rw [attachHeredoc?_isBody hbody] at h
  cases h

/-- Neither a dict nor one of its entries takes a body in. -/
theorem keys_of_attach (h : v.attachHeredoc? b = some w) : w.form.keys = [] := by
  rcases attachHeredoc?_cases h with ⟨_, _, -, -, rfl⟩ | ⟨_, _, _, -, -, rfl⟩ |
    ⟨hj, _, _, _, _, -, -, -, rfl⟩ | ⟨hj, -, rfl⟩
  · rfl
  · rfl
  · exact Form.keys_rejoin hj
  · exact Form.keys_rejoin hj

/-- The body went into one item. -/
theorem follows_into {pre post : List Node} {x x' : Node} (hj : v.form.joins = true)
    (hitems : v.form.items = pre ++ x :: post) (hx : Follows b x x') (hbody : ¬ x.IsBody) :
    Follows b v ⟨v.span, v.form.rejoin (pre ++ x' :: post) v.form.heredocs⟩ := by
  constructor
  · rfl
  · refine .refill rfl (Form.not_command_of_joins hj) ?_
    rw [Form.leading_of_joins hj, form, Form.leading_rejoin hj, hitems]
    exact .append (.one .refl (hx.startsLike hbody)) (.of_subset .refl fun _ h => h)
  · refine .refill rfl (Form.not_command_of_joins hj) ?_
    rw [Form.children_eq, form, Form.children_rejoin hj, hitems]
    exact .append (.one .refl hx.endsLike) (.of_subset .refl fun _ h => h)
  · exact Form.joins_rejoin
  · rw [form, Form.heredocs_rejoin hj]
    exact fun _ h => .inr h
  · rw [form, Form.items_rejoin hj, hitems]
    exact .one (fun _ => rfl) hx.span_eq
  · exact fun _ hback => absurd hback (Form.rejoin_ne hj rfl)

/-- The body was added to the node itself. -/
theorem follows_here (b : Node) (hj : v.form.joins = true) :
    Follows b v ⟨v.span, v.form.rejoin v.form.items (v.form.heredocs ++ [b])⟩ := by
  constructor
  · rfl
  · refine .refill rfl (Form.not_command_of_joins hj) ?_
    rw [Form.leading_of_joins hj, form, Form.leading_rejoin hj]
    exact .append (.of_subset .refl fun _ h => h)
      (.of_subset .refl fun _ h => List.mem_append_left _ h)
  · refine .refill rfl (Form.not_command_of_joins hj) ?_
    rw [Form.children_eq, form, Form.children_rejoin hj]
    exact .append (.of_subset .refl fun _ h => h)
      (.of_subset .refl fun _ h => List.mem_append_left _ h)
  · exact Form.joins_rejoin
  · rw [form, Form.heredocs_rejoin hj]
    intro h hh
    rcases List.mem_append.1 hh with hh | hh
    · exact .inr hh
    · exact .inl (List.mem_singleton.1 hh)
  · rw [form, Form.items_rejoin hj]
    exact fun c hc => ⟨c, hc, rfl⟩
  · exact fun _ hback => absurd hback (Form.rejoin_ne hj rfl)

theorem attachHeredoc?_follows {b v w : Node} (h : v.attachHeredoc? b = some w) :
    Follows b v w := by
  rcases attachHeredoc?_cases h with ⟨inner, inner', hform, hinner, rfl⟩ |
    ⟨inner, inner', redirects, hform, hinner, rfl⟩ |
    ⟨hj, pre, x, x', post, hitems, -, hx, rfl⟩ | ⟨hj, -, rfl⟩
  · have hf := attachHeredoc?_follows hinner
    refine ⟨rfl, .refill rfl (by simp [hform]) ?_, .refill rfl (by simp [hform]) ?_,
      by rw [hform]; rfl, by simp [Form.heredocs, form], ?_, ?_⟩
    · rw [hform]
      exact .head .refl (hf.startsLike (not_isBody_of_attach hinner))
    · rw [hform]
      exact .head .refl hf.endsLike
    · rw [hform]
      exact .head (fun _ => rfl) hf.span_eq
    · rintro _ ⟨⟩
      exact ⟨inner, hform, hf.span_eq.symm⟩
  · have hf := attachHeredoc?_follows hinner
    refine ⟨rfl, .refill rfl (by simp [hform]) ?_, .refill rfl (by simp [hform]) ?_,
      by rw [hform]; rfl, by simp [Form.heredocs, form], ?_, by rintro _ ⟨⟩⟩
    · rw [hform]
      exact .head .refl (hf.startsLike (not_isBody_of_attach hinner))
    · rw [hform]
      exact .head .refl hf.endsLike
    · rw [hform]
      exact .head (fun _ => rfl) hf.span_eq
  · exact follows_into hj hitems (attachHeredoc?_follows hx) (not_isBody_of_attach hx)
  · exact follows_here b hj
termination_by v
decreasing_by
  · exact sizeOf_lt_of_mem_parts (by rw [hform]; exact List.mem_cons_self)
  · exact sizeOf_lt_of_mem_parts (by rw [hform]; exact List.mem_cons_self)
  · exact sizeOf_lt_of_mem_parts (Form.mem_children.2 (.inl (by simp [hitems])))

/-! ## Block arguments after the body was put in -/

/-- `y` ends where `x` does, or with the body. -/
structure Stretches (b x y : Node) : Prop where
  le_stop : x.stop ≤ y.stop
  stop_le : y.stop ≤ max x.stop b.stop
  late : x.EndsLate → y.stop = x.stop → y.EndsLate

theorem Stretches.refl (b x : Node) : Stretches b x x :=
  ⟨Nat.le_refl _, Nat.le_max_left _ _, fun h _ => h⟩

theorem EndsLike.stretches {x y : Node} (h : EndsLike x y) (b : Node) : Stretches b x y :=
  ⟨Nat.le_of_eq h.stop_eq.symm, Nat.le_trans (Nat.le_of_eq h.stop_eq) (Nat.le_max_left _ _),
    fun hlate _ => h.late hlate⟩

/-- Shrinking to parts that end where they did, or with the body. -/
theorem Shrunk.stretches {f g : Form Node} {start : Nat} (hv : Shrunk f start v)
    (hw : Shrunk g start w) (hf : ∀ c, f ≠ .command c)
    (hparts : Refilled (Stretches b) f.children g.children)
    (hback : ∀ y ∈ g.children, y = b ∨ ∃ x ∈ f.children, Stretches b x y) :
    Stretches b v w := by
  have hreach := hv.reaches
  have hreach' := hw.reaches
  constructor
  · rcases hreach.eq with heq | ⟨x, hx, heq⟩
    · rw [heq]
      exact hreach'.le
    · obtain ⟨y, hy, hxy⟩ := hparts x hx
      rw [← heq]
      exact Nat.le_trans hxy.le_stop (hreach'.part_le y hy)
  · rcases hreach'.eq with heq | ⟨y, hy, heq⟩
    · rw [heq]
      exact Nat.le_trans hreach.le (Nat.le_max_left _ _)
    · rw [← heq]
      rcases hback y hy with rfl | ⟨x, hx, hxy⟩
      · exact Nat.le_max_right _ _
      · have h1 := hxy.stop_le
        have h2 := hreach.part_le x hx
        omega
  · intro hlate hstop
    cases hlate with
    | bare hc => exact absurd (hv.form_eq.symm.trans hc) (hf _)
    | part hx heq hlate =>
      obtain ⟨y, hy, hxy⟩ := hparts _ (hv.form_eq ▸ hx)
      have h1 := hxy.le_stop
      have h2 : y.stop ≤ w.stop := hreach'.part_le y hy
      exact .part (hw.form_eq ▸ hy) (by omega) (hxy.late hlate (by omega))

section

variable {f : Form Node} {heredocs : List Node} {start : Nat}

/-- One item is changed in what is left. -/
theorem left_stretches {pre post : List Node} {x x' : Node} (hj : f.joins = true)
    (hx : Stretches b x x') (hv : Shrunk (f.rejoin (pre ++ x :: post) heredocs) start v)
    (hw : Shrunk (f.rejoin (pre ++ x' :: post) heredocs) start w) : Stretches b v w := by
  refine hv.stretches hw (fun c => Form.rejoin_ne hj rfl) ?_ ?_
  · rw [Form.children_rejoin hj, Form.children_rejoin hj]
    exact .append (.one (.refl b) hx) (.of_subset (.refl b) fun _ h => h)
  · rw [Form.children_rejoin hj, Form.children_rejoin hj]
    have hback : Refilled (fun y x => Stretches b x y) (pre ++ x' :: post ++ heredocs)
        (pre ++ x :: post ++ heredocs) :=
      .append (.one (.refl b) hx) (.of_subset (.refl b) fun _ h => h)
    exact fun y hy => .inr (hback y hy)

/-- The body is added in what is left. -/
theorem left_stretches_here {items : List Node} (hj : f.joins = true)
    (hv : Shrunk (f.rejoin items heredocs) start v)
    (hw : Shrunk (f.rejoin items (heredocs ++ [b])) start w) : Stretches b v w := by
  refine hv.stretches hw (fun c => Form.rejoin_ne hj rfl) ?_ ?_
  · rw [Form.children_rejoin hj, Form.children_rejoin hj, ← List.append_assoc]
    exact .of_subset (.refl b) fun _ h => List.mem_append_left _ h
  · rw [Form.children_rejoin hj, Form.children_rejoin hj, ← List.append_assoc]
    intro y hy
    rcases List.mem_append.1 hy with hy | hy
    · exact .inr ⟨y, hy, .refl b y⟩
    · exact .inl (List.mem_singleton.1 hy)

end

/-- The block argument of the whole is that of its last item. -/
theorem takeBlock?_of_last {text : String} {init : List Node} {x x' k : Node}
    (hv : v.Sound text) (hj : v.form.joins = true) (hitems : v.form.items = init ++ [x])
    (hx : x.takeBlock? = some (some (x', k))) :
    ∃ v', v.takeBlock? = some (some (v', k)) ∧
      Shrunk (v.form.rejoin (init ++ [x']) v.form.heredocs) v.start v' := by
  obtain ⟨found, hfound⟩ := exists_takeBlock? hv
  have hjoined := hfound
  rw [takeBlock?_joined hj, hitems, takeLastBlock?_concat, hx] at hjoined
  obtain ⟨v', hv', rfl⟩ := Option.map_eq_some_iff.1 hjoined
  exact ⟨v', hfound, shrunk_of_shrinkTo? hv'⟩

/-- A block argument can be taken off after the body was put in only if it could be before, and
what is left then differs by the body. -/
theorem takeBlock?_of_attach {text : String} {b v w w' k : Node} (hv : v.Sound text)
    (h : v.attachHeredoc? b = some w) (ht : w.takeBlock? = some (some (w', k))) :
    ∃ v', v.takeBlock? = some (some (v', k)) ∧ Stretches b v' w' := by
  rcases attachHeredoc?_cases h with ⟨inner, inner', hform, hinner, rfl⟩ |
    ⟨inner, inner', redirects, hform, hinner, rfl⟩ |
    ⟨hj, pre, x, x', post, hitems, -, hx, rfl⟩ | ⟨hj, -, rfl⟩
  · cases ht
  · cases ht
  · have hmem : x ∈ v.form.children := Form.mem_children.2 (.inl (by simp [hitems]))
    obtain ⟨init, z, z', hsplit, hz, hw'⟩ :=
      takeBlock?_joined_cases (by rw [form, Form.joins_rejoin, hj]) ht
    rw [form, Form.items_rejoin hj] at hsplit
    rw [form, Form.rejoin_rejoin, Form.heredocs_rejoin hj] at hw'
    rcases List.eq_nil_or_concat post with rfl | ⟨mid, last, rfl⟩
    · -- The body went into the last item, which holds the block argument.
      obtain ⟨rfl, rfl⟩ := List.append_singleton_inj.1 hsplit
      obtain ⟨y, hy, hyz⟩ := takeBlock?_of_attach (hv.part hmem) hx hz
      obtain ⟨v', htake, hv'⟩ := takeBlock?_of_last hv hj hitems hy
      exact ⟨v', htake, left_stretches hj hyz hv' hw'⟩
    · -- The block argument belongs to a later item, which is unchanged.
      rw [List.concat_eq_append, ← List.cons_append, ← List.append_assoc] at hsplit hitems
      obtain ⟨rfl, rfl⟩ := List.append_singleton_inj.1 hsplit
      obtain ⟨v', htake, hv'⟩ := takeBlock?_of_last hv hj hitems hz
      rw [List.append_assoc, List.cons_append] at hv' hw'
      have hlike := (attachHeredoc?_follows hx).endsLike.stretches b
      exact ⟨v', htake, left_stretches hj hlike hv' hw'⟩
  · obtain ⟨init, z, z', hsplit, hz, hw'⟩ :=
      takeBlock?_joined_cases (by rw [form, Form.joins_rejoin, hj]) ht
    rw [form, Form.items_rejoin hj] at hsplit
    rw [form, Form.rejoin_rejoin, Form.heredocs_rejoin hj] at hw'
    obtain ⟨v', htake, hv'⟩ := takeBlock?_of_last hv hj hsplit hz
    exact ⟨v', htake, left_stretches_here hj hv' hw'⟩
termination_by v
decreasing_by exact sizeOf_lt_of_mem_parts hmem

theorem trailing?_of_attach {text : String} {k : Node} (hv : v.Sound text)
    (h : v.attachHeredoc? b = some w) (hk : w.trailing? = some k) : v.trailing? = some k := by
  obtain ⟨w', hw'⟩ := trailing?_eq_some.1 hk
  obtain ⟨v', hv', -⟩ := takeBlock?_of_attach hv h hw'
  exact trailing?_eq_some.2 ⟨v', hv'⟩

/-! ## Soundness -/

/-- Where a heredoc body stands to a node that could receive it: after the node, or before it, or
inside it and then in none of the places from which it would stick out. -/
def Clears (b m : Node) : Prop :=
  m.stop ≤ b.start ∨
    (b.stop ≤ m.start ∨ m.start ≤ b.start ∧ b.stop ≤ m.stop) ∧
    (∀ h ∈ m.form.heredocs, Apart h b) ∧
    (∀ inner, m.form = .background inner → b.start < inner.stop) ∧
    (m.form.joins = true → ∀ k, m.trailing? = some k →
      b.start < k.stop ∨ ∃ c ∈ m.form.items, c.span.contains b.start = true)

/-- The block argument of a node is one of the nodes that could receive a body. -/
theorem Along.trailing {P : Node → Prop} {v k : Node} (h : Along Form.spine P v)
    (hk : v.trailing? = some k) : P k := by
  induction h with
  | @mk v _ hparts ih =>
    obtain ⟨v', hv'⟩ := trailing?_eq_some.1 hk
    rcases takeBlock?_cases hv' with ⟨c, hform, hblock, -⟩ | ⟨hj, init, x, x', hitems, hx, -⟩
    · refine (hparts k ?_).here
      rw [hform]
      simp [Form.spine, hblock]
    · refine ih x ?_ (trailing?_eq_some.2 ⟨x', hx⟩)
      rw [Form.spine_of_joins hj, hitems]
      simp

/-- A body inside the block argument of a sound node is inside its last item. -/
theorem contains_of_trailing {text : String} {k : Node} (hv : v.Sound text)
    (hj : v.form.joins = true) (hk : v.trailing? = some k) (hb : k.span.contains b.start = true) :
    ∃ x ∈ v.form.items, x.span.contains b.start = true := by
  obtain ⟨v', hv'⟩ := trailing?_eq_some.1 hk
  obtain ⟨init, x, x', hitems, hx, -⟩ := takeBlock?_joined_cases hj hv'
  have hmem : x ∈ v.form.items := by simp [hitems]
  have htaken := takeBlock?_taken (hv.part (Form.mem_children.2 (.inl hmem))) hx
  refine ⟨x, hmem, ?_⟩
  rw [contains_iff] at hb ⊢
  exact ⟨Nat.le_trans htaken.le_start hb.1, Nat.lt_of_lt_of_le hb.2 htaken.le_stop⟩

/-- The body goes into one item. -/
theorem sound_into {text : String} {pre post : List Node} {x x' : Node} (hv : v.Sound text)
    (hj : v.form.joins = true) (hitems : v.form.items = pre ++ x :: post)
    (hx : x.attachHeredoc? b = some x') (hx' : x'.Sound text)
    (hattach : v.attachHeredoc? b =
      some ⟨v.span, v.form.rejoin (pre ++ x' :: post) v.form.heredocs⟩) :
    Sound text ⟨v.span, v.form.rejoin (pre ++ x' :: post) v.form.heredocs⟩ := by
  have hl := hv.here
  have hf := attachHeredoc?_follows hx
  have hstart : x'.start = x.start := congrArg Span.start hf.span_eq
  have hstop : x'.stop = x.stop := congrArg Span.stop hf.span_eq
  have hold : ∀ {P : Node → Prop}, (∀ y ∈ v.form.children, P y) → (P x → P x') →
      ∀ y ∈ pre ++ x' :: post ++ v.form.heredocs, P y := by
    intro P hall hP
    rw [Form.children_eq, hitems, List.forall_mem_append] at hall
    exact List.forall_mem_append.2 ⟨forall_mem_replace hall.1 hP, hall.2⟩
  refine sound_of_rejoin hj rfl hl.cut ?_ ?_ ?_ ?_ ?_ hl.apart ?_
  · exact hold (fun y => hv.part) fun _ => hx'
  · exact hold hl.stop_le fun hle => hstop ▸ hle
  · exact forall_mem_replace (hitems ▸ hl.le_start) fun hle => hstart ▸ hle
  · exact pairwise_replace (hitems ▸ Form.lined_of_joins hj hl.lined)
      (fun y _ hy => hy.startsLike (hf.startsLike (not_isBody_of_attach hx)))
      (fun y _ hy => hy.endsLike hf.endsLike)
  · intro h hh
    obtain ⟨hbody, hne, hapart⟩ := hl.bodies h hh
    refine ⟨hbody, hne, forall_mem_replace (hitems ▸ hapart) ?_⟩
    rintro (hle | hle)
    · exact .inl (hstop ▸ hle)
    · exact .inr (hstart ▸ hle)
  · intro k hk
    have hbeside := hl.beside k (trailing?_of_attach hv hattach hk)
    rw [Form.beside_of_joins hj, hitems, List.forall_mem_append] at hbeside
    exact List.forall_mem_append.2
      ⟨forall_mem_dropLast_replace hbeside.1 fun hbefore => hbefore.endsLike hf.endsLike, hbeside.2⟩

section

variable {text : String} (hv : v.Sound text) (hclear : Along Form.spine (Clears b) v)
  (hj : v.form.joins = true) (hout : ∀ x ∈ v.form.items, x.span.contains b.start = false)

include hclear hj hout

/-- A body that stands in no item stands apart from all of them. -/
theorem apart_of_clear (hne : b.start < b.stop) : ∀ c ∈ v.form.items, Apart c b := by
  intro c hc
  have hcontains := hout c hc
  rw [← Bool.not_eq_true, contains_iff] at hcontains
  have hspine : c ∈ v.form.spine := by rwa [Form.spine_of_joins hj]
  rcases (hclear.part hspine).here with hle | ⟨hle | hin, -⟩
  · exact .inl hle
  · exact .inr hle
  · exact absurd ⟨hin.1, Nat.lt_of_lt_of_le hne hin.2⟩ hcontains

include hv

/-- And it stands before the block argument at the end. -/
theorem before_of_clear {k : Node} (hne : b.start < b.stop) (hstop : b.start < v.stop)
    (hk : v.trailing? = some k) : Before b k := by
  obtain hle | ⟨-, -, -, htrail⟩ := hclear.here
  · exact absurd hstop (Nat.not_lt.2 hle)
  have hcontains : ¬ (k.start ≤ b.start ∧ b.start < k.stop) := by
    intro hin
    obtain ⟨x, hx, hin⟩ := contains_of_trailing hv hj hk (contains_iff.2 hin)
    rw [hout x hx] at hin
    cases hin
  rcases hclear.trailing hk with hle | ⟨hle | hin, -⟩
  · rcases htrail hj k hk with hlt | ⟨c, hc, hin⟩
    · exact absurd hlt (Nat.not_lt.2 hle)
    · rw [hout c hc] at hin
      cases hin
  · exact .inl hle
  · exact absurd ⟨hin.1, Nat.lt_of_lt_of_le hne hin.2⟩ hcontains

end

/-- The body is added to a pipeline or a command list. -/
theorem sound_here {text : String} (hv : v.Sound text) (hclear : Along Form.spine (Clears b) v)
    (hb : b.Sound text) (hbody : b.IsBody) (hne : b.start < b.stop) (hstop : b.start < v.stop)
    (hj : v.form.joins = true) (hout : ∀ x ∈ v.form.items, x.span.contains b.start = false)
    (hattach : v.attachHeredoc? b =
      some ⟨v.span, v.form.rejoin v.form.items (v.form.heredocs ++ [b])⟩) :
    Sound text ⟨v.span, v.form.rejoin v.form.items (v.form.heredocs ++ [b])⟩ := by
  have hl := hv.here
  obtain hle | ⟨hplace, hheredocs, -, -⟩ := hclear.here
  · exact absurd hstop (Nat.not_lt.2 hle)
  have hmore : ∀ {P : Node → Prop}, (∀ y ∈ v.form.children, P y) → P b →
      ∀ y ∈ v.form.items ++ (v.form.heredocs ++ [b]), P y := by
    intro P hall hP
    rw [← List.append_assoc, ← Form.children_eq]
    exact List.forall_mem_append.2 ⟨hall, List.forall_mem_singleton.2 hP⟩
  refine sound_of_rejoin hj rfl hl.cut ?_ ?_ hl.le_start (Form.lined_of_joins hj hl.lined) ?_ ?_ ?_
  · exact hmore (fun y => hv.part) hb
  · refine hmore hl.stop_le ?_
    rcases hplace with hle | ⟨-, hle⟩
    · exact Nat.le_trans hle v.start_le_stop
    · exact hle
  · refine List.forall_mem_append.2 ⟨hl.bodies, List.forall_mem_singleton.2 ?_⟩
    exact ⟨hbody, hne, apart_of_clear hclear hj hout hne⟩
  · refine List.pairwise_append.2 ⟨hl.apart, List.pairwise_singleton _ _, fun h hh => ?_⟩
    exact List.forall_mem_singleton.2 (hheredocs h hh)
  · intro k hk
    have hk := trailing?_of_attach hv hattach hk
    rw [← List.append_assoc, ← Form.beside_of_joins hj]
    refine List.forall_mem_append.2 ⟨hl.beside k hk, List.forall_mem_singleton.2 ?_⟩
    exact before_of_clear hv hclear hj hout hne hstop hk

/-- A sound statement stays sound when a body that stands clear of it is put into it. -/
theorem attachHeredoc?_sound {text : String} (hv : v.Sound text)
    (hclear : Along Form.spine (Clears b) v) (hb : b.Sound text) (hbody : b.IsBody)
    (hne : b.start < b.stop) (hstop : b.start < v.stop) (h : v.attachHeredoc? b = some w) :
    w.Sound text := by
  induction hv generalizing w with
  | @mk v hlocal hparts ih =>
    rcases attachHeredoc?_cases h with ⟨inner, inner', hform, hinner, rfl⟩ |
      ⟨inner, inner', redirects, hform, hinner, rfl⟩ |
      ⟨hj, pre, x, x', post, hitems, hin, hx, rfl⟩ | ⟨hj, hout, rfl⟩
    · have hmem : inner ∈ v.form.children := by rw [hform]; exact List.mem_cons_self
      have hspine : inner ∈ v.form.spine := by rw [hform]; exact List.mem_cons_self
      have hlt : b.start < inner.stop := by
        rcases hclear.here with hle | ⟨-, -, hback, -⟩
        · exact absurd hstop (Nat.not_lt.2 hle)
        · exact hback inner hform
      have hspan := (attachHeredoc?_follows hinner).span_eq
      have hstart := hlocal.le_start inner (by rw [hform]; exact List.mem_cons_self)
      have hend := hlocal.stop_le inner hmem
      refine .mk ?_ ?_
      · exact {
          cut := hlocal.cut
          names := by simp [form, Form.names]
          keyed := trivial
          stop_le := fun c hc => by
            rw [List.mem_singleton.1 hc, stop, hspan]
            exact hend
          le_start := fun c hc => by
            rw [List.mem_singleton.1 hc]
            show v.start ≤ inner'.span.start
            rw [hspan]
            exact hstart
          lined := List.pairwise_singleton _ _
          bodies := by simp [form, Form.heredocs]
          apart := List.Pairwise.nil
          beside := by simp [form, Form.beside]
          solid := fun _ _ h => by cases h }
      · intro c hc
        rw [List.mem_singleton.1 hc]
        exact ih inner hmem (hclear.part hspine) hlt hinner
    · rw [hlocal.solid inner redirects hform b] at hinner
      cases hinner
    · have hmem : x ∈ v.form.items := by simp [hitems]
      refine sound_into (.mk hlocal hparts) hj hitems hx ?_ h
      exact ih x (Form.mem_children.2 (.inl hmem))
        (hclear.part (by rwa [Form.spine_of_joins hj])) (contains_iff.1 hin).2 hx
    · exact sound_here (.mk hlocal hparts) hclear hb hbody hne hstop hj hout h

/-- A property of the nodes that could receive bodies survives, if it survives at each node. -/
theorem attachHeredoc?_along {text : String} {P : Node → Prop} (hsound : v.Sound text)
    (hv : Along Form.spine P v)
    (hP : ∀ m m', m.Sound text → m.attachHeredoc? b = some m' → P m → P m')
    (h : v.attachHeredoc? b = some w) : Along Form.spine P w := by
  induction hv generalizing w with
  | @mk v hPv hparts ih =>
    have hpart : ∀ c ∈ v.form.spine, c.Sound text := fun c hc =>
      hsound.part (Form.mem_children_of_mem_spine hc)
    refine .mk (hP v w hsound h hPv) ?_
    rcases attachHeredoc?_cases h with ⟨inner, inner', hform, hinner, rfl⟩ |
      ⟨inner, inner', redirects, hform, hinner, rfl⟩ |
      ⟨hj, pre, x, x', post, hitems, hin, hx, rfl⟩ | ⟨hj, hout, rfl⟩
    · intro c hc
      rw [List.mem_singleton.1 hc]
      have hmem : inner ∈ v.form.spine := by rw [hform]; exact List.mem_cons_self
      exact ih inner hmem (hpart inner hmem) hinner
    · intro c hc
      cases hc
    · rw [form, Form.spine_rejoin hj]
      intro c hc
      have hspine : ∀ y ∈ pre ++ x :: post, y ∈ v.form.spine := by
        rw [Form.spine_of_joins hj, hitems]
        exact fun _ h => h
      rcases List.mem_append.1 hc with hc | hc
      · exact hparts c (hspine c (List.mem_append_left _ hc))
      · rcases List.mem_cons.1 hc with rfl | hc
        · have hmem := hspine x (by simp)
          exact ih x hmem (hpart x hmem) hx
        · exact hparts c (hspine c (by simp [hc]))
    · rw [form, Form.spine_rejoin hj, ← Form.spine_of_joins hj]
      exact hparts

end ShellAnalysis.Node
