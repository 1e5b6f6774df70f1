import ShellAnalysis.Proofs.Accounts.Tree
import ShellAnalysis.Proofs.Built.Rules

/-!
# Accounts of what was read

    Accounts doc s xs s'      from `s` to `s'` the nodes `xs` were read

Two things are said of such a way.  Every error node among the nodes was
reported on it (`Explains`).  And if the text has no heredoc and nothing was
reported (`Quiet`), the nodes lie between the position of `s` and the token
ahead of `s'`, and each of them is filled by its parts (`Drift`).

Nodes that were read inside of brackets lie before what closes them
(`Accounts.close`), so a construct that ends in a token of its own lies exactly
between its first token and the position (`Exactly`).

    Gathers doc p s nodes     `p` started in `s` reads `nodes` of its result, or stops
    Picks doc p s names       and it reads no nodes, but `names`

Names are kept beside the nodes (`Mentions`) until the construct that mentions
them is made.  A parser that reads no node is `Silent`, which is found by
instance search.
-/

namespace ShellAnalysis.Parse

open Text Node

/-! ## Quiet ways -/

/-- How many errors were reported so far. -/
def State.errors (s : State) : Nat := s.diagnostics.toList.countP Diagnostic.isError

/-- No heredoc is under way. -/
structure Neat (doc : Document) (s : State) : Prop where
  boundary : Boundary doc.text s.pos
  pending : s.pending = []
  bodies : s.bodies = []

/-- The text has no heredoc, and no error is reported between the two states. -/
structure Quiet (doc : Document) (s s' : State) : Prop where
  lacks : ∀ i, hasPiece doc.text i "<<" = false
  neat : Neat doc s
  errors : s'.errors = s.errors

/-- The nodes were read on a quiet way, and end at `hi` or before. -/
structure Drift (doc : Document) (s : State) (xs : List Node) (s' : State) (hi : Nat) : Prop where
  neat : Neat doc s'
  le : s.pos ≤ s'.pos
  lies : ∀ x ∈ xs, Lies doc.text s.pos hi x

section

variable {doc : Document} {s s₁ s₂ s' : State} {xs ys : List Node} {hi hi' : Nat}

theorem Neat.pos_le_front (h : Neat doc s) : s.pos ≤ s.front doc :=
  (significant_spec h.boundary.le_size).le

/-- A quiet way is quiet up to any state on it. -/
theorem Quiet.first (q : Quiet doc s s₂) (h : s.errors ≤ s₁.errors) (h' : s₁.errors ≤ s₂.errors) :
    Quiet doc s s₁ :=
  { q with errors := Nat.le_antisymm (Nat.le_trans h' (Nat.le_of_eq q.errors)) h }

/-- And from there on. -/
theorem Quiet.second (q : Quiet doc s s₂) (h : s.errors ≤ s₁.errors) (h' : s₁.errors ≤ s₂.errors)
    (hn : Neat doc s₁) : Quiet doc s₁ s₂ where
  lacks := q.lacks
  neat := hn
  errors := Nat.le_antisymm (Nat.le_trans (Nat.le_of_eq q.errors) h) h'

/-- The way goes on without a node. -/
theorem Drift.until (h : Drift doc s xs s₁ hi) (hn : Neat doc s₂) (hpos : s₁.pos ≤ s₂.pos)
    (hle : hi ≤ hi') : Drift doc s xs s₂ hi' :=
  ⟨hn, Nat.le_trans h.le hpos, fun x hx => (h.lies x hx).mono (Nat.le_refl _) hle⟩

/-- The way began earlier, without a node. -/
theorem Drift.since (h : Drift doc s₁ xs s₂ hi) (hle : s.pos ≤ s₁.pos) : Drift doc s xs s₂ hi :=
  ⟨h.neat, Nat.le_trans hle h.le, fun x hx => (h.lies x hx).mono hle (Nat.le_refl _)⟩

theorem Drift.append (h : Drift doc s xs s₁ hi) (h' : Drift doc s₁ ys s₂ hi') (hle : hi ≤ hi') :
    Drift doc s (xs ++ ys) s₂ hi' where
  neat := h'.neat
  le := Nat.le_trans h.le h'.le
  lies := List.forall_mem_append.2
    ⟨(h.until h'.neat h'.le hle).lies, (h'.since h.le).lies⟩

end

/-! ## Accounts -/

/-- The open list is left alone, the state stays tidy, and no report is taken back. -/
structure Upholds (s s' : State) : Prop extends Rests s s' where
  errors_le : s.errors ≤ s'.errors

/-- Every error node among those that were read was reported. -/
structure Explains (s : State) (xs : List Node) (s' : State) : Prop extends Rests s s' where
  skip : s'.nesting.newlineSkip = s.nesting.newlineSkip
  explained : errorsIn xs + s.errors ≤ s'.errors

/-- The nodes end at the position or before. -/
structure Encloses (doc : Document) (s : State) (xs : List Node) (s' : State) : Prop
    extends Explains s xs s' where
  drift : Quiet doc s s' → Drift doc s xs s' s'.pos

/-- The nodes end before the token ahead or where it starts. -/
structure Collects (doc : Document) (s : State) (xs : List Node) (s' : State) : Prop
    extends Explains s xs s' where
  drift : Quiet doc s s' → Drift doc s xs s' (s'.front doc)

/-- The nodes were read token by token. -/
structure Accounts (doc : Document) (s : State) (xs : List Node) (s' : State) : Prop
    extends Collects doc s xs s' where
  leap : Quiet doc s s' → s'.pos = s.pos ∨ s.front doc ≤ s'.pos

/-- The token ahead was passed, unless something was reported. -/
structure Consumes (doc : Document) (s s' : State) : Prop extends Accounts doc s [] s' where
  past : Quiet doc s s' → s.front doc ≤ s'.pos

/-- Names were read besides, between the token ahead and the position. -/
structure Mentions (doc : Document) (s : State) (xs : List Node) (names : List Name) (s' : State) :
    Prop extends Accounts doc s xs s' where
  between : Quiet doc s s' →
    ∀ name ∈ names, s.front doc ≤ name.span.start ∧ name.span.stop ≤ s'.pos

/-- The node reaches from the token ahead to the position. -/
structure Exactly (doc : Document) (s : State) (v : Node) (s' : State) : Prop
    extends Accounts doc s [v] s' where
  start_eq : Quiet doc s s' → v.start = s.front doc
  stop_eq : Quiet doc s s' → v.stop = s'.pos

section

variable {doc : Document} {s s₁ s₂ s' : State} {xs ys : List Node} {v : Node} {f : Form Node}
  {names names' : List Name}

theorem Upholds.trans (h : Upholds s s₁) (h' : Upholds s₁ s₂) : Upholds s s₂ :=
  ⟨h.toRests.trans h'.toRests, Nat.le_trans h.errors_le h'.errors_le⟩

theorem Explains.upholds (h : Explains s xs s') : Upholds s s' :=
  ⟨h.toRests, Nat.le_trans (Nat.le_add_left _ _) h.explained⟩

theorem Explains.errors_le (h : Explains s xs s') : s.errors ≤ s'.errors := h.upholds.errors_le

theorem Explains.append (h : Explains s xs s₁) (h' : Explains s₁ ys s₂) :
    Explains s (xs ++ ys) s₂ where
  toRests := h.toRests.trans h'.toRests
  skip := h'.skip.trans h.skip
  explained := by
    have h1 := h.explained
    have h2 := h'.explained
    rw [errorsIn_append]
    omega

/-- Fewer nodes. -/
theorem Explains.among (h : Explains s xs s') (herrors : errorsIn ys ≤ errorsIn xs) :
    Explains s ys s' :=
  { h with explained := Nat.le_trans (Nat.add_le_add_right herrors _) h.explained }

/-- A way on which something was reported is not quiet. -/
theorem Explains.accounts (h : Explains s xs s') (hlt : s.errors < s'.errors) :
    Accounts doc s xs s' where
  toExplains := h
  drift q := absurd q.errors (Nat.ne_of_gt hlt)
  leap q := absurd q.errors (Nat.ne_of_gt hlt)

theorem Accounts.refl (h : s.Tidy) : Accounts doc s [] s where
  toRests := h.rests
  skip := rfl
  explained := Nat.le_of_eq (Nat.zero_add _)
  drift q := ⟨q.neat, Nat.le_refl _, nofun⟩
  leap _ := .inl rfl

theorem Accounts.front_le (h : Accounts doc s xs s') (q : Quiet doc s s') :
    s.front doc ≤ s'.front doc := by
  rcases h.leap q with heq | hle
  · exact Nat.le_of_eq (front_congr heq h.skip).symm
  · exact Nat.le_trans hle (h.drift q).neat.pos_le_front

theorem Accounts.trans (h : Accounts doc s xs s₁) (h' : Accounts doc s₁ ys s₂) :
    Accounts doc s (xs ++ ys) s₂ where
  toExplains := h.toExplains.append h'.toExplains
  drift q := by
    have hd := h.drift (q.first h.errors_le h'.errors_le)
    have q' := q.second h.errors_le h'.errors_le hd.neat
    exact hd.append (h'.drift q') (h'.front_le q')
  leap q := by
    have q₁ := q.first h.errors_le h'.errors_le
    have hd := h.drift q₁
    have q₂ := q.second h.errors_le h'.errors_le hd.neat
    rcases h.leap q₁ with heq | hle
    · rcases h'.leap q₂ with heq' | hle'
      · exact .inl (heq'.trans heq)
      · exact .inr (front_congr heq h.skip ▸ hle')
    · exact .inr (Nat.le_trans hle (h'.drift q₂).le)

theorem Accounts.then (h : Accounts doc s xs s₁) (h' : Accounts doc s₁ [] s₂) :
    Accounts doc s xs s₂ := by
  have := h.trans h'
  rwa [List.append_nil] at this

/-- Nothing is left out of account when nodes are dropped, or moved. -/
theorem Accounts.among (h : Accounts doc s xs s') (hsub : ys ⊆ xs)
    (herrors : errorsIn ys ≤ errorsIn xs) : Accounts doc s ys s' :=
  { h with
    toExplains := h.toExplains.among herrors
    drift := fun q => { h.drift q with lies := fun y hy => (h.drift q).lies y (hsub hy) } }

theorem Accounts.perm (h : Accounts doc s xs s') (hp : ys.Perm xs) : Accounts doc s ys s' :=
  h.among hp.subset (Nat.le_of_eq (errorsIn_perm hp))

theorem Accounts.drop (h : Accounts doc s (xs ++ ys) s') : Accounts doc s xs s' :=
  h.among (List.subset_append_left _ _) (by simp)

theorem Accounts.push {parts : Array Node} (h : Accounts doc s parts.toList s₁)
    (h' : Accounts doc s₁ [v] s₂) : Accounts doc s (parts.push v).toList s₂ := by
  rw [Array.toList_push]
  exact h.trans h'

/-- A node over what was read, from the token that was ahead. -/
theorem Accounts.node (h : Accounts doc s f.children s')
    (hf : (Node.make f (.upTo (s.front doc) s'.pos)).isError = false)
    (hpacked : Quiet doc s s' → (Node.make f (.upTo (s.front doc) s'.pos)).Packed doc.text) :
    Accounts doc s [.make f (.upTo (s.front doc) s'.pos)] s' :=
  { h with
    explained := by
      rw [errorsIn_cons, errorsIn_nil, errors_of_isError hf]
      exact h.explained
    drift := fun q => by
      have hd := h.drift q
      refine { hd with lies := List.forall_mem_singleton.2 ?_ }
      refine lies_make hd.lies q.neat.pos_le_front ?_ (hpacked q)
      rw [stop_upTo_eq_max]
      exact Nat.max_le.2 ⟨h.front_le q, hd.neat.pos_le_front⟩ }

/-- A construct over the nodes and names that were read. -/
theorem Mentions.make (h : Mentions doc s f.children f.names s') (hf : f.isLoose = true) :
    Accounts doc s [.make f (.upTo (s.front doc) s'.pos)] s' :=
  h.node (isError_of_isLoose hf) fun q => packed_make hf (h.between q)

theorem Accounts.make (h : Accounts doc s f.children s') (hf : f.isOrdinary = true) :
    Accounts doc s [.make f (.upTo (s.front doc) s'.pos)] s' :=
  h.node (isError_of_isOrdinary hf) fun _ => packed_of_isOrdinary hf

/-! ### Names -/

/-- No name was read. -/
theorem Accounts.nameless (h : Accounts doc s xs s') : Mentions doc s xs [] s' := ⟨h, nofun⟩

theorem Mentions.trans (h : Mentions doc s xs names s₁) (h' : Mentions doc s₁ ys names' s₂) :
    Mentions doc s (xs ++ ys) (names ++ names') s₂ where
  toAccounts := h.toAccounts.trans h'.toAccounts
  between q := by
    have q₁ := q.first h.errors_le h'.errors_le
    have q₂ := q.second h.errors_le h'.errors_le (h.drift q₁).neat
    refine List.forall_mem_append.2 ⟨fun name hname => ?_, fun name hname => ?_⟩
    · obtain ⟨hstart, hstop⟩ := h.between q₁ name hname
      exact ⟨hstart, Nat.le_trans hstop (h'.drift q₂).le⟩
    · obtain ⟨hstart, hstop⟩ := h'.between q₂ name hname
      exact ⟨Nat.le_trans (h.front_le q₁) hstart, hstop⟩

/-- Fewer names. -/
theorem Mentions.among (h : Mentions doc s xs names s') (hsub : names' ⊆ names) :
    Mentions doc s xs names' s' := ⟨h.toAccounts, fun q name hname => h.between q name (hsub hname)⟩

/-- Where something was reported, nothing is said of where names stand. -/
theorem Accounts.loud (h : Accounts doc s xs s') (hlt : s.errors < s'.errors) :
    Mentions doc s xs names s' := ⟨h, fun q => absurd q.errors (Nat.ne_of_gt hlt)⟩

/-- A token that was consumed is a name. -/
theorem Consumes.mention {name : Name} (h : Consumes doc s s')
    (hpos : Quiet doc s s' → s'.pos = (s.ahead doc).span.stop)
    (hname : name.span = (s.ahead doc).span) : Mentions doc s [] [name] s' where
  toAccounts := h.toAccounts
  between q := List.forall_mem_singleton.2
    ⟨Nat.le_of_eq (congrArg Span.start hname).symm,
      Nat.le_of_eq ((congrArg Span.stop hname).trans (hpos q).symm)⟩

/-! ### Brackets -/

/-- Where no node was read, none reaches beyond the position. -/
theorem Accounts.encloses (h : Accounts doc s [] s') : Encloses doc s [] s' :=
  { h with drift := fun q => { h.drift q with lies := nofun } }

theorem Encloses.append (h : Encloses doc s xs s₁) (h' : Encloses doc s₁ ys s₂) :
    Encloses doc s (xs ++ ys) s₂ where
  toExplains := h.toExplains.append h'.toExplains
  drift q := by
    have hd := h.drift (q.first h.errors_le h'.errors_le)
    have hd' := h'.drift (q.second h.errors_le h'.errors_le hd.neat)
    exact hd.append hd' hd'.le

theorem Encloses.then (h : Encloses doc s xs s₁) (h' : Accounts doc s₁ [] s₂) :
    Encloses doc s xs s₂ := by
  have := h.append h'.encloses
  rwa [List.append_nil] at this

/-- What was read before a token ends where the token starts. -/
theorem Collects.close (h : Collects doc s xs s₁) (h' : Consumes doc s₁ s₂) :
    Encloses doc s xs s₂ where
  toExplains := by
    have := h.toExplains.append h'.toExplains
    rwa [List.append_nil] at this
  drift q := by
    have hd := h.drift (q.first h.errors_le h'.errors_le)
    have q' := q.second h.errors_le h'.errors_le hd.neat
    exact hd.until (h'.drift q').neat (h'.drift q').le (h'.past q')

theorem Consumes.then (h : Consumes doc s s₁) (h' : Accounts doc s₁ [] s₂) :
    Consumes doc s s₂ where
  toAccounts := h.toAccounts.trans h'
  past q := by
    have q₁ := q.first h.errors_le h'.errors_le
    have q₂ := q.second h.errors_le h'.errors_le (h.drift q₁).neat
    exact Nat.le_trans (h.past q₁) (h'.drift q₂).le

/-- What is read behind a token on a quiet way. -/
theorem Consumes.inside (h : Consumes doc s s₁) (h' : Encloses doc s₁ xs s₂) (q : Quiet doc s s₂) :
    Drift doc s₁ xs s₂ s₂.pos :=
  h'.drift (q.second h.errors_le h'.errors_le (h.drift (q.first h.errors_le h'.errors_le)).neat)

/-- Behind a token anything can be read. -/
theorem Consumes.around (h : Consumes doc s s₁) (h' : Explains s₁ xs s₂)
    (hinside : Quiet doc s s₂ → Drift doc s₁ xs s₂ s₂.pos) : Accounts doc s xs s₂ where
  toExplains := h.toExplains.append h'
  drift q := by
    have hd := h.drift (q.first h.errors_le h'.errors_le)
    have hd' := hinside q
    exact (hd'.since hd.le).until hd'.neat (Nat.le_refl _) hd'.neat.pos_le_front
  leap q := .inr (Nat.le_trans (h.past (q.first h.errors_le h'.errors_le)) (hinside q).le)

/-- A node over what was read between a token and the position. -/
theorem Consumes.exactly (h : Consumes doc s s₁) (h' : Explains s₁ f.children s₂)
    (hinside : Quiet doc s s₂ → Drift doc s₁ f.children s₂ s₂.pos)
    (hf : (Node.make f (.upTo (s.front doc) s₂.pos)).isError = false)
    (hpacked : Quiet doc s s₂ → (Node.make f (.upTo (s.front doc) s₂.pos)).Packed doc.text) :
    Exactly doc s (.make f (.upTo (s.front doc) s₂.pos)) s₂ := by
  have hall := h.around h' hinside
  have hspan : Quiet doc s s₂ → s.front doc ≤ s₂.pos ∧
      ∀ c ∈ f.children, Lies doc.text (s.front doc) s₂.pos c := by
    intro q
    have hpast := h.past (q.first h.errors_le h'.errors_le)
    have hd := hinside q
    exact ⟨Nat.le_trans hpast hd.le, fun c hc => (hd.lies c hc).mono hpast (Nat.le_refl _)⟩
  refine { hall with
    explained := ?_, drift := fun q => ?_, start_eq := fun q => ?_, stop_eq := fun q => ?_ }
  · rw [errorsIn_cons, errorsIn_nil, errors_of_isError hf]
    exact hall.explained
  · obtain ⟨hle, hlies⟩ := hspan q
    have hd := hall.drift q
    have hnode : Lies doc.text (s.front doc) s₂.pos (.make f (.upTo (s.front doc) s₂.pos)) :=
      lies_make hlies (Nat.le_refl _) (Nat.le_of_eq (Span.stop_upTo hle)) (hpacked q)
    refine { hd with lies := List.forall_mem_singleton.2 ?_ }
    exact hnode.mono q.neat.pos_le_front hd.neat.pos_le_front
  · obtain ⟨hle, hlies⟩ := hspan q
    show (Node.make f (.upTo (s.front doc) s₂.pos)).span.start = _
    rw [make_span_of_lies hle hlies]
    rfl
  · obtain ⟨hle, hlies⟩ := hspan q
    exact (congrArg Span.stop (make_span_of_lies hle hlies)).trans (Span.stop_upTo hle)

theorem Consumes.make (h : Consumes doc s s₁) (h' : Encloses doc s₁ f.children s₂)
    (hf : f.isOrdinary = true) : Exactly doc s (.make f (.upTo (s.front doc) s₂.pos)) s₂ :=
  h.exactly h'.toExplains (h.inside h') (isError_of_isOrdinary hf) fun _ => packed_of_isOrdinary hf

/-- A node without parts over the token that was consumed. -/
theorem Consumes.leaf (h : Consumes doc s s')
    (hpos : Quiet doc s s' → s'.pos = (s.ahead doc).span.stop) (hf : f.isOrdinary = true)
    (hparts : f.children = []) : Exactly doc s (.make f (s.ahead doc).span) s' := by
  have hspan : (Node.make f (s.ahead doc).span).span = (s.ahead doc).span :=
    (make_spans f _).eq (by simp [hparts])
  refine { h with
    explained := ?_, drift := fun q => ?_, start_eq := fun _ => ?_, stop_eq := fun q => ?_ }
  · have hleaf := errors_of_form (make_form f (s.ahead doc).span) (Form.isLoose_of_isOrdinary hf)
    rw [errorsIn_cons, errorsIn_nil, hleaf, hparts]
    exact h.explained
  · have hd := h.drift q
    refine { hd with lies := List.forall_mem_singleton.2 ?_ }
    refine lies_make (by simp [hparts]) q.neat.pos_le_front ?_ (packed_of_isOrdinary hf)
    exact hpos q ▸ hd.neat.pos_le_front
  · exact congrArg Span.start hspan
  · exact (congrArg Span.stop hspan).trans (hpos q).symm

end

/-! ## Judgment -/

/-- However `p` ends, the open list stays as it was at `s₀` and no report is taken back. -/
abbrev Answers {α : Type} (doc : Document) (s₀ : State) (p : Parser α) (s : State)
    (Q : α → State → Prop) : Prop :=
  Runs doc (fun _ => Upholds s₀) p s Q

/-- The parser reads these nodes of its result. -/
def Gathers {α : Type} (doc : Document) (p : Parser α) (s : State) (nodes : α → List Node) : Prop :=
  s.Tidy → Answers doc s p s fun a s' => Accounts doc s (nodes a) s'

/-- The parser reads these names of its result, and no node. -/
def Picks {α : Type} (doc : Document) (p : Parser α) (s : State) (names : α → List Name) : Prop :=
  s.Tidy → Answers doc s p s fun a s' => Mentions doc s [] (names a) s'

/-- The parser reads no node. -/
class Silent {α : Type} (p : Parser α) : Prop where
  silent : ∀ doc s, Gathers doc p s fun _ => []

section

variable {α β σ : Type} {doc : Document} {s₀ s : State} {xs : List Node} {names : List Name}
  {p : Parser α} {f : α → Parser β} {nodes : α → List Node} {R : α → State → Prop}
  {Q : β → State → Prop}

/-- A parser of which anything is known. -/
theorem Explains.bind (h : Explains s₀ xs s) (hp : Answers doc s p s R)
    (hf : ∀ a s', R a s' → Answers doc s₀ (f a) s' Q) : Answers doc s₀ (p >>= f) s Q :=
  (hp.imp_fail fun _ _ => h.upholds.trans).bind hf

/-- Some nodes more. -/
theorem Accounts.take (h : Accounts doc s₀ xs s) (hp : Gathers doc p s nodes)
    (hf : ∀ a s', Accounts doc s₀ (xs ++ nodes a) s' → Answers doc s₀ (f a) s' Q) :
    Answers doc s₀ (p >>= f) s Q :=
  h.bind (hp h.tidy) fun a s' ha => hf a s' (h.trans ha)

/-- No nodes more. -/
theorem Accounts.step [hp : Silent p] (h : Accounts doc s₀ xs s)
    (hf : ∀ a s', Accounts doc s₀ xs s' → Answers doc s₀ (f a) s' Q) :
    Answers doc s₀ (p >>= f) s Q :=
  h.bind (hp.silent doc s h.tidy) fun a s' ha => hf a s' (h.then ha)

/-- Some names more. -/
theorem Mentions.read {names' : α → List Name} (h : Mentions doc s₀ xs names s)
    (hp : Picks doc p s names')
    (hf : ∀ a s', Mentions doc s₀ xs (names ++ names' a) s' → Answers doc s₀ (f a) s' Q) :
    Answers doc s₀ (p >>= f) s Q :=
  h.bind (hp h.tidy) fun a s' ha => hf a s' (by simpa using h.trans ha)

theorem Mentions.take (h : Mentions doc s₀ xs names s) (hp : Gathers doc p s nodes)
    (hf : ∀ a s', Mentions doc s₀ (xs ++ nodes a) names s' → Answers doc s₀ (f a) s' Q) :
    Answers doc s₀ (p >>= f) s Q :=
  h.bind (hp h.tidy) fun a s' ha => hf a s' (by simpa using h.trans ha.nameless)

theorem Mentions.step [hp : Silent p] (h : Mentions doc s₀ xs names s)
    (hf : ∀ a s', Mentions doc s₀ xs names s' → Answers doc s₀ (f a) s' Q) :
    Answers doc s₀ (p >>= f) s Q :=
  h.bind (hp.silent doc s h.tidy) fun a s' ha => hf a s' (by simpa using h.trans ha.nameless)

/-- The last parser of a sequence. -/
theorem Accounts.last (h : Accounts doc s₀ xs s) (hp : Answers doc s p s R)
    (hR : ∀ a s', R a s' → Accounts doc s₀ (nodes a) s') :
    Answers doc s₀ p s fun a s' => Accounts doc s₀ (nodes a) s' :=
  (hp.imp_fail fun _ _ => h.upholds.trans).imp hR

theorem Gathers.map {g : α → β} {nodes : β → List Node}
    (h : Gathers doc p s fun a => nodes (g a)) : Gathers doc (g <$> p) s nodes := by
  intro ht
  refine Runs.map ?_
  exact h ht

/-- A node that is there. -/
theorem Gathers.present {p : Parser Node} (h : Gathers doc p s fun v => [v]) :
    Gathers doc (some <$> p) s Option.toList := .map h

/-! ### Repeating -/

/-- A loop with an invariant that each round keeps. -/
theorem Answers.repeat {init : σ} {round : σ → Parser (Round σ α)} {I : σ → State → Prop}
    {P : α → State → Prop} (hI : ∀ state s, I state s → Upholds s₀ s) (h : I init s)
    (hround : ∀ state s, I state s → Answers doc s₀ (round state) s (Next I P)) :
    Answers doc s₀ (repeatRounds init round) s P :=
  Runs.loop I hI (hround _ _ h) hround

/-- A loop whose rounds keep what was read in account. -/
theorem Answers.loop {init : σ} {round : σ → Parser (Round σ α)} {P : α → State → Prop}
    (nodes : σ → List Node) (h : Accounts doc s₀ (nodes init) s)
    (hround : ∀ state s, Accounts doc s₀ (nodes state) s → Answers doc s₀ (round state) s
      (Next (fun state => Accounts doc s₀ (nodes state)) P)) :
    Answers doc s₀ (repeatRounds init round) s P :=
  .repeat (fun _ _ h => h.upholds) h hround

/-- A loop whose rounds read names. -/
theorem Mentions.loop {init : σ} {round : σ → Parser (Round σ α)} {P : α → State → Prop}
    (names : σ → List Name) (h : Mentions doc s₀ [] (names init) s)
    (hround : ∀ state s, Mentions doc s₀ [] (names state) s → Answers doc s₀ (round state) s
      (Next (fun state => Mentions doc s₀ [] (names state)) P)) :
    Answers doc s₀ (repeatRounds init round) s P :=
  .repeat (fun _ _ h => h.upholds) h hround

/-- A loop that looks before each round. -/
theorem Gathers.manyWhile {condition : Parser Bool} {p : Parser Node} (hlook : Looks condition)
    (hp : ∀ s', condition doc s' = .ok true s' → Gathers doc p s' fun v => [v]) :
    Gathers doc (manyWhile condition p) s id := by
  intro ht
  refine Answers.loop Array.toList (.refl ht) fun items s₁ h => .look hlook fun b hb => ?_
  cases b with
  | false => exact h
  | true =>
    rw [if_pos rfl]
    exact h.bind (hp s₁ hb h.tidy) fun v s₂ hv => h.push hv

end

end ShellAnalysis.Parse
