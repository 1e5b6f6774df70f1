import ShellAnalysis.Proofs.Built.Tree
import ShellAnalysis.Proofs.StatementLists

/-!
# What parsers give

    Gives doc p s Q       `p` started in `s` gives what `Q` says, or stops
    Leaves doc p s Q      the same, and `p` leaves the construct around it

Both are of the form `Turns doc change p s Q`.  However `p` ends, the open list
of statements stays as it was (`Rests`); if it gives a result, what surrounds the
position has changed as `change` says, so every production that gives a result
comes back to the nesting it started in.

Nothing is said of progress: a loop that runs out of rounds stops.  A parser of
which only this much is known is `Tame`, which is found by instance search.
-/

namespace ShellAnalysis.Parse

open Text Node

/-! ## Judgment -/

/-- Only heredoc bodies wait for a statement list. -/
def State.Tidy (s : State) : Prop := ∀ b ∈ s.bodies, b.IsBody

/-- The open list is left alone, and the state stays tidy. -/
structure Rests (s s' : State) : Prop where
  statements : s'.statements = s.statements
  tidy : s'.Tidy

theorem State.Tidy.rests {s : State} (h : s.Tidy) : Rests s s := ⟨rfl, h⟩

theorem Rests.trans {s₁ s₂ s₃ : State} (h : Rests s₁ s₂) (h' : Rests s₂ s₃) : Rests s₁ s₃ :=
  ⟨h'.statements.trans h.statements, h'.tidy⟩

/-- One construct further in. -/
def Nesting.inward (n : Nesting) : Nesting := { n with depth := n.depth + 1 }

/-- One construct further out. -/
def Nesting.outward (n : Nesting) : Nesting := { n with depth := n.depth - 1 }

/-- However `p` ends from `s`, the open list stays; with a result, which is as `Q` says, the nesting
has changed. -/
def Turns {α : Type} (doc : Document) (change : Nesting → Nesting) (p : Parser α) (s : State)
    (Q : α → Prop) : Prop :=
  s.Tidy →
    Runs doc (fun _ => Rests s) p s fun a s' => Rests s s' ∧ s'.nesting = change s.nesting ∧ Q a

/-- A parser that comes back to the nesting it started in. -/
abbrev Gives {α : Type} (doc : Document) (p : Parser α) (s : State) (Q : α → Prop) : Prop :=
  Turns doc id p s Q

/-- A parser that leaves the construct around it. -/
abbrev Leaves {α : Type} (doc : Document) (p : Parser α) (s : State) (Q : α → Prop) : Prop :=
  Turns doc Nesting.outward p s Q

/-- Nothing is known of the result. -/
class Tame {α : Type} (p : Parser α) : Prop where
  tame : ∀ doc s, Gives doc p s fun _ => True

section

variable {α β σ : Type} {doc : Document} {change change' : Nesting → Nesting} {p : Parser α}
  {f : α → Parser β} {s : State} {Q R : α → Prop} {Q' : β → Prop}

theorem Turns.pure {a : α} (h : Q a) : Gives doc (Pure.pure a) s Q :=
  fun ht => ⟨ht.rests, rfl, h⟩

theorem Turns.imp (h : Turns doc change p s R) (hR : ∀ a, R a → Q a) : Turns doc change p s Q :=
  fun ht => (h ht).imp fun a _ ha => ⟨ha.1, ha.2.1, hR a ha.2.2⟩

/-- Two parsers one after the other change the nesting one after the other. -/
theorem Turns.bindTurns (h : Turns doc change p s R)
    (hf : ∀ a s', R a → Turns doc change' (f a) s' Q') :
    Turns doc (change' ∘ change) (p >>= f) s Q' := by
  refine fun ht => (h ht).bind fun a s' ⟨hrests, hnesting, ha⟩ => ?_
  refine ((hf a s' ha hrests.tidy).imp_fail fun _ _ => hrests.trans).imp
    fun b s'' ⟨hrests', hchange, hb⟩ => ?_
  exact ⟨hrests.trans hrests', hchange.trans (congrArg change' hnesting), hb⟩

theorem Turns.bind (h : Gives doc p s R) (hf : ∀ a s', R a → Turns doc change (f a) s' Q') :
    Turns doc change (p >>= f) s Q' := h.bindTurns hf

theorem Turns.bindGives (h : Turns doc change p s R) (hf : ∀ a s', R a → Gives doc (f a) s' Q') :
    Turns doc change (p >>= f) s Q' := h.bindTurns hf

/-- A construct is entered and left. -/
theorem Turns.enter (h : Turns doc Nesting.inward p s R)
    (hf : ∀ a s', R a → Leaves doc (f a) s' Q') : Gives doc (p >>= f) s Q' := h.bindTurns hf

theorem Turns.map {g : α → β} (h : Turns doc change p s fun a => Q' (g a)) :
    Turns doc change (g <$> p) s Q' := fun ht => (h ht).map

/-- A result that is there. -/
theorem Turns.present (h : Turns doc change p s Q) :
    Turns doc change (some <$> p) s fun a? => ∀ a ∈ a?.toList, Q a :=
  .map (h.imp fun _ ha => List.forall_mem_singleton.2 ha)

/-- A result of which nothing is needed. -/
theorem Turns.step [hp : Tame p] (hf : ∀ a s', Turns doc change (f a) s' Q') :
    Turns doc change (p >>= f) s Q' :=
  (hp.tame doc s).bind fun a s' _ => hf a s'

/-- A look at the state, and what was seen. -/
theorem Turns.look (hp : Looks p) (hf : ∀ a, p doc s = .ok a s → Turns doc change (f a) s Q') :
    Turns doc change (p >>= f) s Q' := fun ht => .look hp fun a ha => hf a ha ht

theorem Turns.ascend {f : Unit → Parser β} (hf : ∀ s', Gives doc (f ()) s' Q') :
    Leaves doc (ascend >>= f) s Q' := by
  intro ht
  have hrests : ∀ {s'}, Rests { s with nesting := s.nesting.outward } s' → Rests s s' :=
    fun h => ⟨h.statements, h.tidy⟩
  have h := hf { s with nesting := s.nesting.outward } ht
  exact Runs.imp_fail (h.imp fun b s' hb => ⟨hrests hb.1, hb.2⟩) fun _ _ => hrests

/-! ## Repeating -/

/-- After a round: the invariant if the loop goes on, the promise if it is done. -/
def Next (I : σ → State → Prop) (P : α → State → Prop) : Round σ α → State → Prop
  | .again state, s => I state s
  | .finish a, s => P a s

/-- A loop keeps what its rounds keep.  The first round may start from something else. -/
theorem Runs.loop {fail : Stopped → State → Prop} {init : σ} {round : σ → Parser (Round σ α)}
    {P : α → State → Prop} (I : σ → State → Prop) (hfail : ∀ state s, I state s → fail .fault s)
    (hfirst : Runs doc fail (round init) s (Next I P))
    (hround : ∀ state s, I state s → Runs doc fail (round state) s (Next I P)) :
    Runs doc fail (Parse.repeatRounds init round) s P := by
  have hrounds : ∀ fuel state s, I state s → Runs doc fail (Parse.rounds round fuel state) s P := by
    intro fuel
    induction fuel with
    | zero => exact fun state s hI => hfail state s hI
    | succ fuel ih =>
      intro state s hI
      refine (hround state s hI).bind fun r s' hr => ?_
      cases r with
      | again state' => exact ih state' s' hr
      | finish a => exact hr
  show Runs doc fail (Parse.rounds round (size doc.text - s.pos + 1) init) s P
  unfold Parse.rounds
  refine hfirst.bind fun r s' hr => ?_
  cases r with
  | again state => exact hrounds _ state s' hr
  | finish a => exact hr

/-- A loop that looks before each round. -/
theorem Runs.whileLoop {fail : Stopped → State → Prop} {condition : Parser Bool}
    {action : Parser Unit} (I : State → Prop) (hfail : ∀ s, I s → fail .fault s)
    (hlook : Looks condition) (haction : ∀ s, I s → Runs doc fail action s fun _ => I) (hI : I s) :
    Runs doc fail (Parse.whileHolds condition action) s fun _ => I := by
  have hround : ∀ s, I s → Runs doc fail (do
      if ← condition then
        action
        return .again ()
      else return .finish () : Parser (Round Unit Unit)) s (Next (fun _ => I) fun _ => I) := by
    intro s hI
    refine .look hlook fun b _ => ?_
    split
    · exact (haction s hI).bind fun _ _ h => h
    · exact hI
  exact Runs.loop (fun _ => I) (fun _ => hfail) (hround s hI) fun _ => hround

theorem forall_mem_push {P : α → Prop} {xs : Array α} {x : α} (hxs : ∀ y ∈ xs.toList, P y)
    (hx : P x) : ∀ y ∈ (xs.push x).toList, P y := by
  rw [Array.toList_push, List.forall_mem_append, List.forall_mem_singleton]
  exact ⟨hxs, hx⟩

/-- What a round gives: the invariant, or the result. -/
def Brings (I : σ → Prop) (Q : α → Prop) : Round σ α → Prop
  | .again state => I state
  | .finish a => Q a

theorem Turns.loopFrom {init : σ} {round : σ → Parser (Round σ α)} (I : σ → Prop)
    (hfirst : Gives doc (round init) s (Brings I Q))
    (hround : ∀ state s, I state → Gives doc (round state) s (Brings I Q)) :
    Gives doc (repeatRounds init round) s Q := by
  refine fun ht => Runs.loop (fun state s' => Rests s s' ∧ s'.nesting = s.nesting ∧ I state)
    (fun _ _ hI => hI.1) ?_ fun state s' ⟨hrests, hnesting, hI⟩ => ?_
  · refine (hfirst ht).imp fun r s' ⟨hrests, hnesting, hr⟩ => ?_
    cases r <;> exact ⟨hrests, hnesting, hr⟩
  · refine ((hround state s' hI hrests.tidy).imp_fail fun _ _ => hrests.trans).imp
      fun r s'' ⟨hrests', hnesting', hr⟩ => ?_
    cases r <;> exact ⟨hrests.trans hrests', hnesting'.trans hnesting, hr⟩

theorem Turns.loop {init : σ} {round : σ → Parser (Round σ α)} (I : σ → Prop) (hinit : I init)
    (hround : ∀ state s, I state → Gives doc (round state) s (Brings I Q)) :
    Gives doc (repeatRounds init round) s Q :=
  .loopFrom I (hround init s hinit) hround

/-- A loop that looks before each round collects what its rounds give, and does so at least once if
it sees what it looks for. -/
theorem Turns.manyWhile {condition : Parser Bool} (hlook : Looks condition)
    (hp : ∀ s', condition doc s' = .ok true s' → Gives doc p s' Q) :
    Gives doc (manyWhile condition p) s fun xs =>
      (∀ x ∈ xs, Q x) ∧ (condition doc s = .ok true s → xs ≠ []) := by
  have hround : ∀ (items : Array α) s', (∀ x ∈ items.toList, Q x) →
      (condition doc s' = .ok false s' → condition doc s = .ok true s → items.toList ≠ []) →
      Gives doc (do
        if ← condition then return .again (items.push (← p))
        else return .finish items.toList : Parser (Round (Array α) (List α))) s'
        (Brings (fun items => (∀ x ∈ items.toList, Q x) ∧ items.toList ≠ []) fun xs =>
          (∀ x ∈ xs, Q x) ∧ (condition doc s = .ok true s → xs ≠ [])) := by
    intro items s' hitems hdone
    refine .look hlook fun b hb => ?_
    cases b with
    | true =>
      rw [if_pos rfl]
      exact (hp s' hb).bind fun a _ ha => .pure ⟨forall_mem_push hitems ha, by simp⟩
    | false =>
      rw [if_neg (by simp)]
      exact .pure ⟨hitems, hdone hb⟩
  refine .loopFrom (fun items => (∀ x ∈ items.toList, Q x) ∧ items.toList ≠ []) ?_
    fun items s' hitems => hround items s' hitems.1 fun _ _ => hitems.2
  exact hround #[] s nofun fun hb hfirst => nomatch hb.symm.trans hfirst

/-! ## Brackets -/

/-- A nesting that can be changed back is changed back. -/
theorem Turns.within {enter : Nesting → Nesting} {leave : Nesting → Option Nesting}
    (hleave : leave (enter s.nesting) = some s.nesting)
    (h : ∀ s', Gives doc p s' Q) : Gives doc (within enter leave p) s Q := by
  intro ht
  have hp := h { s with nesting := enter s.nesting } ht
  have hback : ∀ {s' : State} (n : Nesting), Rests { s with nesting := enter s.nesting } s' →
      Rests s { s' with nesting := n } := fun _ hrests => ⟨hrests.statements, hrests.tidy⟩
  unfold Runs at hp ⊢
  unfold Parse.within
  cases hrun : p doc { s with nesting := enter s.nesting } with
  | ok a s' =>
    rw [hrun] at hp
    obtain ⟨hrests, hnesting, ha⟩ := hp
    have hnesting : s'.nesting = enter s.nesting := hnesting
    simp only [hnesting, hleave]
    exact ⟨hback _ hrests, rfl, ha⟩
  | error e s' =>
    rw [hrun] at hp
    simp only
    cases leave s'.nesting with
    | none => exact hback s'.nesting hp
    | some n => exact hback n hp

theorem Turns.skippingNewlines (h : ∀ s', Gives doc p s' Q) :
    Gives doc (skippingNewlines p) s Q := .within rfl h

theorem Turns.insideBackticks (h : ∀ s', Gives doc p s' Q) :
    Gives doc (insideBackticks p) s Q := .within rfl h

theorem Turns.withNewlines (h : ∀ s', Gives doc p s' Q) : Gives doc (withNewlines p) s Q :=
  (Turns.within rfl h : Gives doc (Parse.within (fun n => { n with newlineSkip := 0 })
    (fun n => some { n with newlineSkip := s.nesting.newlineSkip }) p) s Q)

end

/-! ## Tame parsers -/

section

variable {α β σ : Type} {p q : Parser α} {f : α → Parser β}

instance Tame.of_looks [h : Looking p] : Tame p where
  tame doc s := by
    intro ht
    obtain ⟨a, ha⟩ := h.looks doc s
    unfold Runs
    rw [ha]
    exact ⟨ht.rests, rfl, trivial⟩

instance Tame.pure (a : α) : Tame (Pure.pure a : Parser α) := .of_looks

instance Tame.bind [hp : Tame p] [k : ∀ a, Tame (f a)] : Tame (p >>= f) :=
  ⟨fun doc s => (hp.tame doc s).bind fun a s' _ => (k a).tame doc s'⟩

instance Tame.map {g : α → β} [hp : Tame p] : Tame (g <$> p) := ⟨fun doc s => (hp.tame doc s).map⟩

instance Tame.discard [Tame p] : Tame (discard p) :=
  inferInstanceAs (Tame ((fun _ => ()) <$> p))

instance Tame.ite {c : Prop} [Decidable c] [y : Tame p] [n : Tame q] :
    Tame (if c then p else q) := by
  split
  · exact y
  · exact n

instance Tame.repeatRounds {init : σ} {round : σ → Parser (Round σ α)}
    [k : ∀ state, Tame (round state)] : Tame (repeatRounds init round) where
  tame doc s := by
    refine .loop (fun _ => True) trivial fun state s' _ => ((k state).tame doc s').imp fun r _ => ?_
    cases r <;> exact trivial

instance Tame.whileHolds {condition : Parser Bool} {action : Parser Unit} [Tame condition]
    [Tame action] : Tame (whileHolds condition action) := by
  unfold Parse.whileHolds
  infer_instance

end

instance (i : Nat) : Tame (setPosition i) := ⟨fun _ _ ht => ⟨⟨rfl, ht⟩, rfl, trivial⟩⟩
instance (d : Diagnostic) : Tame (report d) := ⟨fun _ _ ht => ⟨⟨rfl, ht⟩, rfl, trivial⟩⟩

instance {α : Type} (error : LimitError) : Tame (stopWith error : Parser α) :=
  ⟨fun _ _ ht => ht.rests⟩

/-- The value that was there. -/
theorem orFault_gives {α : Type} {doc : Document} {s : State} (a? : Option α) :
    Gives doc (orFault a?) s fun a => a? = some a := by
  cases a? with
  | none => exact fun ht => ht.rests
  | some a => exact .pure rfl

instance {α : Type} (a? : Option α) : Tame (orFault a?) :=
  ⟨fun _ _ => (orFault_gives a?).imp fun _ _ => trivial⟩

instance : Tame positionInText := by
  unfold positionInText
  infer_instance

instance : Tame skipLineBreak := by
  unfold skipLineBreak
  infer_instance

instance (body : Heredoc.Body) : Tame (leaveBody body) := by
  unfold leaveBody
  split <;> infer_instance

/-- Only the nesting, the list and the bodies matter. -/
theorem tame_modify (change : State → State)
    (hstatements : ∀ s, (change s).statements = s.statements)
    (hbodies : ∀ s, (change s).bodies = s.bodies) (hnesting : ∀ s, (change s).nesting = s.nesting) :
    Tame (modify change : Parser Unit) where
  tame _ s ht := ⟨⟨hstatements s, fun b hb => ht b (hbodies s ▸ hb)⟩, hnesting s, trivial⟩

instance : Tame countToken := by
  have := tame_modify (fun s => { s with tokens := s.tokens + 1 }) (fun _ => rfl) (fun _ => rfl)
    (fun _ => rfl)
  unfold countToken
  infer_instance

instance : Tame countIteration := by
  have := tame_modify (fun s => { s with iterations := s.iterations + 1 }) (fun _ => rfl)
    (fun _ => rfl) (fun _ => rfl)
  unfold countIteration
  infer_instance

instance (what : String) : Tame (reportExpected what) := by
  unfold reportExpected
  infer_instance

instance (found : Bool) (what : String) : Tame (require found what) := by
  unfold require
  infer_instance

instance (h : Heredoc) (body : Heredoc.Body) (span : Span) : Tame (reportUnclosed h body span) := by
  unfold reportUnclosed
  infer_instance

/-- A heredoc body waits. -/
theorem tame_holdBody {node : Node} (hbody : node.IsBody) : Tame (holdBody node) := by
  have : Tame (modify fun s : State => { s with bodies := s.bodies ++ [node] } : Parser Unit) := by
    refine ⟨fun _ s ht => ⟨⟨rfl, ?_⟩, rfl, trivial⟩⟩
    exact List.forall_mem_append.2 ⟨ht, List.forall_mem_singleton.2 hbody⟩
  unfold holdBody
  infer_instance

instance (h : Heredoc) : Tame (readBody h) := by
  have : ∀ (text : String) (closed : Bool) (span : Span),
      Tame (holdBody (.make (.heredocBody h.delimiter text closed) span)) :=
    fun _ _ _ => tame_holdBody trivial
  unfold readBody
  refine Tame.bind (k := fun _ => Tame.bind (k := fun start => ?_))
  infer_instance

instance (hs : List Heredoc) : Tame (readBodies hs) := by
  induction hs with
  | nil => exact Tame.pure ()
  | cons h hs ih =>
    unfold readBodies
    infer_instance

instance : Tame readPending := by
  have := tame_modify (fun s => { s with pending := [] }) (fun _ => rfl) (fun _ => rfl)
    (fun _ => rfl)
  unfold readPending
  infer_instance

instance : Tame bump := by
  unfold bump
  infer_instance

instance (count : Nat) : Tame (skipTokens count) := by
  induction count with
  | zero => exact Tame.pure ()
  | succ count ih =>
    unfold skipTokens
    infer_instance

instance (i : Nat) : Tame (advanceTo i) := by
  unfold advanceTo
  infer_instance

instance (kind : TokenKind) : Tame (eat kind) := by
  unfold eat
  infer_instance

instance (word : String) : Tame (eatKeyword word) := by
  unfold eatKeyword
  infer_instance

instance (kind : TokenKind) (what : String) : Tame (expect kind what) := by
  unfold expect
  infer_instance

instance (word : String) : Tame (expectKeyword word) := by
  unfold expectKeyword
  infer_instance

instance : Tame skipNewlines := by
  unfold skipNewlines
  infer_instance

/-! ## Steps -/

section

variable {β : Type} {doc : Document} {change : Nesting → Nesting} {s : State} {Q : β → Prop}

theorem Turns.source {f : String → Parser β} (h : Turns doc change (f doc.text) s Q) :
    Turns doc change (source >>= f) s Q := h

theorem Turns.get {f : State → Parser β} (h : Turns doc change (f s) s Q) :
    Turns doc change (get >>= f) s Q := h

theorem Turns.current {f : Token → Parser β} (h : Turns doc change (f (s.ahead doc)) s Q) :
    Turns doc change (current >>= f) s Q := h

theorem Turns.currentKind {f : TokenKind → Parser β}
    (h : Turns doc change (f (s.ahead doc).kind) s Q) :
    Turns doc change (currentKind >>= f) s Q := h

theorem Turns.tokenText {t : Token} {f : String → Parser β}
    (h : Turns doc change (f (t.text doc.text)) s Q) :
    Turns doc change (tokenText t >>= f) s Q := h

/-- A piece of the text under a span. -/
theorem pieceOf_gives (span : Span) : Gives doc (pieceOf span) s fun piece =>
    slice? doc.text span.start span.stop = some piece := .source (orFault_gives _)

theorem between_gives (i j : Nat) : Gives doc (orFault (Span.between? i j)) s fun span =>
    span.start = i ∧ span.stop = j := by
  refine (orFault_gives _).imp fun span hspan => ?_
  obtain ⟨hle, rfl⟩ := Span.of_between? hspan
  exact ⟨rfl, Span.stop_upTo hle⟩

/-- The token that is consumed is the one ahead. -/
theorem bump_gives : Gives doc bump s fun t => t = s.ahead doc := by
  intro ht
  have hcount : Runs doc (fun _ => Rests s) countToken s fun _ s₁ =>
      Rests s s₁ ∧ s₁.nesting = s.nesting ∧ s₁.ahead doc = s.ahead doc := by
    show Runs doc _ (if doc.limits.tokens < s.tokens + 1 then _ else _) _ _
    split
    · exact ⟨rfl, ht⟩
    · exact ⟨⟨rfl, ht⟩, rfl, rfl⟩
  refine hcount.bind fun _ s₁ ⟨hrests, hnesting, hahead⟩ => ?_
  have hrest : Gives doc (do
      let t ← current
      setPosition t.span.stop
      if t.kind == .newline then readPending
      return t) s₁ fun t => t = s₁.ahead doc := by
    refine .current (.step fun _ s₂ => ?_)
    split
    · exact .step fun _ _ => .pure rfl
    · exact .pure rfl
  refine Runs.imp_fail ((hrest hrests.tidy).imp fun t s₂ ⟨hrests', hnesting', ht⟩ => ?_)
    fun _ _ => hrests.trans
  exact ⟨hrests.trans hrests', hnesting'.trans hnesting, ht.trans hahead⟩

/-- A token that is passed over as something that does not fit. -/
theorem forceAdvance_gives {h : Nat} (what : String) (hpos : 0 < h) :
    Gives doc (forceAdvance what) s fun v => Built doc.text h v ∧ v.form = .error :=
  .step fun _ _ => .step fun t _ => .pure ⟨(built_error t.span).mono hpos, rfl⟩

theorem missing_gives {h : Nat} (what : String) (hpos : 0 < h) :
    Gives doc (missing what) s (Built doc.text h) :=
  .step fun _ _ => .step fun i _ => .pure ((built_error (.empty i)).mono hpos)

end

/-! ## Levels -/

/-- All of the nodes are built. -/
abbrev AllBuilt (text : String) (h : Nat) (xs : List Node) : Prop := ∀ x ∈ xs, Built text h x

theorem AllBuilt.push {text : String} {h : Nat} {xs : Array Node} {x : Node}
    (hxs : AllBuilt text h xs.toList) (hx : Built text h x) : AllBuilt text h (xs.push x).toList :=
  forall_mem_push hxs hx

theorem allBuilt_nil {text : String} {h : Nat} : AllBuilt text h (#[] : Array Node).toList := nofun

/-- The productions of a level build trees of this height at most.  Words are read only where there
is something to read. -/
structure Grammar.Builds (doc : Document) (h : Nat) (g : Grammar) : Prop where
  pos : 0 < h
  statements : ∀ stops stopAfterBlock s,
    Gives doc (g.statements stops stopAfterBlock) s (AllBuilt doc.text h)
  expression : ∀ power s, Gives doc (g.expression power) s (Built doc.text h)
  operators : ∀ power s, Leaves doc (g.operators power) s (Built doc.text h)
  word : ∀ s, (s.ahead doc).kind ≠ .eof → Gives doc g.word s (Built doc.text h)
  stringLiteral : ∀ s, Gives doc g.stringLiteral s (Built doc.text h)
  block : ∀ s, Gives doc g.block s (Built doc.text h)

/-- The way to a level that builds trees of this height. -/
def Opens (doc : Document) (h : Nat) (enter : Parser Grammar) : Prop :=
  ∀ s, Turns doc Nesting.inward enter s (Grammar.Builds doc h)

end ShellAnalysis.Parse
