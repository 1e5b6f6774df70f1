import ShellAnalysis.Parse.Statement
import ShellAnalysis.Proofs.Scanning

/-!
# Every way a parser can end

    Runs doc fail p s Q

says of a parser `p` started in the state `s`: if it gives a result, `Q` holds
of the result and the new state; if it stops, `fail` holds of the reason and
the state in which it stopped.  There is one rule for each way parsers are put
together, and for the loops: a loop whose every round keeps an invariant and
consumes something ends (`Runs.repeatRounds`).

`Looks p` says that `p` only looks: it changes nothing and never stops.
-/

namespace ShellAnalysis.Parse

open Text (size)

/-! ## Judgment -/

/-- However `p` ends from `s`: with a result as `Q` says, or stopped as `fail` says. -/
def Runs {α : Type} (doc : Document) (fail : Stopped → State → Prop) (p : Parser α) (s : State)
    (Q : α → State → Prop) : Prop :=
  match p doc s with
  | .ok a s' => Q a s'
  | .error e s' => fail e s'

section

variable {α β : Type} {doc : Document} {fail fail' : Stopped → State → Prop} {p : Parser α}
  {f : α → Parser β} {s : State} {Q R : α → State → Prop} {Q' : β → State → Prop}

theorem Runs.pure {a : α} (h : Q a s) : Runs doc fail (Pure.pure a) s Q := h

theorem Runs.bind (h : Runs doc fail p s R)
    (hf : ∀ a s', R a s' → Runs doc fail (f a) s' Q') : Runs doc fail (p >>= f) s Q' := by
  unfold Runs at h ⊢
  show match EStateM.bind (p doc) (fun a => f a doc) s with
    | .ok a s' => Q' a s'
    | .error e s' => fail e s'
  unfold EStateM.bind
  cases hp : p doc s with
  | ok a s' =>
    rw [hp] at h
    exact hf a s' h
  | error e s' =>
    rw [hp] at h
    exact h

theorem Runs.map {g : α → β} (h : Runs doc fail p s fun a s' => Q' (g a) s') :
    Runs doc fail (g <$> p) s Q' := by
  unfold Runs at h ⊢
  show match EStateM.map g (p doc) s with
    | .ok a s' => Q' a s'
    | .error e s' => fail e s'
  unfold EStateM.map
  cases hp : p doc s with
  | ok a s' =>
    rw [hp] at h
    exact h
  | error e s' =>
    rw [hp] at h
    exact h

theorem Runs.imp (h : Runs doc fail p s R) (hR : ∀ a s', R a s' → Q a s') :
    Runs doc fail p s Q := by
  unfold Runs at h ⊢
  split <;> simp_all

theorem Runs.imp_fail (h : Runs doc fail p s Q) (hfail : ∀ e s', fail e s' → fail' e s') :
    Runs doc fail' p s Q := by
  unfold Runs at h ⊢
  split <;> simp_all

/-- What is known of a result that was given. -/
theorem Runs.of_ok {a : α} {s' : State} (h : Runs doc fail p s Q) (hp : p doc s = .ok a s') :
    Q a s' := by
  unfold Runs at h
  rw [hp] at h
  exact h

/-- A result is thrown away. -/
theorem Runs.discard {Q : Unit → State → Prop} (h : Runs doc fail p s fun _ s' => Q () s') :
    Runs doc fail (discard p) s Q :=
  (Runs.map h : Runs doc fail ((fun _ => ()) <$> p) s Q)

/-! ## Looking -/

/-- The parser changes nothing and does not stop. -/
def Looks (p : Parser α) : Prop := ∀ doc s, ∃ a, p doc s = .ok a s

theorem Runs.look (hp : Looks p)
    (hf : ∀ a, p doc s = .ok a s → Runs doc fail (f a) s Q') : Runs doc fail (p >>= f) s Q' := by
  obtain ⟨a, ha⟩ := hp doc s
  refine Runs.bind (R := fun a' s' => a' = a ∧ s' = s) ?_ ?_
  · unfold Runs
    rw [ha]
    exact ⟨rfl, rfl⟩
  · rintro _ _ ⟨rfl, rfl⟩
    exact hf _ ha

theorem Looks.pure (a : α) : Looks (Pure.pure a : Parser α) := fun _ _ => ⟨a, rfl⟩

theorem Looks.bind (hp : Looks p) (hf : ∀ a, Looks (f a)) : Looks (p >>= f) := by
  intro doc s
  obtain ⟨a, ha⟩ := hp doc s
  obtain ⟨b, hb⟩ := hf a doc s
  refine ⟨b, ?_⟩
  show EStateM.bind (p doc) (fun a => f a doc) s = _
  unfold EStateM.bind
  rw [ha]
  exact hb

/-- A parser of which it is known that it only looks, for instance search. -/
class Looking (p : Parser α) : Prop where
  looks : Looks p

instance Looking.pure (a : α) : Looking (Pure.pure a : Parser α) := ⟨.pure a⟩

/-! ## Repeating -/

/-- After a round that goes on the invariant holds and something was consumed. -/
def Goes {σ : Type} (I : σ → State → Prop) (Q : α → State → Prop) (s : State) :
    Round σ α → State → Prop
  | .again state, s' => I state s' ∧ s.pos < s'.pos
  | .finish a, s' => Q a s'

/-- What was consumed before a round counts for it. -/
theorem Goes.since {σ : Type} {I : σ → State → Prop} {r : Round σ α} {s₁ s' : State}
    (h : Goes I Q s₁ r s') (hle : s.pos ≤ s₁.pos) : Goes I Q s r s' := by
  cases r with
  | again => exact ⟨h.1, Nat.lt_of_le_of_lt hle h.2⟩
  | finish => exact h

theorem Runs.rounds {σ : Type} {round : σ → Parser (Round σ α)} {I : σ → State → Prop}
    (hpos : ∀ state s, I state s → s.pos ≤ size doc.text)
    (hround : ∀ state s, I state s → Runs doc fail (round state) s (Goes I Q s)) :
    ∀ fuel state s, I state s → size doc.text - s.pos < fuel →
      Runs doc fail (rounds round fuel state) s Q := by
  intro fuel
  induction fuel with
  | zero => intro _ _ _ hfuel; omega
  | succ fuel ih =>
    intro state s hI hfuel
    refine (hround state s hI).bind fun r s' hr => ?_
    cases r with
    | again state' =>
      obtain ⟨hI', hlt⟩ := hr
      have := hpos state' s' hI'
      exact ih state' s' hI' (by omega)
    | finish a => exact hr

/-- A loop whose rounds keep an invariant, and consume something unless they finish, ends. -/
theorem Runs.repeatRounds {σ : Type} {init : σ} {round : σ → Parser (Round σ α)}
    (I : σ → State → Prop) (hpos : ∀ state s, I state s → s.pos ≤ size doc.text)
    (hinit : I init s)
    (hround : ∀ state s, I state s → Runs doc fail (round state) s (Goes I Q s)) :
    Runs doc fail (repeatRounds init round) s Q :=
  Runs.rounds hpos hround _ init s hinit (Nat.lt_succ_self _)

end

section

variable {α : Type} {doc : Document} {fail : Stopped → State → Prop} {s : State}
  {condition : Parser Bool}

/-- A loop that looks before each round. -/
theorem Runs.whileHolds {action : Parser Unit} (I : State → Prop)
    (hpos : ∀ s, I s → s.pos ≤ size doc.text) (hlook : Looks condition) (hinit : I s)
    (haction : ∀ s, I s → condition doc s = .ok true s →
      Runs doc fail action s fun _ s' => I s' ∧ s.pos < s'.pos) :
    Runs doc fail (whileHolds condition action) s fun _ s' =>
      I s' ∧ condition doc s' = .ok false s' := by
  refine Runs.repeatRounds (fun _ => I) (fun _ => hpos) hinit fun _ s hI => ?_
  refine .look hlook fun b hb => ?_
  cases b with
  | true =>
    rw [if_pos rfl]
    exact (haction s hI hb).bind fun _ s' h => h
  | false =>
    rw [if_neg (by simp)]
    exact ⟨hI, hb⟩

/-- A loop that looks before each round and collects results. -/
theorem Runs.manyWhile {item : Parser α} (I : List α → State → Prop)
    (hpos : ∀ items s, I items s → s.pos ≤ size doc.text) (hlook : Looks condition)
    (hinit : I [] s)
    (hitem : ∀ items s, I items s → condition doc s = .ok true s →
      Runs doc fail item s fun a s' => I (items ++ [a]) s' ∧ s.pos < s'.pos) :
    Runs doc fail (manyWhile condition item) s fun items s' =>
      I items s' ∧ condition doc s' = .ok false s' := by
  refine Runs.repeatRounds (fun items => I items.toList) (fun items => hpos items.toList) hinit
    fun items s hI => ?_
  refine .look hlook fun b hb => ?_
  cases b with
  | true =>
    rw [if_pos rfl]
    refine (hitem items.toList s hI hb).bind fun a s' h => ?_
    refine ⟨?_, h.2⟩
    show I (items.push a).toList s'
    rw [Array.toList_push]
    exact h.1
  | false =>
    rw [if_neg (by simp)]
    exact ⟨hI, hb⟩

end

end ShellAnalysis.Parse
