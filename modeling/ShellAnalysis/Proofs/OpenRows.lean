import ShellAnalysis.Proofs.StatementLists

/-!
# The row of an open statement list

The statements of a list are a row that grows at its end.  A heredoc body that
waits is put behind the last statement or into it (`Open.place`).  A body that
was read before the last statement ended never goes behind it, so bodies come
into the row in the order of the text.

`Open` is what a statement list keeps.  From it follow the promises of every
level of the grammar (`enters_level`).
-/

namespace ShellAnalysis.Node

open Text

section

variable {b : Node}

/-! ## Bodies -/

theorem heredocs_of_isBody (h : b.IsBody) : b.form.heredocs = [] ∧ b.form.spine = [] ∧
    b.takeBlock? = some none := by
  obtain ⟨span, form⟩ := b
  obtain ⟨_, _, _, rfl⟩ := isBody_iff.1 h
  exact ⟨rfl, rfl, rfl⟩

theorem keys_of_isBody (h : b.IsBody) : b.form.keys = [] := by
  obtain ⟨_, _, _, hform⟩ := isBody_iff.1 h
  rw [hform]
  rfl

end

section

variable {text : String} {lo hi edge : Nat} {held init : List Node} {b v w v' w' : Node}

/-! ## The last node of a row -/

/-- The last node of a row is replaced by one that lies where it does. -/
theorem Row.replace (h : Row text lo held hi edge (init ++ [v])) (hstart : StartsLike v w)
    (hend : EndsLike v w) (hw : w.Sound text) (hkeys : w.form.keys = []) :
    Row text lo held hi edge (init ++ [w]) where
  sound := forall_mem_replace h.sound fun _ => hw
  late := forall_mem_replace h.late fun hlate => by
    rw [hstart.start_eq]
    exact hlate.imp_right fun ⟨hearly, hheld⟩ => ⟨hearly.imp hstart.early hstart.body, hheld⟩
  done := forall_mem_replace h.done fun hdone => by
    rw [hend.stop_eq]
    exact hdone.imp_right fun ⟨hlate, hedge⟩ => ⟨hend.late hlate, hedge⟩
  keys := forall_mem_replace h.keys fun _ => by
    rw [hkeys]
    exact nofun
  inOrder := pairwise_replace h.inOrder (fun _ _ hx => hx.startsLike hstart) nofun

/-- What ends where another node does, or with a body, is over when both are. -/
theorem Stretches.done (h : Stretches b v' w') (hb : b.stop ≤ hi)
    (hdone : v'.stop ≤ hi ∨ v'.EndsLate ∧ (v'.stop = edge ∨ v'.stop = size text)) :
    w'.stop ≤ hi ∨ w'.EndsLate ∧ (w'.stop = edge ∨ w'.stop = size text) := by
  have hle := h.le_stop
  have hmax := h.stop_le
  by_cases hover : v'.stop ≤ hi
  · exact .inl (by omega)
  · -- The body is over, so both nodes end at one place.
    have heq : w'.stop = v'.stop := by omega
    obtain ⟨hlate, hedge⟩ := hdone.resolve_left hover
    exact .inr ⟨h.late hlate heq, by rwa [heq]⟩

end

end ShellAnalysis.Node

namespace ShellAnalysis.Parse

open Text Node

/-! ## Open lists -/

/-- The statements of the list that began at `s₀`, and the bodies that wait for it. -/
structure Open (doc : Document) (s₀ s : State) : Prop where
  pos_le : s₀.pos ≤ s.pos
  since : ∀ b ∈ s.bodies, b ∈ s₀.bodies ∨ s₀.pos ≤ b.start
  laid : Laid doc .ahead s₀ s.statements.toList s
  settled : ∀ init last, s.statements.toList = init ++ [last] → Along Form.spine (Settled doc s) last
  /-- A body that can go behind the last statement stands behind all of them. -/
  apart : ∀ b ∈ s.bodies, (∀ init last, s.statements.toList = init ++ [last] → last.stop ≤ b.start) →
    ∀ x ∈ s.statements.toList, Before x b
  /-- Nothing ends after the last statement but what ends late. -/
  ends : ∀ init last, s.statements.toList = init ++ [last] → ∀ x ∈ init,
    x.stop ≤ last.stop ∨ x.EndsLate
  /-- The block argument of the last statement can be put behind the rest. -/
  parted : ∀ init last, s.statements.toList = init ++ [last] → ∀ v' k,
    last.takeBlock? = some (some (v', k)) → Laid doc .ahead s₀ [v'] s ∧ Laid doc .ahead s₀ [k] s ∧
      ¬ k.IsBody ∧ ∀ x ∈ init, Before x k

section

variable {doc : Document} {s₀ s s₁ s' : State} {v b : Node} {bs : List Node}

theorem Settled.congr {m : Node} (h : Settled doc s m) (hfront : s'.front doc = s.front doc)
    (hbodies : ∀ b ∈ s'.bodies, b ∈ s.bodies) : Settled doc s' m where
  start_le := hfront ▸ h.start_le
  stop_le := hfront ▸ h.stop_le
  heredocs := hfront ▸ h.heredocs
  clears := fun b hb => h.clears b (hbodies b hb)

/-- The same statements at the same place, with some of the bodies. -/
theorem Open.congr (h : Open doc s₀ s) (hpos : s'.pos = s.pos)
    (hskip : s'.nesting.newlineSkip = s.nesting.newlineSkip)
    (hstatements : s'.statements = s.statements) (hbodies : ∀ b ∈ s'.bodies, b ∈ s.bodies) :
    Open doc s₀ s' := by
  have hfront : s'.front doc = s.front doc := front_congr hpos hskip
  have hlaid : ∀ {xs}, Laid doc .ahead s₀ xs s → Laid doc .ahead s₀ xs s' := fun h =>
    Row.until h (Nat.le_of_eq hpos.symm) (.inr hfront.symm)
  constructor
  · exact hpos ▸ h.pos_le
  · exact fun b hb => h.since b (hbodies b hb)
  · rw [hstatements]
    exact hlaid h.laid
  · rw [hstatements]
    exact fun init last hsplit => (h.settled init last hsplit).imp fun m hm =>
      hm.congr hfront hbodies
  · rw [hstatements]
    exact fun b hb => h.apart b (hbodies b hb)
  · rw [hstatements]
    exact h.ends
  · rw [hstatements]
    intro init last hsplit v' k ht
    obtain ⟨hv', hk, hrest⟩ := h.parted init last hsplit v' k ht
    exact ⟨hlaid hv', hlaid hk, hrest⟩

/-- What there is to show of an open list whose last statement is known. -/
theorem Open.of_concat {xs : List Node} {w : Node} (hlist : s.statements.toList = xs ++ [w])
    (hpos : s₀.pos ≤ s.pos) (hsince : ∀ b ∈ s.bodies, b ∈ s₀.bodies ∨ s₀.pos ≤ b.start)
    (hlaid : Laid doc .ahead s₀ (xs ++ [w]) s) (hsettled : Along Form.spine (Settled doc s) w)
    (hapart : ∀ b ∈ s.bodies, w.stop ≤ b.start → ∀ x ∈ xs ++ [w], Before x b)
    (hends : ∀ x ∈ xs, x.stop ≤ w.stop ∨ x.EndsLate)
    (hparted : ∀ v' k, w.takeBlock? = some (some (v', k)) → Laid doc .ahead s₀ [v'] s ∧
      Laid doc .ahead s₀ [k] s ∧ ¬ k.IsBody ∧ ∀ x ∈ xs, Before x k) : Open doc s₀ s := by
  have hsplit : ∀ {init last}, s.statements.toList = init ++ [last] → xs = init ∧ w = last :=
    fun h => List.append_singleton_inj.1 (hlist.symm.trans h)
  constructor
  · exact hpos
  · exact hsince
  · rw [hlist]
    exact hlaid
  · intro init last h
    obtain ⟨rfl, rfl⟩ := hsplit h
    exact hsettled
  · intro b hb hlast
    rw [hlist]
    exact hapart b hb (hlast xs w hlist)
  · intro init last h
    obtain ⟨rfl, rfl⟩ := hsplit h
    exact hends
  · intro init last h
    obtain ⟨rfl, rfl⟩ := hsplit h
    exact hparted

/-- More is consumed behind the list. -/
theorem Open.passes (h : Open doc s₀ s) (hv : Valid doc s) (hp : Passes doc s s₁) :
    Open doc s₀ s₁ where
  pos_le := Nat.le_trans h.pos_le hp.pos_le
  since := fun b hb => by
    rcases hp.fresh b hb with hb | hb
    · exact h.since b hb
    · exact .inr (Nat.le_trans h.pos_le hb)
  laid := by
    rw [hp.statements]
    exact h.laid.until hp
  settled := by
    rw [hp.statements]
    exact fun init last hsplit => Along.passes (h.settled init last hsplit) hp
  apart := by
    rw [hp.statements]
    intro b hb hlast x hx
    rcases hp.past b hb with hold | hnew
    · exact h.apart b hold hlast x hx
    · rcases h.laid.done x hx with hdone | ⟨hlate, -⟩
      · have := hv.pos_le_front
        exact .inl (by omega)
      · exact .inr (.inl hlate)
  ends := by
    rw [hp.statements]
    exact h.ends
  parted := by
    rw [hp.statements]
    intro init last hsplit v' k ht
    obtain ⟨hv', hk, hrest⟩ := h.parted init last hsplit v' k ht
    exact ⟨hv'.until hp, hk.until hp, hrest⟩

/-! ## Statements -/

/-- Every body that waits stands before the end of a statement that was just read. -/
theorem Placed.lt_stop (h : Placed doc s v s₁) (hb : b ∈ s₁.bodies) : b.start < v.stop := by
  have hheld := h.valid.bodies b hb
  exact Nat.lt_of_lt_of_le hheld.lt (Nat.le_trans hheld.le h.le_stop)

theorem Open.push (h : Open doc s₀ s) (hv : Valid doc s) (hp : Placed doc s v s₁) :
    Open doc s₀ (s₁.push v) := by
  have h₁ := h.passes hv hp.toPasses
  have hlist : (s₁.push v).statements.toList = s.statements.toList ++ [v] := by
    rw [← hp.statements]
    exact Array.toList_push
  have hbefore : ∀ {w : Node}, Laid doc .ahead s [w] s₁ → ¬ w.IsBody →
      ∀ x ∈ s.statements.toList, Before x w := by
    intro w hw hfirm x hx
    refine Row.before h.laid hw (Nat.le_refl _) ?_ x hx w (by simp)
    rw [List.forall_mem_singleton]
    exact hfirm
  have hsince : ∀ {xs}, Laid doc .ahead s xs s₁ → Laid doc .ahead s₀ xs s₁ := fun hl =>
    Row.since hl h.pos_le h.since
  refine .of_concat hlist h₁.pos_le h₁.since ?_ ?_ ?_ ?_ ?_
  · show Laid doc .ahead s₀ (s.statements.toList ++ [v]) s₁
    refine Row.append (h.laid.until hp.toPasses) (hsince hp.laid) fun x hx y hy => ?_
    rw [List.mem_singleton.1 hy]
    exact hbefore hp.laid (hp.firm v (by simp)) x hx
  · exact hp.settled.imp fun m hm => hm.congr rfl fun _ hb => hb
  · intro b hb hle
    exact absurd (hp.lt_stop hb) (Nat.not_lt.2 hle)
  · intro x hx
    refine (h.laid.done x hx).imp (fun hdone => ?_) fun hlate => hlate.1
    exact Nat.le_trans hdone (Nat.le_trans hp.pos_le hp.le_stop)
  · intro v' k ht
    have hparted := hp.parted v' k ht
    exact ⟨hsince hparted.rest, hsince hparted.block, hparted.firm,
      hbefore hparted.block hparted.firm⟩

/-! ## Where a body goes -/

/-- A body that is over when the bodies that wait begin. -/
theorem settled_of_isBody (hb : b.IsBody) (hle : b.stop ≤ s.front doc)
    (hbehind : ∀ b' ∈ s.bodies, b.stop ≤ b'.start) : Along Form.spine (Settled doc s) b := by
  obtain ⟨hheredocs, hspine, -⟩ := heredocs_of_isBody hb
  have hsettled : Settled doc s b :=
    ⟨Nat.le_trans b.start_le_stop hle, .inl hle, by simp [hheredocs],
      fun b' hb' => .inl (hbehind b' hb')⟩
  exact .mk hsettled (by simp [hspine])

/-- A body goes behind the last statement. -/
theorem Open.placeBehind (h : Open doc s₀ (s.awaiting (b :: bs)))
    (hv : Valid doc (s.awaiting (b :: bs)))
    (hlast : ∀ init last, s.statements.toList = init ++ [last] → last.stop ≤ b.start) :
    Open doc s₀ ((s.push b).awaiting bs) := by
  have hheld := hv.bodies b List.mem_cons_self
  have hle : b.stop ≤ s.pos := hheld.le
  have hfront : s.pos ≤ s.front doc := hv.pos_le_front
  have hbehind : ∀ b' ∈ bs, b.stop ≤ b'.start := (List.pairwise_cons.1 hv.inOrder).1
  have hbefore : ∀ x ∈ s.statements.toList, Before x b := h.apart b List.mem_cons_self hlast
  have hover : ∀ x ∈ s.statements.toList, x.stop ≤ b.start ∨ x.EndsLate := fun x hx =>
    (hbefore x hx).of_isBody hheld.isBody
  have hrow : Laid doc .ahead s₀ [b] (s.awaiting (b :: bs)) := by
    refine .one hheld.sound ?_ (.inl hle) (keys_of_isBody hheld.isBody)
    rcases h.since b List.mem_cons_self with hb | hb
    · exact .inr ⟨.inr hheld.isBody, b, hb, rfl⟩
    · exact .inl hb
  refine .of_concat Array.toList_push h.pos_le ?_ ?_ ?_ ?_ ?_ ?_
  · exact fun b' hb' => h.since b' (List.mem_cons_of_mem _ hb')
  · refine Row.append h.laid hrow fun x hx y hy => ?_
    rw [List.mem_singleton.1 hy]
    exact hbefore x hx
  · exact settled_of_isBody hheld.isBody (Nat.le_trans hle hfront) hbehind
  · intro b' hb' hb x hx
    rcases List.mem_append.1 hx with hx | hx
    · refine (hover x hx).elim (fun hdone => .inl ?_) fun hlate => .inr (.inl hlate)
      exact Nat.le_trans hdone (Nat.le_trans b.start_le_stop hb)
    · rw [List.mem_singleton.1 hx]
      exact .inl hb
  · intro x hx
    exact (hover x hx).imp_left fun hdone => Nat.le_trans hdone b.start_le_stop
  · intro v' k ht
    rw [(heredocs_of_isBody hheld.isBody).2.2] at ht
    cases ht

/-- What can receive bodies stays settled when one is put into it. -/
theorem Settled.attach {m m' : Node} (hb : b.IsBody) (hle : b.stop ≤ s.front doc)
    (hbehind : ∀ b' ∈ s.bodies, b.stop ≤ b'.start) (hsound : m.Sound doc.text)
    (hm : m.attachHeredoc? b = some m') (h : Settled doc s m) : Settled doc s m' := by
  have hf := attachHeredoc?_follows hm
  have hstart : m'.start = m.start := congrArg Span.start hf.span_eq
  have hstop : m'.stop = m.stop := congrArg Span.stop hf.span_eq
  refine ⟨hstart ▸ h.start_le, ?_, ?_, fun b' hb' => ?_⟩
  · rw [hstop]
    exact h.stop_le.imp_right fun hlate => ⟨hlate.1, hf.late hlate.2⟩
  · intro x hx
    rcases hf.heredocs x hx with rfl | hx
    · exact ⟨hb, hle⟩
    · exact h.heredocs x hx
  · rcases h.clears b' hb' with hclear | ⟨hplace, hheredocs, hback, htrail⟩
    · exact .inl (hstop ▸ hclear)
    · refine .inr ⟨by rwa [hstart, hstop], ?_, ?_, ?_⟩
      · intro x hx
        rcases hf.heredocs x hx with rfl | hx
        · exact .inl (hbehind b' hb')
        · exact hheredocs x hx
      · intro inner' hinner'
        obtain ⟨inner, hinner, hspan⟩ := hf.background inner' hinner'
        have := hback inner hinner
        rw [stop, ← hspan]
        exact this
      · intro hj k hk
        rcases htrail (hf.joins ▸ hj) k (trailing?_of_attach hsound hm hk) with hlt | ⟨c, hc, hin⟩
        · exact .inl hlt
        · obtain ⟨c', hc', hspan⟩ := hf.items c hc
          exact .inr ⟨c', hc', by rwa [hspan]⟩

/-- A body goes into the last statement. -/
theorem Open.placeInside {X : Array Node} {w : Node} (hX : s.statements = X.push v)
    (h : Open doc s₀ (s.awaiting (b :: bs))) (hv : Valid doc (s.awaiting (b :: bs)))
    (hlt : b.start < v.stop) (hw : v.attachHeredoc? b = some w) :
    Open doc s₀ ((s.holding (X.push w)).awaiting bs) := by
  have hheld := hv.bodies b List.mem_cons_self
  have hle : b.stop ≤ s.pos := hheld.le
  have hfront : s.pos ≤ s.front doc := hv.pos_le_front
  have hbehind : ∀ b' ∈ bs, b.stop ≤ b'.start := (List.pairwise_cons.1 hv.inOrder).1
  have hf := attachHeredoc?_follows hw
  have hstart : StartsLike v w := hf.startsLike (not_isBody_of_attach hw)
  have hend : EndsLike v w := hf.endsLike
  have hold : (s.awaiting (b :: bs)).statements.toList = X.toList ++ [v] := by
    show s.statements.toList = _
    rw [hX]
    exact Array.toList_push
  have hlaid := h.laid
  rw [hold] at hlaid
  have hsettled := h.settled _ _ hold
  have hsound : w.Sound doc.text := by
    refine attachHeredoc?_sound (hlaid.sound v (by simp)) ?_ hheld.sound hheld.isBody hheld.lt hlt hw
    exact hsettled.imp fun m hm => hm.clears b List.mem_cons_self
  have hrow := Row.replace hlaid hstart hend hsound (keys_of_attach hw)
  refine .of_concat Array.toList_push h.pos_le ?_ hrow ?_ ?_ ?_ ?_
  · exact fun b' hb' => h.since b' (List.mem_cons_of_mem _ hb')
  · have hfewer : Along Form.spine (Settled doc ((s.holding (X.push w)).awaiting bs)) v :=
      hsettled.imp fun m hm => hm.congr rfl fun _ => List.mem_cons_of_mem _
    refine attachHeredoc?_along (hlaid.sound v (by simp)) hfewer (fun m m' => ?_) hw
    exact Settled.attach hheld.isBody (Nat.le_trans hle hfront) hbehind
  · intro b' hb' hover
    have hall : ∀ x ∈ X.toList ++ [v], Before x b' := by
      rw [← hold]
      refine h.apart b' (List.mem_cons_of_mem _ hb') fun init last hs => ?_
      obtain ⟨-, rfl⟩ := List.append_singleton_inj.1 (hold.symm.trans hs)
      exact hend.stop_eq ▸ hover
    exact forall_mem_replace hall fun hbefore => hbefore.endsLike hend
  · rw [hend.stop_eq]
    exact h.ends _ _ hold
  · intro w' k ht
    obtain ⟨v', hv', hstretch⟩ := takeBlock?_of_attach (hlaid.sound v (by simp)) hw ht
    obtain ⟨hrest, hblock, hfirm, hbefore⟩ := h.parted _ _ hold v' k hv'
    have hlast : Laid doc .ahead s₀ [w] s := hrow.sublist (List.sublist_append_right _ _)
    exact ⟨hlast.rest ht (hstretch.done hle (hrest.done v' (by simp))), hblock, hfirm, hbefore⟩

theorem Open.place (h : Open doc s₀ (s.awaiting (b :: bs))) (hv : Valid doc (s.awaiting (b :: bs))) :
    Open doc s₀ ((s.place b).awaiting bs) := by
  rcases place_cases s b with ⟨hlast, heq⟩ | ⟨X, last, hX, hlt, ⟨-, heq⟩ | ⟨w, hw, heq⟩⟩
  · rw [heq]
    exact h.placeBehind hv hlast
  · rw [heq]
    exact h.congr rfl rfl rfl fun _ => List.mem_cons_of_mem _
  · rw [heq]
    exact h.placeInside hX hv hlt hw

/-- A statement list keeps its row. -/
theorem open_sustained (s₀ : State) : Sustained doc (Open doc s₀) where
  charge := fun h => h.congr rfl rfl rfl fun _ hb => hb
  separator := fun h hv _ hb => hb.valid.drain Open.place (h.passes hv hb.toPasses)
  statement := fun h hv _ hp _ => (hp.valid.holding _).drain Open.place (h.push hv hp)
  wrong := fun h hv _ hp _ _ => h.push hv hp

/-! ## The promises of a level -/

/-- The row of a list with its last block argument put behind the rest. -/
theorem Open.tail {xs' : List Node} {k : Node} (h : Open doc s₀ s)
    (ht : takeLastBlock? s.statements.toList = some (some (xs', k))) :
    Laid doc .ahead s₀ (xs' ++ [k]) s ∧ ¬ k.IsBody := by
  obtain ⟨init, c, c', hsplit, rfl, hc⟩ := takeLastBlock?_cases ht
  obtain ⟨hrest, hblock, hfirm, hbefore⟩ := h.parted init c hsplit c' k hc
  have hlaid := h.laid
  rw [hsplit] at hlaid
  have htaken := takeBlock?_taken (hlaid.sound c (by simp)) hc
  have hinit : Laid doc .ahead s₀ init s := hlaid.sublist (List.sublist_append_left _ _)
  refine ⟨Row.append (Row.append hinit hrest ?_) hblock ?_, hfirm⟩
  · intro x hx y hy
    rw [List.mem_singleton.1 hy]
    have hbefore := (List.pairwise_append.1 hlaid.inOrder).2.2 x hx c (by simp)
    exact hbefore.startsLike (htaken.startsLike hc)
  · intro x hx y hy
    rw [List.mem_singleton.1 hy]
    rcases List.mem_append.1 hx with hx | hx
    · exact hbefore x hx
    · rw [List.mem_singleton.1 hx]
      exact htaken.before

/-- What ends a list does not depend on its statements. -/
theorem atStop_holding {stops : List StopAt} {stop : Bool} (X : Array Node)
    (h : atStop stops doc s = .ok stop s) :
    atStop stops doc (s.holding X) = .ok stop (s.holding X) := by
  have hholds : ∀ stop : StopAt, ∃ b, stop.holds doc s = .ok b s ∧
      stop.holds doc (s.holding X) = .ok b (s.holding X) := by
    intro stop
    cases stop <;> exact ⟨_, rfl, rfl⟩
  have hall : ∀ stops : List StopAt, ∃ b, atStop stops doc s = .ok b s ∧
      atStop stops doc (s.holding X) = .ok b (s.holding X) := by
    intro stops
    induction stops with
    | nil => exact ⟨false, rfl, rfl⟩
    | cons stop stops ih =>
      obtain ⟨b, hb, hb'⟩ := hholds stop
      obtain ⟨r, hr, hr'⟩ := ih
      refine ⟨b || r, ?_⟩
      have hcons : ∀ s' : State, stop.holds doc s' = .ok b s' → atStop stops doc s' = .ok r s' →
          atStop (stop :: stops) doc s' = .ok (b || r) s' := by
        intro s' hb hr
        show EStateM.bind (stop.holds doc) _ s' = _
        unfold EStateM.bind
        rw [hb]
        cases b with
        | true => rfl
        | false => exact hr
      exact ⟨hcons s hb hr, hcons _ hb' hr'⟩
  obtain ⟨b, hb, hb'⟩ := hall stops
  rw [hb] at h
  cases h
  exact hb'

variable {d : Nat} {enter : Parser Grammar} {stops : List StopAt} {stopAfterBlock : Bool}

/-- A list that is about to begin. -/
theorem within_nil {I : State → Prop} (hv : Valid doc s.charge) (hI : I (s.holding #[]).charge) :
    Within doc s.charge I (s.holding #[]).charge :=
  ⟨(Moves.refl hv).toPasses, hI⟩

theorem open_nil : Open doc s.charge (s.holding #[]).charge where
  pos_le := Nat.le_refl _
  since := fun _ => .inl
  laid := .nil
  settled := fun init last h => by simp [State.holding, State.charge] at h
  apart := fun b _ _ x hx => by simp [State.holding, State.charge] at hx
  ends := fun init last h => by simp [State.holding, State.charge] at h
  parted := fun init last h => by simp [State.holding, State.charge] at h

/-- A parser on a list of its own. -/
theorem collecting_runs {p : Parser Unit} {fail : Stopped → State → Prop}
    {Q : List Node → State → Prop}
    (h : Runs doc (fun e s' => fail e (s'.holding s.statements)) p (s.holding #[]) fun _ s' =>
      Q s'.statements.toList (s'.holding s.statements)) :
    Runs doc fail (collecting p) s Q := by
  unfold Runs State.holding at h
  unfold Runs collecting
  cases hp : p doc { s with statements := #[] } with
  | ok _ s' =>
    rw [hp] at h
    exact h
  | error e s' =>
    rw [hp] at h
    exact h

theorem statements_runs (he : Enters doc d enter) (hv : Valid doc s.charge)
    (hd : s.nesting.depth = d) :
    Runs doc (Aborts doc s) (collecting (statementList enter stops stopAfterBlock)) s
      (Listed doc stops stopAfterBlock s) := by
  refine collecting_runs (((statementList_runs he (open_sustained s.charge)
    (within_nil hv open_nil) hd).imp_fail fun e s' h => ?_).imp fun _ s' h => ?_)
  · exact Aborts.rebase (show Keeps s s.charge from ⟨rfl, rfl, rfl⟩) h.1
  · obtain ⟨h, hends⟩ := h
    refine ⟨h.passes, h.inv.laid, fun xs' k ht => h.inv.tail ht, fun hno => ?_⟩
    exact (hends hno).imp id (atStop_holding s.statements)

theorem over_obeys (he : Enters doc d enter) : (Grammar.over enter).Obeys doc d where
  statements := fun _ _ hv hd => statements_runs he hv hd
  expression := fun _ hv hd => expression_runs he hv hd
  operators := fun _ hv hd => by subst hd; exact operators_runs he hv rfl
  word := fun hv hd hat => word_runs he hv hd hat
  stringLiteral := fun hv hd hk => stringLiteral_runs he hv hd hk
  block := fun hv hd hk => (braceBlock_runs he hv hd (by rw [hk]; decide)).imp fun _ _ h =>
    ⟨h.toYields, h.lt⟩

theorem descend_runs (hv : Valid doc s) :
    Runs doc (Fails doc s) descend s fun _ s' =>
      s' = s.deeper ∧ s.nesting.depth < doc.limits.depth := by
  by_cases hlimit : doc.limits.depth < s.nesting.depth + 1
  · have heq : descend doc s = .error (.limit (.nesting doc.limits.depth)) s.deeper := by
      show (if doc.limits.depth < s.nesting.depth + 1 then _ else _ : Parser Unit) doc _ = _
      rw [if_pos hlimit]
      rfl
    unfold Runs
    rw [heq]
    exact hv.fails rfl ⟨rfl, rfl, rfl⟩
  · have heq : descend doc s = .ok () s.deeper := by
      show (if doc.limits.depth < s.nesting.depth + 1 then _ else _ : Parser Unit) doc _ = _
      rw [if_neg hlimit]
      rfl
    unfold Runs
    rw [heq]
    exact ⟨rfl, by omega⟩

/-- The reserve of levels lasts until the nesting limit is exceeded. -/
theorem enters_level (levels : Nat) (hreserve : doc.limits.depth ≤ d + levels) :
    Enters doc d (enterLevel levels) := by
  induction levels generalizing d with
  | zero =>
    intro s hv hd
    refine (descend_runs hv).bind fun _ s' h => ?_
    have := h.2
    omega
  | succ levels ih =>
    intro s hv hd
    refine (descend_runs hv).bind fun _ s' h => ?_
    exact .pure ⟨over_obeys (ih (by omega)), h.1⟩

end

end ShellAnalysis.Parse
