import ShellAnalysis.Proofs.Outcome

/-!
# What lies between statements

The text outside of all top-level statements holds separators and comments
only (`gap_separating`).  Each offset where a gap can begin, the start of the
text or the end of a statement, is in one of two states while statements are
read:

    live     reading separators and comments from there leads to the token ahead
    closed   whatever the statements leave uncovered behind it was separators

The next statement covers the token ahead and closes what was live.
-/

namespace ShellAnalysis

open Text Node

/-! ## Reading separators -/

/-- Tokens that may stand between statements. -/
def TokenKind.Separating (kind : TokenKind) : Prop :=
  kind = .newline ∨ kind = .semi ∨ kind = .comment

namespace Lexer

/-- Reading separators and comments leads from one offset to another. -/
inductive Leads (text : String) : Nat → Nat → Prop
  | refl (i : Nat) : Leads text i i
  | step {i j : Nat} : (tokenAt text i).kind.Separating → Leads text (tokenAt text i).span.stop j →
      Leads text i j

/-- However many tokens are read from `i` on, those that start before `h` are separators. -/
def Clear (text : String) (h i : Nat) : Prop :=
  ∀ fuel, ∀ t ∈ tokensFrom text fuel i, t.span.start < h → t.kind.Separating

section

variable {text : String} {i j k h : Nat}

theorem Leads.trans (h : Leads text i j) (h' : Leads text j k) : Leads text i k := by
  induction h with
  | refl => exact h'
  | step hsep _ ih => exact .step hsep (ih h')

/-- One more token is read. -/
theorem Leads.next (h : Leads text i j) (hsep : (tokenAt text j).kind.Separating) :
    Leads text i (tokenAt text j).span.stop := h.trans (.step hsep (.refl _))

theorem Leads.le (h : Leads text i j) (hi : i ≤ size text) : i ≤ j := by
  induction h with
  | refl => exact Nat.le_refl _
  | @step i j _ _ ih =>
    have ht := tokenAt_spec hi
    exact Nat.le_trans (Nat.le_trans ht.le (Span.start_le_stop _)) (ih ht.cut.stop_le)

/-- The tokens that are read one after the other start one after the other. -/
theorem le_start_of_mem_tokensFrom {fuel : Nat} {t : Token} (hi : i ≤ size text)
    (ht : t ∈ tokensFrom text fuel i) : (tokenAt text i).span.start ≤ t.span.start := by
  induction fuel generalizing i with
  | zero => cases ht
  | succ fuel ih =>
    have hread := tokenAt_spec hi
    unfold tokensFrom at ht
    simp only at ht
    split at ht
    · cases ht
    rcases List.mem_cons.1 ht with rfl | ht
    · exact Nat.le_refl _
    · have hnext := ih hread.cut.stop_le ht
      have hle := (tokenAt_spec hread.cut.stop_le).le
      have := Span.start_le_stop (tokenAt text i).span
      omega

/-- Up to the token that separators lead to there are separators only. -/
theorem Leads.clear (hl : Leads text i j) (hi : i ≤ size text)
    (hh : h ≤ (tokenAt text j).span.start) : Clear text h i := by
  induction hl with
  | refl i =>
    intro fuel t ht hlt
    have := le_start_of_mem_tokensFrom hi ht
    omega
  | @step i j hsep _ ih =>
    intro fuel t ht hlt
    cases fuel with
    | zero => cases ht
    | succ fuel =>
      unfold tokensFrom at ht
      simp only at ht
      split at ht
      · cases ht
      rcases List.mem_cons.1 ht with rfl | ht
      · exact hsep
      · exact ih (tokenAt_spec hi).cut.stop_le hh fuel t ht hlt

/-- A token is read again from its own start. -/
theorem tokenAt_start (text : String) (i : Nat) :
    tokenAt text (tokenAt text i).span.start = tokenAt text i := by
  have hboundary : Boundary text (skipBlanks text (ceil text i)) :=
    skipBlanks_boundary (ceil_boundary text i)
  rw [tokenAt_span_start]
  unfold tokenAt
  rw [ceil_eq hboundary, skipBlanks_of_blankWidth (blankWidth_skipBlanks text _)]

end

end Lexer

namespace Parse

open Lexer

/-- Comments lead to the token ahead. -/
theorem significantAt_leads {text : String} {i : Nat} (hi : i ≤ size text) :
    ∃ j, Leads text i j ∧ tokenAt text j = significantAt text false i := by
  suffices ∀ fuel i, i ≤ size text → size text - i < fuel →
      ∃ j, Leads text i j ∧ tokenAt text j = significantFrom text false fuel i from
    this _ i hi (by omega)
  intro fuel
  induction fuel with
  | zero => intro i _ hfuel; omega
  | succ fuel ih =>
    intro i hi hfuel
    have ht := tokenAt_spec hi
    unfold significantFrom
    simp only [Bool.false_and, Bool.or_false, beq_iff_eq]
    split
    · rename_i hcomment
      have hlt := ht.lt (by rw [hcomment]; decide)
      have hle := ht.le
      have hstop := ht.cut.stop_le
      obtain ⟨j, hleads, heq⟩ := ih _ hstop (by omega)
      exact ⟨j, .step (.inr (.inr hcomment)) hleads, heq⟩
    · exact ⟨i, .refl i, rfl⟩

/-! ## Gaps -/

/-- None of the bytes from `g` up to `h` lies in one of the nodes. -/
def Uncovered (xs : List Node) (g h : Nat) : Prop :=
  ∀ i, g ≤ i → i < h → ∀ x ∈ xs, x.span.contains i = false

/-- A stretch of the text outside of all statements that begins where one of them ends, or with the
text. -/
structure Gap (text : String) (statements : List Node) (g h : Nat) : Prop where
  lt : g < h
  le_size : h ≤ size text
  uncovered : Uncovered statements g h
  opens : g = 0 ∨ ∃ x ∈ statements, x.span.contains (g - 1) = true

/-- What is uncovered behind `g` is separators. -/
def Closed (text : String) (xs : List Node) (g : Nat) : Prop :=
  ∀ h, g < h → h ≤ size text → Uncovered xs g h → Clear text h g

/-- Reading separators from `g` leads to the token ahead. -/
def Live (doc : Document) (s : State) (g : Nat) : Prop :=
  ∃ j, Leads doc.text g j ∧ tokenAt doc.text j = s.ahead doc

/-- A gap can begin at the offset. -/
def IsEnd (xs : List Node) (g : Nat) : Prop := g = 0 ∨ ∃ x ∈ xs, x.stop = g

section

variable {doc : Document} {s s₁ : State} {text : String} {xs ys : List Node} {g h i : Nat}
  {b v : Node} {bs : List Node}

theorem Uncovered.sublist (h' : Uncovered ys g h) (hsub : ∀ x ∈ xs, ∃ y ∈ ys, y.span = x.span) :
    Uncovered xs g h := by
  intro i hg hh x hx
  obtain ⟨y, hy, hspan⟩ := hsub x hx
  rw [← hspan]
  exact h' i hg hh y hy

/-- A node that holds a byte behind `g` ends what is uncovered. -/
theorem Uncovered.le_of_mem (h' : Uncovered xs g h) (hx : v ∈ xs) (hg : g ≤ i)
    (hstart : v.start ≤ i) (hstop : i < v.stop) : h ≤ i := by
  refine Nat.le_of_not_lt fun hlt => ?_
  have := h' i hg hlt v hx
  rw [contains_iff.2 ⟨hstart, hstop⟩] at this
  cases this

theorem Closed.sublist (h' : Closed text xs g) (hsub : ∀ x ∈ xs, ∃ y ∈ ys, y.span = x.span) :
    Closed text ys g := fun h hg hh hu => h' h hg hh (hu.sublist hsub)

theorem closed_of_le (hg : size text ≤ g) : Closed text xs g := fun h hlt hh _ => by omega

theorem Live.le_front (hl : Live doc s g) (hg : g ≤ size doc.text) : g ≤ s.front doc := by
  obtain ⟨j, hleads, heq⟩ := hl
  rw [State.front, ← heq]
  induction hleads with
  | refl => exact (tokenAt_spec hg).le
  | step _ _ ih =>
    have ht := tokenAt_spec hg
    exact Nat.le_trans (Nat.le_trans ht.le (Span.start_le_stop _)) (ih ht.cut.stop_le heq)

theorem Live.clear (hl : Live doc s g) (hg : g ≤ size doc.text) (hh : h ≤ s.front doc) :
    Clear doc.text h g := by
  obtain ⟨j, hleads, heq⟩ := hl
  exact hleads.clear hg (by rw [heq]; exact hh)

/-- What covers the token ahead closes what was live. -/
theorem Live.closed (hl : Live doc s g) (hv : v ∈ xs) (hstart : v.start ≤ s.front doc)
    (hstop : s.front doc < v.stop) : Closed doc.text xs g := by
  intro h hlt hh hu
  have hg : g ≤ size doc.text := by omega
  exact hl.clear hg (hu.le_of_mem hv (hl.le_front hg) hstart hstop)

theorem live_pos (hv : Valid doc s) (hflat : s.nesting.newlineSkip = 0) : Live doc s s.pos := by
  obtain ⟨j, hleads, heq⟩ := significantAt_leads hv.le_size
  refine ⟨j, hleads, heq.trans ?_⟩
  unfold State.ahead
  rw [hflat]
  rfl

theorem live_front (hv : Valid doc s) (hflat : s.nesting.newlineSkip = 0) :
    Live doc s (s.front doc) := by
  obtain ⟨j, -, heq⟩ := live_pos hv hflat
  refine ⟨s.front doc, .refl _, ?_⟩
  rw [State.front, ← heq]
  exact tokenAt_start _ j

/-! ## Where gaps can begin -/

/-- Every offset where a gap can begin is closed, or else `L` holds of it. -/
def Tight (text : String) (L : Nat → Prop) (xs : List Node) : Prop :=
  ∀ g, IsEnd xs g → Closed text xs g ∨ L g

variable {L L' : Nat → Prop}

/-- Only the spans matter. -/
theorem Tight.congr (h : Tight text L xs) (hspans : ys.map span = xs.map span) :
    Tight text L ys := by
  have hmem : ∀ {xs ys : List Node}, ys.map span = xs.map span →
      ∀ x ∈ xs, ∃ y ∈ ys, y.span = x.span := by
    intro xs ys heq x hx
    rw [← List.mem_map, heq]
    exact List.mem_map_of_mem hx
  intro g hg
  refine (h g (hg.imp_right ?_)).imp_left fun hclosed => hclosed.sublist (hmem hspans)
  rintro ⟨y, hy, rfl⟩
  obtain ⟨x, hx, hspan⟩ := hmem hspans.symm y hy
  exact ⟨x, hx, congrArg Span.stop hspan⟩

/-- One more statement closes what was open. -/
theorem Tight.push (h : Tight text L xs) (hclose : ∀ g, L g → Closed text (xs ++ [v]) g)
    (hstop : Closed text (xs ++ [v]) v.stop ∨ L' v.stop) : Tight text L' (xs ++ [v]) := by
  have hold : ∀ g, IsEnd xs g → Closed text (xs ++ [v]) g := by
    intro g hg
    rcases h g hg with hclosed | hopen
    · exact hclosed.sublist fun x hx => ⟨x, by simp [hx], rfl⟩
    · exact hclose g hopen
  rintro g (rfl | ⟨x, hx, rfl⟩)
  · exact .inl (hold 0 (.inl rfl))
  · rcases List.mem_append.1 hx with hx | hx
    · exact .inl (hold _ (.inr ⟨x, hx, rfl⟩))
    · rw [List.mem_singleton.1 hx]
      exact hstop

/-- The last statement of a list, if there is one. -/
theorem lastStop_cases (xs : List Node) :
    lastStop xs = 0 ∨ ∃ init last, xs = init ++ [last] ∧ lastStop xs = last.stop := by
  rcases List.eq_nil_or_concat xs with rfl | ⟨init, last, rfl⟩
  · exact .inl rfl
  · rw [List.concat_eq_append]
    exact .inr ⟨init, last, rfl, lastStop_concat _ _⟩

theorem lastStop_congr (hspans : ys.map span = xs.map span) : lastStop ys = lastStop xs := by
  have hlast : ∀ xs : List Node, lastStop xs = ((xs.map span).getLast?.map Span.stop).getD 0 := by
    intro xs
    rcases List.eq_nil_or_concat xs with rfl | ⟨init, last, rfl⟩
    · rfl
    · simp [lastStop]
  rw [hlast, hlast, hspans]

/-- A body that was read before the last statement ended covers nothing new. -/
theorem place_spans (h : b.start < lastStop s.statements.toList) :
    (s.place b).statements.toList.map span = s.statements.toList.map span := by
  rcases place_cases s b with ⟨hbehind, -⟩ | ⟨X, last, hX, -, ⟨-, heq⟩ | ⟨w, hw, heq⟩⟩
  · rcases lastStop_cases s.statements.toList with hzero | ⟨init, last, hsplit, hstop⟩
    · omega
    · have := hbehind init last hsplit
      omega
  · rw [heq]
  · rw [heq, hX]
    show (X.push w).toList.map span = _
    rw [Array.toList_push, Array.toList_push, List.map_append, List.map_append,
      List.map_singleton, List.map_singleton, (attachHeredoc?_follows hw).span_eq]

/-- A body that was read behind the last statement is put there. -/
theorem place_push (h : lastStop s.statements.toList ≤ b.start) : s.place b = s.push b := by
  rcases place_cases s b with ⟨-, heq⟩ | ⟨X, last, hX, hlt, -⟩
  · exact heq
  · rw [hX, Array.toList_push, lastStop_concat] at h
    omega

/-! ## The invariant -/

/-- Every offset where a gap can begin is live or closed, and the bodies that wait stand before the
end of the last statement. -/
structure Covers (doc : Document) (s : State) : Prop where
  flat : s.nesting.newlineSkip = 0
  tight : Tight doc.text (Live doc s) s.statements.toList
  held : ∀ b ∈ s.bodies, b.start < lastStop s.statements.toList

theorem covers_nil : Covers doc State.initial.charge where
  flat := rfl
  tight := by
    have hv : Valid doc State.initial.charge := (valid_initial doc).charge (by decide)
    rintro g (rfl | ⟨x, hx, -⟩)
    · exact .inr (live_pos hv rfl)
    · cases hx
  held := nofun

/-- The same spans at the same place, with some of the bodies. -/
theorem Covers.congr {s' : State} (h : Covers doc s) (hpos : s'.pos = s.pos)
    (hnesting : s'.nesting = s.nesting)
    (hspans : s'.statements.toList.map span = s.statements.toList.map span)
    (hbodies : ∀ b ∈ s'.bodies, b ∈ s.bodies) : Covers doc s' where
  flat := hnesting ▸ h.flat
  tight := by
    have htight := h.tight.congr hspans
    unfold Live at htight ⊢
    rwa [ahead_congr hpos (by rw [hnesting])]
  held := by
    rw [lastStop_congr hspans]
    exact fun b hb => h.held b (hbodies b hb)

theorem Covers.drained (h : Covers doc s) (hv : Valid doc s) : Covers doc s.drained := by
  refine hv.drain (fun {s b bs} h hv => ?_) h
  have hdraining := draining_place (s := s) (hv.bodies b List.mem_cons_self).sound.here.cut
  exact h.congr hdraining.pos hdraining.nesting (place_spans (h.held b List.mem_cons_self))
    fun _ => List.mem_cons_of_mem _

/-- A statement covers the token that was ahead. -/
theorem Covers.push (h : Covers doc s) (hp : Placed doc s v s₁) (hlt : s.pos < s₁.pos) :
    Covers doc (s₁.push v) := by
  have hflat : s₁.nesting.newlineSkip = 0 := hp.skip.trans h.flat
  have hlist : (s₁.push v).statements.toList = s.statements.toList ++ [v] := by
    rw [← hp.statements]
    exact Array.toList_push
  have hfront : s.front doc < v.stop := Nat.lt_of_lt_of_le (hp.front_lt hlt) hp.le_stop
  have hv₁ : Valid doc (s₁.push v) := hp.valid.holding _
  refine ⟨hflat, ?_, fun b hb => ?_⟩
  · rw [hlist]
    refine h.tight.push (fun g hlive => hlive.closed (by simp) hp.start_le hfront) ?_
    rcases hp.laid.done v (by simp) with hdone | ⟨-, hedge | hsize⟩
    · rw [Nat.le_antisymm hdone hp.le_stop]
      exact .inr (live_pos hv₁ hflat)
    · rw [hedge]
      exact .inr (live_front hv₁ hflat)
    · rw [hsize]
      exact .inl (closed_of_le (Nat.le_refl _))
  · rw [hlist, lastStop_concat]
    exact hp.lt_stop hb

/-! ## Bodies behind the statements -/

/-- Of the bodies that wait some were read before the last statement ended.  The others fill the text
from an offset behind it, where everything leads that is open. -/
def Filling (doc : Document) (s : State) : Prop :=
  s.nesting.newlineSkip = 0 ∧ ∃ old new j, s.bodies = old ++ new ∧
    (∀ b ∈ old, b.start < lastStop s.statements.toList) ∧ lastStop s.statements.toList ≤ j ∧
    Tiles j new s.pos ∧ Tight doc.text (Leads doc.text · j) s.statements.toList

theorem Filling.place (h : Filling doc (s.awaiting (b :: bs)))
    (hv : Valid doc (s.awaiting (b :: bs))) : Filling doc ((s.place b).awaiting bs) := by
  have hheld := hv.bodies b List.mem_cons_self
  have hdraining := draining_place (s := s) hheld.sound.here.cut
  obtain ⟨hflat, old, new, j, hbodies, hold, hlast, htiles, htight⟩ := h
  refine ⟨by rw [State.awaiting, hdraining.nesting]; exact hflat, ?_⟩
  have hpos : ((s.place b).awaiting bs).pos = s.pos := hdraining.pos
  rw [hpos]
  cases old with
  | cons b' old =>
    obtain ⟨rfl, rfl⟩ := List.cons.inj hbodies
    have hspans := place_spans (s := s) (hold b List.mem_cons_self)
    have hstop := lastStop_congr hspans
    refine ⟨old, new, j, rfl, fun b' hb' => ?_, ?_, htiles, htight.congr hspans⟩
    · show b'.start < lastStop (s.place b).statements.toList
      rw [hstop]
      exact hold b' (List.mem_cons_of_mem _ hb')
    · show lastStop (s.place b).statements.toList ≤ j
      rw [hstop]
      exact hlast
  | nil =>
    -- The body covers the offset where everything leads that is open.
    obtain rfl : b :: bs = new := hbodies
    obtain ⟨rfl, htiles⟩ := htiles
    have hlt : b.start < b.stop := hheld.lt
    have hsize : b.stop ≤ size doc.text := Nat.le_trans hheld.le hv.le_size
    have hlist : (s.place b).statements.toList = s.statements.toList ++ [b] := by
      rw [place_push (s := s) hlast]
      exact Array.toList_push
    refine ⟨[], bs, b.stop, rfl, by simp, ?_, htiles, ?_⟩
    · show lastStop (s.place b).statements.toList ≤ _
      exact Nat.le_of_eq (hlist ▸ lastStop_concat _ _)
    · show Tight _ _ (s.place b).statements.toList
      rw [hlist]
      refine htight.push (fun g hleads h hgh hh hu => ?_) (.inr (.refl _))
      have hg : g ≤ size doc.text := by omega
      have hle : h ≤ b.start :=
        hu.le_of_mem (v := b) (by simp) (hleads.le hg) (Nat.le_refl _) hlt
      exact hleads.clear hg (Nat.le_trans hle (tokenAt_spec (by omega)).le)

theorem Filling.covers (h : Filling doc s) (hv : Valid doc s) (hnil : s.bodies = []) :
    Covers doc s := by
  obtain ⟨hflat, old, new, j, hbodies, -, -, htiles, htight⟩ := h
  obtain ⟨rfl, rfl⟩ := List.append_eq_nil_iff.1 (hbodies.symm.trans hnil)
  obtain rfl : j = s.pos := htiles
  refine ⟨hflat, fun g hg => (htight g hg).imp_right fun hleads => ?_, by simp [hnil]⟩
  obtain ⟨j, hleads', heq⟩ := live_pos hv hflat
  exact ⟨j, hleads.trans hleads', heq⟩

theorem Filling.drained (h : Filling doc s) (hv : Valid doc s) : Covers doc s.drained :=
  Filling.covers (hv.drain Filling.place h) hv.drained hv.draining.bodies

/-- If the last statement ends behind the token ahead, it ends with the text and covers the token. -/
theorem Open.covers_front {s₀ : State} (h : Open doc s₀ s) (hv : Valid doc s)
    (hlt : s.front doc < lastStop s.statements.toList) :
    ∃ last ∈ s.statements.toList, last.start ≤ s.front doc ∧ s.front doc < last.stop ∧
      lastStop s.statements.toList = size doc.text := by
  rcases lastStop_cases s.statements.toList with hzero | ⟨init, last, hsplit, hstop⟩
  · omega
  have hmem : last ∈ s.statements.toList := by simp [hsplit]
  refine ⟨last, hmem, (h.settled init last hsplit).here.start_le, by omega, ?_⟩
  have hfront := hv.pos_le_front
  rcases h.laid.done last hmem with hdone | ⟨-, hedge | hsize⟩
  · omega
  · have : last.stop = s.front doc := hedge
    omega
  · rw [hstop, hsize]

/-- A separator and the bodies behind it. -/
theorem Covers.separator {s₀ : State} (h : Covers doc s) (ho : Open doc s₀ s) (hv : Valid doc s)
    (hsep : (s.ahead doc).kind.Separating) (hb : Bumped doc s s₁) : Covers doc s₁.drained := by
  obtain ⟨new, hbodies, htiles⟩ := hb.fills
  have hflat : s₁.nesting.newlineSkip = 0 := hb.skip.trans h.flat
  rcases Nat.lt_or_ge (s.front doc) (lastStop s.statements.toList) with hlt | hle
  · -- The last statement reaches to the end of the text.
    obtain ⟨last, hmem, hstart, hstop, hsize⟩ := ho.covers_front hv hlt
    refine Covers.drained ⟨hflat, ?_, fun b hb' => ?_⟩ hb.valid
    · rw [hb.statements]
      exact fun g hg => .inl ((h.tight g hg).elim id fun hlive => hlive.closed hmem hstart hstop)
    · have hheld := hb.valid.bodies b hb'
      have := hheld.lt
      have := hheld.le
      have := hb.valid.le_size
      rw [hb.statements, hsize]
      omega
  · refine Filling.drained ⟨hflat, s.bodies, new, _, hbodies, ?_, ?_, htiles, ?_⟩ hb.valid
    · rw [hb.statements]
      exact h.held
    · rw [hb.statements]
      exact Nat.le_trans hle (Span.start_le_stop _)
    · rw [hb.statements]
      refine fun g hg => (h.tight g hg).imp_right fun ⟨j, hleads, heq⟩ => ?_
      rw [← heq] at hsep ⊢
      exact hleads.next hsep

theorem separating_of_atSeparator (h : atSeparator doc s = .ok true s) :
    (s.ahead doc).kind.Separating := by
  have h : EStateM.Result.ok ((s.ahead doc).kind == .newline || (s.ahead doc).kind == .semi) s =
    (.ok true s : EStateM.Result Stopped _ _) := h
  simp only [EStateM.Result.ok.injEq, and_true, Bool.or_eq_true, beq_iff_eq] at h
  exact h.imp_right .inl

theorem covers_sustained (s₀ : State) :
    Sustained doc fun s => Open doc s₀ s ∧ Covers doc s where
  charge := fun h => ⟨(open_sustained s₀).charge h.1, h.2.congr rfl rfl rfl fun _ hb => hb⟩
  separator := fun h hv hat hb => ⟨(open_sustained s₀).separator h.1 hv hat hb,
    h.2.separator h.1 hv (separating_of_atSeparator hat) hb⟩
  statement := fun h hv hat hp hlt => ⟨(open_sustained s₀).statement h.1 hv hat hp hlt,
    (h.2.push hp hlt).drained (hp.valid.holding _)⟩
  wrong := fun h hv hat hp hlt hsolid =>
    ⟨(open_sustained s₀).wrong h.1 hv hat hp hlt hsolid, h.2.push hp hlt⟩

/-! ## Whole documents -/

theorem outcome_covers (text : String) (limits : Limits) :
    Outcome text limits fun s =>
      Open ⟨text, limits⟩ State.initial.charge s ∧ Covers ⟨text, limits⟩ s :=
  outcome (covers_sustained _) ⟨open_nil (s := .initial), covers_nil⟩

/-- What is not read is covered by the error at the end. -/
theorem Covers.closed_rest {s₀ : State} (h : Covers doc s) (ho : Open doc s₀ s) (hv : Valid doc s)
    (hg : IsEnd s.statements.toList g) (hsub : ∀ x ∈ s.statements.toList, x ∈ xs)
    (hrest : ∀ i, lastStop s.statements.toList ≤ i → i < size doc.text →
      ∃ x ∈ xs, x.span.contains i = true) : Closed doc.text xs g := by
  rcases h.tight g hg with hclosed | hlive
  · exact hclosed.sublist fun x hx => ⟨x, hsub x hx, rfl⟩
  intro h hgh hh hu
  have hgsize : g ≤ size doc.text := by omega
  refine hlive.clear hgsize (Nat.le_of_not_lt fun hlt => ?_)
  have hfront := hlive.le_front hgsize
  have hcovered : ∃ x ∈ xs, x.span.contains (s.front doc) = true := by
    rcases Nat.lt_or_ge (s.front doc) (lastStop s.statements.toList) with hbefore | hbehind
    · obtain ⟨last, hmem, hstart, hstop, -⟩ := ho.covers_front hv hbefore
      exact ⟨last, hsub last hmem, contains_iff.2 ⟨hstart, hstop⟩⟩
    · exact hrest _ hbehind (by omega)
  obtain ⟨x, hx, hcontains⟩ := hcovered
  rw [hu _ hfront hlt x hx] at hcontains
  cases hcontains

/-- Behind each statement, and at the start of the text, what the statements leave uncovered is
separators. -/
theorem statements_closed {limits : Limits} (hg : IsEnd (parseWith limits text).statements g) :
    Closed text (parseWith limits text).statements g := by
  rw [statements_eq] at hg ⊢
  cases outcome_covers text limits with
  | complete s hrun hwithin heof =>
    rw [hrun] at hg ⊢
    obtain ⟨ho, hcovers⟩ := hwithin.inv
    have hfront : s.front ⟨text, limits⟩ = size text := hwithin.valid.ahead.start_eq_size heof
    rcases hcovers.tight g hg with hclosed | hlive
    · exact hclosed
    · exact fun h hgh hh _ => hlive.clear (Nat.le_trans (Nat.le_of_lt hgh) hh) (hfront ▸ hh)
  | aborted error s hrun hquits =>
    obtain ⟨-, s₁, ⟨ho, hcovers⟩, hv, hstatements⟩ := hquits
    rw [hrun] at hg ⊢
    simp only [concludedStatements, ← hstatements] at hg ⊢
    split at hg
    · rename_i hempty
      rw [if_pos hempty]
      refine hcovers.closed_rest ho hv hg (fun _ hx => hx) fun i hi hlt => ?_
      have hrest : size text - lastStop s₁.statements.toList = 0 := beq_iff_eq.1 hempty
      have hlt : i < size text := hlt
      omega
    · rename_i hrest
      rw [if_neg hrest]
      have hle : lastStop s₁.statements.toList ≤ size text :=
        (boundary_lastStop ho.laid.sound).le_size
      have hstop := Span.stop_upTo hle
      have hold : ∀ g, IsEnd s₁.statements.toList g → Closed text (s₁.statements.toList ++
          [.error (.upTo (lastStop s₁.statements.toList) (size text))]) g := by
        intro g hg
        refine hcovers.closed_rest ho hv hg (fun x hx => by simp [hx]) fun i hi hlt => ?_
        exact ⟨_, List.mem_append_right _ (List.mem_singleton_self _),
          contains_iff.2 ⟨hi, by rw [Node.error, Node.span, hstop]; exact hlt⟩⟩
      rcases hg with rfl | ⟨x, hx, rfl⟩
      · exact hold 0 (.inl rfl)
      · rcases List.mem_append.1 hx with hx | hx
        · exact hold _ (.inr ⟨x, hx, rfl⟩)
        · rw [List.mem_singleton.1 hx]
          exact closed_of_le (Nat.le_of_eq hstop.symm)

/-- No text is lost: what lies in no top-level statement is read as newlines, semicolons and comments
only. -/
theorem gap_separating (text : String) (limits : Limits) (g h : Nat)
    (hgap : Gap text (parseWith limits text).statements g h) (fuel : Nat) :
    ∀ t ∈ Lexer.tokensFrom text fuel g, t.span.start < h →
      t.kind = .newline ∨ t.kind = .semi ∨ t.kind = .comment := by
  refine statements_closed ?_ h hgap.lt hgap.le_size hgap.uncovered fuel
  refine hgap.opens.imp_right fun ⟨x, hx, hcontains⟩ => ⟨x, hx, ?_⟩
  -- The byte before the gap is the last one of the statement.
  have hbefore := contains_iff.1 hcontains
  have hnot : ¬ (x.start ≤ g ∧ g < x.stop) := by
    rw [← contains_iff, hgap.uncovered g (Nat.le_refl g) hgap.lt x hx]
    simp
  have : x.start ≤ g - 1 := hbefore.1
  have : g - 1 < x.stop := hbefore.2
  omega

instance (xs : List Node) (g h : Nat) : Decidable (Uncovered xs g h) :=
  decidable_of_iff (∀ i < h, g ≤ i → ∀ x ∈ xs, x.span.contains i = false)
    ⟨fun hu i hg hh => hu i hh hg, fun hu i hh hg => hu i hg hh⟩

/-- The semicolon, the comment and the newlines between two commands. -/
theorem gap_separating_script :
    Gap "a; # x\n\nb" (parseWith {} "a; # x\n\nb").statements 1 8 ∧
      ∀ t ∈ Lexer.tokensFrom "a; # x\n\nb" 12 1, t.span.start < 8 →
        t.kind = .newline ∨ t.kind = .semi ∨ t.kind = .comment := by
  have hgap : Gap "a; # x\n\nb" (parseWith {} "a; # x\n\nb").statements 1 8 :=
    ⟨by decide, by decide, by decide +kernel, .inr (by decide +kernel)⟩
  exact ⟨hgap, gap_separating "a; # x\n\nb" {} 1 8 hgap 12⟩

end

end Parse

end ShellAnalysis
