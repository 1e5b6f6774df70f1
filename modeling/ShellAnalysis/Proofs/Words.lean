import ShellAnalysis.Proofs.Levels

/-!
# Words

The promises of `word` and `stringLiteral`, and of the substitutions in them.
A word is read token by token; a string is read from where the last piece of it
ended, so inside one only `Drifts` holds.  `${...}` is found byte by byte:
`bracedEnd` may step into a character, but it stops at a byte below 0x80.
-/

namespace ShellAnalysis.Parse

open Text Node

/-! ## Where words start and end -/

section

variable {doc : Document} {s : State}

theorem atBlockOpen_looks : Looks atBlockOpen := fun _ _ => ⟨_, rfl⟩

theorem atWord_looks : Looks atWord := by
  refine .bind (fun _ _ => ⟨_, rfl⟩) fun kind => ?_
  split <;> exact fun _ _ => ⟨_, rfl⟩

theorem inWord_looks : Looks inWord := by
  refine .bind (fun _ _ => ⟨_, rfl⟩) fun b => ?_
  split
  · exact .pure _
  · refine .bind (fun _ _ => ⟨_, rfl⟩) fun kind => ?_
    split <;> exact fun _ _ => ⟨_, rfl⟩

instance : Looking atBlockOpen := ⟨atBlockOpen_looks⟩
instance : Looking atWord := ⟨atWord_looks⟩
instance : Looking inWord := ⟨inWord_looks⟩

theorem ne_eof_of_continuesWord {kind : TokenKind} (h : kind.continuesWord = true) :
    kind ≠ .eof := by
  rintro rfl
  cases h

/-- There is no word at the end of the text. -/
theorem atWord_true (h : atWord doc s = .ok true s) : (s.ahead doc).kind ≠ .eof := by
  have hrun : Runs doc (fun _ _ => False) atWord s fun b _ =>
      b = true → (s.ahead doc).kind ≠ .eof := by
    unfold atWord
    rw [runs_currentKind]
    split
    · rename_i hkind
      exact .look atBlockOpen_looks fun _ _ _ => by rw [hkind]; decide
    · rename_i hkind
      exact fun _ => by rw [hkind]; decide
    · rename_i hkind
      exact fun _ => by rw [hkind]; decide
    · exact fun h => ne_eof_of_continuesWord h
  exact hrun.of_ok h rfl

end

/-! ## Plain text -/

section

variable {doc : Document} {s s₁ s₂ : State}

theorem not_startsEarly_of_text {span : Span} {text : String} :
    ¬ (⟨span, .text text⟩ : Node).StartsEarly := by
  intro h
  cases h with
  | body hb => cases hb
  | part hc => cases hc
  | hollow hc => cases hc

/-- The text at the end of a row is made longer. -/
theorem row_mergeText {text lastText newText : String} {lo hi edge : Nat} {held init : List Node}
    {lastSpan span : Span} (h : Row text lo held hi edge (init ++ [⟨lastSpan, .text lastText⟩]))
    (hglued : lastSpan.stop = span.start) (hcut : Cut text span) (hhi : span.stop ≤ hi) :
    Row text lo held hi edge (init ++ [.make (.text newText) (lastSpan.cover span)]) := by
  have hlast := h.sound ⟨lastSpan, .text lastText⟩ (by simp)
  have hstart : (lastSpan.cover span).start = lastSpan.start := by
    have := lastSpan.start_le_stop
    rw [start_cover]
    omega
  have hstop : (lastSpan.cover span).stop = span.stop := by
    have := span.start_le_stop
    rw [stop_cover]
    omega
  have hlate : lo ≤ lastSpan.start := by
    rcases h.late ⟨lastSpan, .text lastText⟩ (by simp) with hle | ⟨hearly | hbody, -⟩
    · exact hle
    · exact absurd hearly not_startsEarly_of_text
    · exact hbody.elim
  refine Row.append (h.sublist (List.sublist_append_left _ _)) ?_ ?_
  · exact Row.make (f := .text newText) .nil rfl (hlast.here.cut.cover hcut) (by simp [Form.names])
      (.inl (hstart ▸ hlate)) (.inl (hstop ▸ hhi))
  · intro x hx y hy
    rw [List.mem_singleton.1 hy]
    rcases (List.pairwise_append.1 h.inOrder).2.2 x hx _ (List.mem_singleton.2 rfl) with
      hle | hlate | hearly
    · exact .inl (Nat.le_trans hle (Nat.le_of_eq hstart.symm))
    · exact .inr (.inl hlate)
    · exact absurd hearly not_startsEarly_of_text

/-- A piece of text is added to the parts, or put onto the text at their end. -/
theorem pushText_runs {fail : Stopped → State → Prop} {parts : Array Node} {span : Span}
    (h : Parts doc s parts.toList s₁) (hd : Drifts doc s₁ s₂) (hcut : Cut doc.text span)
    (hlo : s₁.pos ≤ span.start) (hhi : span.stop ≤ s₂.pos) :
    Runs doc fail (pushText parts span) s₂ fun parts' s' =>
      s' = s₂ ∧ Parts doc s parts'.toList s₂ := by
  have hpush : Runs doc fail (do return parts.push (.make (.text (← pieceOf span)) span)) s₂
      fun parts' s' => s' = s₂ ∧ Parts doc s parts'.toList s₂ := by
    refine (pieceOf_runs hcut).bind fun text s' hs' => ?_
    subst hs'
    refine .pure ⟨rfl, h.push ⟨hd, ?_, ?_⟩⟩
    · exact Row.make (f := .text text) .nil rfl hcut (by simp [Form.names]) (.inl hlo) (.inl hhi)
    · rw [List.forall_mem_singleton]
      exact id
  unfold pushText
  split
  · rename_i lastSpan lastText hback
    split
    · rename_i hglued
      have hglued : lastSpan.stop = span.start := beq_iff_eq.1 hglued
      obtain ⟨init, rfl⟩ := Array.back?_eq_some_iff.1 hback
      rw [Array.toList_push] at h
      have hlast := h.laid.sound ⟨lastSpan, .text lastText⟩ (by simp)
      refine (pieceOf_runs (hlast.here.cut.cover hcut)).bind fun text s' hs' => ?_
      subst hs'
      refine .pure ⟨rfl, h.toDrifts.trans hd, ?_, ?_⟩
      · rw [Array.pop_push, Array.toList_push]
        exact row_mergeText (h.laid.until_drift hd) hglued hcut hhi
      · rw [Array.pop_push, Array.toList_push]
        intro x hx
        rcases List.mem_append.1 hx with hx | hx
        · exact h.firm x (List.mem_append_left _ hx)
        · rw [List.mem_singleton.1 hx]
          exact id
    · exact hpush
  · exact hpush

end

/-! ## `${...}` -/

section

variable {text : String} {i j : Nat}

theorem isAscii_of_special {b : UInt8} (h : (b == 0x40 || b == 0x23 || b == 0x3f || b == 0x2a ||
    b == 0x21 || b == 0x24 || b == 0x2d) = true) : IsAscii b := by
  simp only [Bool.or_eq_true, beq_iff_eq] at h
  rcases h with (((((rfl | rfl) | rfl) | rfl) | rfl) | rfl) | rfl <;> decide

theorem bracedName_spec (h : Boundary text i) :
    i ≤ (bracedName text i).1 ∧ (bracedName text i).1 ≤ (bracedName text i).2 ∧
      Boundary text (bracedName text i).1 ∧ Boundary text (bracedName text i).2 := by
  unfold bracedName
  extract_lets isNameAt marked start stop special
  obtain ⟨hle, hstart⟩ : i ≤ start ∧ Boundary text start := by
    unfold start
    split
    · rename_i hmarked
      simp only [isNameAt, Bool.and_eq_true] at hmarked
      cases hb : byte? text (i + 1) with
      | none => simp [hb] at hmarked
      | some b =>
        exact ⟨Nat.le_succ i, .of_byte hb (isAscii_of_isNameByte (by simpa [hb] using hmarked.2))⟩
    · exact ⟨Nat.le_refl i, h⟩
  have hstop : start ≤ stop := Heredoc.le_runEnd _ _ _
  have hboundary : Boundary text stop :=
    runEnd_boundary_of_class (fun _ => isAscii_of_isNameByte) hstart
  split
  · rename_i hspecial
    rw [Bool.and_eq_true] at hspecial
    cases hb : byte? text stop with
    | none => simp [hb] at hspecial
    | some b =>
      refine ⟨hle, Nat.le_succ_of_le hstop, hstart, .succ hb (isAscii_of_special ?_)⟩
      simpa [hb, special] using hspecial.2
  · exact ⟨hle, hstop, hstart, hboundary⟩

/-- The end lies at the end of the text or at a byte below 0x80. -/
theorem bracedEnd_spec (depth : Nat) (h : i ≤ size text) :
    i ≤ bracedEnd text depth i ∧ Boundary text (bracedEnd text depth i) := by
  fun_induction bracedEnd text depth i with
  | case1 depth i hb => exact ⟨Nat.le_refl i, .of_none hb h⟩
  | case2 depth i b hb _ ih =>
    obtain ⟨hle, hbound⟩ := ih (lt_size_of_byte? hb)
    exact ⟨by omega, hbound⟩
  | case3 depth i b hb _ hclose =>
    exact ⟨Nat.le_refl i, .of_byte hb (by rw [beq_iff_eq.1 hclose]; decide)⟩
  | case4 depth i b hb _ _ _ ih =>
    obtain ⟨hle, hbound⟩ := ih (lt_size_of_byte? hb)
    exact ⟨by omega, hbound⟩
  | case5 depth i b hb _ _ hfeed =>
    exact ⟨Nat.le_refl i, .of_byte hb (by rw [beq_iff_eq.1 hfeed]; decide)⟩
  | case6 depth i b hb _ _ _ _ ih =>
    have hlt := lt_size_of_byte? hb
    obtain ⟨hle, hbound⟩ := ih (Nat.min_le_right _ _)
    exact ⟨by omega, hbound⟩
  | case7 depth i b hb _ _ _ _ ih =>
    obtain ⟨hle, hbound⟩ := ih (lt_size_of_byte? hb)
    exact ⟨by omega, hbound⟩

/-- The offsets in a braced variable that opens at `i`: its name, the text behind the name, and
where the whole is closed. -/
structure BracedAt (text : String) (i : Nat) (name : Nat × Nat) (stop close : Nat) : Prop where
  le_start : i ≤ name.1
  start_le : name.1 ≤ name.2
  le_stop : name.2 ≤ stop
  stop_le : stop ≤ close
  nameCut : Cut text (.upTo name.1 name.2)
  suffixCut : Cut text (.upTo name.2 stop)
  boundary : Boundary text close

theorem bracedAt (h : Boundary text i) :
    BracedAt text i (bracedName text i) (bracedEnd text 1 (bracedName text i).2)
      (if hasByte text (bracedEnd text 1 (bracedName text i).2) 0x7d = true then
        bracedEnd text 1 (bracedName text i).2 + 1 else bracedEnd text 1 (bracedName text i).2) := by
  obtain ⟨hle, hstop, hstart, hname⟩ := bracedName_spec h
  obtain ⟨hend, hboundary⟩ := bracedEnd_spec 1 hname.le_size
  have hclose : bracedEnd text 1 (bracedName text i).2 ≤
        (if hasByte text (bracedEnd text 1 (bracedName text i).2) 0x7d = true then
          bracedEnd text 1 (bracedName text i).2 + 1 else bracedEnd text 1 (bracedName text i).2) ∧
      Boundary text (if hasByte text (bracedEnd text 1 (bracedName text i).2) 0x7d = true then
        bracedEnd text 1 (bracedName text i).2 + 1 else bracedEnd text 1 (bracedName text i).2) := by
    split
    · rename_i hclosed
      exact ⟨Nat.le_succ _, .succ (hasByte_iff.1 hclosed) (by decide)⟩
    · exact ⟨Nat.le_refl _, hboundary⟩
  exact ⟨hle, hstop, hend, hclose.1, cut_upTo hstart hname, cut_upTo hname hboundary, hclose.2⟩

end

section

variable {doc : Document} {s : State}

theorem bracedVarSub_runs (hv : Valid doc s) (hk : (s.ahead doc).kind = .dollarBrace) :
    Runs doc (Fails doc s) bracedVarSub s fun v s' =>
      Yields doc .final s [v] s' ∧ s.pos < s'.pos := by
  unfold bracedVarSub
  refine ((bump_runs hv (by rw [hk]; decide)).stepIn (.refl s)).bind fun t s₁ h => ?_
  obtain ⟨rfl, h₁⟩ := h
  have hadv := h₁.advanced (by rw [hk]; decide)
  rw [runs_source, ← hadv.pos]
  have hat := bracedAt h₁.valid.boundary
  generalize bracedName doc.text s₁.pos = name at hat ⊢
  simp only
  generalize bracedEnd doc.text 1 name.2 = stop at hat ⊢
  generalize (if hasByte doc.text stop 0x7d = true then stop + 1 else stop) = close at hat ⊢
  have hclose : s₁.pos ≤ close :=
    Nat.le_trans hat.le_start (Nat.le_trans hat.start_le (Nat.le_trans hat.le_stop hat.stop_le))
  have hstart := hv.front_lt_stop (by rw [hk]; decide)
  have hpos := hadv.pos
  have hfront : s.front doc ≤ close := by omega
  rw [runs_between hat.start_le]
  refine (pieceOf_runs hat.nameCut).bind fun nameText s' hs' => ?_
  subst hs'
  rw [runs_between hat.le_stop]
  refine (pieceOf_runs hat.suffixCut).bind fun suffix s' hs' => ?_
  subst hs'
  rw [show (s.ahead doc).span.start = s.front doc from rfl, runs_between hfront]
  refine (require_runs h₁.valid).bind fun _ s₂ h₂ => ?_
  have hwide : s₂.tokens + s₂.pending.length + 1 ≤ s₂.pos := by
    have h1 := hv.tokens
    have h2 := hv.pos_le_front
    have h3 := hv.ahead.wide (by rw [hk]; rfl)
    have h4 : (s.ahead doc).span.start = s.front doc := rfl
    rw [h₂.tokens, h₂.pending, h₂.pos, hadv.tokens, hadv.pending]
    omega
  have hle₅ : s₂.pos ≤ close := by rwa [h₂.pos]
  have hmoves := h₁.toMoves.trans h₂.moves
  refine ((advanceTo_runs h₂.valid hat.boundary hle₅ (Nat.le_trans hwide hle₅)).stepIn hmoves.toKeeps).bind
    fun _ s₃ h₃ => ?_
  have hlt : s.pos < s₂.pos := by
    rw [h₂.pos]
    exact h₁.pos_lt hv
  have hmoves := hmoves.drift hlt h₃.toDrifts
  have hlt : s.pos < s₃.pos := Nat.lt_of_lt_of_le hlt h₃.pos_le
  refine ⟨?_, hlt⟩
  have hyields := hmoves.made (e := .final) (f := .bracedVarSub ⟨nameText, .upTo name.1 name.2⟩
    suffix) hlt hv .nil rfl (by simpa [Form.names] using hat.nameCut)
  rw [h₃.pos] at hyields
  exact hyields

end

/-! ## Brackets -/

section

variable {α : Type} {doc : Document} {s s₁ : State} {d : Nat} {enter : Parser Grammar}
  {close : TokenKind} {what : String} {R : α → List Node → Prop}

/-- What is known of the content of brackets is known after them. -/
theorem closedBy_runs {p : Parser α} (hclose : close ≠ .eof)
    (h : Runs doc (Strays doc s₁.skipping) p s.skipping fun a s₂ =>
      Drifts doc s₁.skipping s₂ ∧ ∃ xs, Laid doc .final s₁ xs s₂ ∧ R a xs) :
    Runs doc (Strays doc s₁) (closedBy close what p) s fun a s' =>
      Drifts doc s₁ s' ∧ ∃ xs, Laid doc .final s₁ xs s' ∧ R a xs := by
  refine skippingNewlines_runs (R := fun a s' => ∃ xs, Laid doc .final s₁ xs s' ∧ R a xs)
    (h.bind fun a s₂ h₂ => ?_)
  obtain ⟨hd, xs, hl, hr⟩ := h₂
  refine ((expect_moves hd.valid hclose).stepOn hd.toKeeps).bind fun _ s₃ h₃ => ?_
  exact ⟨hd.trans h₃.toDrifts, xs, hl.until_drift h₃.toDrifts, hr⟩

/-- A level further in is left for the construct that began with the token before it. -/
theorem Bumped.leave {s₂ : State} (h : Bumped doc s s₁) (hv : Valid doc s)
    (hd : Drifts doc s₁.charge.deeper s₂) : Moves doc s s₂.shallower :=
  (h.charge hv).drift (h.pos_lt hv) hd.leave

theorem Runs.entered {p : Parser α} {s' : State} {Q : α → State → Prop} (hb : Bumped doc s s₁)
    (hv : Valid doc s) (h : Runs doc (Strays doc s₁.charge.deeper) p s' Q) :
    Runs doc (Fails doc s) p s' Q :=
  h.imp_fail fun _ _ hf => hf.leave.fails (hb.charge hv) (hb.pos_lt hv)

/-- Brackets around content that is read one level further in. -/
theorem bracketed_runs {content : Grammar → Parser α} {form : α → Form Node}
    (he : Enters doc d enter) (hv : Valid doc s) (hd : s.nesting.depth = d)
    (hk : (s.ahead doc).kind ≠ .eof) (hclose : close ≠ .eof)
    (hcontent : ∀ g s₁, Grammar.Obeys doc (d + 1) g → Valid doc s₁.charge →
      s₁.nesting.depth = d + 1 → Runs doc (Strays doc s₁.charge) (content g) s₁ fun a s₂ =>
        Drifts doc s₁.charge s₂ ∧ ∃ xs, Laid doc .final s₁ xs s₂ ∧ R a xs) :
    Runs doc (Fails doc s) (bracketed enter close what content form) s fun v s' =>
      Moves doc s s' ∧ s.pos < s'.pos ∧ ∃ a xs, v = .make (form a) (.upTo (s.front doc) s'.pos) ∧
        Laid doc .final s xs s' ∧ R a xs := by
  unfold bracketed
  rw [runs_startOffset]
  refine ((discard_bump_runs hv hk).stepIn (.refl s)).bind fun _ s₁ h₁ => ?_
  refine ((he h₁.valid (h₁.depth.trans hd)).inside h₁.toMoves).bind fun g s₂ h₂ => ?_
  obtain ⟨hg, rfl⟩ := h₂
  have hcharge := (h₁.charge hv).valid
  refine (Runs.entered h₁ hv (closedBy_runs (R := R) hclose ?_)).bind fun a s₃ h₃ => ?_
  · exact hcontent g _ hg (hcharge.congr rfl rfl rfl rfl rfl rfl)
      (congrArg (· + 1) (h₁.depth.trans hd))
  · obtain ⟨hdrifts, xs, hl, hr⟩ := h₃
    rw [runs_ascend, runs_spanFrom]
    refine .pure ⟨h₁.leave hv hdrifts, ?_, a, xs, rfl, ?_, hr⟩
    · exact Nat.lt_of_lt_of_le (h₁.pos_lt hv) hdrifts.pos_le
    · exact (show Laid doc .final s₁ xs s₃.shallower from hl).after h₁.toDrifts

/-- Brackets around the parts of a plain construct. -/
theorem bracketed_yields {content : Grammar → Parser α} {form : α → Form Node}
    (he : Enters doc d enter) (hv : Valid doc s) (hd : s.nesting.depth = d)
    (hk : (s.ahead doc).kind ≠ .eof) (hclose : close ≠ .eof)
    (hform : ∀ a, (form a).isPlain = true) (hnames : ∀ a, (form a).names = [])
    (hcontent : ∀ g s₁, Grammar.Obeys doc (d + 1) g → Valid doc s₁.charge →
      s₁.nesting.depth = d + 1 → Runs doc (Strays doc s₁.charge) (content g) s₁ fun a s₂ =>
        Drifts doc s₁.charge s₂ ∧ Laid doc .final s₁ (form a).children s₂) :
    Runs doc (Fails doc s) (bracketed enter close what content form) s fun v s' =>
      Yields doc .final s [v] s' ∧ s.pos < s'.pos := by
  refine (bracketed_runs (R := fun a xs => xs = (form a).children) he hv hd hk hclose
    fun g s₁ hg hv₁ hd₁ => ?_).imp fun v s' h => ?_
  · exact (hcontent g s₁ hg hv₁ hd₁).imp fun a s₂ h => ⟨h.1, _, h.2, rfl⟩
  · obtain ⟨hm, hlt, a, _, rfl, hl, rfl⟩ := h
    exact ⟨hm.made hlt hv hl (hform a) (by simp [hnames]), hlt⟩

end

/-! ## Substitutions -/

section

variable {doc : Document} {s : State} {d : Nat} {enter : Parser Grammar}

theorem exprSub_runs (he : Enters doc d enter) (hv : Valid doc s) (hd : s.nesting.depth = d)
    (hk : (s.ahead doc).kind ≠ .eof) :
    Runs doc (Fails doc s) (exprSub enter) s fun v s' =>
      Yields doc .final s [v] s' ∧ s.pos < s'.pos := by
  refine bracketed_yields he hv hd hk (by decide) (fun _ => rfl) (fun _ => rfl)
    fun g s₁ hg hv₁ hd₁ => ?_
  have hv₁ := hv₁.of_charge
  refine ((hg.expression 0 hv₁ hd₁).along hv₁.uncharge).imp fun v s₂ h => ?_
  exact ⟨hv₁.uncharge.trans h.1.toDrifts, h.1.laid⟩

theorem commandSub_runs (he : Enters doc d enter) (hv : Valid doc s) (hd : s.nesting.depth = d)
    (hk : (s.ahead doc).kind ≠ .eof) :
    Runs doc (Fails doc s) (commandSub enter) s fun v s' =>
      Yields doc .final s [v] s' ∧ s.pos < s'.pos := by
  unfold commandSub
  rw [runs_startOffset]
  refine ((bump_runs hv hk).stepIn (.refl s)).bind fun t s₁ h₁ => ?_
  obtain ⟨-, h₁⟩ := h₁
  refine ((he h₁.valid (h₁.depth.trans hd)).inside h₁.toMoves).bind fun g s₂ h₂ => ?_
  obtain ⟨hg, rfl⟩ := h₂
  have hcharge := (h₁.charge hv).valid
  refine (Runs.entered h₁ hv (withNewlines_runs
    (R := fun xs s' => Laid doc .final s₁ xs s') (by rfl) ?_)).bind fun xs s₃ h₃ => ?_
  · refine ((hg.statements (s := s₁.deeper.keeping) [.parenClose] false
      (hcharge.congr rfl rfl rfl rfl rfl rfl) (congrArg (· + 1) (h₁.depth.trans hd))).stepOn
        (s := s₁.charge.deeper.keeping) ⟨rfl, rfl, rfl⟩).bind fun xs s₃ h₃ => ?_
    refine ((h₃.laid.close h₃.valid (h₃.ends_at rfl) (by decide)).stepOn h₃.toKeeps).bind fun _ s₄ h₄ => ?_
    exact ⟨h₃.toDrifts.trans h₄.1.toDrifts, h₄.2⟩
  · obtain ⟨hdrifts, hl⟩ := h₃
    rw [runs_ascend, runs_spanFrom]
    have hlt : s.pos < s₃.shallower.pos := Nat.lt_of_lt_of_le (h₁.pos_lt hv) hdrifts.pos_le
    refine .pure ⟨(h₁.leave hv hdrifts).made hlt hv ?_ rfl (by simp [Form.names]), hlt⟩
    exact (show Laid doc .final s₁ xs s₃.shallower from hl).after h₁.toDrifts

/-- A token that is not a newline is ahead whether newlines count or not. -/
theorem ahead_of_keeping (h : (s.keeping.ahead doc).kind ≠ .newline) :
    s.ahead doc = s.keeping.ahead doc :=
  significantAt_skip h

theorem backtickSub_runs (he : Enters doc d enter) (hv : Valid doc s) (hd : s.nesting.depth = d)
    (hk : (s.ahead doc).kind ≠ .eof) :
    Runs doc (Fails doc s) (backtickSub enter) s fun v s' =>
      Yields doc .final s [v] s' ∧ s.pos < s'.pos := by
  unfold backtickSub
  rw [runs_startOffset]
  refine ((discard_bump_runs hv hk).stepIn (.refl s)).bind fun t s₁ h₁ => ?_
  refine ((he h₁.valid (h₁.depth.trans hd)).inside h₁.toMoves).bind fun g s₂ h₂ => ?_
  obtain ⟨hg, rfl⟩ := h₂
  have hcharge := (h₁.charge hv).valid
  refine (Runs.entered h₁ hv (insideBackticks_runs (R := fun xs s' =>
    Laid doc .ahead s₁ xs s'.keeping ∧ ((s'.keeping.ahead doc).kind = .eof ∨
      (s'.keeping.ahead doc).kind = .backtick)) (withNewlines_runs (R := fun xs s' =>
    Laid doc .ahead s₁ xs s' ∧ ((s'.ahead doc).kind = .eof ∨
      (s'.ahead doc).kind = .backtick)) (by rfl) ?_))).bind fun xs s₃ h₃ => ?_
  · refine ((hg.statements (s := s₁.deeper.ticked.keeping) [.backtick] false
      (hcharge.congr rfl rfl rfl rfl rfl rfl) (congrArg (· + 1) (h₁.depth.trans hd))).stepOn
        (s := s₁.charge.deeper.ticked.keeping) ⟨rfl, rfl, rfl⟩).imp fun xs s₃ h₃ => ?_
    exact ⟨h₃.toDrifts, h₃.laid, h₃.ends_at rfl⟩
  · obtain ⟨hdrifts, hl, hends⟩ := h₃
    -- The list ended where newlines count; the backtick that ends it is ahead outside of it too.
    have hahead : s₃.ahead doc = s₃.keeping.ahead doc := by
      refine ahead_of_keeping ?_
      rcases hends with h | h
      · exact fun hn => absurd (h.symm.trans hn) (by decide)
      · exact fun hn => absurd (h.symm.trans hn) (by decide)
    have hl : Laid doc .ahead s₁ xs s₃ := by
      show Row doc.text s₁.pos s₁.bodies s₃.pos (s₃.ahead doc).span.start xs
      rw [hahead]
      exact hl
    have hends : (s₃.ahead doc).kind = .eof ∨ (s₃.ahead doc).kind = .backtick := by
      rw [hahead]
      exact hends
    refine (Runs.entered h₁ hv ((hl.close hdrifts.valid hends (by decide)).stepOn hdrifts.toKeeps)).bind
      fun _ s₄ h₄ => ?_
    have hdrifts := hdrifts.trans h₄.1.toDrifts
    rw [runs_ascend, runs_spanFrom]
    have hlt : s.pos < s₄.shallower.pos := Nat.lt_of_lt_of_le (h₁.pos_lt hv) hdrifts.pos_le
    refine .pure ⟨(h₁.leave hv hdrifts).made hlt hv ?_ rfl (by simp [Form.names]), hlt⟩
    exact (show Laid doc .final s₁ xs s₄.shallower from h₄.2).after h₁.toDrifts

theorem afterSigil_runs {fail : Stopped → State → Prop} {s' : State} (hv : Valid doc s)
    (hk : (s.ahead doc).kind.hasSigil = true) :
    Runs doc fail (afterSigil (s.ahead doc)) s' fun _ s'' => s'' = s' := by
  have hahead := hv.ahead
  have hlt : (s.ahead doc).span.start + 1 ≤ (s.ahead doc).span.stop :=
    hahead.lt fun heof => by rw [heof] at hk; cases hk
  unfold afterSigil
  rw [runs_between hlt]
  exact pieceOf_runs (cut_upTo (hahead.sigil hk) hahead.cut.2)

/-- Kinds that open a substitution; a backtick does so only outside of backticks. -/
def opensSubstitution : TokenKind → Bool
  | .simpleVar | .specialVar | .splice | .dollarBrace | .dollarParen | .atParen | .dollarBracket
  | .backtick => true
  | _ => false

/-- A substitution is read, or the current token opens none. -/
def Substituted (doc : Document) (s : State) : Option Node → State → Prop
  | some v, s' => Yields doc .final s [v] s' ∧ s.pos < s'.pos
  | none, s' => s' = s ∧ (opensSubstitution (s.ahead doc).kind = true →
      (s.ahead doc).kind = .backtick ∧ s.nesting.backtickDepth ≠ 0)

theorem substitution?_runs (he : Enters doc d enter) (hv : Valid doc s)
    (hd : s.nesting.depth = d) :
    Runs doc (Fails doc s) (substitution? enter) s (Substituted doc s) := by
  have hname : (s.ahead doc).kind.hasSigil = true → ∀ form : String → Form Node,
      (∀ name, (form name).isPlain = true ∧ (form name).children = [] ∧ (form name).names = []) →
      Runs doc (Fails doc s) (do
        let t ← bump
        return some (.make (form (← afterSigil t)) t.span)) s (Substituted doc s) := by
    intro hk form hform
    have hne : (s.ahead doc).kind ≠ .eof := fun heof => by rw [heof] at hk; cases hk
    refine ((bump_runs hv hne).stepIn (.refl s)).bind fun t s₁ h₁ => ?_
    obtain ⟨rfl, h₁⟩ := h₁
    refine (afterSigil_runs hv hk).bind fun name s₂ h₂ => ?_
    subst h₂
    obtain ⟨hplain, hchildren, hnames⟩ := hform name
    exact ⟨h₁.leaf hv hchildren hplain (by simp [hnames]), h₁.pos_lt hv⟩
  have hsome : ∀ {p : Parser Node}, Runs doc (Fails doc s) p s (fun v s' =>
      Yields doc .final s [v] s' ∧ s.pos < s'.pos) →
      Runs doc (Fails doc s) (do return some (← p)) s (Substituted doc s) :=
    fun h => h.bind fun _ _ h => h
  unfold substitution?
  rw [runs_currentKind]
  split
  · rename_i hk
    exact hname (by rw [hk]; rfl) .simpleVarSub fun _ => ⟨rfl, rfl, rfl⟩
  · rename_i hk
    exact hname (by rw [hk]; rfl) .simpleVarSub fun _ => ⟨rfl, rfl, rfl⟩
  · rename_i hk
    exact hname (by rw [hk]; rfl) .splice fun _ => ⟨rfl, rfl, rfl⟩
  · rename_i hk
    exact hsome (bracedVarSub_runs hv hk)
  · rename_i hk
    exact hsome (commandSub_runs he hv hd (by rw [hk]; decide))
  · rename_i hk
    exact hsome (commandSub_runs he hv hd (by rw [hk]; decide))
  · rename_i hk
    exact hsome (exprSub_runs he hv hd (by rw [hk]; decide))
  · rename_i hk
    rw [runs_get]
    split
    · exact hsome (backtickSub_runs he hv hd (by rw [hk]; decide))
    · rename_i hdepth
      exact .pure ⟨rfl, fun _ => ⟨hk, fun h => hdepth (by rw [h]; rfl)⟩⟩
  · refine .pure ⟨rfl, fun hopens => ?_⟩
    exfalso
    unfold opensSubstitution at hopens
    split at hopens <;> simp_all

end

/-! ## Strings -/

/-- The text ends at the offset or goes on with a byte below 0x80. -/
def StopsAt (text : String) (i : Nat) : Prop :=
  byte? text i = none ∨ ∃ b, byte? text i = some b ∧ IsAscii b

section

variable {text : String} {i : Nat}

theorem isAscii_of_endsString {style : QuoteStyle} {triple : Bool} {b : UInt8}
    (h : Content.endsString text style triple b i = true) : IsAscii b := by
  unfold Content.endsString at h
  rcases Bool.or_eq_true_iff.1 h with h | h
  · rw [beq_iff_eq.1 (Bool.and_eq_true_iff.1 h).1]
    cases style <;> decide
  · rcases Bool.or_eq_true_iff.1 (Bool.and_eq_true_iff.1 h).2 with h | h <;>
      rw [beq_iff_eq.1 h] <;> decide

theorem stringContent?_eq (text : String) (style : StringStyle) (i : Nat) :
    ∃ kind unclosed, stringContent? text style i =
      ((Content.stringReader text (quoteStyle style) (isTriple style)).stop? i).bind
        (Scanner.content? text kind unclosed i) := by
  unfold stringContent?
  cases isTriple style with
  | true => exact ⟨_, _, rfl⟩
  | false => exact ⟨_, _, rfl⟩

/-- A run of content starts where it is read and ends where the reader stops. -/
theorem stringContent?_spec {style : StringStyle} {found : Option Scanned}
    (hc : stringContent? text style i = some found) :
    ∃ stop, (Content.stringReader text (quoteStyle style) (isTriple style)).stop? i = some stop ∧
      match found with
      | some piece => Scanner.ReadAt text i piece ∧ piece.span.stop = stop
      | none => stop = i := by
  obtain ⟨kind, unclosed, heq⟩ := stringContent?_eq text style i
  rw [heq] at hc
  obtain ⟨stop, hstop, hfound⟩ := Option.bind_eq_some_iff.1 hc
  refine ⟨stop, hstop, ?_⟩
  cases found with
  | some piece =>
    obtain ⟨hread, hspan⟩ := Scanner.content?_spec hfound
    refine ⟨hread, ?_⟩
    rw [hspan]
    exact Span.stop_upTo (Content.Reader.le_stop? hstop)
  | none => exact Scanner.stop_of_content?_none hfound

theorem exists_stringContent? (style : StringStyle) (h : Boundary text i) :
    ∃ found, stringContent? text style i = some found := by
  obtain ⟨kind, unclosed, heq⟩ := stringContent?_eq text style i
  rw [heq]
  exact Scanner.exists_content? (Content.stringReader_sound text _ _) h

/-- Content ends where a byte below 0x80 stands. -/
theorem stopsAt_of_stringReader {style : QuoteStyle} {triple : Bool} {stop : Nat}
    (h : (Content.stringReader text style triple).stop? i = some stop) : StopsAt text stop := by
  refine (Content.Reader.stop?_stops h).imp_right ?_
  rintro ⟨b, hb, hends⟩
  exact ⟨b, hb, isAscii_of_endsString hends⟩

/-- What closes a string ends in a quote. -/
theorem closingQuote_last (style : StringStyle) :
    ∃ b, byte? (closingQuote style) (size (closingQuote style) - 1) = some b ∧ IsAscii b := by
  cases style <;> exact ⟨_, rfl, by decide⟩

end

section

variable {doc : Document} {s s₁ : State} {d : Nat} {enter : Parser Grammar}

/-- Bytes that lie ahead can be consumed as one token. -/
theorem advance_runs {i : Nat} (hv : Valid doc s) (hi : Boundary doc.text i) (hlt : s.pos < i) :
    Runs doc (Aborts doc s) (advanceTo i) s fun _ s' => Advanced doc s i s' :=
  advanceTo_runs hv hi (Nat.le_of_lt hlt) (Nat.lt_of_le_of_lt hv.tokens hlt)

theorem stringRun_runs {style : StringStyle} {parts : Array Node}
    (h : Parts doc s parts.toList s₁) :
    Runs doc (Aborts doc s₁) (stringRun style parts) s₁ fun parts' s₂ =>
      Parts doc s parts'.toList s₂ ∧ s₁.pos ≤ s₂.pos ∧ StopsAt doc.text s₂.pos ∧ Keeps s₁ s₂ := by
  obtain ⟨found, hfound⟩ := exists_stringContent? style h.valid.boundary
  obtain ⟨stop, hstop, hspec⟩ := stringContent?_spec hfound
  have hstops := stopsAt_of_stringReader hstop
  unfold stringRun
  rw [runs_source, runs_position, hfound, runs_orFault]
  cases found with
  | some content =>
    obtain ⟨hread, rfl⟩ := hspec
    refine (advance_runs h.valid hread.cut.2 hread.lt).bind fun _ s₂ h₂ => ?_
    have hpos := h₂.pos
    refine .pure ⟨h.push ⟨h₂.toDrifts, ?_, ?_⟩, h₂.pos_le, hpos ▸ hstops, h₂.toKeeps⟩
    · exact Row.make (f := .text content.text) .nil rfl hread.cut (by simp [Form.names])
        (.inl (Nat.le_of_eq hread.start.symm)) (.inl (Nat.le_of_eq hpos.symm))
    · rw [List.forall_mem_singleton]
      exact id
  | none =>
    obtain rfl : stop = s₁.pos := hspec
    exact .pure ⟨h, Nat.le_refl _, hstops, .refl _⟩

theorem stringRound_runs {style : StringStyle} {parts : Array Node} (he : Enters doc d enter)
    (hd : s.nesting.depth = d) (h : Parts doc s parts.toList s₁) :
    Runs doc (Strays doc s) (stringRound enter style parts) s₁
      (Goes (fun parts => Parts doc s parts.toList) (fun r => Parts doc s r.1.toList) s₁) := by
  unfold stringRound
  refine ((stringRun_runs h).stepOn h.toKeeps).bind fun parts s₂ h₂ => ?_
  obtain ⟨h₂, hle, hstops, -⟩ := h₂
  rw [runs_source, runs_positionInText h₂.valid.le_size]
  split
  · rename_i hquote
    obtain ⟨b, hb, hascii⟩ := closingQuote_last style
    have hsize := lt_size_of_byte? hb
    refine ((advance_runs h₂.valid (boundary_of_hasPiece hquote hb hascii) (by omega)).stepOn
      h₂.toKeeps).bind fun _ s₃ h₃ => ?_
    exact h₂.drift h₃.toDrifts
  split
  · exact .pure h₂
  · rename_i hlt
    refine ((substitution?_runs he h₂.valid (h₂.depth.trans hd)).along h₂.toDrifts).bind
      fun r s₃ h₃ => ?_
    cases r with
    | some sub =>
      exact .pure ⟨h₂.push h₃.1.parts, Nat.lt_of_le_of_lt hle h₃.2⟩
    | none =>
      obtain ⟨rfl, -⟩ := h₃
      -- The byte opens nothing; it is a `$` or a backtick, so a boundary follows.
      obtain ⟨b, hb, hascii⟩ : ∃ b, byte? doc.text s₃.pos = some b ∧ IsAscii b :=
        hstops.resolve_left fun hnone => hlt (byte?_eq_none.1 hnone)
      refine ((advance_runs h₂.valid (.succ hb hascii) (Nat.lt_succ_self _)).stepOn
        h₂.toKeeps).bind fun _ s₄ h₄ => ?_
      have hcut : Cut doc.text ⟨s₃.pos, 1⟩ := ⟨.of_byte hb hascii, .succ hb hascii⟩
      refine (pushText_runs h₂ h₄.toDrifts hcut (Nat.le_refl _)
        (Nat.le_of_eq h₄.pos.symm)).bind fun parts' s₅ h₅ => ?_
      obtain ⟨rfl, hparts⟩ := h₅
      refine .pure ⟨hparts, ?_⟩
      have := h₄.pos
      omega

theorem stringLiteral_runs (he : Enters doc d enter) (hv : Valid doc s)
    (hd : s.nesting.depth = d) (hk : (s.ahead doc).kind.isQuote = true) :
    Runs doc (Fails doc s) (stringLiteral enter) s fun v s' =>
      Yields doc .final s [v] s' ∧ s.pos < s'.pos := by
  have hne : (s.ahead doc).kind ≠ .eof := fun heof => by rw [heof] at hk; cases hk
  unfold stringLiteral
  rw [runs_startOffset]
  refine ((bump_runs hv hne).stepIn (.refl s)).bind fun t s₁ h₁ => ?_
  obtain ⟨rfl, h₁⟩ := h₁
  have hnil : Parts doc s₁ [] s₁ := .nil h₁.valid
  refine ((Runs.repeatRounds (fun parts => Parts doc s₁ parts.toList) (fun _ _ h => h.valid.le_size) hnil fun parts s₂ h₂ =>
    stringRound_runs he (h₁.depth.trans hd) h₂).begun h₁.toMoves (h₁.pos_lt hv)).bind
    fun r s₂ h₂ => ?_
  have hmoves := h₁.toMoves.drift (h₁.pos_lt hv) h₂.toDrifts
  have hlt := Nat.lt_of_lt_of_le (h₁.pos_lt hv) h₂.pos_le
  have hyields := hmoves.made (f := .stringLit (stringStyle (s.ahead doc).kind) r.1.toList)
    hlt hv (h₂.laid.after h₁.toDrifts) rfl (by simp [Form.names])
  have hcut := cut_upTo hv.front_boundary h₂.valid.boundary
  show Runs doc _ (spanFrom (s.front doc) >>= _) s₂ _
  rw [runs_spanFrom]
  split
  · refine (report_runs h₂.valid (Diagnostic.fair_lexical hcut)).bind fun _ s₃ h₃ => ?_
    exact .pure ⟨hyields.step h₃.moves, h₃.pos ▸ hlt⟩
  · exact .pure ⟨hyields, hlt⟩

/-! ## Words -/

/-- The parts of a word as far as it is read: none yet, or something was consumed. -/
def Wording (doc : Document) (s : State) (parts : Array Node) (s' : State) : Prop :=
  Yields doc .final s parts.toList s' ∧ (parts = #[] ∧ s' = s ∨ s.pos < s'.pos)

/-- A part of a word, or nothing. -/
def MaybePart (doc : Document) (s : State) : Option Node → State → Prop
  | some v, s' => Yields doc .final s [v] s' ∧ s.pos < s'.pos
  | none, s' => s' = s

theorem wordRound_runs {parts : Array Node} (he : Enters doc d enter) (hd : s.nesting.depth = d)
    (hword : atWord doc s = .ok true s) (h : Wording doc s parts s₁) :
    Runs doc (Fails doc s) (wordRound enter parts) s₁ (Goes (Wording doc s) (fun parts s' =>
      Yields doc .final s parts.toList s' ∧ s.pos < s'.pos) s₁) := by
  obtain ⟨hy, hstart⟩ := h
  have hagain : ∀ {v s₂}, Yields doc .final s₁ [v] s₂ → s₁.pos < s₂.pos →
      Wording doc s (parts.push v) s₂ ∧ s₁.pos < s₂.pos := by
    intro v s₂ h hlt
    refine ⟨⟨?_, .inr (Nat.lt_of_le_of_lt hy.pos_le hlt)⟩, hlt⟩
    rw [Array.toList_push]
    exact hy.then h
  unfold wordRound
  refine .look inWord_looks fun more hmore => ?_
  split
  · rename_i hend
    refine .pure ⟨hy, hstart.resolve_left fun hempty => ?_⟩
    rw [hempty.1] at hend
    simp at hend
  rw [runs_currentKind]
  refine Runs.bind (R := MaybePart doc s₁) ?_ fun r s₂ h₂ => ?_
  · split
    · exact .pure rfl
    · refine ((substitution?_runs he hy.valid (hy.depth.trans hd)).inside hy.toMoves).imp
        fun r s₂ h₂ => ?_
      cases r with
      | some v => exact h₂
      | none => exact h₂.1
  cases r with
  | some v => exact .pure (hagain h₂.1 h₂.2)
  | none =>
    obtain rfl : s₂ = s₁ := h₂
    simp only
    split
    · rename_i hquote
      refine ((stringLiteral_runs he hy.valid (hy.depth.trans hd) hquote).inside hy.toMoves).bind
        fun v s₃ h₃ => ?_
      exact .pure (hagain h₃.1 h₃.2)
    split
    · rename_i heof
      refine .pure ⟨hy, hstart.resolve_left fun hempty => ?_⟩
      exact atWord_true hword (hempty.2 ▸ beq_iff_eq.1 heof)
    · rename_i hne
      refine ((bump_runs hy.valid (fun heof => hne (beq_iff_eq.2 heof))).stepIn hy.toKeeps).bind
        fun t s₃ h₃ => ?_
      obtain ⟨rfl, h₃⟩ := h₃
      refine (pushText_runs hy.parts h₃.toDrifts hy.valid.ahead.cut hy.valid.pos_le_front
        h₃.stop_le).bind fun parts' s₄ h₄ => ?_
      obtain ⟨rfl, hparts⟩ := h₄
      have hlt := h₃.pos_lt hy.valid
      exact .pure ⟨⟨⟨hy.toMoves.trans h₃.toMoves, hparts.laid, hparts.firm⟩,
        .inr (Nat.lt_of_le_of_lt hy.pos_le hlt)⟩, hlt⟩

theorem word_runs (he : Enters doc d enter) (hv : Valid doc s) (hd : s.nesting.depth = d)
    (hword : atWord doc s = .ok true s) :
    Runs doc (Fails doc s) (word enter) s fun v s' =>
      Yields doc .final s [v] s' ∧ s.pos < s'.pos := by
  unfold word
  rw [runs_startOffset]
  have hnil : Wording doc s #[] s := ⟨(Moves.refl hv).yields, .inl ⟨rfl, rfl⟩⟩
  refine (Runs.repeatRounds (Wording doc s) (fun _ _ h => h.1.valid.le_size) hnil fun parts s₁ h =>
    wordRound_runs he hd hword h).bind fun parts s' h => ?_
  rw [runs_spanFrom]
  exact .pure ⟨h.1.toMoves.made h.2 hv h.1.laid rfl (by simp [Form.names]), h.2⟩

end

end ShellAnalysis.Parse
