import ShellAnalysis.Proofs.Accounts.Brackets
import ShellAnalysis.Proofs.Built.Words
import ShellAnalysis.Proofs.Coverage

/-!
# Accounts of words and strings

The parts of a word follow each other because every round but the first is made
where nothing stands between the position and the token ahead.  The parts of a
string do because string content stops only at the quote that closes the string,
or at a byte that a token ahead starts with (`stringEnd_mark`).
-/

namespace ShellAnalysis.Parse

open Text Node

/-! ## Tiles -/

section

variable {text : String} {i j k lo hi : Nat} {xs ys parts parts' : List Node} {v : Node}
  {span : Span}

theorem Tiles.le (h : Tiles i xs j) : i ≤ j := by
  induction xs generalizing i with
  | nil => exact Nat.le_of_eq h
  | cons x xs ih => exact h.1 ▸ Nat.le_trans x.start_le_stop (ih h.2)

theorem Tiles.between (h : Tiles i xs j) : ∀ x ∈ xs, i ≤ x.start ∧ x.stop ≤ j := by
  induction xs generalizing i with
  | nil => exact nofun
  | cons x xs ih =>
    have hle : i ≤ x.stop := h.1 ▸ x.start_le_stop
    refine List.forall_mem_cons.2 ⟨⟨Nat.le_of_eq h.1.symm, h.2.le⟩, fun y hy => ?_⟩
    exact ⟨Nat.le_trans hle (ih h.2 y hy).1, (ih h.2 y hy).2⟩

theorem tiles_append_singleton {init : List Node} {x : Node} :
    Tiles i (init ++ [x]) j ↔ Tiles i init x.start ∧ x.stop = j := by
  induction init generalizing i with
  | nil => exact ⟨fun h => ⟨h.1.symm, h.2⟩, fun h => ⟨h.1.symm, h.2⟩⟩
  | cons y ys ih =>
    exact ⟨fun h => ⟨⟨h.1, (ih.1 h.2).1⟩, (ih.1 h.2).2⟩, fun h => ⟨h.1.1, ih.2 ⟨h.1.2, h.2⟩⟩⟩

/-- A piece of text is added, or put onto the text at the end. -/
def Lengthens (parts : List Node) (span : Span) (parts' : List Node) : Prop :=
  ∃ t, parts' = parts ++ [.make (.text t) span] ∨
    ∃ init last lastText, parts = init ++ [⟨last, .text lastText⟩] ∧ last.stop = span.start ∧
      parts' = init ++ [.make (.text t) (last.cover span)]

theorem make_text_span (t : String) (span : Span) : (Node.make (.text t) span).span = span :=
  (make_spans (.text t) span).eq nofun

theorem lies_text {t : String} (hlo : lo ≤ span.start) (hhi : span.stop ≤ hi) :
    Lies text lo hi (.make (.text t) span) :=
  lies_make nofun hlo hhi (packed_of_isOrdinary rfl)

theorem errors_text (t : String) (span : Span) : (Node.make (.text t) span).errors = 0 :=
  errors_of_form rfl rfl

theorem cover_of_glued {last : Span} (h : last.stop = span.start) :
    (last.cover span).start = last.start ∧ (last.cover span).stop = span.stop := by
  have h1 := last.start_le_stop
  have h2 := span.start_le_stop
  rw [start_cover, stop_cover]
  omega

theorem Lengthens.isEmpty {parts' : Array Node} (h : Lengthens parts span parts'.toList) :
    parts'.isEmpty = false := by
  obtain ⟨t, hparts | ⟨init, last, lastText, -, -, hparts⟩⟩ := h <;>
    simp [← Array.isEmpty_toList, hparts]

theorem Lengthens.errors (h : Lengthens parts span parts') : errorsIn parts' = errorsIn parts := by
  obtain ⟨t, rfl | ⟨init, last, lastText, rfl, -, rfl⟩⟩ := h
  · simp [errors_text]
  · have hlast : (Node.mk last (.text lastText)).errors = 0 := errors_of_form rfl rfl
    simp only [errorsIn_append, errorsIn_cons, errors_text, hlast]

theorem Lengthens.lies (h : Lengthens parts span parts') (hparts : ∀ x ∈ parts, Lies text lo hi x)
    (hlo : lo ≤ span.start) (hhi : span.stop ≤ hi) : ∀ x ∈ parts', Lies text lo hi x := by
  obtain ⟨t, rfl | ⟨init, last, lastText, rfl, hglued, rfl⟩⟩ := h
  · exact List.forall_mem_append.2 ⟨hparts, List.forall_mem_singleton.2 (lies_text hlo hhi)⟩
  · obtain ⟨hinit, hlast⟩ := List.forall_mem_append.1 hparts
    obtain ⟨hstart, hstop⟩ := cover_of_glued hglued
    refine List.forall_mem_append.2 ⟨hinit, List.forall_mem_singleton.2 (lies_text ?_ ?_)⟩
    · exact hstart ▸ (List.forall_mem_singleton.1 hlast).start
    · exact hstop ▸ hhi

theorem Lengthens.tiles (h : Lengthens parts span parts') (hparts : Tiles i parts span.start) :
    Tiles i parts' span.stop := by
  obtain ⟨t, rfl | ⟨init, last, lastText, rfl, hglued, rfl⟩⟩ := h
  · refine tiles_append_singleton.2 ?_
    rw [Node.start, Node.stop, make_text_span]
    exact ⟨hparts, rfl⟩
  · obtain ⟨hstart, hstop⟩ := cover_of_glued hglued
    refine tiles_append_singleton.2 ?_
    rw [Node.start, Node.stop, make_text_span, hstart, hstop]
    exact ⟨(tiles_append_singleton.1 hparts).1, rfl⟩

end

/-! ## Pieces of the text -/

section

variable {doc : Document} {s s' : State} {enter : Parser Grammar}

theorem pieceOf_answers (span : Span) (ht : s.Tidy) :
    Answers doc s (pieceOf span) s fun _ s' => s' = s :=
  runs_source.2 ((orFault_answers _ ht).imp fun _ _ h => h.2)

theorem between_answers (i j : Nat) (ht : s.Tidy) :
    Answers doc s (orFault (Span.between? i j)) s fun span s' => span = .upTo i j ∧ s' = s :=
  (orFault_answers _ ht).imp fun _ _ h => h.imp_left fun hspan => (Span.of_between? hspan).2

theorem positionInText_answers (ht : s.Tidy) :
    Answers doc s positionInText s fun i s' => i = s.pos ∧ s' = s := by
  refine runs_position.2 (runs_source.2 ((between_answers _ _ ht).bind ?_))
  rintro _ _ ⟨rfl, rfl⟩
  exact .pure ⟨rfl, rfl⟩

theorem pushText_answers (parts : Array Node) (span : Span) (ht : s.Tidy) :
    Answers doc s (pushText parts span) s fun parts' s' =>
      s' = s ∧ Lengthens parts.toList span parts'.toList := by
  have hadd : Answers doc s (do return parts.push (.make (.text (← pieceOf span)) span)) s
      fun parts' s' => s' = s ∧ Lengthens parts.toList span parts'.toList :=
    (pieceOf_answers span ht).bind fun t _ hs => .pure ⟨hs, t, .inl (Array.toList_push ..)⟩
  unfold pushText
  split
  · rename_i last lastText hback
    split
    · rename_i hglued
      obtain ⟨init, rfl⟩ := Array.back?_eq_some_iff.1 hback
      refine (pieceOf_answers _ ht).bind fun t _ hs => .pure ⟨hs, t, .inr ?_⟩
      refine ⟨init.toList, last, lastText, Array.toList_push .., beq_iff_eq.1 hglued, ?_⟩
      rw [Array.pop_push, Array.toList_push]
    · exact hadd
  · exact hadd

theorem afterSigil_answers (t : Token) (ht : s.Tidy) :
    Answers doc s (afterSigil t) s fun _ s' => s' = s := by
  refine (between_answers _ _ ht).bind ?_
  rintro span _ ⟨-, rfl⟩
  exact pieceOf_answers span ht

/-! ## Substitutions -/

theorem bracedVarSub_frames : Frames doc bracedVarSub s := by
  intro ht
  refine (bump_answers ht).bind ?_
  rintro _ s₁ ⟨rfl, h₁, hpos⟩
  refine runs_source.2 ?_
  -- The name and the end are looked for from the end of the opener on.
  have hat := fun q : Quiet doc s s₁ => bracedAt (hpos q ▸ (h₁.drift q).neat.boundary)
  generalize bracedName doc.text (s.ahead doc).span.stop = name at hat ⊢
  simp only
  generalize bracedEnd doc.text 1 name.2 = stop at hat ⊢
  obtain ⟨close, hclose⟩ : ∃ close,
      close = (if hasByte doc.text stop 0x7d = true then stop + 1 else stop) := ⟨_, rfl⟩
  rw [← hclose] at hat ⊢
  refine h₁.bind (between_answers _ _ h₁.tidy) ?_
  rintro _ _ ⟨rfl, rfl⟩
  refine h₁.bind (pieceOf_answers _ h₁.tidy) ?_
  rintro nameText _ rfl
  refine h₁.bind (between_answers _ _ h₁.tidy) ?_
  rintro _ _ ⟨-, rfl⟩
  refine h₁.bind (pieceOf_answers _ h₁.tidy) ?_
  rintro suffix _ rfl
  refine h₁.bind (between_answers _ _ h₁.tidy) ?_
  rintro _ s₁ ⟨rfl, rfl⟩
  refine h₁.bind (require_answers _ _ h₁.tidy) fun _ s₂ ⟨h₂, _⟩ => ?_
  have hopen := h₁.append h₂.toExplains
  refine hopen.bind (advanceTo_answers close hopen.tidy) fun _ s₃ h₃ => .pure ?_
  have hinside := h₂.append h₃.toExplains
  have hnode := h₁.exactly (f := .bracedVarSub ⟨nameText, .upTo name.1 name.2⟩ suffix)
    hinside ?_ rfl ?_
  · rw [h₃.pos] at hnode
    exact hnode
  · intro q
    have q₁ := q.first h₁.errors_le hinside.errors_le
    have hat := hat q₁
    have hle : s₁.pos ≤ close := hpos q₁ ▸ Nat.le_trans hat.le_start (Nat.le_trans hat.start_le
      (Nat.le_trans hat.le_stop hat.stop_le))
    have hd := h₂.drift (q.second h₁.errors_le hinside.errors_le (h₁.drift q₁).neat |>.first
      h₂.errors_le h₃.toExplains.errors_le)
    exact ⟨h₃.neat hd.neat hat.boundary, h₃.pos ▸ hle, nofun⟩
  · intro q
    have q₁ := q.first h₁.errors_le hinside.errors_le
    have hat := hat q₁
    refine packed_make rfl (List.forall_mem_singleton.2 ⟨?_, ?_⟩)
    · exact Nat.le_trans (h₁.past q₁) (hpos q₁ ▸ hat.le_start)
    · rw [Span.stop_upTo hat.start_le, h₃.pos]
      exact Nat.le_trans hat.le_stop hat.stop_le

theorem commandSub_frames (he : Deepens doc enter) : Frames doc (commandSub enter) s := by
  intro ht
  refine runs_startOffset.2 ?_
  refine (bump_answers ht).bind fun opener s₁ ⟨_, h₁, _⟩ => ?_
  refine h₁.bind (he s₁ h₁.tidy) fun inner s₂ ⟨h₂, hinner⟩ => ?_
  have hopen := h₁.then h₂
  have hbody : Answers doc s₂.keeping (do
      let body ← inner.statements [.parenClose] false
      expect .parenClose "`)`"
      return body) s₂.keeping fun body s' => Encloses doc s₂.keeping body s' :=
    (hinner.statements _ _ s₂.keeping hopen.tidy).bind fun body s₃ h₃ =>
      h₃.bind (expect_answers _ _ h₃.tidy) fun _ s₄ h₄ => .pure (h₃.close h₄)
  refine hopen.bind (.withNewlines (Q := Encloses doc s₂) hbody fun _ _ h =>
    ⟨h.upholds, fun n hn => h.renest hn⟩) fun body s₃ h₃ => ?_
  refine (hopen.append h₃.toExplains).bind (Silent.silent doc s₃ h₃.tidy) fun _ s₄ h₄ => ?_
  exact runs_spanFrom.2 (.pure (hopen.make (h₃.then h₄) rfl))

theorem backtickSub_frames (he : Deepens doc enter) : Frames doc (backtickSub enter) s := by
  intro ht
  refine runs_startOffset.2 ?_
  refine (discard_bump_answers ht).bind fun _ s₁ h₁ => ?_
  refine h₁.bind (he s₁ h₁.tidy) fun inner s₂ ⟨h₂, hinner⟩ => ?_
  have hopen := h₁.then h₂
  have hbody : Answers doc s₂
      (insideBackticks (withNewlines (inner.statements [.backtick] false))) s₂
      fun body s' => Collects doc s₂ body s' :=
    insideBackticks_answers (withNewlines_answers (hinner.statements _ _) hopen.tidy)
  refine hopen.bind hbody fun body s₃ h₃ => ?_
  refine (hopen.append h₃.toExplains).bind (expect_answers .backtick _ h₃.tidy)
    fun _ s₄ h₄ => ?_
  have hbody := h₃.close h₄
  refine (hopen.append hbody.toExplains).bind (Silent.silent doc s₄ hbody.tidy) fun _ s₅ h₅ => ?_
  exact runs_spanFrom.2 (.pure (hopen.make (hbody.then h₅) rfl))

theorem exprSub_frames (he : Deepens doc enter) : Frames doc (exprSub enter) s :=
  bracketed_frames he (fun _ s' hinner => hinner.expression 0 s') fun _ => rfl

/-- A substitution was read, or nothing. -/
def Substitutes (doc : Document) (s : State) : Option Node → State → Prop
  | some v, s' => Exactly doc s v s'
  | none, s' => s' = s

/-- A token with a sigil. -/
theorem sigil_answers {form : String → Form Node} (hform : ∀ name, (form name).isOrdinary = true)
    (hchildren : ∀ name, (form name).children = []) (ht : s.Tidy) :
    Answers doc s (do
      let t ← bump
      return some (.make (form (← afterSigil t)) t.span)) s (Substitutes doc s) := by
  refine (bump_answers ht).bind ?_
  rintro _ s₁ ⟨rfl, h₁, hpos⟩
  refine h₁.bind (afterSigil_answers _ h₁.tidy) ?_
  rintro name _ rfl
  exact .pure (h₁.leaf hpos (hform name) (hchildren name))

theorem substitution?_answers (he : Deepens doc enter) (ht : s.Tidy) :
    Answers doc s (substitution? enter) s (Substitutes doc s) := by
  have hsome : ∀ {p : Parser Node}, Frames doc p s →
      Answers doc s (do return some (← p)) s (Substitutes doc s) :=
    fun hp => (hp ht).bind fun v s' h => .pure h
  refine runs_currentKind.2 ?_
  split
  · exact sigil_answers (fun _ => rfl) (fun _ => rfl) ht
  · exact sigil_answers (fun _ => rfl) (fun _ => rfl) ht
  · exact sigil_answers (fun _ => rfl) (fun _ => rfl) ht
  · exact hsome bracedVarSub_frames
  · exact hsome (commandSub_frames he)
  · exact hsome (commandSub_frames he)
  · exact hsome (exprSub_frames he)
  · refine runs_get.2 ?_
    split
    · exact hsome (backtickSub_frames he)
    · exact .pure rfl
  · exact .pure rfl

end

/-! ## Strings -/

section

variable {text : String} {i : Nat}

/-- A token that opens with a dollar or a backtick is significant, and starts where it is. -/
theorem significantAt_of_mark {skip : Bool} {b : UInt8} (hb : byte? text i = some b)
    (hmark : b = 0x24 ∨ b = 0x60) : (significantAt text skip i).span.start = i := by
  have hascii : IsAscii b := by rcases hmark with rfl | rfl <;> decide
  have hboundary : Boundary text i := .of_byte hb hascii
  have hspelled : ∀ s ∈ TokenKind.spellings b, s.2 ≠ .comment ∧ s.2 ≠ .newline := by
    rcases hmark with rfl | rfl <;> decide
  have hpunctuation : (Lexer.punctuation text i).1 ≠ .comment ∧
      (Lexer.punctuation text i).1 ≠ .newline := by
    unfold Lexer.punctuation Lexer.spelled?
    rw [hb]
    simp only
    cases hs : (TokenKind.spellings b).find? fun s => hasPiece text i s.1 with
    | none => exact ⟨nofun, nofun⟩
    | some s => exact hspelled s (List.mem_of_find?_eq_some hs)
  have hkind : (Lexer.munch text i b).1 ≠ .comment ∧ (Lexer.munch text i b).1 ≠ .newline := by
    rcases hmark with rfl | rfl
    · show (Lexer.dollar text i).1 ≠ _ ∧ (Lexer.dollar text i).1 ≠ _
      unfold Lexer.dollar
      split
      · exact ⟨nofun, nofun⟩
      split
      · exact ⟨nofun, nofun⟩
      · exact hpunctuation
    · rw [Lexer.munch_of_isMark (by decide)]
      exact hpunctuation
  have hskip : Lexer.skipBlanks text i = i := by
    rcases hmark with rfl | rfl <;> exact skipBlanks_of_solid hb (by decide) (by decide)
  have htoken : Lexer.tokenAt text i =
      ⟨(Lexer.munch text i b).1, .upTo i (Lexer.munch text i b).2⟩ := by
    unfold Lexer.tokenAt
    simp only [ceil_eq hboundary, hskip, hb]
  have heq : significantAt text skip i = Lexer.tokenAt text i :=
    significantAt_eq hboundary.le_size (htoken ▸ hkind.1) (htoken ▸ hkind.2)
  rw [heq, htoken]
  rfl

/-- What closes a string is one quote or three. -/
theorem closingQuote_bytes (style : StringStyle) :
    size (closingQuote style) = (if isTriple style then 3 else 1) ∧
      ∀ k < size (closingQuote style),
        byte? (closingQuote style) k = some (quoteStyle style).quote := by
  cases style <;> decide

theorem hasPiece_closingQuote {style : StringStyle} {b : UInt8} (hb : byte? text i = some b)
    (hquote : b = (quoteStyle style).quote)
    (htriple : isTriple style = true → Content.tripleAt text i b = true) :
    hasPiece text i (closingQuote style) = true := by
  obtain ⟨hsize, hbytes⟩ := closingQuote_bytes style
  refine hasBytes_iff.2 fun k hk => ⟨_, hbytes k hk, ?_⟩
  subst hquote
  rw [hsize] at hk
  by_cases h3 : isTriple style = true
  · rw [if_pos h3] at hk
    have h3 := htriple h3
    simp only [Content.tripleAt, Bool.and_eq_true, hasByte_iff] at h3
    match k, hk with
    | 0, _ => exact hb
    | 1, _ => exact h3.1.2
    | 2, _ => exact h3.2
  · rw [if_neg h3] at hk
    obtain rfl : k = 0 := by omega
    exact hb

/-- Where the content of a string stops that is not closed there, a dollar or a backtick stands. -/
theorem stringEnd_mark {style : StringStyle} {j : Nat}
    (hi : (Content.stringReader text (quoteStyle style) (isTriple style)).stop? j = some i)
    (hclose : hasPiece text i (closingQuote style) = false) (hlt : i < size text) :
    ∃ b, byte? text i = some b ∧ (b = 0x24 ∨ b = 0x60) := by
  rcases Content.Reader.stop?_stops hi with hnone | ⟨b, hb, hends⟩
  · exact absurd (byte?_eq_none.1 hnone) (Nat.not_le.2 hlt)
  · refine ⟨b, hb, ?_⟩
    replace hends : Content.endsString text (quoteStyle style) (isTriple style) b i = true := hends
    unfold Content.endsString at hends
    rcases Bool.or_eq_true_iff.1 hends with hquote | hmark
    · obtain ⟨hquote, htriple⟩ := Bool.and_eq_true_iff.1 hquote
      have hpiece := hasPiece_closingQuote hb (beq_iff_eq.1 hquote) fun h3 => by
        simpa [h3] using htriple
      exact absurd (hclose.symm.trans hpiece) Bool.false_ne_true
    · simpa using (Bool.and_eq_true_iff.1 hmark).2

end

/-- The nodes lie end to end from the one position to the other. -/
structure Paves (doc : Document) (s : State) (xs : List Node) (s' : State) : Prop
    extends Encloses doc s xs s' where
  tiles : Quiet doc s s' → Tiles s.pos xs s'.pos

section

variable {doc : Document} {s s₁ s₂ s' : State} {xs ys : List Node} {v : Node}
  {enter : Parser Grammar} {style : StringStyle}

theorem Paves.nil (ht : s.Tidy) : Paves doc s [] s := ⟨(Accounts.refl ht).encloses, fun _ => rfl⟩

theorem Paves.append (h : Paves doc s xs s₁) (h' : Paves doc s₁ ys s₂) :
    Paves doc s (xs ++ ys) s₂ where
  toEncloses := h.toEncloses.append h'.toEncloses
  tiles q := by
    have q₁ := q.first h.errors_le h'.errors_le
    exact (h.tiles q₁).append (h'.tiles (q.second h.errors_le h'.errors_le (h.drift q₁).neat))

/-- A node whose token ahead starts at the position. -/
theorem Exactly.paves (h : Exactly doc s v s') (hfront : Quiet doc s s' → s.front doc = s.pos) :
    Paves doc s [v] s' where
  toExplains := h.toExplains
  drift q := by
    have hd := h.drift q
    refine { hd with lies := List.forall_mem_singleton.2 ?_ }
    have hv := List.forall_mem_singleton.1 hd.lies
    exact ⟨hv.snug, hv.start, Nat.le_of_eq (h.stop_eq q)⟩
  tiles q := ⟨(h.start_eq q).trans (hfront q), h.stop_eq q⟩

/-- Text that was read up to an offset. -/
theorem Paves.lengthen {i : Nat} {span : Span} (h : Paves doc s xs s₁) (h' : Jumps doc s₁ i s₂)
    (hl : Lengthens xs span ys)
    (hi : Quiet doc s s₁ → Boundary doc.text i ∧ span.start = s₁.pos ∧ span.stop = i) :
    Paves doc s ys s₂ := by
  have hle : s₁.errors ≤ s₂.errors := h'.toExplains.errors_le
  have hquiet : Quiet doc s s₂ → Quiet doc s s₁ := fun q => q.first h.errors_le hle
  refine { (h.toExplains.append h'.toExplains).among ?_ with
    drift := fun q => ?_, tiles := fun q => ?_ }
  · exact Nat.le_of_eq (by rw [List.append_nil, hl.errors])
  · obtain ⟨hboundary, hstart, hstop⟩ := hi (hquiet q)
    have hd := h.drift (hquiet q)
    have hle : s₁.pos ≤ s₂.pos := by
      rw [← hstart, h'.pos, ← hstop]
      exact span.start_le_stop
    refine { hd.until (h'.neat hd.neat hboundary) hle (Nat.le_refl _) with lies := ?_ }
    refine hl.lies (hd.until (h'.neat hd.neat hboundary) hle hle).lies ?_ ?_
    · exact hstart ▸ hd.le
    · exact Nat.le_of_eq (hstop.trans h'.pos.symm)
  · obtain ⟨-, hstart, hstop⟩ := hi (hquiet q)
    rw [h'.pos, ← hstop]
    exact hl.tiles (hstart ▸ h.tiles (hquiet q))

/-- The position is where content of such a string stops. -/
def StopsContent (text : String) (style : StringStyle) (i : Nat) : Prop :=
  ∃ j, (Content.stringReader text (quoteStyle style) (isTriple style)).stop? j = some i

theorem stringRun_answers {parts : Array Node} (h : Paves doc s parts.toList s₁) :
    Answers doc s (stringRun style parts) s₁ fun parts' s₂ =>
      Paves doc s parts'.toList s₂ ∧ StopsContent doc.text style s₂.pos := by
  refine runs_source.2 (runs_position.2 (h.bind (orFault_answers _ h.tidy) ?_))
  rintro found _ ⟨hfound, rfl⟩
  obtain ⟨stop, hstop, hspec⟩ := stringContent?_spec hfound
  cases found with
  | some content =>
    obtain ⟨hread, rfl⟩ := hspec
    refine h.bind (advanceTo_answers _ h.tidy) fun _ s₂ h₂ => .pure ⟨?_, ?_⟩
    · exact h.lengthen h₂ ⟨content.text, .inl (Array.toList_push ..)⟩ fun _ =>
        ⟨hread.cut.2, hread.start, rfl⟩
    · exact ⟨_, h₂.pos ▸ hstop⟩
  | none =>
    obtain rfl : stop = _ := hspec
    exact .pure ⟨h, _, hstop⟩

/-- The parts of a string, and whether it was closed. -/
structure Quotes (doc : Document) (s : State) (style : StringStyle) (r : Array Node × Bool)
    (s' : State) : Prop extends Encloses doc s r.1.toList s' where
  closed : r.2 = true → Quiet doc s s' → ∃ close, Tiles s.pos r.1.toList close ∧
    hasPiece doc.text close (closingQuote style) = true ∧
      s'.pos = close + size (closingQuote style)

theorem stringRound_answers {parts : Array Node} (he : Deepens doc enter)
    (h : Paves doc s parts.toList s₁) :
    Answers doc s (stringRound enter style parts) s₁
      (Next (fun parts => Paves doc s parts.toList) (Quotes doc s style)) := by
  refine (stringRun_answers h).bind fun parts s₂ ⟨h₂, j, hstop⟩ => ?_
  refine runs_source.2 (h₂.bind (positionInText_answers h₂.tidy) ?_)
  rintro _ s₂ ⟨rfl, rfl⟩
  split
  · rename_i hclose
    obtain ⟨b, hb, hascii⟩ := closingQuote_last style
    have hsize := lt_size_of_byte? hb
    refine h₂.bind (advanceTo_answers _ h₂.tidy) fun _ s₃ h₃ => .pure ?_
    refine ⟨h₂.jump h₃ fun _ => ⟨boundary_of_hasPiece hclose hb hascii, by omega⟩, fun _ q => ?_⟩
    exact ⟨s₂.pos, h₂.tiles (q.first h₂.errors_le h₃.toExplains.errors_le), hclose, h₃.pos⟩
  split
  · exact .pure ⟨h₂.toEncloses, nofun⟩
  · rename_i hclose hlt
    obtain ⟨b, hb, hmark⟩ := stringEnd_mark hstop (by simpa using hclose) (Nat.not_le.1 hlt)
    refine h₂.bind (substitution?_answers he h₂.tidy) fun sub? s₃ h₃ => ?_
    cases sub? with
    | some sub =>
      refine .pure ?_
      have hpaves := h₂.append (h₃.paves fun _ => significantAt_of_mark hb hmark)
      rwa [← Array.toList_push] at hpaves
    | none =>
      obtain rfl : s₃ = s₂ := h₃
      have hascii : IsAscii b := by rcases hmark with rfl | rfl <;> decide
      refine h₂.bind (advanceTo_answers _ h₂.tidy) fun _ s₄ h₄ => ?_
      have hnext := h₂.jump h₄ fun _ => ⟨.succ hb hascii, Nat.le_succ _⟩
      refine hnext.bind (pushText_answers parts _ hnext.tidy) ?_
      rintro parts' _ ⟨rfl, hl⟩
      exact .pure (h₂.lengthen h₄ hl fun _ => ⟨.succ hb hascii, rfl, rfl⟩)

/-- A token that is ahead is read again where it starts. -/
theorem tokenAt_front (doc : Document) (s : State) :
    Lexer.tokenAt doc.text (s.front doc) = s.ahead doc := by
  obtain ⟨j, hj⟩ := significantAt_tokenAt doc.text (0 < s.nesting.newlineSkip) s.pos
  have hahead : s.ahead doc = Lexer.tokenAt doc.text j := hj
  unfold State.front
  rw [hahead]
  exact Lexer.tokenAt_start doc.text j

theorem stringLiteral_frames (he : Deepens doc enter) (hk : (s.ahead doc).kind.isQuote = true) :
    Frames doc (stringLiteral enter) s := by
  intro ht
  refine runs_startOffset.2 ((bump_answers ht).bind ?_)
  rintro _ s₁ ⟨rfl, h₁, hpos⟩
  have hloop : Answers doc s₁
      (repeatRounds #[] (stringRound enter (stringStyle (s.ahead doc).kind))) s₁
      (Quotes doc s₁ (stringStyle (s.ahead doc).kind)) :=
    Runs.loop (fun parts => Paves doc s₁ parts.toList) (fun _ _ h => h.upholds)
      (stringRound_answers he (.nil h₁.tidy)) fun _ _ h => stringRound_answers he h
  refine h₁.bind hloop fun ⟨parts, closed⟩ s₂ h₂ => runs_spanFrom.2 ?_
  cases closed with
  | false =>
    have hboth := h₁.append h₂.toExplains
    refine hboth.bind (report_answers _ h₂.tidy) fun _ s₃ ⟨h₃, hsame, hmore⟩ => ?_
    have hloud : ¬ Quiet doc s s₃ := by
      intro q
      have h1 := q.errors
      have h2 := hboth.errors_le
      have h3 : s₃.errors = s₂.errors + 1 := hmore
      omega
    rw [← hsame]
    refine .pure (h₁.exactly (h₂.then h₃).toExplains (absurd · hloud) rfl (absurd · hloud))
  | true =>
    refine .pure (h₁.exactly h₂.toExplains (h₁.inside h₂.toEncloses) rfl fun q => ?_)
    have q₁ := q.first h₁.errors_le h₂.errors_le
    have hd := h₁.inside h₂.toEncloses q
    have hle := Nat.le_trans (h₁.past q₁) hd.le
    have hparts : ∀ c ∈ parts.toList, Lies doc.text (s.front doc) s₂.pos c :=
      fun c hc => (hd.lies c hc).mono (h₁.past q₁) (Nat.le_refl _)
    obtain ⟨close, htiles, hclose, hstop⟩ :=
      h₂.closed rfl (q.second h₁.errors_le h₂.errors_le (h₁.drift q₁).neat)
    refine ⟨close, ?_⟩
    rw [make_span_of_lies (f := .stringLit _ parts.toList) hle hparts]
    have hahead := tokenAt_front doc s
    exact {
      start := by
        show (Lexer.tokenAt doc.text (s.front doc)).span.start = s.front doc
        rw [hahead]
        rfl
      isQuote := by
        show (Lexer.tokenAt doc.text (s.front doc)).kind.isQuote = true
        rw [hahead]
        exact hk
      style_eq := by
        show stringStyle (Lexer.tokenAt doc.text (s.front doc)).kind = _
        rw [hahead]
      tiles := by
        show Tiles (Lexer.tokenAt doc.text (s.front doc)).span.stop _ _
        rw [hahead, ← hpos q₁]
        exact htiles
      closing := hclose
      stop := (Span.stop_upTo hle).trans hstop }

/-! ## Words -/

/-- The nodes lie end to end from the token ahead to the position. -/
structure Strings (doc : Document) (s : State) (xs : List Node) (s' : State) : Prop
    extends Accounts doc s xs s' where
  tiles : Quiet doc s s' → Tiles (s.front doc) xs s'.pos
  past : Quiet doc s s' → s.front doc ≤ s'.pos

/-- The next node follows those before it. -/
structure Ready (doc : Document) (s : State) (xs : List Node) (s' : State) : Prop
    extends Accounts doc s xs s' where
  tiles : Quiet doc s s' → Tiles (s.front doc) xs (s'.front doc)

/-- The parts of a word as far as it is read. -/
def WordParts (doc : Document) (s : State) (parts : Array Node) (s' : State) : Prop :=
  parts = #[] ∧ s' = s ∨ parts.isEmpty = false ∧ Strings doc s parts.toList s'

theorem WordParts.accounts {parts : Array Node} (h : WordParts doc s parts s') (ht : s.Tidy) :
    Accounts doc s parts.toList s' := by
  rcases h with ⟨rfl, rfl⟩ | ⟨-, h⟩
  · exact .refl ht
  · exact h.toAccounts

/-- Nothing stands between the position and a token that goes on with the word. -/
theorem inWord_true (h : inWord doc s = .ok true s) : s.front doc = s.pos := by
  have hrun : Runs doc (fun _ _ => False) inWord s fun b _ => b = true → s.front doc = s.pos := by
    refine runs_adjacent.2 ?_
    split
    · exact .pure nofun
    · rename_i hadjacent
      have hfront : s.front doc = s.pos := by simpa using hadjacent
      refine runs_currentKind.2 ?_
      split <;> exact fun _ => hfront
  exact hrun.of_ok h rfl

/-- A word goes on where its last part ended. -/
theorem WordParts.ready {parts : Array Node} (h : WordParts doc s parts s') (ht : s.Tidy)
    (hmore : parts.isEmpty = true ∨ inWord doc s' = .ok true s') :
    Ready doc s parts.toList s' := by
  rcases h with ⟨rfl, rfl⟩ | ⟨hne, h⟩
  · exact ⟨.refl ht, fun _ => rfl⟩
  · have hin := hmore.resolve_left fun hempty => Bool.false_ne_true (hne.symm.trans hempty)
    refine ⟨h.toAccounts, fun q => ?_⟩
    rw [inWord_true hin]
    exact h.tiles q

theorem Ready.push (h : Ready doc s xs s₁) (h' : Exactly doc s₁ v s₂) :
    Strings doc s (xs ++ [v]) s₂ where
  toAccounts := h.toAccounts.trans h'.toAccounts
  tiles q := by
    have q₁ := q.first h.errors_le h'.errors_le
    have q₂ := q.second h.errors_le h'.errors_le (h.drift q₁).neat
    exact tiles_append_singleton.2 ⟨h'.start_eq q₂ ▸ h.tiles q₁, h'.stop_eq q₂⟩
  past q := by
    have q₁ := q.first h.errors_le h'.errors_le
    have q₂ := q.second h.errors_le h'.errors_le (h.drift q₁).neat
    refine Nat.le_trans (h.front_le q₁) ?_
    rw [← h'.start_eq q₂, ← h'.stop_eq q₂]
    exact v.start_le_stop

/-- A token whose text is added. -/
theorem Ready.lengthen (h : Ready doc s xs s₁) (h' : Consumes doc s₁ s₂)
    (hpos : Quiet doc s₁ s₂ → s₂.pos = (s₁.ahead doc).span.stop)
    (hl : Lengthens xs (s₁.ahead doc).span ys) : Strings doc s ys s₂ := by
  have hquiet : Quiet doc s s₂ → Quiet doc s s₁ ∧ Quiet doc s₁ s₂ := fun q =>
    have q₁ := q.first h.errors_le h'.errors_le
    ⟨q₁, q.second h.errors_le h'.errors_le (h.drift q₁).neat⟩
  have hall : Accounts doc s xs s₂ := h.toAccounts.then h'.toAccounts
  have hstart : (s₁.ahead doc).span.start = s₁.front doc := rfl
  refine {
    toExplains := hall.toExplains.among (Nat.le_of_eq hl.errors)
    drift := fun q => ?_
    leap := hall.leap
    tiles := fun q => ?_
    past := fun q => ?_ }
  · obtain ⟨q₁, q₂⟩ := hquiet q
    have hd := hall.drift q
    refine { hd with lies := hl.lies hd.lies ?_ ?_ }
    · exact Nat.le_trans q.neat.pos_le_front (h.front_le q₁)
    · exact hpos q₂ ▸ hd.neat.pos_le_front
  · obtain ⟨q₁, q₂⟩ := hquiet q
    rw [hpos q₂]
    exact hl.tiles (h.tiles q₁)
  · obtain ⟨q₁, q₂⟩ := hquiet q
    exact Nat.le_trans (h.front_le q₁) (h'.past q₂)

theorem wordRound_answers {parts : Array Node} (he : Deepens doc enter) (ht : s.Tidy)
    (h : WordParts doc s parts s₁) :
    Answers doc s (wordRound enter parts) s₁ (Next (WordParts doc s) (WordParts doc s)) := by
  have hpush : ∀ {v : Node} {s₂ : State}, Strings doc s (parts.toList ++ [v]) s₂ →
      WordParts doc s (parts.push v) s₂ :=
    fun h => .inr ⟨by simp, by rwa [Array.toList_push]⟩
  refine .look inWord_looks fun more hmore => ?_
  split
  · exact .pure h
  rename_i hgo
  have hready : Ready doc s parts.toList s₁ := by
    refine h.ready ht ?_
    cases more with
    | true => exact .inr hmore
    | false => exact .inl (by simpa using hgo)
  refine runs_currentKind.2 ?_
  have hsub : Answers doc s₁ (if (!parts.isEmpty && (s₁.ahead doc).kind == .splice) = true
      then pure none else substitution? enter) s₁ (Substitutes doc s₁) := by
    split
    · exact .pure rfl
    · exact substitution?_answers he hready.tidy
  refine hready.bind hsub fun sub? s₂ h₂ => ?_
  cases sub? with
  | some v => exact .pure (hpush (hready.push h₂))
  | none =>
    obtain rfl : s₂ = s₁ := h₂
    simp only
    split
    · rename_i hquote
      refine hready.bind (stringLiteral_frames he hquote hready.tidy) fun v s₃ h₃ => ?_
      exact .pure (hpush (hready.push h₃))
    split
    · exact .pure h
    · refine hready.bind (bump_answers hready.tidy) ?_
      rintro _ s₃ ⟨rfl, h₃, hpos⟩
      have hall := hready.append h₃.toExplains
      refine hall.bind (pushText_answers parts _ hall.tidy) ?_
      rintro parts' _ ⟨rfl, hl⟩
      exact .pure (.inr ⟨hl.isEmpty, hready.lengthen h₃ hpos hl⟩)

/-- A word starts where the token ahead does. -/
theorem word_answers (he : Deepens doc enter) (ht : s.Tidy) :
    Answers doc s (word enter) s fun v s' =>
      Accounts doc s [v] s' ∧ (Quiet doc s s' → v.start = s.front doc) := by
  refine runs_startOffset.2 ?_
  have hloop : Answers doc s (repeatRounds #[] (wordRound enter)) s (WordParts doc s) :=
    Runs.loop (WordParts doc s) (fun _ _ h => (h.accounts ht).upholds)
      (wordRound_answers he ht (.inl ⟨rfl, rfl⟩)) fun _ _ h => wordRound_answers he ht h
  refine hloop.bind fun parts s' h => runs_spanFrom.2 (.pure ?_)
  have hspan : Quiet doc s s' → (Node.make (.word parts.toList) (.upTo (s.front doc) s'.pos)).span =
      .upTo (s.front doc) s'.pos := by
    intro q
    refine (make_spans (.word parts.toList) _).eq ?_
    rcases h with ⟨rfl, -⟩ | ⟨-, h⟩
    · exact nofun
    · rw [Span.stop_upTo (h.past q)]
      exact (h.tiles q).between
  have hstart : Quiet doc s s' →
      (Node.make (.word parts.toList) (.upTo (s.front doc) s'.pos)).start = s.front doc := by
    intro q
    rw [Node.start, hspan q]
    rfl
  refine ⟨(h.accounts ht).node (f := .word parts.toList) rfl fun q => ?_, hstart⟩
  show Tiles (Node.make (.word parts.toList) _).span.start _
    (Node.make (.word parts.toList) _).span.stop
  rw [hspan q]
  rcases h with ⟨rfl, rfl⟩ | ⟨-, h⟩
  · exact (stop_upTo_eq_max _ _).trans (Nat.max_eq_left q.neat.pos_le_front) |>.symm
  · rw [Span.stop_upTo (h.past q)]
    exact h.tiles q

theorem word_gathers (he : Deepens doc enter) : Gathers doc (word enter) s fun v => [v] :=
  fun ht => (word_answers he ht).imp fun _ _ h => h.1

end

end ShellAnalysis.Parse
