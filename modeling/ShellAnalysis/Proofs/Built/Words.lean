import ShellAnalysis.Proofs.Built.Rules

/-!
# Words that are built

Text is cut out of the document in three ways: as the text of a token, as a run
of string content, and as pieces of both that were put together.  Each comes out
as the piece under its span.  What `${...}` keeps of the text is found byte by
byte (`bracedEnd_endsBraces`).
-/

namespace ShellAnalysis.Parse

open Text Node

/-! ## Tokens -/

/-- The tokens a parser looks at are tokens of the text. -/
theorem significantAt_tokenAt (text : String) (skip : Bool) (i : Nat) :
    ∃ j, significantAt text skip i = Lexer.tokenAt text j := by
  unfold significantAt
  generalize size text + 1 - i = fuel
  induction fuel generalizing i with
  | zero => exact ⟨size text, (Lexer.tokenAt_past (Nat.le_refl _)).symm⟩
  | succ fuel ih =>
    unfold significantFrom
    simp only
    split
    · exact ih _
    · exact ⟨i, rfl⟩

/-- A piece that is no empty span is no empty text. -/
theorem slice_ne_empty {text : String} {span : Span} (hcut : Cut text span)
    (hlt : span.start < span.stop) : slice text span.start span.stop ≠ "" := by
  intro hempty
  have hbytes := congrArg ByteArray.size (toByteArray_slice span.start_le_stop hcut.1 hcut.2)
  rw [hempty, ByteArray.size_extract] at hbytes
  have hstop : span.stop ≤ text.toByteArray.size := hcut.stop_le
  have hzero : "".toByteArray.size = 0 := rfl
  omega

section

variable {doc : Document} {s : State} {h : Nat} {enter : Parser Grammar}

theorem ahead_text_ne_empty (hkind : (s.ahead doc).kind ≠ .eof) :
    (s.ahead doc).text doc.text ≠ "" := by
  obtain ⟨j, hj⟩ := significantAt_tokenAt doc.text (0 < s.nesting.newlineSkip) s.pos
  have hahead : s.ahead doc = Lexer.tokenAt doc.text j := hj
  rw [hahead] at hkind ⊢
  have hread := Lexer.tokenAt_readFrom doc.text j
  exact slice_ne_empty hread.cut (hread.lt hkind)

/-- A token is its sigil and what comes after it. -/
theorem ahead_sigil {sigil : String} {c : UInt8} {name : String}
    (hkind : (s.ahead doc).kind.opener? = some c) (hascii : IsAscii c) (hsize : size sigil = 1)
    (hbyte : byte? sigil 0 = some c)
    (hname : slice? doc.text ((s.ahead doc).span.start + 1) (s.ahead doc).span.stop = some name) :
    slice doc.text (s.ahead doc).span.start (s.ahead doc).span.stop = sigil ++ name := by
  obtain ⟨j, hj⟩ := significantAt_tokenAt doc.text (0 < s.nesting.newlineSkip) s.pos
  have hahead : s.ahead doc = Lexer.tokenAt doc.text j := hj
  rw [hahead] at hkind hname ⊢
  have hread := Lexer.tokenAt_readFrom doc.text j
  have hopener := Lexer.tokenAt_opener hkind
  have hlt := hread.lt fun heof => by
    rw [heof] at hkind
    cases hkind
  rw [← slice_append (Nat.le_succ _) hlt hread.cut.1 (.succ hopener hascii) hread.cut.2,
    slice_byte hopener hascii hsize hbyte, slice_of_slice? hname]

theorem afterSigil_gives (t : Token) : Gives doc (afterSigil t) s fun name =>
    slice? doc.text (t.span.start + 1) t.span.stop = some name :=
  (between_gives _ _).bind fun span _ ⟨hstart, hstop⟩ =>
    hstart ▸ hstop ▸ pieceOf_gives span

/-! ## Plain text -/

theorem built_text {span : Span} {t : String}
    (ht : slice? doc.text span.start span.stop = some t) (hpos : 0 < h) :
    Built doc.text h (.make (.text t) span) :=
  (built_spelled rfl (List.forall_mem_nil _) (slice_of_slice? ht)).mono hpos

/-- A piece of text is added to the parts, or put onto the text at their end. -/
theorem pushText_gives {parts : Array Node} (span : Span)
    (hparts : AllBuilt doc.text h parts.toList)
    (hpos : 0 < h) : Gives doc (pushText parts span) s fun parts' =>
      parts'.isEmpty = false ∧ AllBuilt doc.text h parts'.toList := by
  have hadd : ∀ {parts : Array Node} (span : Span), AllBuilt doc.text h parts.toList →
      Gives doc (do return parts.push (.make (.text (← pieceOf span)) span)) s fun parts' =>
        parts'.isEmpty = false ∧ AllBuilt doc.text h parts'.toList :=
    fun span hparts => (pieceOf_gives span).bind fun t _ ht =>
      .pure ⟨by simp, hparts.push (built_text ht hpos)⟩
  unfold pushText
  split
  · rename_i lastSpan lastText hback
    split
    · obtain ⟨init, rfl⟩ := Array.back?_eq_some_iff.1 hback
      rw [Array.toList_push] at hparts
      rw [Array.pop_push]
      exact hadd _ fun x hx => hparts x (List.mem_append_left _ hx)
    · exact hadd span hparts
  · exact hadd span hparts

/-! ## `${...}` -/

/-- Reading the inside of `${...}` ends at the brace that closes it, or without one. -/
def EndsBraces (text : String) (depth i stop : Nat) : Prop :=
  InBraces text depth i 0 stop ∧ byte? text stop = some 0x7d ∨
    ∃ left, InBraces text depth i left stop ∧
      (byte? text stop = none ∨ byte? text stop = some 0x0a)

theorem EndsBraces.before {text : String} {depth depth' i i' stop : Nat}
    (h : EndsBraces text depth' i' stop)
    (hstep : ∀ left, InBraces text depth' i' left stop → InBraces text depth i left stop) :
    EndsBraces text depth i stop :=
  h.imp (fun h => ⟨hstep 0 h.1, h.2⟩) fun ⟨left, h⟩ => ⟨left, hstep left h.1, h.2⟩

theorem bracedEnd_endsBraces (text : String) (depth i : Nat) :
    EndsBraces text depth i (bracedEnd text (depth + 1) i) := by
  generalize hd : depth + 1 = d
  fun_induction bracedEnd text d i generalizing depth with
  | case1 d i hb => exact .inr ⟨depth, .here depth i, .inl hb⟩
  | case2 d i b hb hopen ih =>
    rw [beq_iff_eq.1 hopen] at hb
    exact (ih (depth + 1) (by rw [hd])).before fun _ => .opening hb
  | case3 d i b hb _ hclose hdepth =>
    rw [beq_iff_eq.1 hclose] at hb
    obtain rfl : depth = 0 := by omega
    exact .inl ⟨.here 0 i, hb⟩
  | case4 d i b hb _ hclose hdepth ih =>
    rw [beq_iff_eq.1 hclose] at hb
    obtain ⟨depth, rfl⟩ : ∃ n, depth = n + 1 := ⟨depth - 1, by omega⟩
    exact (ih depth (by omega)).before fun _ => .closing hb
  | case5 d i b hb _ _ hfeed =>
    rw [beq_iff_eq.1 hfeed] at hb
    exact .inr ⟨depth, .here depth i, .inr hb⟩
  | case6 d i b hb _ _ _ hslash ih =>
    rw [beq_iff_eq.1 hslash] at hb
    exact (ih depth hd).before fun _ => .escape hb
  | case7 d i b hb hopen hclose hfeed hslash ih =>
    simp only [beq_iff_eq] at hopen hclose hfeed hslash
    exact (ih depth hd).before fun _ => .plain hb hopen hclose hfeed hslash

theorem bracedVarSub_gives : Gives doc bracedVarSub s (Built doc.text 1) := by
  refine .step fun opener s₁ => .source ?_
  generalize bracedName doc.text opener.span.stop = name
  obtain ⟨nameStart, nameStop⟩ := name
  have hends := bracedEnd_endsBraces doc.text 0 nameStop
  simp only
  generalize bracedEnd doc.text (0 + 1) nameStop = stop at hends ⊢
  refine (between_gives _ _).bind fun nameSpan s₂ ⟨_, hnameStop⟩ => ?_
  refine (pieceOf_gives nameSpan).bind fun nameText s₃ hname => ?_
  refine (between_gives _ _).bind fun suffixSpan s₄ ⟨hsuffixStart, hsuffixStop⟩ => ?_
  refine (pieceOf_gives suffixSpan).bind fun suffix s₅ hsuffix => ?_
  refine (between_gives _ _).bind fun span s₆ ⟨_, hspan⟩ => ?_
  refine .step fun _ _ => .step fun _ _ => .pure ?_
  rw [hsuffixStart, hsuffixStop] at hsuffix
  refine .mk { shaped := trivial, names := ?_, given := nofun, spelled := nofun, suffixed := ?_ } nofun
  · intro n hn
    rw [List.mem_singleton.1 hn]
    exact slice_of_slice? hname
  · rintro _ _ ⟨⟩
    have hclose : hasByte doc.text stop 0x7d = true ↔ byte? doc.text stop = some 0x7d := hasByte_iff
    show Suffixed doc.text span ⟨nameText, nameSpan⟩ suffix
    rcases hends with ⟨hin, hb⟩ | ⟨left, hin, hb⟩
    · rw [if_pos (hclose.2 hb)] at hspan
      exact .closed (hnameStop ▸ hsuffix) (hnameStop ▸ hin) hb hspan
    · have hopen : ¬ hasByte doc.text stop 0x7d = true := by
        rw [hclose]
        rcases hb with hb | hb <;> rw [hb] <;> decide
      rw [if_neg hopen] at hspan
      subst hspan
      exact .unclosed (hnameStop ▸ hsuffix) (hnameStop ▸ hin) hb

/-! ## Brackets -/

section

variable {α : Type} {Q : α → Prop}

theorem closedBy_gives {close : TokenKind} {what : String} {p : Parser α}
    (hp : ∀ s', Gives doc p s' Q) : Gives doc (closedBy close what p) s Q :=
  .skippingNewlines fun s₁ => (hp s₁).bind fun _ _ ha => .step fun _ _ => .pure ha

/-- A construct in brackets over the level further in. -/
theorem bracketed_gives {k : Nat} {close : TokenKind} {what : String} {content : Grammar → Parser α}
    {form : α → Form Node} (he : Opens doc h enter)
    (hcontent : ∀ inner s', Grammar.Builds doc h inner → Gives doc (content inner) s' Q)
    (hform : ∀ a span, Q a → Built doc.text k (.make (form a) span)) :
    Gives doc (bracketed enter close what content form) s (Built doc.text k) := by
  refine .step fun start s₁ => .step fun _ s₂ => (he s₂).enter fun inner s₃ hinner => ?_
  refine (closedBy_gives fun s₄ => hcontent inner s₄ hinner).bind fun a s₅ ha => ?_
  refine .ascend fun s₆ => ?_
  exact .step fun span _ => .pure (hform a span ha)

end

/-! ## Substitutions -/

theorem commandSub_gives (he : Opens doc h enter) :
    Gives doc (commandSub enter) s (Built doc.text (h + 1)) := by
  refine .step fun start s₁ => .step fun opener s₂ => (he s₂).enter fun inner s₃ hinner => ?_
  have hbody : ∀ s, Gives doc (do
      let body ← inner.statements [.parenClose] false
      expect .parenClose "`)`"
      return body) s (AllBuilt doc.text h) :=
    fun s => (hinner.statements _ _ s).bind fun body _ hbody => .step fun _ _ => .pure hbody
  refine (Turns.withNewlines hbody).bind fun body s₄ hbody => .ascend fun s₅ => ?_
  exact .step fun span _ => .pure (built_make hbody rfl trivial rfl)

theorem backtickSub_gives (he : Opens doc h enter) :
    Gives doc (backtickSub enter) s (Built doc.text (h + 1)) := by
  refine .step fun start s₁ => .step fun _ s₂ => (he s₂).enter fun inner s₃ hinner => ?_
  refine (Turns.insideBackticks fun _ => .withNewlines fun s =>
    hinner.statements _ _ s).bind fun body s₄ hbody => ?_
  refine .step fun _ _ => .ascend fun _ => .step fun span _ => .pure ?_
  exact built_make hbody rfl trivial rfl

theorem exprSub_gives (he : Opens doc h enter) :
    Gives doc (exprSub enter) s (Built doc.text (h + 1)) :=
  bracketed_gives he (fun _ s' hinner => hinner.expression 0 s') fun _ _ hv =>
    built_make (List.forall_mem_singleton.2 hv) rfl trivial rfl

/-- A token with a sigil, and what comes after the sigil. -/
theorem sigil_gives {form : String → Form Node} {c : UInt8} (sigil : String)
    (hkind : (s.ahead doc).kind.opener? = some c) (hascii : IsAscii c) (hsize : size sigil = 1)
    (hbyte : byte? sigil 0 = some c)
    (hform : ∀ name, (form name).spelling? = some (sigil ++ name))
    (hgiven : ∀ name, (form name).given = []) :
    Gives doc (do
      let t ← bump
      return some (.make (form (← afterSigil t)) t.span)) s fun sub? =>
        ∀ sub, sub? = some sub → Built doc.text (h + 1) sub := by
  refine bump_gives.bind fun t _ ht => ?_
  subst ht
  refine (afterSigil_gives _).bind fun name _ hname => .pure ?_
  rintro _ ⟨⟩
  refine (built_spelled (hform name) ?_ (ahead_sigil hkind hascii hsize hbyte hname)).mono
    (Nat.succ_pos h)
  rw [hgiven]
  exact List.forall_mem_nil _

/-- A substitution is one node over the level further in, or a leaf. -/
theorem substitution?_gives (he : Opens doc h enter) :
    Gives doc (substitution? enter) s fun sub? => ∀ sub, sub? = some sub →
      Built doc.text (h + 1) sub := by
  have hsome : ∀ {p : Parser Node} {s : State} {k : Nat}, k ≤ h + 1 →
      Gives doc p s (Built doc.text k) →
      Gives doc (do return some (← p)) s fun sub? => ∀ sub, sub? = some sub →
        Built doc.text (h + 1) sub :=
    fun hk hp => hp.bind fun v _ hv => .pure fun _ heq => Option.some.inj heq ▸ hv.mono hk
  refine .currentKind ?_
  split
  · rename_i hk
    exact sigil_gives "$" (by rw [hk]; rfl) (by decide) rfl rfl (fun _ => rfl) fun _ => rfl
  · rename_i hk
    exact sigil_gives "$" (by rw [hk]; rfl) (by decide) rfl rfl (fun _ => rfl) fun _ => rfl
  · rename_i hk
    exact sigil_gives "@" (by rw [hk]; rfl) (by decide) rfl rfl (fun _ => rfl) fun _ => rfl
  · exact hsome (Nat.le_add_left 1 h) bracedVarSub_gives
  · exact hsome (Nat.le_refl _) (commandSub_gives he)
  · exact hsome (Nat.le_refl _) (commandSub_gives he)
  · exact hsome (Nat.le_refl _) (exprSub_gives he)
  · refine .get ?_
    split
    · exact hsome (Nat.le_refl _) (backtickSub_gives he)
    · exact .pure nofun
  · exact .pure nofun

/-! ## Strings -/

theorem stringRun_gives {style : StringStyle} {parts : Array Node}
    (hparts : AllBuilt doc.text (h + 1) parts.toList) :
    Gives doc (stringRun style parts) s fun parts' => AllBuilt doc.text (h + 1) parts'.toList := by
  refine .source (.step fun i s₁ => (orFault_gives _).bind fun found s₂ hfound => ?_)
  obtain ⟨_, -, hspec⟩ := stringContent?_spec hfound
  cases found with
  | some content =>
    refine .step fun _ _ => .pure (hparts.push ?_)
    have hspelled := slice_of_slice? hspec.1.text_eq
    exact (built_spelled rfl (List.forall_mem_nil _) hspelled).mono (Nat.succ_pos h)
  | none => exact .pure hparts

theorem stringRound_gives {style : StringStyle} {parts : Array Node} (he : Opens doc h enter)
    (hparts : AllBuilt doc.text (h + 1) parts.toList) :
    Gives doc (stringRound enter style parts) s (Brings
      (fun parts => AllBuilt doc.text (h + 1) parts.toList)
      fun r => AllBuilt doc.text (h + 1) r.1.toList) := by
  refine (stringRun_gives hparts).bind fun parts' s₁ hparts' => .source (.step fun i s₂ => ?_)
  split
  · exact .step fun _ _ => .pure hparts'
  split
  · exact .pure hparts'
  · refine (substitution?_gives he).bind fun sub? s₃ hsub => ?_
    split
    · exact .pure (hparts'.push (hsub _ rfl))
    · refine .step fun _ s₄ => ?_
      exact (pushText_gives _ hparts' (Nat.succ_pos h)).bind fun _ _ h => .pure h.2

theorem stringLiteral_gives (he : Opens doc h enter) :
    Gives doc (stringLiteral enter) s (Built doc.text (h + 2)) := by
  refine .step fun start s₁ => .step fun opener s₂ => ?_
  refine (Turns.loop (fun parts : Array Node => AllBuilt doc.text (h + 1) parts.toList) allBuilt_nil
    fun parts s' hparts => stringRound_gives he hparts).bind fun r s₃ hparts => ?_
  refine .step fun span s₄ => ?_
  simp only
  split
  · exact .step fun _ _ => .pure (built_make hparts rfl trivial rfl)
  · exact .pure (built_make hparts rfl trivial rfl)

/-! ## Words -/

/-- There is a part, and all of them are built. -/
def Filled (text : String) (h : Nat) (parts : Array Node) : Prop :=
  parts.isEmpty = false ∧ AllBuilt text h parts.toList

theorem Filled.push {text : String} {parts : Array Node} {part : Node}
    (hparts : AllBuilt text h parts.toList) (hpart : Built text h part) :
    Filled text h (parts.push part) := ⟨by simp, hparts.push hpart⟩

/-- A round adds a part, unless the word has one already or there is nothing to read. -/
theorem wordRound_gives {parts : Array Node} (he : Opens doc h enter)
    (hparts : AllBuilt doc.text (h + 2) parts.toList)
    (hmore : parts.isEmpty = false ∨ (s.ahead doc).kind ≠ .eof) :
    Gives doc (wordRound enter parts) s (Brings (Filled doc.text (h + 2))
      (Filled doc.text (h + 2))) := by
  unfold wordRound
  refine .look inWord_looks fun more _ => ?_
  split
  · rename_i hdone
    have hne : parts.isEmpty = false := by simp_all
    exact .pure ⟨hne, hparts⟩
  · refine .currentKind ?_
    have hsub : Gives doc
        (if (!parts.isEmpty && (s.ahead doc).kind == .splice) = true then pure none
          else substitution? enter) s
        fun sub? => ∀ sub, sub? = some sub → Built doc.text (h + 1) sub := by
      split
      · exact .pure nofun
      · exact substitution?_gives he
    refine hsub.bind fun sub? s₁ hsub => ?_
    split
    · exact .pure (.push hparts ((hsub _ rfl).mono (Nat.le_succ _)))
    split
    · exact (stringLiteral_gives he).bind fun v _ hv => .pure (.push hparts hv)
    split
    · rename_i heof
      exact .pure ⟨hmore.resolve_right fun hne => hne (beq_iff_eq.1 heof), hparts⟩
    · refine .step fun t s₂ => ?_
      exact (pushText_gives _ hparts (Nat.succ_pos _)).bind fun _ _ h => .pure h

/-- A word that is read where there is something to read has a part. -/
theorem word_gives (he : Opens doc h enter) (hk : (s.ahead doc).kind ≠ .eof) :
    Gives doc (word enter) s (Built doc.text (h + 3)) := by
  refine .look (fun _ _ => ⟨_, rfl⟩) fun start _ => ?_
  refine (Turns.loopFrom (Filled doc.text (h + 2)) (wordRound_gives he allBuilt_nil (.inr hk))
    fun parts s' hparts => wordRound_gives he hparts.2 (.inl hparts.1)).bind
    fun parts s₁ ⟨hne, hparts⟩ => ?_
  refine .step fun span _ => .pure (built_make hparts rfl ?_ rfl)
  intro hnil
  rw [Array.toList_eq_nil_iff] at hnil
  rw [hnil] at hne
  cases hne

end

end ShellAnalysis.Parse
