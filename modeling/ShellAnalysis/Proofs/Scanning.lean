import ShellAnalysis.Proofs.Tokens
import ShellAnalysis.Scanner.Basic

/-!
# Scanned pieces and where they lie

What a scan cuts out of the text is checked, so whatever it gives was cut at
character boundaries: content (`content?_spec`) and the delimiter of a heredoc
(`opening?_spec`).

From a boundary every check succeeds, so a scan that starts there gives a
result (`exists_content?`, `exists_heredocStart?`, `exists_body?`).
-/

namespace ShellAnalysis

open Text

variable {text : String} {i j : Nat}

/-! ## Content of literals -/

namespace Content

/-- A reader that goes from boundary to boundary. -/
structure Reader.Sound (r : Reader text) : Prop where
  boundary : ∀ {b : UInt8} {i next : Nat}, byte? text i = some b → r.item? b i = some next →
    Boundary text next
  exists_item? : ∀ {b : UInt8} {i : Nat}, Boundary text i → byte? text i = some b →
    ∃ next, r.item? b i = some next

namespace Reader

variable {r : Reader text} {stop : Nat}

/-- Content stops at the end of the text or at a byte that ends it. -/
theorem stop?_stops (h : r.stop? i = some stop) :
    byte? text stop = none ∨ ∃ b, byte? text stop = some b ∧ r.ends b stop = true := by
  fun_induction r.stop? i with
  | case1 i hb =>
    cases h
    exact .inl hb
  | case2 i b hb hends =>
    cases h
    exact .inr ⟨b, hb, hends⟩
  | case3 => cases h
  | case4 _ _ _ _ _ _ ih => exact ih h

theorem Sound.stop?_boundary (hr : r.Sound) (hi : Boundary text i) (h : r.stop? i = some stop) :
    Boundary text stop := by
  fun_induction r.stop? i with
  | case1 => exact Option.some.inj h ▸ hi
  | case2 => exact Option.some.inj h ▸ hi
  | case3 => cases h
  | case4 i b hb _ next hnext ih => exact ih (hr.boundary hb hnext) h

/-- From a boundary content can be read. -/
theorem Sound.exists_stop? (hr : r.Sound) (hi : Boundary text i) : ∃ stop, r.stop? i = some stop := by
  fun_induction r.stop? i with
  | case1 => exact ⟨_, rfl⟩
  | case2 => exact ⟨_, rfl⟩
  | case3 i b hb _ hnone =>
    obtain ⟨next, hnext⟩ := hr.exists_item? hi hb
    cases hnone.symm.trans hnext
  | case4 i b hb _ next hnext ih => exact ih (hr.boundary hb hnext)

end Reader

variable {b : UInt8} {escapes : Bool} {next : Nat}

/-- A character ends at a boundary. -/
theorem charEnd?_boundary (h : charEnd? text i = some next) : Boundary text next := by
  obtain ⟨hi, rfl⟩ := charEnd?_eq_some.1 h
  cases hb : byte? text i with
  | none => exact hi
  | some b => exact Boundary.add_charWidth hi hb

theorem exists_itemEnd? (escapes : Bool) (hi : Boundary text i) (hb : byte? text i = some b) :
    ∃ next, itemEnd? text escapes b i = some next := by
  unfold itemEnd?
  split
  · rename_i hescape
    have hslash : b = 0x5c := beq_iff_eq.1 (Bool.and_eq_true_iff.1 hescape).2
    exact ⟨_, if_pos (Boundary.succ hb (hslash ▸ by decide))⟩
  · exact ⟨_, if_pos hi⟩

theorem stringReader_sound (text : String) (style : QuoteStyle) (triple : Bool) :
    (stringReader text style triple).Sound :=
  ⟨fun _ => charEnd?_boundary, exists_itemEnd? style.hasEscapes⟩

theorem classReader_sound (text : String) : (classReader text).Sound :=
  ⟨fun _ => charEnd?_boundary, exists_itemEnd? true⟩

/-- A bracket class ends at a boundary. -/
theorem bracketEnd?_boundary (hb : byte? text i = some 0x5b) (h : bracketEnd? text i = some next) :
    Boundary text next := by
  obtain ⟨close, hclose, rfl⟩ := Option.map_eq_some_iff.1 h
  split
  · rename_i hclosed
    exact .succ (hasByte_iff.1 hclosed) (by decide)
  · exact (classReader_sound text).stop?_boundary (.succ hb (by decide)) hclose

theorem exists_bracketEnd? (hb : byte? text i = some 0x5b) :
    ∃ next, bracketEnd? text i = some next := by
  obtain ⟨close, hclose⟩ := (classReader_sound text).exists_stop? (.succ hb (by decide))
  exact ⟨_, congrArg _ hclose⟩

theorem regexReader_sound (text : String) : (regexReader text).Sound := by
  constructor
  · intro b i next hb h
    simp only [regexReader, regexItemEnd?] at h
    split at h
    · rename_i hopen
      exact bracketEnd?_boundary (beq_iff_eq.1 hopen ▸ hb) h
    · exact charEnd?_boundary h
  · intro b i hi hb
    simp only [regexReader, regexItemEnd?]
    split
    · rename_i hopen
      exact exists_bracketEnd? (beq_iff_eq.1 hopen ▸ hb)
    · exact exists_itemEnd? true hi hb

end Content

namespace Scanner

/-- What is known of a piece of content that was read at `i`. -/
structure ReadAt (text : String) (i : Nat) (piece : Scanned) : Prop where
  start : piece.span.start = i
  lt : i < piece.span.stop
  cut : Cut text piece.span
  text_eq : slice? text piece.span.start piece.span.stop = some piece.text

section

variable {kind : ScanKind} {unclosed : LexicalError} {stop : Nat}

theorem content?_spec {piece : Scanned}
    (h : content? text kind unclosed i stop = some (some piece)) :
    ReadAt text i piece ∧ piece.span = .upTo i stop := by
  unfold content? at h
  split at h
  · cases h
  · rename_i hne
    obtain ⟨content, hcontent, h⟩ := Option.bind_eq_some_iff.1 h
    obtain ⟨span, hspan, h⟩ := Option.bind_eq_some_iff.1 h
    obtain ⟨hle, rfl⟩ := Span.of_between? hspan
    cases h
    obtain ⟨-, hi, hstop⟩ := boundaries_of_slice? hcontent
    have hend : (Span.upTo i stop).stop = stop := Span.stop_upTo hle
    exact ⟨⟨rfl, by simp only [hend]; omega, cut_upTo hi hstop, hend.symm ▸ hcontent⟩, rfl⟩

theorem stop_of_content?_none (h : content? text kind unclosed i stop = some none) : stop = i := by
  unfold content? at h
  split at h
  · assumption
  · obtain ⟨content, -, h⟩ := Option.bind_eq_some_iff.1 h
    obtain ⟨span, -, h⟩ := Option.bind_eq_some_iff.1 h
    cases h

/-- Between boundaries in order content can be cut out. -/
theorem content?_of_boundary (hle : i ≤ stop) (hi : Boundary text i) (hstop : Boundary text stop) :
    content? text kind unclosed i stop = some (if stop = i then none
      else some ⟨kind, slice text i stop, .upTo i stop,
        if size text ≤ stop then some unclosed else none⟩) := by
  unfold content?
  rw [slice?_eq_some hle hi hstop, Span.between?_of_le hle]
  split <;> rfl

/-- From a boundary, content that a reader finds can be cut out. -/
theorem exists_content? {r : Content.Reader text} (hr : r.Sound) (hi : Boundary text i) :
    ∃ found, (r.stop? i).bind (content? text kind unclosed i) = some found := by
  obtain ⟨stop, hstop⟩ := hr.exists_stop? hi
  rw [hstop, Option.bind_some,
    content?_of_boundary (Content.Reader.le_stop? hstop) hi (hr.stop?_boundary hi hstop)]
  exact ⟨_, rfl⟩

end

theorem exists_regex? (hi : Boundary text i) : ∃ found, regex? text i = some found :=
  exists_content? (Content.regexReader_sound text) hi

theorem regex?_spec {piece : Scanned} (h : regex? text i = some (some piece)) :
    ReadAt text i piece := by
  obtain ⟨stop, -, hpiece⟩ := Option.bind_eq_some_iff.1 h
  exact (content?_spec hpiece).1

end Scanner

/-! ## Heredocs -/

namespace Heredoc

/-- A piece that is not empty ends past its start. -/
theorem lt_of_slice? {piece : String} (h : slice? text i j = some piece)
    (hne : piece.isEmpty = false) : i < j := by
  obtain ⟨hle, -, -⟩ := boundaries_of_slice? h
  refine Nat.lt_of_le_of_ne hle ?_
  rintro rfl
  rw [← slice_of_slice? h, slice_self] at hne
  cases hne

section

variable {d : String} {quoted : Bool} {stop : Nat}

theorem bareDelimiter?_spec (h : bareDelimiter? text i = some (d, stop)) :
    slice? text i stop = some d ∧ stop = runEnd text isNameByte i := by
  obtain ⟨d', hd, heq⟩ := Option.map_eq_some_iff.1 h
  cases heq
  exact ⟨hd, rfl⟩

theorem quotedDelimiter?_spec {quote : UInt8}
    (h : quotedDelimiter? text quote i = some (some (d, stop))) :
    ∃ close, slice? text i close = some d ∧ byte? text close = some quote ∧ stop = close + 1 ∧
      close = runEnd text (fun b => b != quote && b != 0x0a) i := by
  obtain ⟨d', hd, heq⟩ := Option.map_eq_some_iff.1 h
  split at heq
  · rename_i hclose
    cases heq
    exact ⟨_, hd, hasByte_iff.1 hclose, rfl, rfl⟩
  · cases heq

theorem isAscii_of_quote {b : UInt8} (h : (b == 0x27 || b == 0x22) = true) : IsAscii b := by
  rcases Bool.or_eq_true_iff.1 h with hb | hb <;> rw [beq_iff_eq.1 hb] <;> decide

theorem delimiter?_spec (h : delimiter? text i = some (some (d, quoted, stop)))
    (hne : d.isEmpty = false) : i < stop ∧ Boundary text stop := by
  unfold delimiter? at h
  split at h
  · cases h
  · rename_i b hb
    split at h
    · rename_i hquote
      obtain ⟨found, hfound, heq⟩ := Option.map_eq_some_iff.1 h
      obtain ⟨⟨d', stop'⟩, rfl, heq⟩ := Option.map_eq_some_iff.1 heq
      cases heq
      obtain ⟨close, hd, hclose, rfl, -⟩ := quotedDelimiter?_spec hfound
      obtain ⟨hle, -, -⟩ := boundaries_of_slice? hd
      exact ⟨by omega, .succ hclose (isAscii_of_quote hquote)⟩
    · -- Behind a backslash or not, the delimiter is made of name bytes.
      split at h
      · obtain ⟨⟨d', stop'⟩, hd, heq⟩ := Option.map_eq_some_iff.1 h
        cases heq
        obtain ⟨hle, -, hstop⟩ := boundaries_of_slice? (bareDelimiter?_spec hd).1
        exact ⟨hle, hstop⟩
      · obtain ⟨⟨d', stop'⟩, hd, heq⟩ := Option.map_eq_some_iff.1 h
        cases heq
        have hslice := (bareDelimiter?_spec hd).1
        exact ⟨lt_of_slice? hslice hne, (boundaries_of_slice? hslice).2.2⟩

theorem exists_bareDelimiter? (hi : Boundary text i) : ∃ found, bareDelimiter? text i = some found := by
  have hstop : Boundary text (runEnd text isNameByte i) :=
    runEnd_boundary_of_class (fun _ => isAscii_of_isNameByte) hi
  have hd := slice?_eq_some (le_runEnd text isNameByte i) hi hstop
  exact ⟨_, Option.map_eq_some_iff.2 ⟨_, hd, rfl⟩⟩

theorem exists_quotedDelimiter? {quote : UInt8} (hquote : IsAscii quote) (hi : Boundary text i) :
    ∃ found, quotedDelimiter? text quote i = some found := by
  have hstop : Boundary text (runEnd text (fun b => b != quote && b != 0x0a) i) := by
    refine runEnd_boundary_of_end (fun b hb => ?_) hi.le_size
    rcases Bool.and_eq_false_iff.1 hb with hb | hb
    · exact bne_eq_false_iff_eq.1 hb ▸ hquote
    · exact bne_eq_false_iff_eq.1 hb ▸ by decide
  have hd := slice?_eq_some (le_runEnd text _ i) hi hstop
  exact ⟨_, Option.map_eq_some_iff.2 ⟨_, hd, rfl⟩⟩

theorem exists_delimiter? (hi : Boundary text i) : ∃ found, delimiter? text i = some found := by
  unfold delimiter?
  split
  · exact ⟨_, rfl⟩
  · rename_i b hb
    split
    · rename_i hquote
      have hascii := isAscii_of_quote hquote
      obtain ⟨found, hfound⟩ := exists_quotedDelimiter? hascii (Boundary.succ hb hascii)
      exact ⟨_, congrArg _ hfound⟩
    · split
      · rename_i hslash
        have hslash : b = 0x5c := beq_iff_eq.1 hslash
        obtain ⟨found, hfound⟩ := exists_bareDelimiter? (Boundary.succ hb (hslash ▸ by decide))
        exact ⟨_, congrArg _ hfound⟩
      · obtain ⟨found, hfound⟩ := exists_bareDelimiter? hi
        exact ⟨_, congrArg _ hfound⟩

end

theorem le_delimiterStart (text : String) (i : Nat) : i ≤ delimiterStart text i := by
  refine Nat.le_trans ?_ (le_runEnd _ _ _)
  split <;> omega

theorem delimiterStart_boundary (hi : Boundary text i) : Boundary text (delimiterStart text i) := by
  refine runEnd_boundary_of_class (fun b hb => ?_) ?_
  · rcases Bool.or_eq_true_iff.1 hb with hb | hb <;> rw [beq_iff_eq.1 hb] <;> decide
  · split
    · rename_i hdash
      exact .succ (hasByte_iff.1 hdash) (by decide)
    · exact hi

/-- The delimiter after `<<`. -/
theorem opening?_delimiter {o : Opening} (h : opening? text i = some (some o)) :
    delimiter? text (delimiterStart text i) = some (some (o.delimiter, o.quoted, o.stop)) ∧
      o.delimiter.isEmpty = false := by
  obtain ⟨found, hfound, heq⟩ := Option.map_eq_some_iff.1 h
  split at heq
  · cases heq
  · rename_i d quoted stop
    split at heq
    · cases heq
    · rename_i hne
      cases heq
      exact ⟨hfound, by simpa using hne⟩

theorem opening?_spec {o : Opening} (h : opening? text i = some (some o)) :
    i < o.stop ∧ Boundary text o.stop := by
  obtain ⟨hdelimiter, hne⟩ := opening?_delimiter h
  obtain ⟨hlt, hstop⟩ := delimiter?_spec hdelimiter hne
  exact ⟨Nat.lt_of_le_of_lt (le_delimiterStart text i) hlt, hstop⟩

/-- A delimiter that was read, with or without an error, ends past its start. -/
theorem heredocStart?_spec {piece : Scanned} {h h' : Heredoc}
    (hs : Scanner.heredocStart? text i h = some (some piece, h')) :
    ∃ stop, piece.span = .upTo i stop ∧ i < stop ∧ Boundary text stop := by
  obtain ⟨found, hfound, hs⟩ := Option.bind_eq_some_iff.1 hs
  cases found with
  | none => cases hs
  | some o =>
    obtain ⟨span, hspan, hs⟩ := Option.bind_eq_some_iff.1 hs
    obtain ⟨-, rfl⟩ := Span.of_between? hspan
    obtain ⟨hlt, hstop⟩ := opening?_spec hfound
    refine ⟨o.stop, ?_, hlt, hstop⟩
    split at hs <;> cases hs <;> rfl

/-- From a boundary a delimiter can be looked for. -/
theorem exists_heredocStart? (h : Heredoc) (hi : Boundary text i) :
    ∃ found h', Scanner.heredocStart? text i h = some (found, h') := by
  obtain ⟨found, hfound⟩ := exists_delimiter? (delimiterStart_boundary hi)
  unfold Scanner.heredocStart?
  cases hopening : opening? text i with
  | none =>
    unfold opening? at hopening
    rw [hfound] at hopening
    cases hopening
  | some found =>
    cases found with
    | none => exact ⟨_, _, rfl⟩
    | some o =>
      have hspan := Span.between?_of_le (Nat.le_of_lt (opening?_spec hopening).1)
      simp only [Option.bind_eq_bind, Option.bind_some, hspan]
      split <;> exact ⟨_, _, rfl⟩

theorem contentStart_boundary {stripTabs : Bool} (h : Boundary text i) :
    Boundary text (contentStart text stripTabs i) := by
  unfold contentStart
  split
  · refine runEnd_boundary_of_class (fun b hb => ?_) h
    rw [beq_iff_eq.1 hb]
    decide
  · exact h

theorem terminator?_spec {delimiter : String} {stop : Nat}
    (h : terminator? text delimiter i = some stop) (hi : i ≤ size text) :
    i ≤ stop ∧ Boundary text stop := by
  unfold terminator? at h
  extract_lets stop' ended at h
  split at h
  · rename_i hpiece
    rw [← Option.some.inj h]
    refine ⟨Nat.le_add_right _ _, ?_⟩
    obtain ⟨hpiece, hended⟩ := Bool.and_eq_true_iff.1 hpiece
    unfold ended at hended
    split at hended
    · rename_i hnone
      refine .of_none hnone ?_
      rcases Nat.eq_zero_or_pos (size delimiter) with hzero | hpos
      · unfold stop'
        omega
      · exact lt_size_of_hasPiece hpiece hpos
    · rename_i b hb
      refine .of_byte hb ?_
      rcases Bool.or_eq_true_iff.1 hended with hb | hb <;> rw [beq_iff_eq.1 hb] <;> decide
  · cases h

theorem nextLine_boundary (text : String) (i : Nat) : Boundary text (nextLine text i) := by
  unfold nextLine
  simp only
  split
  · rename_i hlt
    rcases runEnd_stops text (· != 0x0a) i with hnone | ⟨b, hb, hfeed⟩
    · have := byte?_eq_none.1 hnone
      exact absurd hlt (Nat.not_lt.2 this)
    · rw [bne_eq_false_iff_eq.1 hfeed] at hb
      exact .succ hb (by decide)
  · exact boundary_size text

theorem le_nextLine (h : i ≤ size text) : i ≤ nextLine text i := by
  have := le_runEnd text (· != 0x0a) i
  unfold nextLine find
  simp only
  split <;> omega

/-- What is known of a body that was read at `i`. -/
structure ReadBody (text : String) (i : Nat) (body : Body) : Prop where
  start : body.span.start = i
  boundary : Boundary text body.span.stop
  terminator : ∀ line, body.terminator = some line →
    line.start = body.span.stop ∧ Boundary text line.stop

/-- From a line start a body can be read. -/
theorem exists_body? (h : Heredoc) (hi : Boundary text i) :
    ∃ body, h.body? text i = some body ∧ ReadBody text i body := by
  fun_induction body? text h i with
  | case1 i hlt content hcontent stop hstop =>
    obtain ⟨hle, hb⟩ := terminator?_spec hstop (Boundary.le_size hcontent)
    have hle := Nat.le_trans (le_contentStart text h.stripTabs i) hle
    rw [Span.between?_of_le hle]
    refine ⟨_, rfl, rfl, hi, ?_⟩
    rintro line ⟨⟩
    exact ⟨rfl, (Span.stop_upTo hle).symm ▸ hb⟩
  | case2 i hlt content hcontent _ next ih =>
    have hnext : content ≤ next := le_nextLine (Boundary.le_size hcontent)
    have hboundary : Boundary text next := nextLine_boundary text content
    obtain ⟨rest, hrest, hread⟩ := ih hboundary
    have hle : i ≤ rest.span.stop := by
      have hcontent : i ≤ content := le_contentStart text h.stripTabs i
      have hstart := rest.span.start_le_stop
      rw [hread.start] at hstart
      omega
    simp only [slice?_eq_some hnext hcontent hboundary, hrest, Span.between?_of_le hle,
      Option.bind_eq_bind, Option.bind_some]
    refine ⟨_, rfl, rfl, ?_, ?_⟩
    · exact (Span.stop_upTo hle).symm ▸ hread.boundary
    · exact fun line hline => (Span.stop_upTo hle).symm ▸ hread.terminator line hline
  | case3 i hlt content hcontent =>
    exact absurd (contentStart_boundary hi) hcontent
  | case4 i hge =>
    exact ⟨_, rfl, rfl, hi, nofun⟩

end Heredoc

end ShellAnalysis
