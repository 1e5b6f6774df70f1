import Mathlib.Data.List.Induction
import ShellAnalysis.Proofs.ContentRuns

/-!
# When a heredoc is active

What a scanner holds between two calls changes in few ways.  `Transition` lists
them, each with the result of the call that makes it:

    Transition h call (call.perform h)                     (perform_transition)

The calls of a sequence on a fresh scanner are its `moves`.  Each of them is
`Lawful`: it makes a heredoc active exactly if it `Opens` one and ends an active
one exactly if it `Closes` it; no other call puts another heredoc in its place,
and the delimiter of an active one can stand alone on a line (`IsDelimiter`).

Over a whole sequence, the active heredoc is the last one that was opened, just
as it was opened, if no call has closed it since (`moves_lawful`).
-/

namespace ShellAnalysis

/-! ## Characters of a piece -/

namespace Text

variable {text piece : String} {i j : Nat}

/-- A character of a piece stands in the text under it. -/
theorem exists_charAt_of_mem {c : Char} (hc : c ∈ (slice text i j).toList) :
    ∃ k, i ≤ k ∧ k < j ∧ CharAt text k c := by
  cases hpiece : slice? text i j with
  | none =>
    rw [slice, hpiece] at hc
    cases hc
  | some piece =>
    obtain ⟨hij, hi, hj⟩ := boundaries_of_slice? hpiece
    obtain ⟨before, after, hsplit⟩ := List.append_of_mem hc
    have happend : slice text i j = .ofList before ++ (.singleton c ++ .ofList after) := by
      rw [← String.toList_inj, hsplit]
      simp
    obtain ⟨hle, hk, -, hrest⟩ := slice_eq_append hij hi hj happend
    obtain ⟨hchar, hnext, -⟩ := charAt_of_slice hle hk hj hrest
    have hpos := c.utf8Size_pos
    exact ⟨_, Nat.le_add_right _ _, by omega, hchar⟩

/-- A run over bytes of a line stays on the line. -/
theorem feed_not_mem_run {inClass : UInt8 → Bool} (hclass : inClass 0x0a = false) :
    '\n' ∉ (slice text i (runEnd text inClass i)).toList := by
  intro hmem
  obtain ⟨k, hik, hk, hfeed⟩ := exists_charAt_of_mem hmem
  obtain ⟨b, hb, hin⟩ := runEnd_bytes hik hk
  obtain rfl : b = 0x0a := Option.some.inj (hb.symm.trans (Content.charAt_feed.1 hfeed))
  exact Bool.false_ne_true (hclass.symm.trans hin)

end Text

open Text

/-! ## Delimiters -/

namespace Heredoc

/-- What can stand alone on a terminator line: some bytes, within the limit, of one line. -/
structure IsDelimiter (d : String) : Prop where
  pos : 1 ≤ size d
  le : size d ≤ maxDelimiter
  oneLine : '\n' ∉ d.toList

section

variable {text d : String} {i stop : Nat} {h : Heredoc} {body : Body}

theorem bareDelimiter?_oneLine (hd : bareDelimiter? text i = some (d, stop)) : '\n' ∉ d.toList := by
  obtain ⟨hslice, rfl⟩ := bareDelimiter?_spec hd
  rw [← slice_of_slice? hslice]
  exact feed_not_mem_run (by decide)

/-- The closing quote stands on the line of the opening one. -/
theorem quotedDelimiter?_oneLine {quote : UInt8}
    (hd : quotedDelimiter? text quote i = some (some (d, stop))) : '\n' ∉ d.toList := by
  obtain ⟨close, hslice, -, -, rfl⟩ := quotedDelimiter?_spec hd
  rw [← slice_of_slice? hslice]
  exact feed_not_mem_run (by simp)

theorem delimiter?_oneLine {quoted : Bool}
    (hd : delimiter? text i = some (some (d, quoted, stop))) : '\n' ∉ d.toList := by
  unfold delimiter? at hd
  split at hd
  · cases hd
  · split at hd
    · obtain ⟨found, hquoted, heq⟩ := Option.map_eq_some_iff.1 hd
      obtain ⟨⟨d', stop'⟩, rfl, heq⟩ := Option.map_eq_some_iff.1 heq
      cases heq
      exact quotedDelimiter?_oneLine hquoted
    · -- Behind a backslash or not, the delimiter is made of name bytes.
      split at hd
      all_goals
        obtain ⟨⟨d', stop'⟩, hbare, heq⟩ := Option.map_eq_some_iff.1 hd
        cases heq
        exact bareDelimiter?_oneLine hbare

/-- What is read after `<<` is a delimiter if it is within the limit. -/
theorem isDelimiter_of_opening? {o : Opening} (ho : opening? text i = some (some o))
    (hle : size o.delimiter ≤ maxDelimiter) : IsDelimiter o.delimiter := by
  obtain ⟨hdelimiter, hne⟩ := opening?_delimiter ho
  refine ⟨Nat.one_le_iff_ne_zero.2 fun hzero => ?_, hle, delimiter?_oneLine hdelimiter⟩
  rw [String.isEmpty_iff.2 (String.utf8ByteSize_eq_zero_iff.1 hzero)] at hne
  cases hne

theorem start_body? (hbody : h.body? text i = some body) : body.span.start = i := by
  unfold body? at hbody
  split at hbody
  · dsimp only at hbody
    split at hbody
    · split at hbody
      · obtain ⟨line, -, rfl⟩ := Option.map_eq_some_iff.1 hbody
        rfl
      · obtain ⟨line, -, hbody⟩ := Option.bind_eq_some_iff.1 hbody
        obtain ⟨rest, -, hbody⟩ := Option.bind_eq_some_iff.1 hbody
        obtain ⟨span, hspan, hbody⟩ := Option.bind_eq_some_iff.1 hbody
        obtain ⟨-, rfl⟩ := Span.of_between? hspan
        cases hbody
        rfl
    · cases hbody
  · cases hbody
    rfl

/-- Without a terminator a body goes on to the end of the text. -/
theorem stop_body?_of_none (hi : i ≤ size text) (hbody : h.body? text i = some body)
    (hnone : body.terminator = none) : body.span.stop = size text := by
  revert body
  fun_induction body? text h i with
  | case1 =>
    intro body hbody hnone
    obtain ⟨line, -, rfl⟩ := Option.map_eq_some_iff.1 hbody
    cases hnone
  | case2 i _ content _ _ next =>
    rename_i ih
    intro body hbody hnone
    obtain ⟨line, -, hbody⟩ := Option.bind_eq_some_iff.1 hbody
    obtain ⟨rest, hrest, hbody⟩ := Option.bind_eq_some_iff.1 hbody
    obtain ⟨span, hspan, hbody⟩ := Option.bind_eq_some_iff.1 hbody
    obtain ⟨hle, rfl⟩ := Span.of_between? hspan
    cases hbody
    exact (Span.stop_upTo hle).trans (ih (nextLine_boundary text content).le_size hrest hnone)
  | case3 =>
    rintro body ⟨⟩
  | case4 i hge =>
    rintro body ⟨⟩ -
    exact Nat.le_antisymm hi (Nat.le_of_not_lt hge)

end

end Heredoc

namespace Scanner

open Heredoc Content

variable {h : Heredoc} {text : String} {i : Nat} {accepted : List ScanKind}

/-! ## What a call can do -/

/-- What a call can do to a heredoc: its result, and the state after it. -/
inductive Transition (h : Heredoc) : Call → Option Scanned × Heredoc → Prop
  | reset : Transition h .reset (none, .idle)
  /-- A delimiter within the limit: its heredoc takes the place of any other. -/
  | opened {text : String} {i : Nat} {accepted : List ScanKind} {o : Opening} :
      opening? text i = some (some o) → size o.delimiter ≤ maxDelimiter →
      Transition h (.scan text i accepted)
        (some ⟨.heredocStart, o.delimiter, .upTo i o.stop, none⟩, .ofOpening o)
  /-- A delimiter over the limit. -/
  | refused {text : String} {i : Nat} {accepted : List ScanKind} {o : Opening} :
      opening? text i = some (some o) → maxDelimiter < size o.delimiter →
      Transition h (.scan text i accepted)
        (some ⟨.heredocStart, o.delimiter, .upTo i o.stop,
          some (.delimiterTooLong (size o.delimiter) maxDelimiter)⟩, h)
  | content {text : String} {i : Nat} {accepted : List ScanKind} {piece : Scanned}
      (kind : ContentKind) : piece.kind = kind.scanKind →
      Transition h (.scan text i accepted) (some piece, h)
  | terminator {text : String} {i : Nat} {accepted : List ScanKind} {span : Span} :
      h.active = true → wantsBody accepted = true →
      Transition h (.scan text i accepted)
        (some ⟨.heredocEnd, h.delimiter, span, none⟩, { h with active := false })
  /-- The lines before the terminator, which is still to be read. -/
  | body {text : String} {i : Nat} {accepted : List ScanKind} {lines : String} {span : Span} :
      h.active = true → wantsBody accepted = true →
      Transition h (.scan text i accepted) (some ⟨.heredocBody, lines, span, none⟩, h)
  | unterminated {text : String} {i : Nat} {accepted : List ScanKind} {lines : String}
      {span : Span} : h.active = true → wantsBody accepted = true →
      Transition h (.scan text i accepted)
        (some ⟨.heredocBody, lines, span, some (.unterminatedHeredoc h.delimiter)⟩,
          { h with active := false })
  /-- The body is asked for where the text ends. -/
  | exhausted {text : String} {accepted : List ScanKind} :
      h.active = true → wantsBody accepted = true →
      Transition h (.scan text (size text) accepted) (none, { h with active := false })
  /-- Nothing is found, and not because a body ends with the text. -/
  | missed {text : String} {i : Nat} {accepted : List ScanKind} :
      ¬(h.active = true ∧ wantsBody accepted = true ∧ i = size text) →
      Transition h (.scan text i accepted) (none, h)

theorem heredocPiece?_transition {r : Option Scanned × Heredoc} (hi : i ≤ size text)
    (hactive : h.active = true) (hwants : wantsBody accepted = true)
    (hr : heredocPiece? text i h = some r) : Transition h (.scan text i accepted) r := by
  obtain ⟨body, hbody, rfl⟩ := Option.map_eq_some_iff.1 hr
  unfold nextPiece
  split
  · split
    · exact .terminator hactive hwants
    · exact .body hactive hwants
  · rename_i hnone
    dsimp only
    split
    · rename_i hempty
      have hstop := stop_body?_of_none hi hbody hnone
      rw [Span.isEmpty_iff.1 hempty, start_body? hbody] at hstop
      subst hstop
      exact .exhausted hactive hwants
    · exact .unterminated hactive hwants

/-- One kind is tried: nothing is found and nothing changes, or what is found is a result. -/
def Tried (h : Heredoc) (call : Call) (outcome : Option Scanned × Heredoc) : Prop :=
  outcome = (none, h) ∨ outcome.1 ≠ none ∧ Transition h call outcome

theorem heredocStart?_tried {r : Option Scanned × Heredoc} (accepted : List ScanKind)
    (hr : heredocStart? text i h = some r) : Tried h (.scan text i accepted) r := by
  obtain ⟨found, ho, hr⟩ := Option.bind_eq_some_iff.1 hr
  cases found with
  | none =>
    cases hr
    exact .inl rfl
  | some o =>
    obtain ⟨span, hspan, hr⟩ := Option.bind_eq_some_iff.1 hr
    obtain ⟨-, rfl⟩ := Span.of_between? hspan
    split at hr
    · rename_i hover
      cases hr
      exact .inr ⟨nofun, .refused ho hover⟩
    · rename_i hwithin
      cases hr
      exact .inr ⟨nofun, .opened ho (Nat.le_of_not_lt hwithin)⟩

theorem content?_tried (kind : ContentKind) {stop : Checked Nat} {r : Option Scanned × Heredoc}
    (hr : (stop.bind (content? text kind.scanKind kind.unclosed i)).map (·, h) = some r) :
    Tried h (.scan text i accepted) r := by
  obtain ⟨found, hfound, rfl⟩ := Option.map_eq_some_iff.1 hr
  obtain ⟨stop, -, hfound⟩ := Option.bind_eq_some_iff.1 hfound
  cases found with
  | none => exact .inl rfl
  | some piece =>
    refine .inr ⟨nofun, .content kind ?_⟩
    unfold content? at hfound
    split at hfound
    · cases hfound
    · obtain ⟨content, -, hfound⟩ := Option.bind_eq_some_iff.1 hfound
      obtain ⟨span, -, hfound⟩ := Option.bind_eq_some_iff.1 hfound
      cases hfound
      rfl

theorem scanKind?_tried (kind : ScanKind) {r : Option Scanned × Heredoc}
    (hr : scanKind? text i h kind = some r) : Tried h (.scan text i accepted) r := by
  cases kind with
  | heredocStart => exact heredocStart?_tried accepted hr
  | heredocBody | heredocEnd =>
    cases hr
    exact .inl rfl
  | string style => exact content?_tried (.string style) hr
  | multiline style => exact content?_tried (.multiline style) hr
  | regex => exact content?_tried .regex hr

theorem scanKinds?_transition (hno : ¬(h.active = true ∧ wantsBody accepted = true))
    (kinds : List ScanKind) {r : Option Scanned × Heredoc}
    (hr : scanKinds? text i h kinds = some r) : Transition h (.scan text i accepted) r := by
  induction kinds with
  | nil =>
    cases hr
    exact .missed fun ⟨hactive, hwants, _⟩ => hno ⟨hactive, hwants⟩
  | cons kind kinds ih =>
    obtain ⟨⟨found, h'⟩, hkind, hr⟩ := Option.bind_eq_some_iff.1 hr
    rcases scanKind?_tried kind hkind with hnone | ⟨hsome, htransition⟩
    · cases hnone
      exact ih hr
    · cases found with
      | none => exact absurd rfl hsome
      | some piece =>
        cases hr
        exact htransition

/-- A call does nothing but what is listed. -/
theorem perform_transition (h : Heredoc) (call : Call) :
    Transition h call (call.perform h) := by
  cases call with
  | reset => exact .reset
  | scan text i accepted =>
    show Transition h _ (scan text i accepted h)
    unfold scan
    cases hr : scan? text i accepted h with
    | none =>
      -- A scan inside a character; the text does not end there.
      refine .missed fun ⟨hactive, hwants, hsize⟩ => ?_
      obtain ⟨r, hpiece, -⟩ := heredocPiece?_piece h (hsize ▸ boundary_size text)
      unfold scan? at hr
      rw [if_neg (Nat.not_lt.2 (Nat.le_of_eq hsize)), hactive, hwants, Bool.and_true, if_pos rfl,
        hpiece] at hr
      cases hr
    | some r =>
      unfold scan? at hr
      split at hr
      · rename_i hpast
        cases hr
        exact .missed fun ⟨_, _, hsize⟩ => Nat.ne_of_gt hpast hsize
      · rename_i hin
        split at hr
        · rename_i hbody
          obtain ⟨hactive, hwants⟩ := Bool.and_eq_true_iff.1 hbody
          exact heredocPiece?_transition (Nat.le_of_not_lt hin) hactive hwants hr
        · rename_i hbody
          refine scanKinds?_transition (fun ⟨hactive, hwants⟩ => hbody ?_) accepted hr
          rw [hactive, hwants]
          rfl

/-! ## What a result tells -/

/-- The result is the start of a heredoc, without an error. -/
def Opens : Option Scanned → Prop
  | some piece => piece.kind = .heredocStart ∧ piece.error = none
  | none => False

/-- The call drops the heredoc, or with this result it has read it to its end. -/
def Closes : Call → Option Scanned → Prop
  | .reset, _ => True
  | .scan _ _ _, some piece => piece.kind = .heredocEnd ∨
      piece.kind = .heredocBody ∧ ∃ delimiter, piece.error = some (.unterminatedHeredoc delimiter)
  | .scan text i accepted, none => wantsBody accepted = true ∧ i = size text

/-- The result is a delimiter over the limit, or content of a literal. -/
def Spares : Option Scanned → Prop
  | some piece =>
    (piece.kind = .heredocStart ∧
        ∃ length max, piece.error = some (.delimiterTooLong length max)) ∨
      ∃ kind : ContentKind, piece.kind = kind.scanKind
  | none => False

/-- A call with the state before it, its result and the state after it. -/
structure Move where
  before : Heredoc
  call : Call
  found : Option Scanned
  after : Heredoc

/-- How a call may change the heredoc that the scanner holds. -/
structure Move.Lawful (m : Move) : Prop where
  /-- It becomes active by a start without an error and by nothing else. -/
  opens : m.before.active = false → (m.after.active = true ↔ Opens m.found)
  /-- It becomes inactive by a reset or at its end and by nothing else. -/
  closes : m.before.active = true → (m.after.active = false ↔ Closes m.call m.found)
  /-- The delimiter and its flags change at a start and at a reset, never otherwise. -/
  keeps : ¬Opens m.found → m.call ≠ .reset → m.after = { m.before with active := m.after.active }
  delimiter : ∀ h ∈ [m.before, m.after], h.active = true → IsDelimiter h.delimiter
  spares : Spares m.found → m.after = m.before

/-- The move that a call makes. -/
def Call.move (h : Heredoc) (call : Call) : Move :=
  ⟨h, call, (call.perform h).1, (call.perform h).2⟩

/-- The moves of the calls, one after the other. -/
def moves (h : Heredoc) : List Call → List Move
  | [] => []
  | call :: calls => call.move h :: moves (call.perform h).2 calls

/-- The state that the calls leave. -/
def stateAfter (h : Heredoc) (calls : List Call) : Heredoc :=
  calls.foldl (fun h call => (call.perform h).2) h

/-- The move opens a heredoc, and none after it opens another or closes it. -/
def LastOpened (ms : List Move) (m : Move) : Prop :=
  Opens m.found ∧ ∃ earlier later, ms = earlier ++ m :: later ∧
    ∀ n ∈ later, ¬Opens n.found ∧ ¬Closes n.call n.found

/-! ## One call -/

/-- Content of a literal is no piece of a heredoc. -/
theorem scanKind_ne (kind : ContentKind) : kind.scanKind ≠ .heredocStart ∧
    kind.scanKind ≠ .heredocBody ∧ kind.scanKind ≠ .heredocEnd := by
  cases kind <;> exact ⟨nofun, nofun, nofun⟩

namespace Transition

variable {call : Call} {outcome : Option Scanned × Heredoc}

/-- A heredoc is active behind a call that opens one, and stays active behind one that does not
close it. -/
theorem active_iff (t : Transition h call outcome) :
    outcome.2.active = true ↔ Opens outcome.1 ∨ h.active = true ∧ ¬Closes call outcome.1 := by
  cases t with
  | reset => simp [Opens, Closes, idle]
  | opened => simp [Opens, ofOpening]
  | refused => simp [Opens, Closes]
  | content kind hkind => simp [Opens, Closes, hkind, scanKind_ne kind]
  | terminator => simp [Opens, Closes]
  | body => simp [Opens, Closes]
  | unterminated => simp [Opens, Closes]
  | exhausted _ hwants => simp [Opens, Closes, hwants]
  | @missed text i accepted hno =>
    -- A body that ends with the text gives nothing either; the guard says that it is not this one.
    show h.active = true ↔ False ∨ h.active = true ∧ ¬(wantsBody accepted = true ∧ i = size text)
    rw [false_or]
    exact ⟨fun hactive => ⟨hactive, fun hend => hno ⟨hactive, hend⟩⟩, And.left⟩

theorem not_opens (t : Transition h call outcome) (hcloses : Closes call outcome.1) :
    ¬Opens outcome.1 := by
  cases t with
  | opened => simp [Closes] at hcloses
  | content kind hkind => simp [Opens, hkind, scanKind_ne kind]
  | reset | refused | terminator | body | unterminated | exhausted | missed => simp [Opens]

theorem inactive_iff (t : Transition h call outcome) (hactive : h.active = true) :
    outcome.2.active = false ↔ Closes call outcome.1 := by
  rw [← Bool.not_eq_true, t.active_iff]
  constructor
  · intro hnot
    by_contra hopen
    exact hnot (.inr ⟨hactive, hopen⟩)
  · rintro hcloses (hopens | ⟨-, hopen⟩)
    · exact t.not_opens hcloses hopens
    · exact hopen hcloses

theorem keeps (t : Transition h call outcome) (hopens : ¬Opens outcome.1)
    (hreset : call ≠ .reset) : outcome.2 = { h with active := outcome.2.active } := by
  cases t with
  | reset => exact absurd rfl hreset
  | opened => exact absurd ⟨rfl, rfl⟩ hopens
  | refused | content | terminator | body | unterminated | exhausted | missed => rfl

theorem stays (t : Transition h call outcome) (hopens : ¬Opens outcome.1)
    (hcloses : ¬Closes call outcome.1) : outcome.2 = h := by
  cases t with
  | opened => exact absurd ⟨rfl, rfl⟩ hopens
  | reset => exact absurd trivial hcloses
  | terminator => exact absurd (.inl rfl) hcloses
  | unterminated => exact absurd (.inr ⟨rfl, _, rfl⟩) hcloses
  | exhausted _ hwants => exact absurd ⟨hwants, rfl⟩ hcloses
  | refused | content | body | missed => rfl

theorem isDelimiter (t : Transition h call outcome)
    (hdelimiter : h.active = true → IsDelimiter h.delimiter) (hactive : outcome.2.active = true) :
    IsDelimiter outcome.2.delimiter := by
  cases t with
  | opened ho hle => exact isDelimiter_of_opening? ho hle
  | refused | content | body | missed => exact hdelimiter hactive
  | reset | terminator | unterminated | exhausted => cases hactive

theorem spares (t : Transition h call outcome) (hspares : Spares outcome.1) : outcome.2 = h := by
  cases t with
  | refused | content | body | missed => rfl
  | reset | exhausted => cases hspares
  | opened =>
    rcases hspares with ⟨-, _, _, herror⟩ | ⟨kind, hkind⟩
    · cases herror
    · exact absurd hkind.symm (scanKind_ne kind).1
  | terminator =>
    rcases hspares with ⟨hkind, -⟩ | ⟨kind, hkind⟩
    · cases hkind
    · exact absurd hkind.symm (scanKind_ne kind).2.2
  | unterminated =>
    rcases hspares with ⟨hkind, -⟩ | ⟨kind, hkind⟩
    · cases hkind
    · exact absurd hkind.symm (scanKind_ne kind).2.1

end Transition

theorem move_lawful (hdelimiter : h.active = true → IsDelimiter h.delimiter) (call : Call) :
    (call.move h).Lawful := by
  have t := perform_transition h call
  refine ⟨fun hidle => ?_, t.inactive_iff, t.keeps, ?_, t.spares⟩
  · have hnot : ¬(h.active = true ∧ ¬Closes call (call.perform h).1) := fun hactive =>
      Bool.false_ne_true (hidle.symm.trans hactive.1)
    exact t.active_iff.trans (or_iff_left hnot)
  · refine List.forall_mem_cons.2 ⟨hdelimiter, List.forall_mem_singleton.2 ?_⟩
    exact t.isDelimiter hdelimiter

/-! ## Sequences of calls -/

section

variable {ms : List Move} {m n : Move}

theorem stateAfter_concat (h : Heredoc) (calls : List Call) (call : Call) :
    stateAfter h (calls ++ [call]) = (call.perform (stateAfter h calls)).2 :=
  List.foldl_append

theorem moves_concat (h : Heredoc) (calls : List Call) (call : Call) :
    moves h (calls ++ [call]) = moves h calls ++ [call.move (stateAfter h calls)] := by
  induction calls generalizing h with
  | nil => rfl
  | cons first calls ih =>
    rw [List.cons_append, moves, ih, moves, List.cons_append]
    rfl

theorem not_lastOpened_nil : ¬LastOpened [] m := by
  rintro ⟨-, earlier, later, hsplit, -⟩
  exact List.append_ne_nil_of_right_ne_nil earlier (List.cons_ne_nil m later) hsplit.symm

theorem lastOpened_concat : LastOpened (ms ++ [n]) m ↔
    n = m ∧ Opens n.found ∨ LastOpened ms m ∧ ¬Opens n.found ∧ ¬Closes n.call n.found := by
  constructor
  · rintro ⟨hopens, earlier, later, hsplit, hlater⟩
    rcases List.eq_nil_or_concat later with rfl | ⟨later, last, rfl⟩
    · obtain ⟨-, rfl⟩ := List.append_singleton_inj.1 hsplit
      exact .inl ⟨rfl, hopens⟩
    · rw [List.concat_eq_append, ← List.cons_append, ← List.append_assoc] at hsplit
      obtain ⟨rfl, rfl⟩ := List.append_singleton_inj.1 hsplit
      exact .inr ⟨⟨hopens, earlier, later, rfl, fun n hn => hlater n (by simp [hn])⟩,
        hlater n (by simp)⟩
  · rintro (⟨rfl, hopens⟩ | ⟨⟨hopens, earlier, later, rfl, hlater⟩, hn⟩)
    · exact ⟨hopens, ms, [], rfl, List.forall_mem_nil _⟩
    · refine ⟨hopens, earlier, later ++ [n], by simp, fun k hk => ?_⟩
      rcases List.mem_append.1 hk with hk | hk
      · exact hlater k hk
      · rwa [List.mem_singleton.1 hk]

theorem stateAfter_isDelimiter (calls : List Call) :
    (stateAfter .idle calls).active = true → IsDelimiter (stateAfter .idle calls).delimiter := by
  induction calls using List.reverseRecOn with
  | nil => exact nofun
  | append_singleton calls call ih =>
    rw [stateAfter_concat]
    exact (perform_transition _ call).isDelimiter ih

theorem forall_moves_lawful (calls : List Call) : ∀ m ∈ moves .idle calls, m.Lawful := by
  -- From the last call back: a call is lawful in a state that the calls before it leave.
  induction calls using List.reverseRecOn with
  | nil => exact List.forall_mem_nil _
  | append_singleton calls call ih =>
    rw [moves_concat]
    intro m hm
    rcases List.mem_append.1 hm with hm | hm
    · exact ih m hm
    · rw [List.mem_singleton.1 hm]
      exact move_lawful (stateAfter_isDelimiter calls) call

/-- A heredoc is active if one was opened and no call has closed it since. -/
theorem active_stateAfter_iff (calls : List Call) :
    (stateAfter .idle calls).active = true ↔ ∃ m, LastOpened (moves .idle calls) m := by
  induction calls using List.reverseRecOn with
  | nil => exact ⟨nofun, fun ⟨_, hm⟩ => absurd hm not_lastOpened_nil⟩
  | append_singleton calls call ih =>
    rw [stateAfter_concat, moves_concat, (perform_transition _ call).active_iff, ih]
    simp only [lastOpened_concat]
    constructor
    · rintro (hopens | ⟨⟨m, hm⟩, hcloses⟩)
      · exact ⟨_, .inl ⟨rfl, hopens⟩⟩
      · by_cases hopens : Opens (call.move (stateAfter .idle calls)).found
        · exact ⟨_, .inl ⟨rfl, hopens⟩⟩
        · exact ⟨m, .inr ⟨hm, hopens, hcloses⟩⟩
    · rintro ⟨m, ⟨-, hopens⟩ | ⟨hm, -, hcloses⟩⟩
      · exact .inl hopens
      · exact .inr ⟨⟨m, hm⟩, hcloses⟩

theorem stateAfter_of_lastOpened (calls : List Call) (hm : LastOpened (moves .idle calls) m) :
    stateAfter .idle calls = m.after := by
  induction calls using List.reverseRecOn with
  | nil => exact absurd hm not_lastOpened_nil
  | append_singleton calls call ih =>
    rw [moves_concat] at hm
    rw [stateAfter_concat]
    rcases lastOpened_concat.1 hm with ⟨rfl, -⟩ | ⟨hm, hopens, hcloses⟩
    · rfl
    · exact ((perform_transition _ call).stays hopens hcloses).trans (ih hm)

/-- Every call of a sequence on a fresh scanner is lawful, and the heredoc that is active after
them is the last one that was opened, as it was opened. -/
theorem moves_lawful (calls : List Call) :
    (∀ m ∈ moves .idle calls, m.Lawful) ∧
      ((stateAfter .idle calls).active = true ↔ ∃ m, LastOpened (moves .idle calls) m) ∧
      ∀ m, LastOpened (moves .idle calls) m → stateAfter .idle calls = m.after :=
  ⟨forall_moves_lawful calls, active_stateAfter_iff calls, fun _ => stateAfter_of_lastOpened calls⟩

end

/-- A heredoc whose terminator is missing is active until the text has been read to its end; its
delimiter is kept. -/
theorem moves_lawful_unterminated :
    (∃ m, LastOpened (moves .idle [.scan "E\nx\n" 0 [.heredocStart]]) m) ∧
      stateAfter .idle [.scan "E\nx\n" 0 [.heredocStart], .scan "E\nx\n" 2 [.heredocBody]] =
        ⟨"E", false, false, false⟩ ∧
      ∀ m ∈ moves .idle [.scan "E\nx\n" 0 [.heredocStart], .scan "E\nx\n" 2 [.heredocBody]],
        m.Lawful :=
  ⟨(moves_lawful [.scan "E\nx\n" 0 [.heredocStart]]).2.1.1 (by decide +kernel), by decide +kernel,
    (moves_lawful _).1⟩

end Scanner

end ShellAnalysis
