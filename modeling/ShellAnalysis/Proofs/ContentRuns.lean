import Mathlib.Logic.Relation
import Mathlib.Order.Bounds.Basic
import ShellAnalysis.Proofs.HeredocLines

/-!
# Content of literals, item by item

The content of a literal is said here in terms of characters.  It splits into
items: an escape, a bracket class of a regex, or one character (`Item`).  A run
goes from item to item and over no terminator (`Run`).

A scan gives the longest run there is from its offset:

    IsGreatest {j | Run text kind i j} stop   where the scan ends at stop  (scan_content)

The steps of a reader are the items that are no terminators (`step_iff`).  Every
step leads on to the same end (`Reader.stop?_of_path`), so no run goes past it.
-/

namespace ShellAnalysis

namespace Content

open Text

/-! ## Runs of items -/

/-- The kinds of literals whose content is scanned. -/
inductive ContentKind where
  | string (style : QuoteStyle)
  | multiline (style : QuoteStyle)
  | regex
  deriving Repr, DecidableEq

namespace ContentKind

/-- The kind of scan that asks for the content. -/
def scanKind : ContentKind → ScanKind
  | string style => .string style
  | multiline style => .multiline style
  | regex => .regex

/-- What is reported of content that runs to the end of the text. -/
def unclosed : ContentKind → LexicalError
  | string _ => .unterminatedString
  | multiline _ => .unterminatedMultilineString
  | regex => .unterminatedRegex

def hasEscapes : ContentKind → Prop
  | string style | multiline style => style.hasEscapes = true
  | regex => True

def hasClasses : ContentKind → Prop
  | string _ | multiline _ => False
  | regex => True

/-- How the content is read. -/
def reader (text : String) : ContentKind → Reader text
  | string style => stringReader text style false
  | multiline style => stringReader text style true
  | regex => regexReader text

end ContentKind

/-- The character that closes a string. -/
def quoteChar : QuoteStyle → Char
  | .double => '\x22'
  | .single | .dollarSingle => '\x27'

section

variable (text : String)

/-- A substitution opens at the offset, if the style has any. -/
def Substitutes (style : QuoteStyle) (i : Nat) : Prop :=
  style.hasSubstitutions = true ∧ (CharAt text i '$' ∨ CharAt text i '\x60')

/-- What ends the content of a literal, unless it is escaped. -/
def Terminates : ContentKind → Nat → Prop
  | .string style, i => CharAt text i (quoteChar style) ∨ Substitutes text style i
  | .multiline style, i =>
    (CharAt text i (quoteChar style) ∧ CharAt text (i + 1) (quoteChar style) ∧
      CharAt text (i + 2) (quoteChar style)) ∨ Substitutes text style i
  | .regex, i => CharAt text i '/' ∨ CharAt text i '\n'

/-- A backslash and the one character after it, or a backslash at the end of the text. -/
inductive Escape : Nat → Nat → Prop
  | char {i : Nat} {c : Char} : CharAt text i '\\' → CharAt text (i + 1) c →
      Escape i (i + 1 + c.utf8Size)
  | last {i : Nat} : CharAt text i '\\' → i + 1 = size text → Escape i (i + 1)

/-- What a bracket class holds: an escape, or one character that does not close it. -/
inductive ClassItem : Nat → Nat → Prop
  | escape {i j : Nat} : Escape text i j → ClassItem i j
  | char {i : Nat} {c : Char} : CharAt text i c → c ≠ '\\' → c ≠ ']' →
      ClassItem i (i + c.utf8Size)

/-- A bracket class, up to its own closing bracket or to the end of the text. -/
inductive BracketClass : Nat → Nat → Prop
  | closed {i j : Nat} : CharAt text i '[' → Relation.ReflTransGen (ClassItem text) (i + 1) j →
      CharAt text j ']' → BracketClass i (j + 1)
  | unclosed {i : Nat} : CharAt text i '[' →
      Relation.ReflTransGen (ClassItem text) (i + 1) (size text) → BracketClass i (size text)

variable (kind : ContentKind)

/-- One item of content. -/
inductive Item : Nat → Nat → Prop
  | escape {i j : Nat} : kind.hasEscapes → Escape text i j → Item i j
  | bracketClass {i j : Nat} : kind.hasClasses → BracketClass text i j → Item i j
  | char {i : Nat} {c : Char} : CharAt text i c → (kind.hasEscapes → c ≠ '\\') →
      (kind.hasClasses → c ≠ '[') → Item i (i + c.utf8Size)

/-- From one offset to another there are items, none of which is a terminator. -/
def Run : Nat → Nat → Prop :=
  Relation.ReflTransGen fun i j => ¬Terminates text kind i ∧ Item text kind i j

end

variable {text : String} {kind : ContentKind} {i j k : Nat} {b : UInt8} {c : Char}

/-! ## Bytes and characters -/

theorem charAt_backslash : CharAt text i '\\' ↔ byte? text i = some 0x5c :=
  charAt_iff (by decide) rfl

theorem charAt_open : CharAt text i '[' ↔ byte? text i = some 0x5b := charAt_iff (by decide) rfl

theorem charAt_close : CharAt text i ']' ↔ byte? text i = some 0x5d := charAt_iff (by decide) rfl

theorem charAt_slash : CharAt text i '/' ↔ byte? text i = some 0x2f := charAt_iff (by decide) rfl

theorem charAt_feed : CharAt text i '\n' ↔ byte? text i = some 0x0a := charAt_iff (by decide) rfl

theorem charAt_quote (style : QuoteStyle) :
    CharAt text i (quoteChar style) ↔ byte? text i = some style.quote := by
  cases style <;> exact charAt_iff (by decide) rfl

theorem substitutes_iff {style : QuoteStyle} (hb : byte? text i = some b) :
    Substitutes text style i ↔ (style.hasSubstitutions && (b == 0x24 || b == 0x60)) = true := by
  have hdollar : CharAt text i '$' ↔ byte? text i = some 0x24 := charAt_iff (by decide) rfl
  have hbacktick : CharAt text i '\x60' ↔ byte? text i = some 0x60 := charAt_iff (by decide) rfl
  rw [Substitutes, hdollar, hbacktick, hb, Option.some_inj, Option.some_inj, Bool.and_eq_true,
    Bool.or_eq_true, beq_iff_eq, beq_iff_eq]

/-- The string literal with one quote or three at its ends. -/
def ContentKind.quoted (style : QuoteStyle) (triple : Bool) : ContentKind :=
  if triple then .multiline style else .string style

theorem terminates_quoted {style : QuoteStyle} {triple : Bool} (hb : byte? text i = some b) :
    Terminates text (.quoted style triple) i ↔ endsString text style triple b i = true := by
  have hquote : CharAt text i (quoteChar style) ↔ b = style.quote := by
    rw [charAt_quote, hb, Option.some_inj]
  unfold endsString
  rw [Bool.or_eq_true, ← substitutes_iff hb, Bool.and_eq_true, beq_iff_eq]
  cases triple with
  | false => exact or_congr (hquote.trans (and_iff_left rfl).symm) Iff.rfl
  | true =>
    refine or_congr ?_ Iff.rfl
    rw [hquote, charAt_quote, charAt_quote]
    unfold tripleAt
    simp only [Bool.not_true, Bool.false_or, Bool.and_eq_true, hasByte_iff]
    constructor
    · rintro ⟨rfl, hsecond, hthird⟩
      exact ⟨rfl, ⟨hb, hsecond⟩, hthird⟩
    · rintro ⟨rfl, ⟨-, hsecond⟩, hthird⟩
      exact ⟨rfl, hsecond, hthird⟩

theorem terminates_regex (hb : byte? text i = some b) :
    Terminates text .regex i ↔ (b == 0x2f || b == 0x0a) = true := by
  rw [Terminates, charAt_slash, charAt_feed, hb, Option.some_inj, Option.some_inj,
    Bool.or_eq_true, beq_iff_eq, beq_iff_eq]

/-! ## Steps of a reader -/

namespace Reader

variable {r : Reader text} {stop : Nat}

/-- A reader goes over an item. -/
def Step (r : Reader text) (i j : Nat) : Prop :=
  ∃ b, byte? text i = some b ∧ r.ends b i = false ∧ r.item? b i = some j

theorem stop?_of_end
    (h : byte? text i = none ∨ ∃ b, byte? text i = some b ∧ r.ends b i = true) :
    r.stop? i = some i := by
  rw [stop?.eq_def]
  split
  · rfl
  · rename_i b hb
    rcases h with hnone | ⟨b', hb', hends⟩
    · cases hnone.symm.trans hb
    · obtain rfl : b' = b := Option.some.inj (hb'.symm.trans hb)
      rw [if_pos hends]

/-- A step leads on to the same end. -/
theorem Step.stop?_eq (h : r.Step i j) : r.stop? i = r.stop? j := by
  obtain ⟨b, hb, hends, hitem⟩ := h
  rw [stop?.eq_def]
  split
  · rename_i hnone
    cases hnone.symm.trans hb
  · rename_i b' hb'
    obtain rfl : b' = b := Option.some.inj (hb'.symm.trans hb)
    rw [if_neg (hends ▸ Bool.false_ne_true)]
    split
    · rename_i hnone
      cases hnone.symm.trans hitem
    · rename_i next hnext
      obtain rfl : next = j := Option.some.inj (hnext.symm.trans hitem)
      rfl

theorem stop?_of_path (h : Relation.ReflTransGen r.Step i j) : r.stop? i = r.stop? j := by
  induction h with
  | refl => rfl
  | tail _ hstep ih => exact ih.trans hstep.stop?_eq

/-- A reader goes to the end of the content step by step. -/
theorem path_stop? (h : r.stop? i = some stop) : Relation.ReflTransGen r.Step i stop := by
  fun_induction r.stop? i with
  | case1 => exact Option.some.inj h ▸ .refl
  | case2 => exact Option.some.inj h ▸ .refl
  | case3 => cases h
  | case4 i b hb hends next hnext ih =>
    exact .head ⟨b, hb, Bool.eq_false_iff.2 hends, hnext⟩ (ih h)

end Reader

/-! ## Items -/

theorem charEnd?_iff : charEnd? text i = some j ↔
    (∃ c, CharAt text i c ∧ i + c.utf8Size = j) ∨ i = size text ∧ i = j := by
  rw [charEnd?_eq_some]
  constructor
  · rintro ⟨hi, rfl⟩
    have hi : Boundary text i := hi
    cases hb : byte? text i with
    | none => exact .inr ⟨Nat.le_antisymm hi.le_size (byte?_eq_none.1 hb), rfl⟩
    | some b =>
      obtain ⟨c, hc, hwidth⟩ := exists_charAt hi hb
      exact .inl ⟨c, hc, congrArg (i + ·) hwidth.symm⟩
  · rintro (⟨c, hc, rfl⟩ | ⟨rfl, rfl⟩)
    · obtain ⟨b, hb, hwidth⟩ := hc.exists_byte
      rw [hb, ← hwidth]
      exact ⟨hc.boundary, rfl⟩
    · rw [byte?_eq_none.2 (Nat.le_refl _)]
      exact ⟨boundary_size text, rfl⟩

theorem escape_iff (hb : byte? text i = some 0x5c) :
    charEnd? text (i + 1) = some j ↔ Escape text i j := by
  have hslash := charAt_backslash.2 hb
  rw [charEnd?_iff]
  constructor
  · rintro (⟨c, hc, rfl⟩ | ⟨hend, rfl⟩)
    · exact .char hslash hc
    · exact .last hslash hend
  · intro h
    cases h with
    | char _ hc => exact .inl ⟨_, hc, rfl⟩
    | last _ hend => exact .inr ⟨hend, rfl⟩

theorem Escape.byte_eq (h : Escape text i j) : byte? text i = some 0x5c := by
  cases h with
  | char hslash _ => exact charAt_backslash.1 hslash
  | last hslash _ => exact charAt_backslash.1 hslash

/-- A character is another one than that of a byte if and only if its first byte is another one. -/
theorem charAt_ne_iff {d : Char} {b' : UInt8} (hd : CharAt text i d ↔ byte? text i = some b')
    (hc : CharAt text i c) (hb : byte? text i = some b) : c ≠ d ↔ b ≠ b' := by
  rw [not_iff_not]
  constructor
  · rintro rfl
    exact Option.some.inj (hb.symm.trans (hd.1 hc))
  · rintro rfl
    exact hc.unique (hd.2 hb)

/-- An item is an escape, or a character that does not open one. -/
theorem itemEnd?_iff {escapes : Bool} (hb : byte? text i = some b) :
    itemEnd? text escapes b i = some j ↔ escapes = true ∧ Escape text i j ∨
      ∃ c, CharAt text i c ∧ (escapes = true → c ≠ '\\') ∧ i + c.utf8Size = j := by
  have hlt := lt_size_of_byte? hb
  unfold itemEnd?
  split
  · rename_i hescape
    obtain ⟨hescapes, hslash⟩ := Bool.and_eq_true_iff.1 hescape
    rw [beq_iff_eq.1 hslash] at hb
    rw [escape_iff hb]
    refine ⟨fun h => .inl ⟨hescapes, h⟩, ?_⟩
    rintro (⟨-, h⟩ | ⟨c, hc, hne, -⟩)
    · exact h
    · exact absurd (hc.unique (charAt_backslash.2 hb)) (hne hescapes)
  · rename_i hescape
    have hslash : escapes = true → b ≠ 0x5c := by
      rintro hescapes rfl
      exact hescape (Bool.and_eq_true_iff.2 ⟨hescapes, rfl⟩)
    rw [charEnd?_iff]
    constructor
    · rintro (⟨c, hc, hj⟩ | ⟨hend, -⟩)
      · exact .inr ⟨c, hc, fun h => (charAt_ne_iff charAt_backslash hc hb).2 (hslash h), hj⟩
      · omega
    · rintro (⟨hescapes, h⟩ | ⟨c, hc, -, hj⟩)
      · exact absurd (Option.some.inj (hb.symm.trans h.byte_eq)) (hslash hescapes)
      · exact .inl ⟨c, hc, hj⟩

/-! ## Bracket classes -/

theorem classStep_iff : (classReader text).Step i j ↔ ClassItem text i j := by
  constructor
  · rintro ⟨b, hb, hends, hitem⟩
    have hclose : b ≠ 0x5d := beq_eq_false_iff_ne.1 hends
    rcases (itemEnd?_iff hb).1 hitem with ⟨-, hescape⟩ | ⟨c, hc, hslash, rfl⟩
    · exact .escape hescape
    · exact .char hc (hslash rfl) ((charAt_ne_iff charAt_close hc hb).2 hclose)
  · intro h
    cases h with
    | escape hescape =>
      have hb := hescape.byte_eq
      exact ⟨_, hb, rfl, (itemEnd?_iff hb).2 (.inl ⟨rfl, hescape⟩)⟩
    | char hc hslash hclose =>
      obtain ⟨b, hb, -⟩ := hc.exists_byte
      refine ⟨b, hb, ?_, (itemEnd?_iff hb).2 (.inr ⟨_, hc, fun _ => hslash, rfl⟩)⟩
      exact beq_false_of_ne ((charAt_ne_iff charAt_close hc hb).1 hclose)

theorem classItems_iff : Relation.ReflTransGen (ClassItem text) i j ↔
    Relation.ReflTransGen (classReader text).Step i j := by
  have heq : ClassItem text = (classReader text).Step := by
    funext i j
    exact propext classStep_iff.symm
  rw [heq]

theorem hasByte_size (text : String) (b : UInt8) : hasByte text (size text) b = false := by
  rw [hasByte, byte?_eq_none.2 (Nat.le_refl _)]
  rfl

theorem bracketClass_iff (hb : byte? text i = some 0x5b) :
    bracketEnd? text i = some j ↔ BracketClass text i j := by
  have hopen := charAt_open.2 hb
  constructor
  · intro h
    obtain ⟨close, hclose, rfl⟩ := Option.map_eq_some_iff.1 h
    have hitems := classItems_iff.2 (Reader.path_stop? hclose)
    have hboundary := (classReader_sound text).stop?_boundary (.succ hb (by decide)) hclose
    rcases Reader.stop?_stops hclose with hend | ⟨b, hb', hends⟩
    · obtain rfl : close = size text :=
        Nat.le_antisymm hboundary.le_size (byte?_eq_none.1 hend)
      rw [hasByte_size, if_neg Bool.false_ne_true]
      exact .unclosed hopen hitems
    · rw [beq_iff_eq.1 hends] at hb'
      rw [if_pos (hasByte_iff.2 hb')]
      exact .closed hopen hitems (charAt_close.2 hb')
  · intro h
    unfold bracketEnd?
    cases h with
    | closed _ hitems hclose =>
      have hbyte := charAt_close.1 hclose
      rw [Reader.stop?_of_path (classItems_iff.1 hitems),
        Reader.stop?_of_end (.inr ⟨_, hbyte, rfl⟩), Option.map_some, if_pos (hasByte_iff.2 hbyte)]
    | unclosed _ hitems =>
      have hend := byte?_eq_none.2 (Nat.le_refl (size text))
      rw [Reader.stop?_of_path (classItems_iff.1 hitems), Reader.stop?_of_end (.inl hend),
        Option.map_some, hasByte_size, if_neg Bool.false_ne_true]

theorem BracketClass.byte_eq (h : BracketClass text i j) : byte? text i = some 0x5b := by
  cases h with
  | closed hopen _ _ => exact charAt_open.1 hopen
  | unclosed hopen _ => exact charAt_open.1 hopen

/-! ## One step -/

theorem stringStep_iff (style : QuoteStyle) (triple : Bool) :
    (stringReader text style triple).Step i j ↔
      ¬Terminates text (.quoted style triple) i ∧ Item text (.quoted style triple) i j := by
  have hescapes : ContentKind.hasEscapes (.quoted style triple) ↔ style.hasEscapes = true := by
    cases triple <;> exact Iff.rfl
  have hclasses : ¬ContentKind.hasClasses (.quoted style triple) := by
    cases triple <;> exact id
  constructor
  · rintro ⟨b, hb, hends, hitem⟩
    refine ⟨fun h => ?_, ?_⟩
    · exact Bool.false_ne_true (hends.symm.trans ((terminates_quoted hb).1 h))
    · rcases (itemEnd?_iff hb).1 hitem with ⟨hhas, hescape⟩ | ⟨c, hc, hslash, rfl⟩
      · exact .escape (hescapes.2 hhas) hescape
      · exact .char hc (fun h => hslash (hescapes.1 h)) fun h => absurd h hclasses
  · rintro ⟨hends, hitem⟩
    have step : ∀ {b}, byte? text i = some b → itemEnd? text style.hasEscapes b i = some j →
        (stringReader text style triple).Step i j := fun hb hitem =>
      ⟨_, hb, Bool.eq_false_iff.2 fun h => hends ((terminates_quoted hb).2 h), hitem⟩
    cases hitem with
    | escape hhas hescape =>
      have hb := hescape.byte_eq
      exact step hb ((itemEnd?_iff hb).2 (.inl ⟨hescapes.1 hhas, hescape⟩))
    | bracketClass hhas _ => exact absurd hhas hclasses
    | char hc hslash _ =>
      obtain ⟨b, hb, -⟩ := hc.exists_byte
      exact step hb ((itemEnd?_iff hb).2
        (.inr ⟨_, hc, fun h => hslash (hescapes.2 h), rfl⟩))

theorem regexStep_iff : (regexReader text).Step i j ↔
    ¬Terminates text .regex i ∧ Item text .regex i j := by
  constructor
  · rintro ⟨b, hb, hends, hitem⟩
    refine ⟨fun h => ?_, ?_⟩
    · exact Bool.false_ne_true (hends.symm.trans ((terminates_regex hb).1 h))
    · simp only [regexReader, regexItemEnd?] at hitem
      split at hitem
      · rename_i hopen
        rw [beq_iff_eq.1 hopen] at hb
        exact .bracketClass trivial ((bracketClass_iff hb).1 hitem)
      · rename_i hopen
        rcases (itemEnd?_iff hb).1 hitem with ⟨-, hescape⟩ | ⟨c, hc, hslash, rfl⟩
        · exact .escape trivial hescape
        · refine .char hc (fun _ => hslash rfl) fun _ => ?_
          exact (charAt_ne_iff charAt_open hc hb).2 fun h => hopen (beq_iff_eq.2 h)
  · rintro ⟨hends, hitem⟩
    have step : ∀ {b}, byte? text i = some b → regexItemEnd? text b i = some j →
        (regexReader text).Step i j := fun hb hitem =>
      ⟨_, hb, Bool.eq_false_iff.2 fun h => hends ((terminates_regex hb).2 h), hitem⟩
    cases hitem with
    | escape _ hescape =>
      have hb := hescape.byte_eq
      exact step hb ((itemEnd?_iff hb).2 (.inl ⟨rfl, hescape⟩))
    | bracketClass _ hclass =>
      have hb := hclass.byte_eq
      exact step hb ((bracketClass_iff hb).2 hclass)
    | char hc hslash hopen =>
      obtain ⟨b, hb, -⟩ := hc.exists_byte
      have hopen : b ≠ 0x5b := (charAt_ne_iff charAt_open hc hb).1 (hopen trivial)
      refine step hb ?_
      unfold regexItemEnd?
      rw [if_neg fun h => hopen (beq_iff_eq.1 h)]
      exact (itemEnd?_iff hb).2 (.inr ⟨_, hc, fun _ => hslash trivial, rfl⟩)

/-- A reader goes over the items that are no terminators. -/
theorem step_iff : (kind.reader text).Step i j ↔
    ¬Terminates text kind i ∧ Item text kind i j := by
  cases kind with
  | string style => exact stringStep_iff style false
  | multiline style => exact stringStep_iff style true
  | regex => exact regexStep_iff

/-! ## The longest run -/

theorem run_iff :
    Run text kind i j ↔ Relation.ReflTransGen (kind.reader text).Step i j := by
  have heq : (kind.reader text).Step =
      fun i j => ¬Terminates text kind i ∧ Item text kind i j := by
    funext i j
    exact propext step_iff
  rw [Run, heq]

theorem reader_sound (kind : ContentKind) (text : String) : (kind.reader text).Sound := by
  cases kind with
  | string style => exact stringReader_sound text style false
  | multiline style => exact stringReader_sound text style true
  | regex => exact regexReader_sound text

/-- No run is longer than the one that the reader goes over. -/
theorem isGreatest_stop? {stop : Nat} (h : (kind.reader text).stop? i = some stop) :
    IsGreatest {j | Run text kind i j} stop := by
  refine ⟨run_iff.2 (Reader.path_stop? h), fun j hj => ?_⟩
  rw [Reader.stop?_of_path (run_iff.1 hj)] at h
  exact Reader.le_stop? h

end Content

namespace Scanner

open Content Text

variable {text : String} {i : Nat}

/-- A scan for content alone reads no heredoc. -/
theorem scan?_scanKind (kind : ContentKind) (h : Heredoc) (hi : i ≤ size text) {stop : Nat}
    {found : Option Scanned} (hstop : (kind.reader text).stop? i = some stop)
    (hfound : content? text kind.scanKind kind.unclosed i stop = some found) :
    scan? text i [kind.scanKind] h = some (found, h) := by
  have hbody : (h.active && wantsBody [kind.scanKind]) = false := by
    have hwants : wantsBody [kind.scanKind] = false := by cases kind <;> rfl
    rw [hwants, Bool.and_false]
  have hkind : scanKind? text i h kind.scanKind = some (found, h) := by
    have hbind : ((kind.reader text).stop? i).bind
        (content? text kind.scanKind kind.unclosed i) = some found := by
      rw [hstop, Option.bind_some, hfound]
    cases kind <;> exact Option.map_eq_some_iff.2 ⟨found, hbind, rfl⟩
  have hkinds : scanKinds? text i h [kind.scanKind] = some (found, h) := by
    simp only [scanKinds?, hkind, Option.bind_eq_bind, Option.bind_some]
    cases found <;> rfl
  unfold scan?
  rw [if_neg (Nat.not_lt.2 hi), hbody, if_neg Bool.false_ne_true, hkinds]

/-- A scan for content gives the text of the longest run, with an error if the run ends the text,
and nothing if the run is empty.  It leaves the heredoc as it is. -/
theorem scan_content (kind : ContentKind) (h : Heredoc) (hi : Boundary text i) :
    ∃ stop, IsGreatest {j | Run text kind i j} stop ∧ Boundary text stop ∧
      (stop = i → scan text i [kind.scanKind] h = (none, h)) ∧
      (stop ≠ i → ∃ content, slice? text i stop = some content ∧
        scan text i [kind.scanKind] h = (some ⟨kind.scanKind, content, .upTo i stop,
          if stop = size text then some kind.unclosed else none⟩, h)) := by
  obtain ⟨stop, hread⟩ := (reader_sound kind text).exists_stop? hi
  have hle := Reader.le_stop? hread
  have hstop : Boundary text stop := (reader_sound kind text).stop?_boundary hi hread
  have hscan := scan?_scanKind kind h hi.le_size hread (content?_of_boundary hle hi hstop)
  refine ⟨stop, isGreatest_stop? hread, hstop, fun hempty => ?_, fun hne => ?_⟩
  · rw [scan, hscan, if_pos hempty]
    rfl
  · refine ⟨_, slice?_eq_some hle hi hstop, ?_⟩
    have hend : size text ≤ stop ↔ stop = size text :=
      ⟨fun hle => Nat.le_antisymm hstop.le_size hle, fun heq => Nat.le_of_eq heq.symm⟩
    rw [scan, hscan, if_neg hne]
    simp only [hend, Option.getD_some]

/-- A slash in a bracket class does not end a regex. -/
theorem scan_content_class :
    scan "a[/]é/b" 0 [.regex] .idle = (some ⟨.regex, "a[/]é", ⟨0, 6⟩, none⟩, .idle) ∧
      IsGreatest {j | Run "a[/]é/b" .regex 0 j} 6 := by
  have hscan : scan "a[/]é/b" 0 [.regex] .idle =
      (some ⟨.regex, "a[/]é", ⟨0, 6⟩, none⟩, .idle) := by decide +kernel
  obtain ⟨stop, hgreatest, -, hnone, hsome⟩ :=
    scan_content .regex .idle (boundary_zero "a[/]é/b")
  refine ⟨hscan, ?_⟩
  by_cases hempty : stop = 0
  · cases hscan.symm.trans (hnone hempty)
  · obtain ⟨content, -, hpiece⟩ := hsome hempty
    have hspan : (⟨0, 6⟩ : Span) = .upTo 0 stop := by
      have := congrArg (fun outcome => outcome.1.map (·.span)) (hscan.symm.trans hpiece)
      exact Option.some.inj this
    obtain rfl : stop = 6 := (congrArg Span.length hspan).symm
    exact hgreatest

end Scanner

end ShellAnalysis
