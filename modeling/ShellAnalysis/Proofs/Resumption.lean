import ShellAnalysis.Proofs.Encoding
import ShellAnalysis.Scanner.Basic

/-!
# Taking a scan up again

Between two calls a scanner holds nothing but the heredoc that it is in.  That
state can be stored as bytes and read back by another scanner.  The stored form
cuts a delimiter off at `maxDelimiter` bytes and keeps its length in two bytes,
so a state comes back as it was if its delimiter is within the limit:

    h.Storable → ofBytes (toBytes h) = h                     (ofBytes_toBytes)

A scan never leaves a longer delimiter (`scan_storable`).  So a scanner may be
replaced anywhere in a sequence of calls by one that reads the stored state:
all results and all states stay the same (`replay_handOver`).
-/

namespace ShellAnalysis

open Text (size)

/-! ## The stored form of one state -/

namespace Heredoc

variable {h : Heredoc}

/-- The delimiter is within the limit, so nothing of it is cut off. -/
def Storable (h : Heredoc) : Prop := size h.delimiter ≤ maxDelimiter

theorem storable_idle : idle.Storable := Nat.zero_le _

theorem flag_ne_zero (b : Bool) : (flag b != 0) = b := by
  cases b <;> rfl

/-- A length within the limit is read back from its two bytes. -/
theorem length_of_bytes {n : Nat} (hn : n ≤ maxDelimiter) :
    min ((n / 256).toUInt8.toNat * 256 + (n % 256).toUInt8.toNat) maxDelimiter = n := by
  have hmax : n ≤ 256 := hn
  have hhigh : (n / 256).toUInt8.toNat = n / 256 := Utf8.toNat_ofNat (by omega)
  have hlow : (n % 256).toUInt8.toNat = n % 256 := Utf8.toNat_ofNat (by omega)
  rw [hhigh, hlow, Nat.div_add_mod', Nat.min_eq_left hn]

theorem ofBytes_toBytes (hs : h.Storable) : ofBytes h.toBytes = h := by
  have hlength : (Utf8.encode h.delimiter).length ≤ maxDelimiter := by
    rw [Utf8.length_encode]
    exact hs
  unfold toBytes
  simp only
  rw [List.take_of_length_le hlength]
  simp only [List.cons_append, List.nil_append, ofBytes]
  rw [length_of_bytes hlength, List.take_length, Utf8.decodeLossy_encode, flag_ne_zero,
    flag_ne_zero, flag_ne_zero]

end Heredoc

namespace Scanner

variable {text : String} {i : Nat} {h : Heredoc}

/-! ## What a scan leaves -/

theorem heredocStart?_storable {r : Option Scanned × Heredoc} (hs : h.Storable)
    (hr : heredocStart? text i h = some r) : r.2.Storable := by
  obtain ⟨found, -, hr⟩ := Option.bind_eq_some_iff.1 hr
  cases found with
  | none =>
    cases hr
    exact hs
  | some o =>
    obtain ⟨span, -, hr⟩ := Option.bind_eq_some_iff.1 hr
    split at hr
    · cases hr
      exact hs
    · rename_i hwithin
      cases hr
      exact Nat.le_of_not_lt hwithin

/-- Reading a body changes no more than whether the heredoc is active. -/
theorem nextPiece_storable (body : Heredoc.Body) (hs : h.Storable) :
    (nextPiece h body).2.Storable := by
  unfold nextPiece
  split
  · split
    · exact hs
    · exact hs
  · dsimp only
    split
    · exact hs
    · exact hs

theorem scanKind?_storable (kind : ScanKind) {r : Option Scanned × Heredoc} (hs : h.Storable)
    (hr : scanKind? text i h kind = some r) : r.2.Storable := by
  cases kind with
  | heredocStart => exact heredocStart?_storable hs hr
  | heredocBody | heredocEnd =>
    cases hr
    exact hs
  | string | multiline | regex =>
    obtain ⟨found, -, rfl⟩ := Option.map_eq_some_iff.1 hr
    exact hs

theorem scanKinds?_storable (kinds : List ScanKind) {r : Option Scanned × Heredoc} (hs : h.Storable)
    (hr : scanKinds? text i h kinds = some r) : r.2.Storable := by
  induction kinds generalizing h with
  | nil =>
    cases hr
    exact hs
  | cons kind kinds ih =>
    obtain ⟨⟨found, h'⟩, hkind, hr⟩ := Option.bind_eq_some_iff.1 hr
    have hs' : h'.Storable := scanKind?_storable kind hs hkind
    cases found with
    | none => exact ih hs' hr
    | some piece =>
      cases hr
      exact hs'

theorem scan_storable (accepted : List ScanKind) (hs : h.Storable) :
    (scan text i accepted h).2.Storable := by
  unfold scan
  cases hr : scan? text i accepted h with
  | none => exact hs
  | some r =>
    unfold scan? at hr
    split at hr
    · cases hr
      exact hs
    · split at hr
      · obtain ⟨body, -, rfl⟩ := Option.map_eq_some_iff.1 hr
        exact nextPiece_storable body hs
      · exact scanKinds?_storable accepted hs hr

/-! ## Sequences of calls -/

/-- A call of a scanner, with the text that it looks at. -/
inductive Call where
  | scan (text : String) (offset : Nat) (accepted : List ScanKind)
  | reset

/-- The result of a call, and the state after it. -/
def Call.perform (h : Heredoc) : Call → Option Scanned × Heredoc
  | .scan text offset accepted => Scanner.scan text offset accepted h
  | .reset => (none, .idle)

/-- A step in the life of a scan: a call, or a new scanner that reads what the old one stored. -/
inductive Step where
  | call (call : Call)
  | handOver

def Step.isCall : Step → Bool
  | .call _ => true
  | .handOver => false

/-- The results of the calls in order, each with the state after it. -/
def replay (h : Heredoc) : List Step → List (Option Scanned × Heredoc)
  | [] => []
  | .call call :: steps => call.perform h :: replay (call.perform h).2 steps
  | .handOver :: steps => replay (.ofBytes h.toBytes) steps

theorem Call.perform_storable (call : Call) (hs : h.Storable) : (call.perform h).2.Storable := by
  cases call with
  | scan text offset accepted => exact scan_storable accepted hs
  | reset => exact Heredoc.storable_idle

theorem replay_filter (steps : List Step) (hs : h.Storable) :
    replay h steps = replay h (steps.filter Step.isCall) := by
  induction steps generalizing h with
  | nil => rfl
  | cons step steps ih =>
    cases step with
    | call call =>
      rw [List.filter_cons_of_pos rfl, replay, replay, ih (call.perform_storable hs)]
    | handOver =>
      rw [List.filter_cons_of_neg Bool.false_ne_true, replay, Heredoc.ofBytes_toBytes hs, ih hs]

theorem replay_storable (steps : List Step) (hs : h.Storable) :
    ∀ outcome ∈ replay h steps, outcome.2.Storable := by
  induction steps generalizing h with
  | nil => exact fun _ hmem => absurd hmem List.not_mem_nil
  | cons step steps ih =>
    cases step with
    | call call =>
      have hnext := call.perform_storable hs
      intro outcome hmem
      rcases List.mem_cons.1 hmem with rfl | hmem
      · exact hnext
      · exact ih hnext outcome hmem
    | handOver =>
      rw [replay, Heredoc.ofBytes_toBytes hs]
      exact ih hs

/-- Handing a scan over to new scanners changes no result and no state, and every state on the
way is read back from its stored form exactly. -/
theorem replay_handOver (steps : List Step) :
    replay .idle steps = replay .idle (steps.filter Step.isCall) ∧
      ∀ state ∈ Heredoc.idle :: (replay .idle steps).map (·.2),
        Heredoc.ofBytes state.toBytes = state := by
  have hidle : Heredoc.idle.Storable := Heredoc.storable_idle
  refine ⟨replay_filter steps hidle, fun state hstate => Heredoc.ofBytes_toBytes ?_⟩
  rcases List.mem_cons.1 hstate with rfl | hstate
  · exact hidle
  · obtain ⟨outcome, hmem, rfl⟩ := List.mem_map.1 hstate
    exact replay_storable steps hidle outcome hmem

end Scanner

end ShellAnalysis
