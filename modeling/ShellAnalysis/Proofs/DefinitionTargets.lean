import ShellAnalysis.Navigate.Definition
import ShellAnalysis.Proofs.IdentifierRuns
import ShellAnalysis.Proofs.SearchOrder

/-!
# What a definition request finds

A request looks for the literal key of `base.key` first, then for declarations
of the name that is sought, and if there are none and the name has a hyphen for
declarations of the part under the cursor.

The part is cut at the offset itself, which need not be a character boundary,
and out of the identifier, which in `base.key` is the key and not the base that
is sought.  So there are two things to know of that last step:

* A request fails if and only if it comes to the last step with an offset inside
  a character of the identifier (`gotoDefinition?_eq_none_iff`).
* Targets are keys of the base and declarations of the name that is sought, but
  for those of the last step: they are declarations of a part of the identifier
  (`gotoDefinition?_targets`), for `base.key` of a part of the key.
-/

namespace ShellAnalysis

open Text

/-! ## What lookups find -/

namespace WorkspaceIndex

variable {index : WorkspaceIndex} {start : FileId} {name key : String}

/-- The symbol is declared in a tracked file. -/
def Declares (index : WorkspaceIndex) (file : FileId) (symbol : SymbolInfo) : Prop :=
  ∃ table, index.symbols? file = some table ∧ symbol ∈ table.symbols

theorem mem_matchesIn {file : FileId} {found : SymbolMatch} (h : found ∈ index.matchesIn name file) :
    index.Declares found.file found.symbol ∧ found.symbol.name = name := by
  unfold matchesIn at h
  split at h
  · rename_i table htable
    obtain ⟨symbol, hsymbol, rfl⟩ := List.mem_map.1 h
    obtain ⟨hmem, hname⟩ := List.mem_filter.1 hsymbol
    exact ⟨⟨table, htable, hmem⟩, beq_iff_eq.1 hname⟩
  · cases h

/-- Lookups give declarations of the name. -/
theorem mem_lookup {found : SymbolMatch} (h : found ∈ index.lookup start name) :
    index.Declares found.file found.symbol ∧ found.symbol.name = name := by
  rw [lookup_eq] at h
  split at h
  · obtain ⟨file, -, hfound⟩ := List.mem_flatMap.1 h
    exact mem_matchesIn hfound
  · exact mem_matchesIn h

/-- Lookups of a key give declarations of the name that have the key. -/
theorem mem_lookupKey {found : KeyMatch} (h : found ∈ index.lookupKey (some start) name key) :
    index.Declares found.file found.symbol ∧ found.symbol.name = name ∧
      found.symbol.key? key = some found.key := by
  obtain ⟨file, -, hfound⟩ := List.mem_filterMap.1 h
  obtain ⟨table, htable, hfound⟩ := Option.bind_eq_some_iff.1 hfound
  obtain ⟨⟨symbol, info⟩, hinfo, hfound⟩ := Option.bind_eq_some_iff.1 hfound
  cases hfound
  obtain ⟨symbol', hsymbol, hkey⟩ := List.exists_of_findSome?_eq_some hinfo
  obtain ⟨info', hinfo', heq⟩ := Option.map_eq_some_iff.1 hkey
  cases heq
  obtain ⟨hmem, hname⟩ := List.mem_filter.1 hsymbol
  exact ⟨⟨table, htable, hmem⟩, beq_iff_eq.1 hname, hinfo'⟩

theorem lookup_eq_nil (h : ∀ file symbol, index.Declares file symbol → symbol.name ≠ name) :
    index.lookup start name = [] := by
  refine List.eq_nil_iff_forall_not_mem.2 fun found hfound => ?_
  obtain ⟨hdeclares, hname⟩ := mem_lookup hfound
  exact h _ _ hdeclares hname

theorem lookupKey_eq_nil (h : ∀ file symbol, index.Declares file symbol → symbol.name ≠ name) :
    index.lookupKey (some start) name key = [] := by
  refine List.eq_nil_iff_forall_not_mem.2 fun found hfound => ?_
  obtain ⟨hdeclares, hname, -⟩ := mem_lookupKey hfound
  exact h _ _ hdeclares hname

end WorkspaceIndex

namespace NavigationTarget

/-- The target is a declaration of the name. -/
def IsDeclaration (index : WorkspaceIndex) (name : String) (target : NavigationTarget) : Prop :=
  ∃ found : SymbolMatch, index.Declares found.file found.symbol ∧ found.symbol.name = name ∧
    target = ofSymbol found

/-- The target is the literal key of a declaration of the name. -/
def IsKey (index : WorkspaceIndex) (name key : String) (target : NavigationTarget) : Prop :=
  ∃ found : KeyMatch, index.Declares found.file found.symbol ∧ found.symbol.name = name ∧
    found.symbol.key? key = some found.key ∧ target = ofKey key found

end NavigationTarget

namespace Definition

variable {index : WorkspaceIndex} {file : FileId} {text name part : String} {span : Span}
  {ident : IdentifierAt} {offset start i j k : Nat}

/-! ## Parts of a name -/

/-- What stands between two hyphens, or a hyphen and an end, is one of the parts. -/
theorem mem_splitOn {before piece after : List Char} (hpiece : '-' ∉ piece)
    (hbefore : before = [] ∨ before.getLast? = some '-')
    (hafter : after = [] ∨ after.head? = some '-') :
    piece ∈ (before ++ piece ++ after).splitOn '-' := by
  have htail : piece ∈ (piece ++ after).splitOn '-' := by
    rcases hafter with rfl | hafter
    · rw [List.append_nil, List.splitOn_eq_singleton hpiece]
      exact List.mem_singleton_self piece
    · obtain ⟨rest, rfl⟩ := List.head?_eq_some_iff.1 hafter
      rw [List.splitOn_append_cons_self_of_not_mem hpiece]
      exact List.mem_cons_self
  rcases hbefore with rfl | hbefore
  · exact htail
  · obtain ⟨rest, rfl⟩ := List.getLast?_eq_some_iff.1 hbefore
    rw [List.append_assoc, List.append_assoc, List.singleton_append,
      List.splitOn_append_cons_self]
    exact List.mem_append_right _ htail

/-- From one offset to another there is no hyphen, but one at each end or an end of the span. -/
structure Between (text : String) (span : Span) (i j : Nat) : Prop where
  start_le : span.start ≤ i
  le : i ≤ j
  le_stop : j ≤ span.stop
  free : ∀ k, i ≤ k → k < j → byte? text k ≠ some 0x2d
  starts : i = span.start ∨ span.start < i ∧ byte? text (i - 1) = some 0x2d
  stops : j = span.stop ∨ byte? text j = some 0x2d

theorem Between.boundaries (h : Between text span i j) (hcut : Cut text span) :
    Boundary text i ∧ Boundary text j := by
  constructor
  · rcases h.starts with rfl | ⟨hlt, hbyte⟩
    · exact hcut.1
    · have hnext := Boundary.succ hbyte (by decide)
      rwa [Nat.sub_add_cancel (by omega)] at hnext
  · rcases h.stops with rfl | hbyte
    · exact hcut.2
    · exact .of_byte hbyte (by decide)

/-- What stands there is one of the parts of what stands under the span. -/
theorem Between.mem_splitOn (h : Between text span i j) (hcut : Cut text span) :
    (slice text i j).toList ∈ (slice text span.start span.stop).toList.splitOn '-' := by
  obtain ⟨hi, hj⟩ := h.boundaries hcut
  have hwhole : (slice text span.start span.stop).toList =
      (slice text span.start i).toList ++ (slice text i j).toList ++
        (slice text j span.stop).toList := by
    rw [← slice_append h.start_le (Nat.le_trans h.le h.le_stop) hcut.1 hi hcut.2,
      ← slice_append h.le h.le_stop hi hj hcut.2, String.toList_append, String.toList_append,
      List.append_assoc]
  rw [hwhole]
  apply Definition.mem_splitOn
  · intro hmem
    obtain ⟨before, after, hsplit⟩ := List.append_of_mem hmem
    have hpiece : slice text i j = .ofList before ++ (.singleton '-' ++ .ofList after) := by
      rw [← String.toList_inj, hsplit]
      simp
    obtain ⟨hle, hk, -, hrest⟩ := slice_eq_append h.le hi hj hpiece
    obtain ⟨hhyphen, hnext, -⟩ := charAt_of_slice hle hk hj hrest
    rw [utf8Size_hyphen] at hnext
    exact h.free _ (Nat.le_add_right _ _) (by omega) (charAt_hyphen.1 hhyphen)
  · rcases h.starts with rfl | ⟨hlt, hbyte⟩
    · left
      rw [slice_self]
      rfl
    · right
      have hlast := getLast?_slice hcut.1 (charAt_hyphen.2 hbyte) (by omega)
      rwa [utf8Size_hyphen, Nat.sub_add_cancel (by omega)] at hlast
  · rcases Nat.eq_or_lt_of_le h.le_stop with rfl | hlt
    · left
      rw [slice_self]
      rfl
    · right
      rcases h.stops with rfl | hbyte
      · exact absurd hlt (Nat.lt_irrefl _)
      · exact head?_slice (charAt_hyphen.2 hbyte) hcut.2 hlt

/-! ## The part under the cursor -/

theorem partStart_spec (text : String) (h : start ≤ i) :
    start ≤ partStart text start i ∧ partStart text start i ≤ i ∧
      (∀ k, partStart text start i ≤ k → k < i → byte? text k ≠ some 0x2d) ∧
      (partStart text start i = start ∨
        start < partStart text start i ∧ byte? text (partStart text start i - 1) = some 0x2d) := by
  induction i with
  | zero =>
    obtain rfl : start = 0 := by omega
    exact ⟨Nat.le_refl _, Nat.le_refl _, fun k _ hk => absurd hk (Nat.not_lt_zero k), .inl rfl⟩
  | succ i ih =>
    unfold partStart
    split
    · exact ⟨Nat.le_refl _, h, fun k hk hlt => by omega, .inl rfl⟩
    · rename_i hlt
      split
      · rename_i hbyte
        exact ⟨h, Nat.le_refl _, fun k hk hlt => by omega, .inr ⟨by omega, hasByte_iff.1 hbyte⟩⟩
      · rename_i hbyte
        obtain ⟨hle, hle', hfree, hstarts⟩ := ih (by omega)
        refine ⟨hle, Nat.le_succ_of_le hle', fun k hk hlt => ?_, hstarts⟩
        rcases Nat.lt_succ_iff_lt_or_eq.1 hlt with hlt | rfl
        · exact hfree k hk hlt
        · exact fun hhyphen => hbyte (hasByte_iff.2 hhyphen)

/-- The offset, moved into the span. -/
def clamp (span : Span) (offset : Nat) : Nat := max span.start (min offset span.stop)

/-- The part is cut out between hyphens around the offset. -/
theorem between_part (hspan : span.stop ≤ size text) (offset : Nat) :
    Between text span (partStart text span.start (clamp span offset))
      (min (Text.find text 0x2d (clamp span offset)) span.stop) := by
  have hordered := span.start_le_stop
  have hclamp : span.start ≤ clamp span offset ∧ clamp span offset ≤ span.stop := by
    unfold clamp
    omega
  generalize clamp span offset = i at *
  obtain ⟨hstart, hle, hfree, hstarts⟩ := partStart_spec text hclamp.1
  have hfind := Heredoc.le_runEnd text (· != 0x2d) i
  unfold Text.find
  refine ⟨hstart, by omega, Nat.min_le_right _ _, fun k hk hlt => ?_, hstarts, ?_⟩
  · rcases Nat.lt_or_ge k i with hki | hik
    · exact hfree k hk hki
    · have hrun : k < runEnd text (· != 0x2d) i := by omega
      obtain ⟨b, hb, hne⟩ := runEnd_bytes hik hrun
      rw [hb]
      rintro ⟨⟩
      cases hne
  · rcases runEnd_stops text (· != 0x2d) i with hnone | ⟨b, hb, heq⟩
    · left
      have := byte?_eq_none.1 hnone
      omega
    · rcases Nat.le_total (runEnd text (· != 0x2d) i) span.stop with hle | hle
      · right
        rw [Nat.min_eq_left hle, hb]
        simpa using heq
      · exact .inl (Nat.min_eq_right hle)

/-- No part is cut out at an offset inside a character of the span. -/
theorem partAt?_eq_none_iff (hcut : Cut text span) :
    partAt? text span offset = none ↔
      span.start < offset ∧ offset < span.stop ∧ ¬Boundary text offset := by
  have hordered := span.start_le_stop
  have hnone : partAt? text span offset = none ↔ ¬Boundary text (clamp span offset) := by
    unfold partAt? clamp Boundary
    simp only
    split <;> simp_all
  rw [hnone]
  by_cases hin : span.start < offset ∧ offset < span.stop
  · have hclamp : clamp span offset = offset := by
      unfold clamp
      omega
    rw [hclamp]
    exact ⟨fun h => ⟨hin.1, hin.2, h⟩, fun h => h.2.2⟩
  · have hend : clamp span offset = span.start ∨ clamp span offset = span.stop := by
      unfold clamp
      omega
    constructor
    · intro hclamp
      rcases hend with heq | heq
      · exact absurd hcut.1 (heq ▸ hclamp)
      · exact absurd hcut.2 (heq ▸ hclamp)
    · exact fun h => absurd ⟨h.1, h.2.1⟩ hin

/-- What is cut out is one of the parts of the name. -/
theorem partAt?_mem (hcut : Cut text span) (h : partAt? text span offset = some (some part)) :
    part.toList ∈ (slice text span.start span.stop).toList.splitOn '-' := by
  have hpart : part = slice text (partStart text span.start (clamp span offset))
      (min (Text.find text 0x2d (clamp span offset)) span.stop) := by
    unfold partAt? at h
    simp only at h
    split at h
    · have h := Option.some.inj h
      split at h
      · cases h
      · exact (Option.some.inj h).symm
    · cases h
  rw [hpart]
  exact (between_part hcut.stop_le offset).mem_splitOn hcut

/-! ## Requests -/

/-- The name that is sought for an identifier: in `base.key` the base. -/
def sought (ident : IdentifierAt) : String := ident.base.getD ident.name

/-- The literal keys that an identifier may stand for. -/
def keysOf (index : WorkspaceIndex) (file : FileId) (ident : IdentifierAt) : List KeyMatch :=
  match ident.base with
  | none => []
  | some base => index.lookupKey (some file) base ident.name

theorem gotoDefinition?_eq (h : identifierAt text offset = some ident) :
    gotoDefinition? index file text offset =
      if keysOf index file ident = [] then
        (lookup? index file text ident (sought ident) offset).map (·.map .ofSymbol)
      else some ((keysOf index file ident).map (.ofKey ident.name)) := by
  unfold gotoDefinition? keysOf sought
  rw [h]
  cases hbase : ident.base <;> simp [hbase, List.isEmpty_iff]

theorem lookup?_eq (index : WorkspaceIndex) (file : FileId) (text : String) (ident : IdentifierAt)
    (name : String) (offset : Nat) :
    lookup? index file text ident name offset =
      if index.lookup file name = [] ∧ '-' ∈ name.toList then
        (partAt? text ident.span offset).map (·.elim [] (index.lookup file))
      else some (index.lookup file name) := by
  unfold lookup?
  simp only [Bool.and_eq_true, List.isEmpty_iff, List.contains_iff_mem]
  split
  · congr 1
    funext part
    cases part <;> rfl
  · rfl

theorem cut_ident (h : identifierAt text offset = some ident) : Cut text ident.span :=
  (Identifier.exists_maximalRun h).1.cut

/-- A request fails if and only if the name that is sought has a hyphen and is not declared, there
is no key, and the offset is inside a character of the identifier. -/
theorem gotoDefinition?_eq_none_iff :
    gotoDefinition? index file text offset = none ↔
      ∃ ident, identifierAt text offset = some ident ∧ keysOf index file ident = [] ∧
        index.lookup file (sought ident) = [] ∧ '-' ∈ (sought ident).toList ∧
        ident.span.start < offset ∧ offset < ident.span.stop ∧ ¬Boundary text offset := by
  cases hident : identifierAt text offset with
  | none =>
    have hsome : gotoDefinition? index file text offset = some [] := by
      unfold gotoDefinition?
      rw [hident]
    simp [hsome]
  | some ident =>
    rw [gotoDefinition?_eq hident]
    simp only [Option.some.injEq, exists_eq_left']
    by_cases hkeys : keysOf index file ident = []
    · rw [if_pos hkeys, Option.map_eq_none_iff, lookup?_eq,
        ← partAt?_eq_none_iff (cut_ident hident)]
      by_cases hpart : index.lookup file (sought ident) = [] ∧ '-' ∈ (sought ident).toList
      · rw [if_pos hpart, Option.map_eq_none_iff]
        tauto
      · rw [if_neg hpart]
        tauto
    · simp [hkeys]

/-- The offset is in the middle of `é`. -/
theorem gotoDefinition?_inside_character : gotoDefinition? .empty 0 "é-b" 1 = none := by
  have hident : identifierAt "é-b" 1 = some ⟨"é-b", ⟨0, 4⟩, none⟩ := by decide +kernel
  have hunknown : WorkspaceIndex.empty.lookup 0 "é-b" = [] :=
    WorkspaceIndex.lookup_eq_nil fun _ _ ⟨_, htable, _⟩ => nomatch htable
  exact gotoDefinition?_eq_none_iff.2
    ⟨_, hident, rfl, hunknown, by decide, by decide, by decide, by decide +kernel⟩

/-- The targets of a request are keys of the base and declarations of the name that is sought,
unless that name has a hyphen and is not declared.  Then they are declarations of one part of the
identifier. -/
theorem gotoDefinition?_targets {targets : List NavigationTarget}
    (hident : identifierAt text offset = some ident)
    (h : gotoDefinition? index file text offset = some targets) :
    (∀ target ∈ targets, target.IsDeclaration index (sought ident) ∨
      ∃ base, ident.base = some base ∧ target.IsKey index base ident.name) ∨
    index.lookup file (sought ident) = [] ∧ '-' ∈ (sought ident).toList ∧
      ∃ part, part.toList ∈ ident.name.toList.splitOn '-' ∧
        ∀ target ∈ targets, target.IsDeclaration index part := by
  have hdeclared : ∀ name, ∀ target ∈ (index.lookup file name).map NavigationTarget.ofSymbol,
      target.IsDeclaration index name := by
    intro name target htarget
    obtain ⟨found, hfound, rfl⟩ := List.mem_map.1 htarget
    obtain ⟨hdeclares, hname⟩ := WorkspaceIndex.mem_lookup hfound
    exact ⟨found, hdeclares, hname, rfl⟩
  rw [gotoDefinition?_eq hident] at h
  split at h
  · rw [lookup?_eq] at h
    split at h
    · rename_i hunknown
      obtain ⟨found, hfound, rfl⟩ := Option.map_eq_some_iff.1 h
      obtain ⟨part?, hpart, rfl⟩ := Option.map_eq_some_iff.1 hfound
      cases part? with
      | none => exact .inl fun target htarget => nomatch htarget
      | some part =>
        have hcut := cut_ident hident
        have hname : slice text ident.span.start ident.span.stop = ident.name :=
          Option.some.inj (hcut.slice?.symm.trans (Identifier.slice?_name hident))
        have hmem := partAt?_mem hcut hpart
        rw [hname] at hmem
        exact .inr ⟨hunknown.1, hunknown.2, part, hmem, hdeclared part⟩
    · cases h
      exact .inl fun target htarget => .inl (hdeclared (sought ident) target htarget)
  · cases h
    left
    intro target htarget
    obtain ⟨found, hfound, rfl⟩ := List.mem_map.1 htarget
    unfold keysOf at hfound
    split at hfound
    · cases hfound
    · rename_i base hbase
      obtain ⟨hdeclares, hname, hkey⟩ := WorkspaceIndex.mem_lookupKey hfound
      exact .inr ⟨base, hbase, found, hdeclares, hname, hkey, rfl⟩

/-- One file, which declares the variable `k` and nothing else. -/
def smallIndex : WorkspaceIndex :=
  let symbol : SymbolInfo :=
    { name := "k", kind := .var, span := ⟨0, 3⟩, nameSpan := ⟨0, 1⟩, lines := default,
      nameLines := default, params := none, detail := none, keys := none }
  .insert .empty 0 ⟨[symbol], [], .ofText "k=1"⟩ []

theorem smallIndex_declares {symbol : SymbolInfo} (h : smallIndex.Declares file symbol) :
    symbol.name = "k" := by
  obtain ⟨table, htable, hsymbol⟩ := h
  unfold smallIndex at htable
  rw [WorkspaceIndex.symbols?_insert] at htable
  split at htable
  · cases htable
    rw [List.mem_singleton.1 hsymbol]
  · cases htable

/-- The base `a-b` is not declared, and the key leads to a declaration that has only its name. -/
theorem gotoDefinition?_part_of_key :
    identifierAt "a-b.k" 4 = some ⟨"k", ⟨4, 1⟩, some "a-b"⟩ ∧
      (gotoDefinition? smallIndex 0 "a-b.k" 4).map (·.map (·.name)) = some ["k"] := by
  have hident : identifierAt "a-b.k" 4 = some ⟨"k", ⟨4, 1⟩, some "a-b"⟩ := by decide +kernel
  have hbase : ∀ file symbol, smallIndex.Declares file symbol → symbol.name ≠ "a-b" := by
    intro file symbol hdeclares
    rw [smallIndex_declares hdeclares]
    decide
  have hkeys : keysOf smallIndex 0 ⟨"k", ⟨4, 1⟩, some "a-b"⟩ = [] :=
    WorkspaceIndex.lookupKey_eq_nil hbase
  have hpart : partAt? "a-b.k" ⟨4, 1⟩ 4 = some (some "k") := by decide +kernel
  refine ⟨hident, ?_⟩
  rw [gotoDefinition?_eq hident, if_pos hkeys, lookup?_eq,
    if_pos ⟨WorkspaceIndex.lookup_eq_nil hbase, by decide⟩, hpart]
  rfl

end Definition

end ShellAnalysis
