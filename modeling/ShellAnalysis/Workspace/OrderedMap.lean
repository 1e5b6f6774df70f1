/-!
# Maps in order of insertion

A map keeps its keys in the order in which they first came in.  A new value for
a key stays at the key's place; removing a key keeps the order of the others.
-/

namespace ShellAnalysis

structure OrderedMap (κ ν : Type) where
  entries : List (κ × ν)

namespace OrderedMap

variable {κ ν : Type} [DecidableEq κ]

def empty : OrderedMap κ ν := ⟨[]⟩

def keys (m : OrderedMap κ ν) : List κ := m.entries.map (·.1)

def size (m : OrderedMap κ ν) : Nat := m.entries.length

def get? (m : OrderedMap κ ν) (key : κ) : Option ν :=
  (m.entries.find? (·.1 = key)).map (·.2)

def contains (m : OrderedMap κ ν) (key : κ) : Bool := (m.get? key).isSome

theorem mem_keys_of_get? {m : OrderedMap κ ν} {key : κ} {value : ν}
    (h : m.get? key = some value) : key ∈ m.keys := by
  obtain ⟨entry, found, rfl⟩ := Option.map_eq_some_iff.1 h
  have := List.find?_some found
  exact List.mem_map.2 ⟨entry, List.mem_of_find?_eq_some found, by simpa using this⟩

/-- The entries with a new value for the key: at its place if it is there, else at the end. -/
def put (key : κ) (value : ν) : List (κ × ν) → List (κ × ν)
  | [] => [(key, value)]
  | (k, v) :: rest => if k = key then (k, value) :: rest else (k, v) :: put key value rest

def insert (m : OrderedMap κ ν) (key : κ) (value : ν) : OrderedMap κ ν :=
  ⟨put key value m.entries⟩

def erase (m : OrderedMap κ ν) (key : κ) : OrderedMap κ ν :=
  ⟨m.entries.filter (·.1 ≠ key)⟩

/-- The map without the keys that fail the test. -/
def filterKeys (m : OrderedMap κ ν) (keep : κ → Bool) : OrderedMap κ ν :=
  ⟨m.entries.filter (keep ·.1)⟩

/-! ## Keys and values after each operation -/

variable {m : OrderedMap κ ν} {key other : κ} {value : ν} {keep : κ → Bool}

theorem get?_eq_none : m.get? key = none ↔ key ∉ m.keys := by
  simp only [get?, keys, Option.map_eq_none_iff, List.find?_eq_none, decide_eq_true_eq,
    List.mem_map, not_exists, not_and]

theorem contains_iff : m.contains key = true ↔ key ∈ m.keys := by
  rw [contains, Option.isSome_iff_ne_none, ne_eq, get?_eq_none, Decidable.not_not]

theorem get?_insert :
    (m.insert key value).get? other = if other = key then some value else m.get? other := by
  obtain ⟨entries⟩ := m
  simp only [get?, insert]
  induction entries with
  | nil => by_cases h : key = other <;> simp [put, h, eq_comm]
  | cons entry rest ih =>
    obtain ⟨k, v⟩ := entry
    by_cases hk : k = key
    · by_cases h : other = key
      · simp [put, hk, h]
      · have h' : key ≠ other := fun e => h e.symm
        simp [put, hk, h, h']
    · by_cases h : k = other
      · subst h
        simp [put, hk]
      · simp [put, hk, h, ih]

theorem keys_insert :
    (m.insert key value).keys = if key ∈ m.keys then m.keys else m.keys ++ [key] := by
  obtain ⟨entries⟩ := m
  simp only [keys, insert]
  induction entries with
  | nil => simp [put]
  | cons entry rest ih =>
    obtain ⟨k, v⟩ := entry
    by_cases hk : k = key
    · simp [put, hk]
    · have hk' : key ≠ k := fun e => hk e.symm
      by_cases hmem : key ∈ rest.map (·.1)
      · simp only [put, if_neg hk, List.map_cons, ih, List.mem_cons, hmem, or_true, if_true]
      · simp only [put, if_neg hk, List.map_cons, ih, List.mem_cons, hk', hmem, or_false, if_false,
          List.cons_append]

omit [DecidableEq κ] in
@[simp] theorem keys_filterKeys : (m.filterKeys keep).keys = m.keys.filter keep := by
  simp only [keys, filterKeys, List.filter_map]
  rfl

theorem get?_filterKeys :
    (m.filterKeys keep).get? key = if keep key then m.get? key else none := by
  obtain ⟨entries⟩ := m
  simp only [get?, filterKeys, List.find?_filter]
  split
  · rename_i h
    congr 2
    funext entry
    by_cases hk : entry.1 = key <;> simp [hk, h]
  · rename_i h
    rw [Option.map_eq_none_iff, List.find?_eq_none]
    intro entry _ hboth
    simp only [decide_eq_true_eq] at hboth
    exact h (hboth.2 ▸ hboth.1)

/-- Erasing keys one after the other filters once. -/
theorem foldl_erase (dropped : List κ) :
    dropped.foldl erase m = m.filterKeys (!dropped.contains ·) := by
  induction dropped generalizing m with
  | nil =>
    have h : m.entries.filter (fun entry => !([] : List κ).contains entry.1) = m.entries :=
      List.filter_eq_self.2 fun _ _ => rfl
    rw [filterKeys, h]
    rfl
  | cons key rest ih =>
    simp only [List.foldl_cons, ih, filterKeys, erase, List.filter_filter, mk.injEq]
    congr 1
    funext entry
    by_cases h : entry.1 = key <;> simp [h]

end OrderedMap

end ShellAnalysis
