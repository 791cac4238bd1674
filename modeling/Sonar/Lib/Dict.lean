import Mathlib.Algebra.BigOperators.Group.List.Basic
import Mathlib.Data.List.Nodup
import Mathlib.Data.List.Perm.Basic
import Mathlib.Data.Multiset.Bind
import Mathlib.Tactic.Common

/-!
# Dictionaries

A dictionary holds distinct keys in the order in which they were first set, each with a value.
Setting a key that is there replaces its value in place.

What a dictionary holds is given by `Dict.get?`, and each operation has lemmas for it. Quantities
that add up over all entries are `Dict.total`; setting or erasing one key changes a total by the
contribution of that key (`Dict.total_set`, `Dict.total_erase`).
-/

namespace Sonar.Lib

open List

/-- Accounts that balance one after the other balance together. -/
theorem balance_trans {M : Type*} [AddCommMonoid M] {a a' x x' x'' o o' : M} (h : a + x = x' + o)
    (h' : a' + x' = x'' + o') : a + a' + x = x'' + (o + o') := by
  rw [add_comm a, add_assoc, h, ← add_assoc, h', add_assoc, add_comm o']

/-- Distinct keys with their values. -/
structure Dict (κ α : Type*) where
  entries : List (κ × α)
  nodup : (entries.map Prod.fst).Nodup

namespace Dict

variable {κ α β M : Type*}

@[ext] theorem ext {d d' : Dict κ α} (h : d.entries = d'.entries) : d = d' := by
  cases d
  cases d'
  cases h
  rfl

instance : EmptyCollection (Dict κ α) := ⟨⟨[], nodup_nil⟩⟩

instance : Inhabited (Dict κ α) := ⟨∅⟩

instance [DecidableEq κ] [DecidableEq α] : DecidableEq (Dict κ α) := fun d d' =>
  decidable_of_iff (d.entries = d'.entries) ⟨ext, congrArg entries⟩

/-- The keys in the order they were first set. -/
def keys (d : Dict κ α) : List κ := d.entries.map Prod.fst

/-- The values in the order of their keys. -/
def values (d : Dict κ α) : List α := d.entries.map Prod.snd

/-- The dictionary with other values. -/
def map (f : α → β) (d : Dict κ α) : Dict κ β :=
  ⟨d.entries.map (Prod.map id f), by
    rw [map_map]
    exact d.nodup⟩

variable [DecidableEq κ]

/-- The value of a key. -/
def get? (d : Dict κ α) (k : κ) : Option α := (d.entries.find? fun e => e.1 = k).map Prod.snd

/-- The dictionary without a key. -/
def erase (d : Dict κ α) (k : κ) : Dict κ α :=
  ⟨d.entries.filter fun e => e.1 ≠ k, d.nodup.sublist (filter_sublist.map _)⟩

/-- The entries that satisfy a predicate. -/
def filter (p : κ → α → Bool) (d : Dict κ α) : Dict κ α :=
  ⟨d.entries.filter fun e => p e.1 e.2, d.nodup.sublist (filter_sublist.map _)⟩

/-- The entries after a key is set. -/
def setEntries (l : List (κ × α)) (k : κ) (v : α) : List (κ × α) :=
  if k ∈ l.map Prod.fst then l.map fun e => if e.1 = k then (k, v) else e else l ++ [(k, v)]

private theorem keys_setEntries (l : List (κ × α)) (k : κ) (v : α) : (setEntries l k v).map Prod.fst =
      if k ∈ l.map Prod.fst then l.map Prod.fst else l.map Prod.fst ++ [k] := by
  rw [setEntries]
  split_ifs with hk
  · rw [map_map]
    refine map_congr_left fun e _ => ?_
    by_cases he : e.1 = k
    · simp [he]
    · simp [he]
  · rw [map_append]
    rfl

/-- The dictionary with a key set to a value. -/
def set (d : Dict κ α) (k : κ) (v : α) : Dict κ α :=
  ⟨setEntries d.entries k v, by
    rw [keys_setEntries]
    split_ifs with hk
    · exact d.nodup
    · exact d.nodup.append (nodup_singleton k) (by simpa using hk)⟩

variable {d : Dict κ α} {k k' : κ} {v : α}

/-! ### What a dictionary holds -/

/-- The entries are the keys with their values. -/
theorem mem_entries : (k, v) ∈ d.entries ↔ d.get? k = some v := by
  rw [get?, Option.map_eq_some_iff]
  constructor
  · intro h
    cases hfind : d.entries.find? fun e => e.1 = k with
    | none =>
      have hno := find?_eq_none.mp hfind (k, v) h
      simp at hno
    | some e =>
      -- keys are distinct, so the entry found is the one given
      have hkey : e.1 = k := by simpa using find?_some hfind
      have heq : e = (k, v) := inj_on_of_nodup_map d.nodup (mem_of_find?_eq_some hfind) h hkey
      exact ⟨(k, v), by rw [heq], rfl⟩
  · rintro ⟨e, hfind, rfl⟩
    have hkey : e.1 = k := by simpa using find?_some hfind
    have hmem := mem_of_find?_eq_some hfind
    rwa [← hkey]

/-- The keys that have a value. -/
theorem mem_keys : k ∈ d.keys ↔ ∃ v, d.get? k = some v := by
  rw [keys, mem_map]
  constructor
  · rintro ⟨⟨k', v⟩, he, rfl⟩
    exact ⟨v, mem_entries.mp he⟩
  · rintro ⟨v, hv⟩
    exact ⟨(k, v), mem_entries.mpr hv, rfl⟩

/-- A key without a value. -/
theorem get?_eq_none : d.get? k = none ↔ k ∉ d.keys := by
  rw [mem_keys, ← Option.ne_none_iff_exists', not_not]

/-- The values that some key has. -/
theorem mem_values : v ∈ d.values ↔ ∃ k, d.get? k = some v := by
  rw [values, mem_map]
  constructor
  · rintro ⟨⟨k, v⟩, he, rfl⟩
    exact ⟨k, mem_entries.mp he⟩
  · rintro ⟨k, hk⟩
    exact ⟨(k, v), mem_entries.mpr hk, rfl⟩

@[simp] theorem get?_empty (k : κ) : (∅ : Dict κ α).get? k = none := rfl

private theorem get?_congr {d' : Dict κ α}
    (h : ∀ v, (k, v) ∈ d.entries ↔ (k, v) ∈ d'.entries) : d.get? k = d'.get? k := by
  refine Option.ext fun v => ?_
  rw [← mem_entries, ← mem_entries]
  exact h v

@[simp] theorem get?_erase_self : (d.erase k).get? k = none := by
  rw [get?_eq_none, keys, erase, mem_map]
  rintro ⟨e, he, rfl⟩
  simp at he

/-- Another key keeps its value. -/
theorem get?_erase_of_ne (h : k' ≠ k) : (d.erase k).get? k' = d.get? k' :=
  get?_congr fun v => by simp [erase, h]

private theorem mem_setEntries {l : List (κ × α)} {e : κ × α} :
    e ∈ setEntries l k v ↔ e = (k, v) ∨ e ∈ l ∧ e.1 ≠ k := by
  rw [setEntries]
  split_ifs with hk
  · rw [mem_map]
    constructor
    · rintro ⟨a, ha, rfl⟩
      split_ifs with hak
      · exact .inl rfl
      · exact .inr ⟨ha, hak⟩
    · rintro (rfl | ⟨he, hne⟩)
      · obtain ⟨a, ha, hak⟩ := mem_map.mp hk
        exact ⟨a, ha, if_pos hak⟩
      · exact ⟨e, he, if_neg hne⟩
  · rw [mem_append, mem_singleton]
    constructor
    · rintro (he | rfl)
      · exact .inr ⟨he, fun hek => hk (mem_map.mpr ⟨e, he, hek⟩)⟩
      · exact .inl rfl
    · rintro (rfl | ⟨he, -⟩)
      · exact .inr rfl
      · exact .inl he

@[simp] theorem get?_set_self (d : Dict κ α) (k : κ) (v : α) : (d.set k v).get? k = some v :=
  mem_entries.mp (mem_setEntries.mpr (.inl rfl))

/-- Another key keeps its value. -/
theorem get?_set_of_ne (h : k' ≠ k) : (d.set k v).get? k' = d.get? k' :=
  get?_congr fun w => by simp [set, mem_setEntries, h]

/-- The values after a key is set. -/
theorem get?_set (d : Dict κ α) (k : κ) (v : α) (k' : κ) :
    (d.set k v).get? k' = if k' = k then some v else d.get? k' := by
  split_ifs with h
  · rw [h, get?_set_self]
  · exact get?_set_of_ne h

/-- The values after a key is erased. -/
theorem get?_erase (d : Dict κ α) (k k' : κ) :
    (d.erase k).get? k' = if k' = k then none else d.get? k' := by
  split_ifs with h
  · rw [h, get?_erase_self]
  · exact get?_erase_of_ne h

/-- What is left after a key is erased. -/
theorem get?_erase_eq_some : (d.erase k).get? k' = some v ↔ k' ≠ k ∧ d.get? k' = some v := by
  rw [get?_erase]
  split_ifs with h <;> simp [h]

/-- Setting a key takes no value away. -/
theorem get?_set_ne_none (h : d.get? k' ≠ none) : (d.set k v).get? k' ≠ none := by
  rw [get?_set]
  split_ifs
  · exact Option.some_ne_none v
  · exact h

/-- A key becomes the last one. -/
def moveToEnd (d : Dict κ α) (k : κ) : Dict κ α :=
  match d.get? k with
  | some v => (d.erase k).set k v
  | none => d

@[simp] theorem get?_moveToEnd : (d.moveToEnd k).get? k' = d.get? k' := by
  rw [moveToEnd]
  cases hk : d.get? k with
  | none => rfl
  | some v =>
    rw [get?_set, get?_erase]
    split_ifs with h
    · rw [h, hk]
    · rfl

/-- Only the last value set counts. -/
theorem set_set {w : α} : (d.set k v).set k w = d.set k w := by
  have hmem : k ∈ (setEntries d.entries k v).map Prod.fst := by
    rw [keys_setEntries]
    split_ifs with hk
    · exact hk
    · exact mem_append_right _ (mem_singleton_self k)
  refine ext ?_
  simp only [set]
  rw [setEntries, if_pos hmem, setEntries, setEntries]
  split_ifs with hk
  · rw [map_map]
    refine map_congr_left fun e _ => ?_
    by_cases he : e.1 = k
    · simp [he]
    · simp [he]
  · have hold : d.entries.map (fun e => if e.1 = k then (k, w) else e) = d.entries := by
      refine (map_congr_left fun e he => if_neg fun hek => hk ?_).trans (map_id _)
      exact mem_map.mpr ⟨e, he, hek⟩
    rw [map_append, hold]
    simp

/-- Setting what is there changes nothing. -/
theorem set_of_get? (h : d.get? k = some v) : d.set k v = d := by
  refine ext ?_
  have hk : k ∈ d.entries.map Prod.fst := mem_keys.mpr ⟨v, h⟩
  simp only [set, setEntries]
  rw [if_pos hk]
  refine (map_congr_left fun e he => ?_).trans (map_id _)
  split_ifs with hek
  · obtain ⟨k', v'⟩ := e
    obtain rfl : k' = k := hek
    rw [mem_entries, h] at he
    rw [Option.some.inj he, id]
  · rfl

/-- The values that satisfy the predicate. -/
theorem get?_filter_eq_some {p : κ → α → Bool} :
    (d.filter p).get? k = some v ↔ d.get? k = some v ∧ p k v = true := by
  rw [← mem_entries, ← mem_entries, filter, mem_filter]

/-- The empty dictionary has no values. -/
theorem eq_empty_iff : d = ∅ ↔ ∀ k, d.get? k = none := by
  constructor
  · rintro rfl k
    rfl
  · intro h
    refine ext (eq_nil_iff_forall_not_mem.mpr ?_)
    rintro ⟨k, v⟩ he
    rw [mem_entries, h k] at he
    cases he

/-- Erasing a key that is not there changes nothing. -/
theorem erase_of_get?_none (h : d.get? k = none) : d.erase k = d := by
  refine ext (filter_eq_self.mpr fun e he => ?_)
  rw [get?_eq_none] at h
  have hne : e.1 ≠ k := fun hek => h (mem_map.mpr ⟨e, he, hek⟩)
  simpa using hne

/-! ### Other values -/

section Map

variable (f : α → β)

/-- The values are mapped. -/
theorem get?_map (d : Dict κ α) (k : κ) : (d.map f).get? k = (d.get? k).map f := by
  rw [get?, map, find?_map, get?, Option.map_map, Option.map_map]
  rfl

private theorem map_erase (d : Dict κ α) (k : κ) : (d.erase k).map f = (d.map f).erase k := by
  refine ext ?_
  simp only [map, erase, filter_map]
  rfl

/-- A key set before or after a map. -/
theorem map_set (d : Dict κ α) (k : κ) (v : α) : (d.set k v).map f = (d.map f).set k (f v) := by
  refine ext ?_
  have hkeys : (d.entries.map (Prod.map id f)).map Prod.fst = d.entries.map Prod.fst := by
    rw [map_map]
    rfl
  simp only [map, set, setEntries, hkeys]
  split_ifs
  · rw [map_map, map_map]
    refine map_congr_left fun e _ => ?_
    simp only [Function.comp, Prod.map, id]
    split_ifs <;> rfl
  · rw [map_append]
    rfl

/-- The order does not depend on the values. -/
theorem map_moveToEnd (d : Dict κ α) (k : κ) : (d.moveToEnd k).map f = (d.map f).moveToEnd k := by
  rw [moveToEnd, moveToEnd, get?_map]
  cases d.get? k with
  | none => rfl
  | some v =>
    dsimp only [Option.map_some]
    rw [map_set, map_erase]

end Map

/-! ### Totals -/

section Total

variable [AddCommMonoid M] (f : κ → α → M)

/-- The sum of what the entries contribute. -/
def total (d : Dict κ α) : M := (d.entries.map fun e => f e.1 e.2).sum

/-- What one key contributes. -/
def part (d : Dict κ α) (k : κ) : M :=
  match d.get? k with
  | some v => f k v
  | none => 0

omit [DecidableEq κ] in
@[simp] theorem total_empty : total f (∅ : Dict κ α) = 0 := rfl

/-- The part of a key that is there. -/
theorem part_of_get? (h : d.get? k = some v) : d.part f k = f k v := by rw [part, h]

/-- The part of a key that is not there. -/
theorem part_of_none (h : d.get? k = none) : d.part f k = 0 := by rw [part, h]

/-- A default that contributes nothing stands for a key that is not set. -/
theorem part_eq_getD (h : f k v = 0) : d.part f k = f k ((d.get? k).getD v) := by
  rw [part]
  cases d.get? k with
  | none => exact h.symm
  | some w => rfl

private theorem entries_perm (h : d.get? k = some v) : d.entries.Perm ((k, v) :: (d.erase k).entries) := by
  refine (perm_ext_iff_of_nodup d.nodup.of_map ?_).mpr fun e => ?_
  · refine nodup_cons.mpr ⟨?_, (d.erase k).nodup.of_map⟩
    simp [erase]
  · obtain ⟨k', v'⟩ := e
    by_cases hk : k' = k
    · subst hk
      rw [mem_entries, h]
      simp [erase, eq_comm]
    · simp [erase, hk]

/-- One entry less. -/
theorem length_erase (h : d.get? k = some v) : d.entries.length = (d.erase k).entries.length + 1 :=
  (entries_perm h).length_eq

/-- One entry more at most. -/
theorem length_set_le (d : Dict κ α) (k : κ) (v : α) :
    (d.set k v).entries.length ≤ d.entries.length + 1 := by
  simp only [set, setEntries]
  split_ifs
  · rw [length_map]
    exact Nat.le_succ _
  · rw [length_append]
    exact le_rfl

/-- The keys, with one of them first. -/
theorem keys_perm (h : d.get? k = some v) : d.keys.Perm (k :: (d.erase k).keys) :=
  (entries_perm h).map _

/-- A new key comes last. -/
theorem keys_set_new (h : d.get? k = none) : (d.set k v).keys = d.keys ++ [k] := by
  rw [get?_eq_none, keys] at h
  rw [keys, set, keys_setEntries, if_neg h, keys]

/-- A total is what one key contributes and the total of the rest. -/
theorem total_erase (d : Dict κ α) (k : κ) : d.total f = d.part f k + (d.erase k).total f := by
  cases h : d.get? k with
  | none => rw [part_of_none f h, erase_of_get?_none h, zero_add]
  | some v =>
    rw [part_of_get? f h, total, ((entries_perm h).map fun e => f e.1 e.2).sum_eq]
    rfl

/-- A key that is set and erased. -/
theorem erase_set (d : Dict κ α) (k : κ) (v : α) : (d.set k v).erase k = d.erase k := by
  refine ext ?_
  simp only [erase, set, setEntries]
  split_ifs with hk
  · rw [filter_map]
    have hcomp : (fun e : κ × α => decide (e.1 ≠ k)) ∘ (fun e => if e.1 = k then (k, v) else e) =
        fun e => decide (e.1 ≠ k) := by
      funext e
      by_cases he : e.1 = k
      · simp [he]
      · simp [he]
    rw [hcomp]
    refine (map_congr_left fun e he => ?_).trans (map_id _)
    have hne : e.1 ≠ k := by simpa using (mem_filter.mp he).2
    simp [hne]
  · simp

/-- Setting a key exchanges what it contributes. -/
theorem total_set (d : Dict κ α) (k : κ) (v : α) :
    (d.set k v).total f = f k v + (d.erase k).total f := by
  rw [total_erase f _ k, part_of_get? f (get?_set_self d k v), erase_set]

/-- Adding to what a key contributes adds to the total. -/
theorem total_set_add {x : M} (h : f k v = d.part f k + x) :
    (d.set k v).total f = d.total f + x := by
  rw [total_set, h, total_erase f d k, add_right_comm]

end Total

omit [DecidableEq κ] in
/-- A total of lists is the list of everything they hold. -/
theorem total_coe (f : κ → α → List β) : d.total (fun k v => (f k v : Multiset β)) =
      ((d.entries.flatMap fun e => f e.1 e.2 : List β) : Multiset β) := by
  rw [← Multiset.coe_bind, Multiset.bind, Multiset.join, Multiset.map_coe, Multiset.sum_coe, total]

omit [DecidableEq κ] in
/-- A total over the values alone. -/
theorem total_values {f : α → List β} :
    d.total (fun _ v => (f v : Multiset β)) = ((d.values.flatMap f : List β) : Multiset β) := by
  rw [total_coe fun _ v => f v, values, flatMap_map]

end Dict

end Sonar.Lib
