import Mathlib.Algebra.Order.Group.Multiset

/-!
# Logs of additions and removals

A component that publishes what it stores writes a **log**: items were added, items were removed,
or everything was cleared. A reader replays the log over a multiset. The replay fails on a removal
of something that is not there, so that a log which replays at all never removes an absent item.
-/

namespace Sonar.Lib

variable {α : Type*} [DecidableEq α]

/-- One entry of a log. -/
inductive LogEvent (α : Type*) where
  | added (xs : List α)
  | removed (xs : List α)
  | cleared

/-- What a reader holds after one entry. -/
def LogEvent.apply (m : Multiset α) : LogEvent α → Option (Multiset α)
  | .added xs => some (m + ↑xs)
  | .removed xs => if (↑xs : Multiset α) ≤ m then some (m - ↑xs) else none
  | .cleared => some 0

/-- What a reader that holds `m` holds after the whole log. -/
def replay (m : Multiset α) : List (LogEvent α) → Option (Multiset α)
  | [] => some m
  | event :: events => (event.apply m).bind fun m' => replay m' events

variable {m m' : Multiset α} {events : List (LogEvent α)}

/-- A log that is continued is replayed from where it was left. -/
theorem replay_append (h : replay m events = some m') (more : List (LogEvent α)) :
    replay m (events ++ more) = replay m' more := by
  induction events generalizing m with
  | nil =>
    obtain rfl := Option.some.inj h
    rfl
  | cons event events ih =>
    obtain ⟨m1, hevent, hrest⟩ := Option.bind_eq_some_iff.mp h
    rw [List.cons_append, replay, hevent]
    exact ih hrest

/-- Items that are there can be removed one entry at a time. -/
theorem replay_removed {xs : List α} :
    replay (m + (xs : Multiset α)) (xs.map fun x => LogEvent.removed [x]) = some m := by
  induction xs with
  | nil => simp [replay]
  | cons x xs ih =>
    have hone : LogEvent.apply (m + ((x :: xs) : Multiset α)) (.removed [x]) =
        some (m + xs) := by
      rw [LogEvent.apply, Multiset.coe_singleton, ← Multiset.cons_coe, Multiset.add_cons,
        if_pos (Multiset.singleton_le.mpr (Multiset.mem_cons_self x _)), Multiset.sub_singleton,
        Multiset.erase_cons_head]
    rw [List.map_cons, replay, hone]
    exact ih

/-- A log of removals, one at a time, replays from whatever holds the items. -/
theorem replay_removed_of_eq {xs : List α} (h : m = m' + ↑xs) :
    replay m (xs.map fun x => LogEvent.removed [x]) = some m' :=
  h ▸ replay_removed

end Sonar.Lib
