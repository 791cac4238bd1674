import Sonar.Parser.JsonToolStream

/-!
# The extent of a JSON object

`take_json_object` is called with one delta after another and passes on what it has seen of the
object. It counts braces and brackets outside strings, each kind on its own: the object ends where
its braces are balanced for the first time, the brackets have to be balanced there too, and none may
close before one opens. These are conditions on the text alone, so the deltas do not matter.
-/

namespace Sonar.Parser

open Lib List

/-- How many more `o` than `c` a text has outside strings. -/
def level (o c : Char) : (inString escape : Bool) → List Char → ℤ
  | _, _, [] => 0
  | true, true, _ :: cs => level o c true false cs
  | true, false, a :: cs =>
    if a = '\\' then level o c true true cs else level o c (a ≠ '"') false cs
  | false, e, a :: cs =>
    if a = '"' then level o c true e cs
    else (if a = o then 1 else if a = c then -1 else 0) + level o c false e cs

namespace JsonObjectScanState

variable (s : JsonObjectScanState) (text : List Char)

/-- How many braces and how many brackets are open after some text. -/
def counts : ℤ × ℤ := (s.objectDepth + level '\x7b' '\x7d' s.inString s.escape text,
  s.arrayDepth + level '[' ']' s.inString s.escape text)

/-- A brace is open, and no bracket was closed that was not open. -/
def goesOn : Bool := 0 < (s.counts text).1 ∧ 0 ≤ (s.counts text).2

/-- What a text has of the object, and whether the object ends with it. The object is up to the
first character after which it does not go on, and there all is closed. -/
def object : Option (List Char × Bool) :=
  match (range text.length).find? fun n => !s.goesOn (text.take (n + 1)) with
  | none => some (text, false)
  | some n => if s.counts (text.take (n + 1)) = (0, 0) then some (text.take (n + 1), true) else none

/-- Successive deltas: the fragments passed on, and whether the object ended. -/
def feed (s : JsonObjectScanState) : List (List Char) → Option (List (List Char) × Bool)
  | [] => some ([], false)
  | delta :: deltas =>
    match takeJsonObject s delta with
    | .ok s n =>
      if s.complete then some ([delta.take n], true)
      else (s.feed deltas).map (Prod.map (delta.take n :: ·) id)
    | .incomplete => s.feed deltas
    | _ => none

/-- The fragments put together. -/
def joined (deltas : List (List Char)) : Option (List Char × Bool) :=
  (s.feed deltas).map (Prod.map flatten id)

/-- One character, and then the rest. -/
def next (a : Char) (rest : JsonObjectScanState → Option (List Char × Bool)) :
    Option (List Char × Bool) :=
  match takeJsonObject s [a] with
  | .ok s' _ => if s'.complete then some ([a], true) else (rest s').map (Prod.map (a :: ·) id)
  | _ => none

/-- The scan is in the middle of the object. -/
@[mk_iff]
structure Scanning : Prop where
  phase : s.phase = .scanning
  pos : 0 < s.objectDepth

variable {s text} {s' : JsonObjectScanState} {a : Char}

private theorem object_cons (h : s.goesOn [a] = true → ∀ text, s.counts (a :: text) = s'.counts text) :
    s.object (a :: text) = if s.goesOn [a] then (s'.object text).map (Prod.map (a :: ·) id)
      else if s.counts [a] = (0, 0) then some ([a], true) else none := by
  rw [object, length_cons, range_succ_eq_map]
  split_ifs with hgoes hclosed
  · have hrest : (fun n => !s.goesOn ((a :: text).take (n + 1))) ∘ Nat.succ =
        fun n => !s'.goesOn (text.take (n + 1)) := by
      funext n
      simp [goesOn, h hgoes]
    rw [find?_cons_of_neg (by simp [hgoes]), find?_map, hrest, object]
    cases (range text.length).find? fun n => !s'.goesOn (text.take (n + 1)) with
    | none => rfl
    | some n =>
      simp only [Option.map_some, take_succ_cons, h hgoes]
      split_ifs <;> rfl
  all_goals
    rw [find?_cons_of_pos (by simp [hgoes])]
    simp [hclosed]

/-- One character in the middle of the object: the state counts it, and the object goes on, ends or
breaks. -/
private theorem Scanning.scanChar (h : s.Scanning) : match s.scanChar a with
    | none => s.goesOn [a] = false ∧ s.counts [a] ≠ (0, 0)
    | some s' => (∀ text, s.counts (a :: text) = s'.counts text) ∧
        if s'.complete then s'.counts [] = (0, 0) else s'.Scanning := by
  simp only [JsonObjectScanState.scanChar, complete, counts, goesOn]
  split_ifs <;> simp_all [level, scanning_iff] <;> grind

/-- One character of the scan. -/
theorem Scanning.take (h : s.Scanning) : takeJsonObject s [a] = match s.scanChar a with
    | none => .cut
    | some s' => .ok s' 1 := by
  rw [takeJsonObject, h.phase]
  dsimp only
  rw [scanChars]
  cases s.scanChar a with
  | none => rfl
  | some s' =>
    dsimp only
    split_ifs <;> rfl

/-- The object in a text, by its first character. -/
private theorem Scanning.object_cons (h : s.Scanning) :
    s.object (a :: text) = s.next a fun s' => s'.object text := by
  have hchar := h.scanChar (a := a)
  rw [next, h.take]
  cases hstep : s.scanChar a with
  | none =>
    rw [hstep] at hchar
    rw [JsonObjectScanState.object_cons (by simp [hchar.1]), hchar.1, if_neg hchar.2]
    · rfl
    · exact s
  | some s' =>
    rw [hstep] at hchar
    obtain ⟨hcounts, hscan⟩ := hchar
    rw [JsonObjectScanState.object_cons fun _ => hcounts, goesOn, hcounts]
    by_cases hcomplete : s'.complete = true
    · simp [hcomplete, show s'.counts [] = (0, 0) by simpa [hcomplete] using hscan]
    · rw [if_neg hcomplete] at hscan
      simp [hcomplete, counts, level, hscan.pos]

private theorem joined_cons {delta : List Char} {deltas : List (List Char)} (hs : s.complete = false) :
    s.joined ((a :: delta) :: deltas) = s.next a fun s' => s'.joined (delta :: deltas) := by
  rw [joined, feed, next]
  rcases takeJsonObject_cons hs a delta with ⟨hcut, hall⟩ | ⟨s', hok, hphase, hall⟩
  · rw [hcut, hall]
    rfl
  · rw [hok, hall]
    dsimp only
    split_ifs with hcomplete
    · simp [hcomplete]
    · rw [joined, feed, takeJsonObject.eq_def, hphase (Bool.eq_false_iff.mpr hcomplete)]
      cases delta with
      | nil => cases h : s'.feed deltas <;> simp [scanChars, Outcome.after, hcomplete, h, Prod.map]
      | cons b delta =>
        dsimp only
        rcases scanChars_cases s' (b :: delta) with h | ⟨t, n, h⟩
        · rw [h]
          rfl
        · rw [h, Outcome.after, add_comm]
          dsimp only
          split_ifs
          · rfl
          · cases t.feed deltas <;> rfl

/-- In the middle of an object. -/
private theorem Scanning.joined_eq (h : s.Scanning) (deltas : List (List Char)) :
    s.joined deltas = s.object deltas.flatten := by
  induction deltas generalizing s with
  | nil => rfl
  | cons delta deltas ih =>
    induction delta generalizing s with
    | nil => exact ih h
    | cons a delta ihdelta =>
      have hchar := h.scanChar (a := a)
      rw [joined_cons (by simp [complete, h.phase]), flatten_cons, cons_append, h.object_cons, next,
        next, h.take]
      cases hstep : s.scanChar a with
      | none => rfl
      | some s' =>
        rw [hstep] at hchar
        obtain ⟨-, hscan⟩ := hchar
        dsimp only
        split_ifs at hscan ⊢
        · rfl
        · rw [ihdelta hscan, flatten_cons]

/-- However a text that begins with a brace is split, what is passed on is what it has of the
object: more is asked for while the object goes on, and the scan fails where it breaks. -/
theorem joined_eq_object {deltas : List (List Char)} (h : deltas.flatten = '\x7b' :: text) :
    joined {} deltas = object {} ('\x7b' :: text) := by
  induction deltas with
  | nil => cases h
  | cons delta deltas ih =>
    cases delta with
    | nil => exact ih h
    | cons a delta =>
      obtain ⟨rfl, rfl⟩ := cons.inj h
      let s' : JsonObjectScanState := { phase := .scanning, objectDepth := 1 }
      have hscan : s'.Scanning := ⟨rfl, one_pos⟩
      have hcounts : ∀ text, counts {} ('\x7b' :: text) = s'.counts text := by
        simp [counts, level, s']
      rw [joined_cons rfl, object_cons fun _ => hcounts]
      exact congrArg (Option.map _) (hscan.joined_eq _)

end JsonObjectScanState

open JsonObjectScanState

/-- A bracket that was not open: no part of the text is balanced, and the scan does not ask for
more. -/
theorem feed_unopened_bracket : feed {} [['\x7b', ']']] = none ∧
    counts {} ['\x7b'] = (1, 0) ∧ counts {} ['\x7b', ']'] = (1, -1) := by
  decide

/-- A brace in a string does not end the object, also across a split. -/
theorem joined_eq_object_split : joined {} [['\x7b', '"'], ['\x7d', '"', '\x7d', 'a']] =
    object {} ['\x7b', '"', '\x7d', '"', '\x7d', 'a'] :=
  joined_eq_object rfl

end Sonar.Parser
