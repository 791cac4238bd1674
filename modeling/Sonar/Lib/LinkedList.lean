import Mathlib.Data.Int.Basic
import Mathlib.Data.List.Basic
import Mathlib.Data.List.Nodup
import Mathlib.Logic.Function.Basic
import Mathlib.Tactic.Common
import Mathlib.Tactic.Ring

/-!
# Intrusive doubly linked lists with sentinels

The elements of a type carry a previous and a next pointer each, and two sentinel nodes stand
before the first and after the last element. `LinkedList` is the pointer structure itself: two
maps from nodes to optional nodes, and a counter kept beside them. Operations follow and rewrite
pointers; `none` is the exception raised when a pointer that should be there is missing.

`Represents q l` says that `q` is the linked form of the list `l`: following `next` from the head
sentinel meets exactly the elements of `l` and ends at the tail sentinel, `prev` retraces the way,
elements outside `l` point nowhere, and the counter is the length. Every operation is shown to
succeed on a represented list and to represent the expected one.

The proofs go through **paths**: `Path q u l v` says that the elements `l` link `u` to `v`. A path
survives any rewriting outside its nodes (`Path.link`), paths compose at a common node
(`path_append`), and the last link of a path can be redirected (`Path.retarget`).
-/

namespace Sonar.Lib

open List
open Function (update update_of_ne)

/-- A node of a linked list: a sentinel or an element. -/
inductive Node (β : Type*) where
  | head
  | tail
  | elem (b : β)
deriving DecidableEq

/-- The pointers of all nodes, and the number of elements as the list keeps count of it. -/
structure LinkedList (β : Type*) where
  prev : Node β → Option (Node β)
  next : Node β → Option (Node β)
  size : ℤ

namespace LinkedList

variable {β : Type*}

/-! ### Paths -/

/-- `u` and `v` are neighbours, in both directions. -/
def Link (q : LinkedList β) (u v : Node β) : Prop := q.next u = some v ∧ q.prev v = some u

/-- The elements `l` link `u` to `v`. -/
def Path (q : LinkedList β) : Node β → List β → Node β → Prop
  | u, [], v => q.Link u v
  | u, b :: l, v => q.Link u (.elem b) ∧ Path q (.elem b) l v

/-- The first node after the source of a path. -/
def firstNode : List β → Node β → Node β
  | [], v => v
  | b :: _, _ => .elem b

/-- The last node before the target of a path. -/
def lastNode : Node β → List β → Node β
  | u, [] => u
  | _, b :: l => lastNode (.elem b) l

@[simp, grind =] theorem firstNode_nil (v : Node β) : firstNode [] v = v := rfl
@[simp, grind =] theorem firstNode_cons (b : β) (l : List β) (v : Node β) :
    firstNode (b :: l) v = .elem b := rfl

variable {q : LinkedList β} {u v x y : Node β} {l l1 l2 : List β} {b : β}

/-- Paths compose at a common element. -/
theorem path_append : q.Path u (l1 ++ b :: l2) v ↔ q.Path u l1 (.elem b) ∧ q.Path (.elem b) l2 v := by
  induction l1 generalizing u with
  | nil => rfl
  | cons a l1 ih =>
    rw [cons_append, Path, Path, ih, and_assoc]

private theorem Path.next_eq (h : q.Path u l v) : q.next u = some (firstNode l v) := by
  cases l with
  | nil => exact h.1
  | cons b l => exact h.1.1

private theorem Path.prev_eq (h : q.Path u l v) : q.prev v = some (lastNode u l) := by
  induction l generalizing u with
  | nil => exact h.2
  | cons b l ih => exact ih h.2

/-- The `next` pointers determine the elements on the way to the tail. -/
theorem Path.unique {l' : List β} (h : q.Path u l .tail) (h' : q.Path u l' .tail) : l = l' := by
  have hfirst : firstNode l .tail = firstNode l' .tail :=
    Option.some.inj (h.next_eq.symm.trans h'.next_eq)
  induction l generalizing u l' with
  | nil =>
    rcases l' with _ | ⟨b', l'⟩
    · rfl
    · cases hfirst
  | cons b l ih =>
    rcases l' with _ | ⟨b', l'⟩
    · cases hfirst
    · obtain rfl : b = b' := by simpa using hfirst
      exact congrArg _ (ih h.2 h'.2 (Option.some.inj (h.2.next_eq.symm.trans h'.2.next_eq)))

/-- `l` runs from its first element to `v`; the source of the path need not point at it. -/
def Tail (q : LinkedList β) : List β → Node β → Prop
  | [], _ => True
  | b :: l, v => q.Path (.elem b) l v

private theorem Path.tail (h : q.Path u l v) : q.Tail l v := by
  cases l with
  | nil => trivial
  | cons b l => exact h.2

private theorem lastNode_mem (u : Node β) (l : List β) : lastNode u l ∈ u :: l.map .elem := by
  induction l generalizing u with
  | nil => exact mem_singleton.mpr rfl
  | cons b l ih => exact .tail _ (ih _)

private theorem lastNode_concat (u : Node β) (l : List β) (b : β) : lastNode u (l ++ [b]) = .elem b := by
  induction l generalizing u with
  | nil => rfl
  | cons a l ih => exact ih _

private theorem firstNode_mem (l : List β) (v : Node β) : firstNode l v ∈ l.map .elem ++ [v] := by
  cases l <;> simp

/-- The nodes of a list without repeats, sentinels included, are distinct. -/
theorem nodes_nodup (hl : l.Nodup) : (Node.head :: l.map Node.elem ++ [Node.tail]).Nodup := by
  have hmap : (l.map Node.elem).Nodup := hl.map fun a b h => by injection h
  simp [nodup_append, hmap]

/-- Set the counter. -/
def setSize (n : ℤ) (q : LinkedList β) : LinkedList β := { q with size := n }

private theorem path_setSize {n : ℤ} : (q.setSize n).Path u l v ↔ q.Path u l v := by
  induction l generalizing u with
  | nil => rfl
  | cons b l ih => exact and_congr_right fun _ => ih

variable [DecidableEq β]

/-! ### Operations -/

/-- Make `v` the successor of `u`. -/
def link (u v : Node β) (q : LinkedList β) : LinkedList β :=
  { q with next := update q.next u (some v), prev := update q.prev v (some u) }

/-- Detach a node: both its pointers are reset. -/
def clear (u : Node β) (q : LinkedList β) : LinkedList β :=
  { q with next := update q.next u none, prev := update q.prev u none }

/-- Link a sequence of nodes one after the other, starting from `u`. -/
def linkAll : Node β → List (Node β) → LinkedList β → LinkedList β
  | _, [], q => q
  | u, v :: rest, q => linkAll v rest (link u v q)

/-- No links at all. -/
def unlinked : LinkedList β := ⟨fun _ => none, fun _ => none, 0⟩

/-- The linked form of a list, in its order. -/
def ofList (l : List β) : LinkedList β :=
  (unlinked.linkAll .head (l.map .elem ++ [.tail])).setSize l.length

/-- Remove and return the first element. -/
def popleft (q : LinkedList β) : Option (β × LinkedList β) :=
  match q.next .head with
  | some (.elem b) =>
    match q.next (.elem b) with
    | some second => some (b, ((q.link .head second).clear (.elem b)).setSize (q.size - 1))
    | none => none
  | _ => none

/-- The loop of `popleftN`: detach `n` elements from `curr` on. -/
def popLoop : ℕ → Option (Node β) → LinkedList β → Option (List β × Option (Node β) × LinkedList β)
  | 0, curr, q => some ([], curr, q)
  | n + 1, some (.elem b), q =>
    match popLoop n (q.next (.elem b)) (q.clear (.elem b)) with
    | some (bs, curr, q) => some (b :: bs, curr, q)
    | none => none
  | _ + 1, _, _ => none

/-- Remove and return the first `n` elements. One element is removed without the loop. -/
def popleftN (n : ℕ) (q : LinkedList β) : Option (List β × LinkedList β) :=
  if n = 0 then some ([], q)
  else if q.size < n then none
  else if n = 1 then
    match q.next .head with
    | some (.elem b) =>
      let cleared := (q.clear (.elem b)).setSize (q.size - 1)
      match q.next (.elem b) with
      | some second => some ([b], cleared.link .head second)
      | none => some ([b], cleared)
    | _ => none
  else
    match popLoop n (q.next .head) (q.setSize (q.size - n)) with
    | some (bs, some curr, q) => some (bs, q.link .head curr)
    | some (bs, none, q) => some (bs, q)
    | none => none

/-- Remove an element from wherever it stands. -/
def remove (b : β) (q : LinkedList β) : Option (LinkedList β) :=
  match q.prev (.elem b), q.next (.elem b) with
  | some u, some v => some (((q.link u v).clear (.elem b)).setSize (q.size - 1))
  | _, _ => none

/-- Put elements at the front, in their order. -/
def prependN (bs : List β) (q : LinkedList β) : Option (LinkedList β) :=
  if bs = [] then some q
  else
    match q.next .head with
    | some first =>
      some ((q.linkAll .head (bs.map .elem ++ [first])).setSize (q.size + bs.length))
    | none => none

/-- Put elements at the back, in their order. -/
def appendN (bs : List β) (q : LinkedList β) : Option (LinkedList β) :=
  if bs = [] then some q
  else
    match q.prev .tail with
    | some last =>
      some ((q.linkAll last (bs.map .elem ++ [.tail])).setSize (q.size + bs.length))
    | none => none

/-! ### Paths under rewriting -/

private theorem link_self (u v : Node β) (q : LinkedList β) : (q.link u v).Link u v := by
  simp [Link, link]

private theorem Link.link (h : q.Link u v) (hx : x ≠ u) (hy : y ≠ v) : (q.link x y).Link u v := by
  simp only [Link, LinkedList.link, update_of_ne hx.symm, update_of_ne hy.symm]
  exact h

private theorem Link.clear (h : q.Link u v) (hu : x ≠ u) (hv : x ≠ v) : (q.clear x).Link u v := by
  simp only [Link, LinkedList.clear, update_of_ne hu.symm, update_of_ne hv.symm]
  exact h

/-- A path reads the next pointers of its source and elements, and the previous pointers of its
elements and target; linking elsewhere leaves it alone. -/
theorem Path.link (h : q.Path u l v) (hx : x ∉ u :: l.map .elem) (hy : y ∉ l.map .elem ++ [v]) :
    (q.link x y).Path u l v := by
  induction l generalizing u with
  | nil => exact Link.link h (by simpa using hx) (by simpa using hy)
  | cons b l ih =>
    simp only [map_cons, mem_cons, cons_append, not_or] at hx hy
    exact ⟨Link.link h.1 hx.1 hy.1, ih h.2 (by simpa using hx.2) hy.2⟩

private theorem Path.clear (h : q.Path u l v) (hx : x ∉ u :: l.map .elem ++ [v]) :
    (q.clear x).Path u l v := by
  induction l generalizing u with
  | nil =>
    simp only [map_nil, cons_append, nil_append, mem_cons, not_or] at hx
    exact Link.clear h hx.1 hx.2.1
  | cons b l ih =>
    simp only [map_cons, cons_append, mem_cons, not_or] at hx
    exact ⟨Link.clear h.1 hx.1 hx.2.1, ih h.2 (by simpa using hx.2)⟩

/-- Redirect the last link of a path to another target. -/
theorem Path.retarget (h : q.Path u l v) (hnodup : (u :: l.map Node.elem).Nodup)
    (hx : x ∉ l.map .elem) : (q.link (lastNode u l) x).Path u l x := by
  induction l generalizing u with
  | nil => exact link_self u x q
  | cons b l ih =>
    obtain ⟨hu, hrest⟩ := nodup_cons.mp hnodup
    simp only [map_cons, mem_cons, not_or] at hx
    have hlast : lastNode (.elem b) l ≠ u := fun heq => hu (heq ▸ lastNode_mem _ l)
    exact ⟨Link.link h.1 hlast hx.1, ih h.2 hrest hx.2⟩

variable {s t : Node β} {bs : List β}

/-- Linking a sequence leaves a path alone whose nodes it does not touch. -/
theorem Path.linkAll (h : q.Path u l v) (hs : ∀ x ∈ s :: bs.map .elem, x ∉ u :: l.map .elem)
    (ht : ∀ y ∈ bs.map .elem ++ [t], y ∉ l.map .elem ++ [v]) :
    (q.linkAll s (bs.map .elem ++ [t])).Path u l v := by
  induction bs generalizing s q with
  | nil => exact h.link (hs s (by simp)) (ht t (by simp))
  | cons b bs ih =>
    refine ih (h.link (hs s (by simp)) (ht _ (by simp))) (fun x hx => hs x ?_)
      fun y hy => ht y ?_
    · exact .tail _ hx
    · exact .tail _ hy

/-- Linking a sequence of distinct nodes makes it a path. -/
theorem path_linkAll (bs : List β) (q : LinkedList β) (hu : u ∉ bs.map Node.elem)
    (hv : v ∉ bs.map Node.elem) (hbs : bs.Nodup) :
    (q.linkAll u (bs.map .elem ++ [v])).Path u bs v := by
  induction bs generalizing u q with
  | nil => exact link_self u v q
  | cons b bs ih =>
    rw [map_cons, mem_cons] at hu
    simp only [map_cons, mem_cons, not_or] at hv
    obtain ⟨hb, hbs⟩ := nodup_cons.mp hbs
    have hb' : Node.elem b ∉ bs.map Node.elem := by simpa using hb
    have hlink : (q.link u (.elem b)).Path u [] (.elem b) := link_self u _ q
    refine ⟨?_, ih _ hb' hv.2 hbs⟩
    refine hlink.linkAll (fun x hx hxu => ?_) fun y hy hyb => ?_
    · rw [map_nil, mem_singleton] at hxu
      exact hu (hxu ▸ mem_cons.mp hx)
    · rw [map_nil, nil_append, mem_singleton] at hyb
      subst hyb
      rcases mem_append.mp hy with hy | hy
      · exact hb' hy
      · exact hv.1 (mem_singleton.mp hy).symm

/-- Elements that are not linked keep their pointers. -/
theorem next_linkAll (hx : x ∉ s :: bs.map .elem) :
    (q.linkAll s (bs.map .elem ++ [t])).next x = q.next x := by
  induction bs generalizing s q with
  | nil =>
    have hne : x ≠ s := by simpa using hx
    simp [linkAll, link, hne]
  | cons b bs ih =>
    simp only [mem_cons, not_or] at hx
    have := ih (q := q.link s (.elem b)) (by simpa using hx.2)
    rw [map_cons, cons_append, linkAll, this]
    simp [link, hx.1]

private theorem prev_linkAll (hx : x ∉ bs.map .elem ++ [t]) :
    (q.linkAll s (bs.map .elem ++ [t])).prev x = q.prev x := by
  induction bs generalizing s q with
  | nil =>
    have hne : x ≠ t := by simpa using hx
    simp [linkAll, link, hne]
  | cons b bs ih =>
    simp only [map_cons, cons_append, mem_cons, not_or] at hx
    rw [map_cons, cons_append, linkAll, ih hx.2]
    simp [link, hx.1]

/-! ### Represented lists -/

/-- `q` is the linked form of the list `l`. -/
structure Represents (q : LinkedList β) (l : List β) : Prop where
  path : q.Path .head l .tail
  nodup : l.Nodup
  detached : ∀ b ∉ l, q.next (.elem b) = none ∧ q.prev (.elem b) = none
  size_eq : q.size = l.length

/-- A new queue. -/
theorem represents_ofList (hl : l.Nodup) : (ofList l).Represents l := by
  refine ⟨?_, hl, fun b hb => ⟨?_, ?_⟩, rfl⟩
  · rw [ofList, path_setSize]
    exact path_linkAll l _ (by simp) (by simp) hl
  · exact next_linkAll (by simpa using hb)
  · exact prev_linkAll (by simpa using hb)

/-- Elements enter at the front, in their order. -/
theorem Represents.prependN (h : q.Represents l) (hbs : bs.Nodup)
    (hdisj : ∀ b ∈ bs, b ∉ l) : ∃ q', q.prependN bs = some q' ∧ q'.Represents (bs ++ l) := by
  rw [LinkedList.prependN]
  split_ifs with hnil
  · subst hnil
    exact ⟨q, rfl, h⟩
  rw [h.path.next_eq]
  refine ⟨_, rfl, ⟨?_, ?_, fun b hb => ?_, ?_⟩⟩
  · rw [path_setSize]
    cases l with
    | nil =>
      rw [append_nil]
      exact path_linkAll bs q (by simp) (by simp) hbs
    | cons a l =>
      have ha : a ∉ bs := fun ha => hdisj a ha (.head _)
      have hal : a ∉ l := (nodup_cons.mp h.nodup).1
      refine path_append.mpr ⟨path_linkAll bs q (by simp) (by simpa using ha) hbs, ?_⟩
      refine Path.linkAll h.path.2 (fun x hx hxl => ?_) fun y hy hyl => ?_
      · grind
      · grind
  · exact nodup_append.mpr ⟨hbs, h.nodup, by grind⟩
  · rw [mem_append, not_or] at hb
    refine ⟨?_, ?_⟩
    · refine (next_linkAll ?_).trans (h.detached b hb.2).1
      simpa using hb.1
    · refine (prev_linkAll ?_).trans (h.detached b hb.2).2
      have := firstNode_mem l (Node.tail)
      grind
  · simp only [setSize, h.size_eq, length_append]
    push_cast
    ring

/-- Elements enter at the end, in their order. -/
theorem Represents.appendN (h : q.Represents l) (hbs : bs.Nodup)
    (hdisj : ∀ b ∈ bs, b ∉ l) : ∃ q', q.appendN bs = some q' ∧ q'.Represents (l ++ bs) := by
  rw [LinkedList.appendN]
  split_ifs with hnil
  · subst hnil
    exact ⟨q, rfl, by simpa using h⟩
  rw [h.path.prev_eq]
  refine ⟨_, rfl, ⟨?_, ?_, fun b hb => ?_, ?_⟩⟩
  · rw [path_setSize]
    rcases eq_nil_or_concat l with rfl | ⟨l, a, rfl⟩
    · exact path_linkAll bs q (by simp [lastNode]) (by simp) hbs
    · rw [concat_eq_append] at h hdisj ⊢
      have ha : a ∉ bs := fun ha => hdisj a ha (by simp)
      have hal : a ∉ l := by
        have := h.nodup
        grind
      rw [append_assoc, singleton_append, path_append]
      have hpath := path_append.mp h.path
      rw [lastNode_concat]
      refine ⟨Path.linkAll hpath.1 (fun x hx hxl => ?_) fun y hy hyl => ?_,
        path_linkAll bs q (by simpa using ha) (by simp) hbs⟩
      · grind
      · grind
  · exact nodup_append.mpr ⟨h.nodup, hbs, by grind⟩
  · rw [mem_append, not_or] at hb
    refine ⟨?_, ?_⟩
    · refine (next_linkAll ?_).trans (h.detached b hb.1).1
      have := lastNode_mem Node.head l
      grind
    · refine (prev_linkAll ?_).trans (h.detached b hb.1).2
      simpa using hb.2
  · simp only [setSize, h.size_eq, length_append]
    push_cast
    ring

/-- Taking an element out of a path: its neighbours are linked to each other. -/
theorem Path.unlink (h1 : q.Path u l1 (.elem b)) (h2 : q.Path (.elem b) l2 v)
    (hnodup : (u :: (l1 ++ b :: l2).map Node.elem ++ [v]).Nodup) :
    ((q.link (lastNode u l1) (firstNode l2 v)).clear (.elem b)).Path u (l1 ++ l2) v := by
  have hlast := lastNode_mem u l1
  refine clear ?_ (by grind)
  cases l2 with
  | nil =>
    rw [append_nil]
    exact h1.retarget (by grind) (by grind)
  | cons c l2 =>
    exact path_append.mpr ⟨h1.retarget (by grind) (by grind), h2.2.link (by grind) (by grind)⟩

/-- One element leaves. -/
theorem Represents.remove (h : q.Represents l) (hb : b ∈ l) :
    ∃ q', q.remove b = some q' ∧ q'.Represents (l.erase b) := by
  obtain ⟨l1, l2, rfl⟩ := append_of_mem hb
  have hnodup := h.nodup
  have hb1 : b ∉ l1 := by grind
  obtain ⟨hp1, hp2⟩ := path_append.mp h.path
  rw [remove, hp1.prev_eq, hp2.next_eq]
  have herase : (l1 ++ b :: l2).erase b = l1 ++ l2 := by
    rw [erase_append_right _ hb1, erase_cons_head]
  refine ⟨_, rfl, ⟨?_, h.nodup.erase b, fun c hc => ?_, ?_⟩⟩
  · rw [herase, path_setSize]
    exact hp1.unlink hp2 (nodes_nodup h.nodup)
  · have hlast := lastNode_mem Node.head l1
    have hfirst := firstNode_mem l2 Node.tail
    by_cases hcb : c = b
    · subst hcb
      exact ⟨by simp [setSize, clear], by simp [setSize, clear]⟩
    · have hc' : c ∉ l1 ++ b :: l2 := fun hmem => hc ((mem_erase_of_ne hcb).mpr hmem)
      obtain ⟨hnext, hprev⟩ := h.detached c hc'
      have hne1 : Node.elem c ≠ lastNode .head l1 := by grind
      have hne2 : Node.elem c ≠ firstNode l2 .tail := by grind
      simp [setSize, clear, link, hcb, hne1, hne2, hnext, hprev]
  · have hlen := length_erase_of_mem hb
    have hpos := length_pos_of_mem hb
    simp only [setSize, h.size_eq]
    omega

/-- The first element leaves. -/
theorem Represents.popleft (h : q.Represents (b :: l)) :
    ∃ q', q.popleft = some (b, q') ∧ q'.Represents l := by
  obtain ⟨q', hq', hrep⟩ := h.remove (.head _)
  rw [erase_cons_head] at hrep
  rw [LinkedList.remove, h.path.1.2, h.path.2.next_eq] at hq'
  refine ⟨q', ?_, hrep⟩
  rw [LinkedList.popleft, h.path.1.1]
  dsimp only
  rw [h.path.2.next_eq]
  dsimp only
  rw [Option.some.inj hq']

/-- Detach several elements. -/
def clearAll (bs : List β) (q : LinkedList β) : LinkedList β :=
  bs.foldl (fun q b => q.clear (.elem b)) q

private theorem Path.clearAll (h : q.Path u l v)
    (hbs : ∀ b ∈ bs, Node.elem b ∉ u :: l.map .elem ++ [v]) : (q.clearAll bs).Path u l v := by
  induction bs generalizing q with
  | nil => exact h
  | cons b bs ih =>
    exact ih (h.clear (hbs b (.head _))) fun c hc => hbs c (.tail _ hc)

/-- Elements that are detached, or pointed nowhere before, point nowhere. -/
theorem clearAll_none (h : b ∈ bs ∨ q.next (.elem b) = none ∧ q.prev (.elem b) = none) :
    (q.clearAll bs).next (.elem b) = none ∧ (q.clearAll bs).prev (.elem b) = none := by
  induction bs generalizing q with
  | nil => simpa [clearAll] using h
  | cons a bs ih =>
    refine ih ?_
    by_cases hab : b = a
    · simp [clear, hab]
    · simpa [clear, hab] using h

/-- The loop detaches the first `n` elements and stops at the one after them. -/
theorem popLoop_eq (n : ℕ) (h : q.Tail l .tail) (hl : l.Nodup) (hn : n ≤ l.length) :
    popLoop n (some (firstNode l .tail)) q =
      some (l.take n, some (firstNode (l.drop n) .tail), q.clearAll (l.take n)) := by
  induction n generalizing l q with
  | zero => simp [popLoop, clearAll]
  | succ n ih =>
    cases l with
    | nil => simp at hn
    | cons b l =>
      obtain ⟨hb, hl⟩ := nodup_cons.mp hl
      have htail : (q.clear (.elem b)).Tail l .tail := by
        cases l with
        | nil => trivial
        | cons c l => exact Path.clear h.2 (by grind)
      have hnext : q.next (.elem b) = some (firstNode l .tail) := Path.next_eq h
      rw [firstNode_cons, popLoop, hnext, ih htail hl (by simpa using hn)]
      rfl

private theorem clearAll_size (bs : List β) (q : LinkedList β) : (q.clearAll bs).size = q.size := by
  induction bs generalizing q with
  | nil => rfl
  | cons b bs ih => exact ih _

/-- The head sentinel in front of what is left after the first `n` elements were detached. -/
theorem Represents.link_clearAll (h : q.Represents l) {n : ℕ} (hn : n ≤ l.length) :
    (((q.setSize (q.size - n)).clearAll (l.take n)).link .head
      (firstNode (l.drop n) .tail)).Represents (l.drop n) := by
  have hsplit := take_append_drop n l
  have hnodup : (l.take n ++ l.drop n).Nodup := hsplit.symm ▸ h.nodup
  refine ⟨?_, h.nodup.sublist (drop_sublist n l), fun b hb => ?_, ?_⟩
  · rcases hdrop : l.drop n with _ | ⟨c, l'⟩
    · exact link_self _ _ _
    · rw [hdrop] at hsplit hnodup
      have hpath := (path_append.mp (hsplit.symm ▸ h.path)).2
      refine ⟨link_self _ _ _, Path.link (Path.clearAll (path_setSize.mpr hpath) ?_) ?_ ?_⟩
      · intro b hb
        grind
      · grind
      · grind
  · have hnone : b ∈ l.take n ∨ (q.setSize (q.size - n)).next (.elem b) = none ∧
        (q.setSize (q.size - n)).prev (.elem b) = none := by
      by_cases hmem : b ∈ l.take n
      · exact .inl hmem
      · refine .inr (h.detached b fun hbl => ?_)
        rw [← hsplit, mem_append] at hbl
        exact hbl.elim hmem hb
    obtain ⟨hnext, hprev⟩ := clearAll_none hnone
    have hfirst := firstNode_mem (l.drop n) (Node.tail)
    have hne : Node.elem b ≠ firstNode (l.drop n) .tail := by grind
    simp [link, hne, hnext, hprev]
  · simp only [link, clearAll_size, setSize, h.size_eq, length_drop]
    omega

/-- The first `n` elements leave. -/
theorem Represents.popleftN (h : q.Represents l) {n : ℕ} (hn : n ≤ l.length) :
    ∃ q', q.popleftN n = some (l.take n, q') ∧ q'.Represents (l.drop n) := by
  rw [LinkedList.popleftN]
  by_cases hzero : n = 0
  · subst hzero
    exact ⟨q, rfl, h⟩
  have hsize : ¬ q.size < n := by
    rw [h.size_eq]
    omega
  refine ⟨_, ?_, h.link_clearAll hn⟩
  split_ifs with hone
  · subst hone
    rcases l with _ | ⟨b, l⟩
    · simp at hn
    · rw [h.path.next_eq, firstNode_cons]
      dsimp only
      rw [h.path.2.next_eq]
      rfl
  · rw [h.path.next_eq, popLoop_eq n
      (path_setSize.mpr h.path).tail h.nodup hn]

end LinkedList

end Sonar.Lib
