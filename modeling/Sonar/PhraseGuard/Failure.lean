import Sonar.PhraseGuard.Trie

/-!
# Failure links

`finish` visits the nodes in the order of their depth and gives each one its **failure**, the node of
the longest proper suffix that is a word, and its **terminal**, the length of the longest pattern
that ends there (`Linked`). When it looks at a node, all nodes that are not deeper are linked, which
is all that `advance` needs to find the failures of its children.
-/

namespace Sonar.PhraseGuard.Automaton

open Lib List Dict Automaton

variable {words patterns : List (List UInt8)} {a a' : Automaton} {i j parent : ℕ}
  {w u : List UInt8} {byte : UInt8} {done queue : List ℕ}

/-- `k` is the length of the longest pattern that ends `t`, and zero if there is none. -/
structure LongestPattern (patterns : List (List UInt8)) (t : List UInt8) (k : ℕ) : Prop where
  bound : ∀ p ∈ patterns, p <:+ t → p.length ≤ k
  attained : k ≠ 0 → ∃ p ∈ patterns, p <:+ t ∧ p.length = k

/-- The node leads to the node of the longest proper suffix of its word. -/
def Fails (words : List (List UInt8)) (a : Automaton) (i : ℕ) (w : List UInt8) : Prop :=
  w ≠ [] → ∃ f, words[(a.node i).failure]? = some f ∧ LongestSuffix {w | w ∈ words} w.tail f

/-- Failure and terminal of the node are those of its word. -/
structure Linked (patterns words : List (List UInt8)) (a : Automaton) (i : ℕ) (w : List UInt8) :
    Prop where
  fails : Fails words a i w
  terminal : LongestPattern patterns w (a.node i).terminal

/-- Being linked is a matter of the node. -/
private theorem Linked.of_node_eq (h : Linked patterns words a i w) (hnode : a'.node i = a.node i) :
    Linked patterns words a' i w := by
  refine ⟨?_, ?_⟩
  · rw [Fails, hnode]
    exact h.fails
  · rw [hnode]
    exact h.terminal

/-! ### Following failure links -/

section

variable (hi : words[i]? = some w) (h : Trie words a)

include hi h

/-- Following failure links ends at the longest suffix that is a word of the trie. -/
private theorem Trie.advanceLoop {fuel : ℕ}
    (hfails : ∀ j u, words[j]? = some u → u.length ≤ w.length → Fails words a j u)
    (hfuel : w.length < fuel) : ∃ v, words[a.advanceLoop byte fuel i]? = some v ∧
      LongestSuffix {w | w ∈ words} (w ++ [byte]) v := by
  induction fuel generalizing i w with
  | zero => exact absurd hfuel (Nat.not_lt_zero _)
  | succ fuel ih =>
    rw [advanceLoop]
    cases hget : (a.node i).edges.get? byte with
    | some next =>
      have hnext := (h.edges i w hi byte next).mp hget
      exact ⟨_, hnext, .of_mem (mem_of_getElem? hnext)⟩
    | none =>
      have hext : w ++ [byte] ∉ words := by
        intro hmem
        obtain ⟨j, hj⟩ := mem_iff_getElem?.mp hmem
        rw [(h.edges i w hi byte j).mpr hj] at hget
        cases hget
      split_ifs with hzero
      · obtain rfl := (h.eq_zero_iff hi).mp hzero
        exact ⟨[], h.root, .of_singleton h.closed hext⟩
      · have hne : w ≠ [] := fun heq => hzero ((h.eq_zero_iff hi).mpr heq)
        obtain ⟨f, hf, hlongest⟩ := hfails i w hi le_rfl hne
        have hshort : f.length < w.length := by
          have hle := hlongest.suffix.length_le
          have hpos := length_pos_iff.mpr hne
          rw [length_tail] at hle
          omega
        obtain ⟨v, hv, hfv⟩ := ih hf (fun j u hj hu => hfails j u hj (by omega)) (by omega)
        exact ⟨v, hv, (LongestSuffix.failure_iff h.closed hne hext hlongest).mpr hfv⟩

/-- `advance` finds the longest suffix of the word and the byte. -/
theorem Trie.advance
    (hfails : ∀ j u, words[j]? = some u → u.length ≤ w.length → Fails words a j u) (byte : UInt8) :
    ∃ v, words[a.advance i byte]? = some v ∧ LongestSuffix {w | w ∈ words} (w ++ [byte]) v := by
  refine h.advanceLoop hi hfails ?_
  rw [h.length]
  exact h.length_lt (mem_of_getElem? hi)

/-! ### Children -/

private theorem Trie.mem_children : j ∈ (a.node i).edges.values ↔ ∃ b, words[j]? = some (w ++ [b]) := by
  rw [mem_values]
  exact exists_congr fun b => h.edges i w hi b j

private theorem Trie.nodup_children : (a.node i).edges.values.Nodup := by
  refine (Nodup.of_map _ (a.node i).edges.nodup).map_on fun e he e' he' heq => ?_
  have hword := (h.edges i w hi e.1 e.2).mp (mem_entries.mp he)
  have hword' := (h.edges i w hi e'.1 e'.2).mp (mem_entries.mp he')
  rw [heq, hword'] at hword
  have hbyte := singleton_injective (append_cancel_left (Option.some.inj hword))
  exact Prod.ext hbyte.symm heq

end

/-- The terminal of a node: its own pattern, or the longest one that ends its failure. -/
private theorem LongestPattern.max_failure {f : List UInt8} {k : ℕ} (hpatterns : ∀ p ∈ patterns, p ∈ words)
    (hf : LongestSuffix {w | w ∈ words} w.tail f) (h : LongestPattern patterns f k) :
    LongestPattern patterns w (max (if w ∈ patterns then w.length else 0) k) := by
  have hsuffix : f <:+ w := hf.suffix.trans (tail_suffix w)
  constructor
  · intro p hp hpw
    by_cases heq : p = w
    · subst heq
      rw [if_pos hp]
      exact le_max_left _ _
    · have htail : p <:+ w.tail := by
        cases w with
        | nil => exact hpw
        | cons c w => exact (suffix_cons_iff.mp hpw).resolve_left heq
      exact (h.bound p hp (hf.longest p (hpatterns p hp) htail)).trans (le_max_right _ _)
  · intro hne
    split_ifs at hne ⊢ with hmem
    · have hle : k ≤ w.length := by
        by_cases hk : k = 0
        · omega
        · obtain ⟨p, -, hpf, rfl⟩ := h.attained hk
          exact (hpf.trans hsuffix).length_le
      exact ⟨w, hmem, suffix_rfl, (max_eq_left hle).symm⟩
    · obtain ⟨p, hp, hpf, hlen⟩ := h.attained hne
      exact ⟨p, hp, hpf.trans hsuffix, hlen⟩

/-- The children of a node that were visited, starting from `a`. -/
structure Sweeping (patterns words : List (List UInt8)) (a : Automaton) (queue : List ℕ)
    (edges : List (UInt8 × ℕ)) (s : List ℕ × Automaton) : Prop where
  trie : Trie words s.2
  queue : s.1 = queue ++ edges.map Prod.snd
  others : ∀ i, i ∉ edges.map Prod.snd → s.2.node i = a.node i
  linked : ∀ e ∈ edges, ∀ w, words[e.2]? = some w → Linked patterns words s.2 e.2 w

section

variable (hlow : ∀ j u, words[j]? = some u → u.length ≤ w.length → Linked patterns words a j u)

include hlow

/-- One more child is linked and queued. -/
private theorem Sweeping.finishChild {edges : List (UInt8 × ℕ)} {s : List ℕ × Automaton} {e : UInt8 × ℕ}
    (h : Sweeping patterns words a queue edges s) (hpatterns : ∀ p ∈ patterns, p ∈ words)
    (hparent : words[parent]? = some w) (hne : w ≠ [])
    (hchildren : ∀ e' ∈ edges, words[e'.2]? = some (w ++ [e'.1]))
    (he : words[e.2]? = some (w ++ [e.1])) (hnot : e.2 ∉ edges.map Prod.snd)
    (hfresh : (a.node e.2).terminal = if w ++ [e.1] ∈ patterns then (w ++ [e.1]).length else 0) :
    Sweeping patterns words a queue (edges ++ [e]) (finishChild parent s e) := by
  -- nodes that are not deeper than the parent are as they were
  have hsame : ∀ j u, words[j]? = some u → u.length ≤ w.length → s.2.node j = a.node j := by
    intro j u hj hlen
    refine h.others j fun hmem => ?_
    obtain ⟨e', he', rfl⟩ := mem_map.mp hmem
    obtain rfl := Option.some.inj (hj.symm.trans (hchildren e' he'))
    rw [length_append] at hlen
    exact absurd hlen (Nat.not_succ_le_self _)
  have hlow' : ∀ j u, words[j]? = some u → u.length ≤ w.length → Linked patterns words s.2 j u :=
    fun j u hj hlen => (hlow j u hj hlen).of_node_eq (hsame j u hj hlen)
  obtain ⟨f, hf, hlongest⟩ := (hlow' parent w hparent le_rfl).fails hne
  have htail : (w ++ [e.1]).tail = w.tail ++ [e.1] := tail_append_of_ne_nil hne
  have hshort : f.length ≤ w.length := hlongest.suffix.length_le.trans (tail_suffix w).length_le
  obtain ⟨v, hv, hadvance⟩ := h.trie.advance hf
    (fun j u hj hlen => (hlow' j u hj (hlen.trans hshort)).fails) e.1
  have hfailure : LongestSuffix {w | w ∈ words} (w ++ [e.1]).tail v := by
    rw [htail]
    exact (LongestSuffix.append_iff h.trie.closed hlongest).mpr hadvance
  have hvlen : v.length ≤ w.length := by
    have hle := hfailure.suffix.length_le
    rwa [length_tail, length_append] at hle
  have hterminal := LongestPattern.max_failure hpatterns hfailure (hlow' _ v hv hvlen).terminal
  have hself := node_modifyNode_self (fun node => { node with
    failure := s.2.advance (s.2.node parent).failure e.1
    terminal := max node.terminal
      (s.2.node (s.2.advance (s.2.node parent).failure e.1)).terminal }) (h.trie.lt he)
  have hown : (s.2.node e.2).terminal =
      if w ++ [e.1] ∈ patterns then (w ++ [e.1]).length else 0 := by
    rw [h.others e.2 hnot]
    exact hfresh
  refine ⟨h.trie.modifyNode (fun _ => rfl) fun _ => rfl, ?_, fun i hi => ?_, ?_⟩
  · change s.1 ++ [e.2] = _
    rw [h.queue, map_append, append_assoc]
    rfl
  · rw [map_append, mem_append, not_or] at hi
    refine (node_modifyNode_of_ne fun heq => hi.2 ?_).trans (h.others i hi.1)
    exact heq ▸ mem_singleton_self _
  · intro e' he' u hu
    rcases mem_append.mp he' with hold | hnew
    · have hne' : e'.2 ≠ e.2 := fun heq => hnot (heq ▸ mem_map_of_mem hold)
      exact (h.linked e' hold u hu).of_node_eq (node_modifyNode_of_ne hne')
    · obtain rfl := mem_singleton.mp hnew
      obtain rfl := Option.some.inj (he.symm.trans hu)
      refine ⟨fun _ => ⟨v, ?_, hfailure⟩, ?_⟩
      · change words[((s.2.modifyNode e'.2 _).node e'.2).failure]? = some v
        rw [hself]
        exact hv
      · change LongestPattern patterns _ ((s.2.modifyNode e'.2 _).node e'.2).terminal
        rw [hself]
        rw [hown]
        exact hterminal

/-- The children of one state get their failure links. -/
theorem Trie.sweep (h : Trie words a) (hpatterns : ∀ p ∈ patterns, p ∈ words)
    (hparent : words[parent]? = some w) (hne : w ≠ [])
    (hfresh : ∀ b j, words[j]? = some (w ++ [b]) →
      (a.node j).terminal = if w ++ [b] ∈ patterns then (w ++ [b]).length else 0) :
    Sweeping patterns words a queue (a.node parent).edges.entries
      ((a.node parent).edges.entries.foldl (finishChild parent) (queue, a)) := by
  have hchild : ∀ e ∈ (a.node parent).edges.entries, words[e.2]? = some (w ++ [e.1]) := fun e he =>
    (h.edges parent w hparent e.1 e.2).mp (mem_entries.mp he)
  have hnodup : ((a.node parent).edges.entries.map Prod.snd).Nodup := h.nodup_children hparent
  -- the induction is over the children that are left
  have hloop : ∀ rest edges s, (a.node parent).edges.entries = edges ++ rest →
      Sweeping patterns words a queue edges s → Sweeping patterns words a queue (edges ++ rest)
        (rest.foldl (finishChild parent) s) := by
    intro rest
    induction rest with
    | nil =>
      intro edges s _ hs
      rwa [append_nil]
    | cons e rest ih =>
      intro edges s hsplit hs
      rw [hsplit] at hchild hnodup
      have hnot : e.2 ∉ edges.map Prod.snd := by
        rw [map_append] at hnodup
        exact fun hmem => (nodup_append.mp hnodup).2.2 _ hmem _ (.head _) rfl
      have he := hchild e (mem_append_right _ (.head _))
      have hstep := hs.finishChild hlow hpatterns hparent hne
        (fun e' he' => hchild e' (mem_append_left _ he')) he hnot (hfresh e.1 e.2 he)
      rw [append_cons]
      exact ih _ _ (hsplit.trans (append_cons _ _ _)) hstep
  refine hloop _ [] (queue, a) rfl ⟨h, ?_, fun _ _ => rfl, nofun⟩
  exact (append_nil _).symm

end

/-! ### The queue -/

/-- The depth of a node. -/
def depthOf (words : List (List UInt8)) (i : ℕ) : ℕ := ((words[i]?).getD []).length

private theorem depthOf_eq (hi : words[i]? = some w) : depthOf words i = w.length := by
  rw [depthOf, hi]
  rfl

/-- The loop of `finish`: nodes in `done` have been taken from the queue, and exactly their children
and those of the root have been seen. The queue is sorted by depth, and no two of its nodes are more
than one level apart. -/
structure Linking (patterns words : List (List UInt8)) (done queue : List ℕ) (a : Automaton) :
    Prop where
  trie : Trie words a
  whole : ∀ p ∈ patterns, p ∈ words
  linked : ∀ i w, words[i]? = some w → i = 0 ∨ i ∈ done ++ queue → Linked patterns words a i w
  fresh : ∀ i w, words[i]? = some w → i ≠ 0 → i ∉ done ++ queue →
    (a.node i).terminal = if w ∈ patterns then w.length else 0
  nodup : (done ++ queue).Nodup
  valid : ∀ i ∈ done ++ queue, ∃ w, words[i]? = some w ∧ w ≠ []
  children : ∀ i j w b, words[i]? = some w → words[j]? = some (w ++ [b]) →
    (i = 0 ∨ i ∈ done ↔ j ∈ done ++ queue)
  sorted : queue.Pairwise fun i j =>
    depthOf words i ≤ depthOf words j ∧ depthOf words j ≤ depthOf words i + 1

/-- Nodes that are not deeper than the front of the queue have been seen. -/
private theorem Linking.seen (h : Linking patterns words done (parent :: queue) a)
    (hj : words[j]? = some u) (hdepth : u.length ≤ depthOf words parent) :
    j = 0 ∨ j ∈ done ++ parent :: queue := by
  induction u using reverseRecOn generalizing j with
  | nil => exact .inl ((h.trie.eq_zero_iff hj).mpr rfl)
  | append_singleton u b ih =>
    obtain ⟨i, hi⟩ := mem_iff_getElem?.mp (h.trie.init u b (mem_of_getElem? hj))
    rw [length_append, length_singleton] at hdepth
    refine .inr ((h.children i j u b hi hj).mp ?_)
    rcases ih hi (by omega) with hzero | hseen
    · exact .inl hzero
    · rcases mem_append.mp hseen with hdone | hqueue
      · exact .inr hdone
      · -- a node in the queue is not above its front
        have hge : depthOf words parent ≤ depthOf words i := by
          rcases mem_cons.mp hqueue with rfl | hmem
          · exact le_rfl
          · exact ((pairwise_cons.mp h.sorted).1 i hmem).1
        rw [depthOf_eq hi] at hge
        omega

/-- One node is taken from the queue and its children are put in. -/
theorem Linking.step (h : Linking patterns words done (parent :: queue) a) :
    Linking patterns words (done ++ [parent])
      ((a.node parent).edges.entries.foldl (finishChild parent) (queue, a)).1
      ((a.node parent).edges.entries.foldl (finishChild parent) (queue, a)).2 := by
  obtain ⟨w, hparent, hne⟩ := h.valid parent (mem_append_right _ (.head _))
  have hdepth : depthOf words parent = w.length := depthOf_eq hparent
  obtain ⟨hdoneNodup, hqueueNodup, hdisjoint⟩ := nodup_append.mp h.nodup
  have hzero : parent ≠ 0 := fun heq => hne ((h.trie.eq_zero_iff hparent).mp heq)
  have hdone : parent ∉ done := fun hmem => hdisjoint _ hmem _ (.head _) rfl
  have hunseen : ∀ b j, words[j]? = some (w ++ [b]) → j ∉ done ++ parent :: queue := by
    intro b j hj hmem
    exact ((h.children parent j w b hparent hj).mpr hmem).elim hzero hdone
  have hne_zero : ∀ b j, words[j]? = some (w ++ [b]) → j ≠ 0 := by
    rintro b j hj rfl
    exact append_ne_nil_of_right_ne_nil w (cons_ne_nil b [])
      ((h.trie.eq_zero_iff hj).mp rfl)
  have hsweep : Sweeping patterns words a queue (a.node parent).edges.entries _ :=
    h.trie.sweep (fun j u hj hlen => h.linked j u hj (h.seen hj (hdepth.symm ▸ hlen))) h.whole hparent hne
      fun b j hj => h.fresh j _ hj (hne_zero b j hj) (hunseen b j hj)
  set s := (a.node parent).edges.entries.foldl (finishChild parent) (queue, a)
  set children := (a.node parent).edges.values
  have hmem : ∀ j, j ∈ children ↔ ∃ b, words[j]? = some (w ++ [b]) := fun j =>
    h.trie.mem_children hparent
  have hall : done ++ [parent] ++ s.1 = (done ++ parent :: queue) ++ children := by
    rw [hsweep.queue, append_assoc, append_assoc]
    rfl
  have hchildDepth : ∀ j ∈ children, depthOf words j = w.length + 1 := by
    intro j hj
    obtain ⟨b, hj⟩ := (hmem j).mp hj
    rw [depthOf_eq hj, length_append]
    rfl
  refine ⟨hsweep.trie, h.whole, fun i u hi hseen => ?_, fun i u hi hi0 hnot => ?_, ?_, fun i hi => ?_,
    fun i j u b hi hj => ?_, ?_⟩
  · rw [hall, mem_append] at hseen
    by_cases hchild : i ∈ children
    · obtain ⟨e, he, rfl⟩ := mem_map.mp hchild
      exact hsweep.linked e he u hi
    · refine (h.linked i u hi ?_).of_node_eq (hsweep.others i hchild)
      exact hseen.imp_right fun hseen => hseen.resolve_right hchild
  · rw [hall, mem_append, not_or] at hnot
    rw [hsweep.others i hnot.2]
    exact h.fresh i u hi hi0 hnot.1
  · rw [hall]
    refine h.nodup.append (h.trie.nodup_children hparent) fun j hj hchild => ?_
    obtain ⟨b, hjb⟩ := (hmem j).mp hchild
    exact hunseen b j hjb hj
  · rw [hall] at hi
    rcases mem_append.mp hi with hi | hi
    · exact h.valid i hi
    · obtain ⟨b, hib⟩ := (hmem i).mp hi
      exact ⟨_, hib, append_ne_nil_of_right_ne_nil w (cons_ne_nil b [])⟩
  · rw [hall, mem_append, mem_append, ← or_assoc, h.children i j u b hi hj, hmem, mem_singleton]
    refine or_congr_right ⟨?_, ?_⟩
    · rintro rfl
      obtain rfl := Option.some.inj (hi.symm.trans hparent)
      exact ⟨b, hj⟩
    · rintro ⟨b', hj'⟩
      obtain ⟨rfl, -⟩ := append_inj' (Option.some.inj (hj.symm.trans hj')) rfl
      exact h.trie.inj hi hparent
  · rw [hsweep.queue]
    have hsorted := pairwise_cons.mp h.sorted
    refine pairwise_append.mpr ⟨hsorted.2, ?_, fun i hi j hj => ?_⟩
    · refine pairwise_of_forall_mem_list fun i hi j hj => ?_
      rw [hchildDepth i hi, hchildDepth j hj]
      exact ⟨le_rfl, Nat.le_succ _⟩
    · have hbounds := hsorted.1 i hi
      rw [hdepth] at hbounds
      rw [hchildDepth j hj]
      exact ⟨hbounds.2, Nat.succ_le_succ hbounds.1⟩

/-- The nodes below the root bound the length of the queue. -/
private theorem Linking.length_lt (h : Linking patterns words done queue a) :
    (done ++ queue).length < words.length := by
  have hsub : 0 :: (done ++ queue) ⊆ range words.length := by
    intro i hi
    rw [mem_range]
    rcases mem_cons.mp hi with rfl | hi
    · exact (List.getElem?_eq_some_iff.mp h.trie.root).1
    · obtain ⟨w, hw, -⟩ := h.valid i hi
      exact (List.getElem?_eq_some_iff.mp hw).1
  have hnodup : (0 :: (done ++ queue)).Nodup := by
    refine nodup_cons.mpr ⟨fun hmem => ?_, h.nodup⟩
    obtain ⟨w, hw, hne⟩ := h.valid 0 hmem
    exact hne ((h.trie.eq_zero_iff hw).mp rfl)
  have hle := (subperm_of_subset hnodup hsub).length_le
  rwa [length_range] at hle

/-- The breadth-first loop links every node before its fuel is used up. -/
private theorem Linking.finishLoop {fuel : ℕ} (h : Linking patterns words done queue a)
    (hfuel : words.length ≤ done.length + fuel + 1) :
    ∃ done', Linking patterns words done' [] (finishLoop fuel (queue, a)) := by
  induction fuel generalizing done queue a with
  | zero =>
    have hlen := h.length_lt
    rw [length_append] at hlen
    obtain rfl := length_eq_zero_iff.mp (by omega : queue.length = 0)
    exact ⟨done, h⟩
  | succ fuel ih =>
    cases queue with
    | nil => exact ⟨done, h⟩
    | cons parent queue =>
      refine ih h.step ?_
      rw [length_append, length_singleton]
      omega

/-- With an empty queue every node is linked. -/
private theorem Linking.all (h : Linking patterns words done [] a) (hi : words[i]? = some w) :
    Linked patterns words a i w := by
  refine h.linked i w hi ?_
  induction w using reverseRecOn generalizing i with
  | nil => exact .inl ((h.trie.eq_zero_iff hi).mpr rfl)
  | append_singleton w b ih =>
    obtain ⟨j, hj⟩ := mem_iff_getElem?.mp (h.trie.init w b (mem_of_getElem? hi))
    refine .inr ((h.children j i w b hj hi).mp ?_)
    have hseen := ih hj
    rwa [append_nil] at hseen

private theorem Built.linking (h : Built patterns [] words a) :
    Linking patterns words [] (a.node 0).edges.values a := by
  have hmem : ∀ {j}, j ∈ (a.node 0).edges.values ↔ ∃ b, words[j]? = some [b] :=
    h.toTrie.mem_children h.root
  have hempty : LongestPattern patterns [] 0 := by
    refine ⟨fun p _ hp => ?_, absurd rfl⟩
    exact (suffix_nil.mp hp).symm ▸ le_rfl
  refine ⟨h.toTrie, h.whole, fun i w hi hseen => ?_, fun i w hi _ _ => h.ends i w hi,
    h.toTrie.nodup_children h.root, fun i hi => ?_, fun i j w b hi hj => ?_, ?_⟩
  · rcases hseen with rfl | hseen
    · obtain rfl := Option.some.inj (hi.symm.trans h.root)
      refine ⟨absurd rfl, ?_⟩
      rw [h.ends 0 [] hi, length_nil, ite_self]
      exact hempty
    · obtain ⟨b, hb⟩ := hmem.mp hseen
      obtain rfl := Option.some.inj (hi.symm.trans hb)
      have hfails : LongestSuffix {w | w ∈ words} [b].tail [] := .nil h.toTrie.closed
      refine ⟨fun _ => ⟨[], ?_, hfails⟩, ?_⟩
      · rw [h.unlinked i]
        exact h.root
      · have hmax := LongestPattern.max_failure h.whole hfails hempty
        rwa [Nat.max_zero, ← h.ends i [b] hi] at hmax
  · obtain ⟨b, hb⟩ := hmem.mp hi
    exact ⟨[b], hb, cons_ne_nil _ _⟩
  · rw [nil_append, hmem, or_iff_left not_mem_nil]
    constructor
    · rintro rfl
      obtain rfl := Option.some.inj (hi.symm.trans h.root)
      exact ⟨b, hj⟩
    · rintro ⟨b', hj'⟩
      have heq : w ++ [b] = [] ++ [b'] := Option.some.inj (hj.symm.trans hj')
      exact (h.toTrie.eq_zero_iff hi).mpr (append_inj' heq rfl).1
  · refine pairwise_of_forall_mem_list fun i hi j hj => ?_
    obtain ⟨b, hb⟩ := hmem.mp hi
    obtain ⟨b', hb'⟩ := hmem.mp hj
    rw [depthOf_eq hb, depthOf_eq hb']
    exact ⟨le_rfl, Nat.le_succ _⟩

/-! ### Compiled patterns -/

/-- A compiled automaton: the words are the prefixes of the patterns, and every node is linked. -/
structure Compiled (patterns words : List (List UInt8)) (a : Automaton) : Prop where
  trie : Trie words a
  linked : ∀ i w, words[i]? = some w → Linked patterns words a i w
  whole : ∀ p ∈ patterns, p ∈ words
  needed : ∀ w ∈ words, w = [] ∨ ∃ p ∈ patterns, w <+: p

/-- The finished trie is the automaton of its patterns. -/
private theorem Built.compiled (h : Built patterns [] words a) : Compiled patterns words a.finish := by
  have hfuel : words.length ≤ ([] : List ℕ).length + a.nodes.length + 1 := by
    rw [h.length]
    omega
  obtain ⟨done, hlinking⟩ := h.linking.finishLoop hfuel
  refine ⟨hlinking.trie, fun i w hi => hlinking.all hi, h.whole, fun w hw => ?_⟩
  exact (h.needed w hw).imp_left prefix_nil.mp

/-- What `compile` accepts is compiled, and no pattern is empty. -/
theorem compiled_of_compile (h : compile patterns = .ok a) :
    (∃ words, Compiled patterns words a) ∧ ∀ p ∈ patterns, p ≠ [] := by
  rw [compile] at h
  split_ifs at h with hcount hbudget
  obtain ⟨words, hbuilt⟩ := built_new.addAll patterns
  obtain rfl := Except.ok.inj h
  refine ⟨⟨words, hbuilt.compiled⟩, fun p hp hnil => hbudget (.inl ?_)⟩
  exact any_eq_true.mpr ⟨p, hp, isEmpty_iff.mpr hnil⟩

end Sonar.PhraseGuard.Automaton
