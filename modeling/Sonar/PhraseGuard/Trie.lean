import Sonar.PhraseGuard.Automaton

/-!
# The trie of the patterns

Every node of an automaton stands for a word, the bytes on the way from the root. `words` lists the
words of the nodes. `add` extends the trie by the prefixes of a pattern (`Built.add`), so the words
of a compiled set are the prefixes of its patterns.
-/

namespace Sonar.PhraseGuard.Automaton

open Lib List

variable {words : List (List UInt8)} {patterns : List (List UInt8)} {a : Automaton} {i j : ℕ}
  {w : List UInt8} {byte : UInt8}

/-! ### Nodes -/

private theorem node_eq (a : Automaton) (i : ℕ) : a.node i = (a.nodes[i]?).getD {} :=
  getD_eq_getElem?_getD

variable {f : Node → Node}

/-- Other states are as before. -/
theorem node_modifyNode_of_ne (h : j ≠ i) : (a.modifyNode i f).node j = a.node j := by
  rw [node_eq, node_eq, modifyNode, getElem?_modify]
  simp [if_neg h.symm]

/-- The state that is changed. -/
theorem node_modifyNode_self (f : Node → Node) (h : i < a.nodes.length) :
    (a.modifyNode i f).node i = f (a.node i) := by
  rw [node_eq, node_eq, modifyNode, getElem?_modify, getElem?_eq_getElem h]
  simp

/-- What a change leaves alone in one node it leaves alone in all. -/
private theorem node_modifyNode_congr {β : Type} {g : Node → β} (hf : ∀ node, g (f node) = g node) :
    g ((a.modifyNode i f).node j) = g (a.node j) := by
  by_cases hji : j = i
  · subst hji
    rcases lt_or_ge j a.nodes.length with hlt | hge
    · rw [node_modifyNode_self f hlt, hf]
    · rw [node_eq, node_eq, modifyNode, modify_eq_self hge]
  · rw [node_modifyNode_of_ne hji]

private theorem length_modifyNode : (a.modifyNode i f).nodes.length = a.nodes.length := length_modify _ _ _

/-! ### Tries -/

/-- The nodes of the automaton are the words, and its edges extend them by a byte. -/
structure Trie (words : List (List UInt8)) (a : Automaton) : Prop where
  length : a.nodes.length = words.length
  root : words[0]? = some []
  nodup : words.Nodup
  init : ∀ w b, w ++ [b] ∈ words → w ∈ words
  edges : ∀ i w, words[i]? = some w → ∀ b j,
    (a.node i).edges.get? b = some j ↔ words[j]? = some (w ++ [b])
  depth : ∀ i w, words[i]? = some w → (a.node i).depth = w.length

section

variable (h : Trie words a)

include h

/-- A prefix of a word is a word. -/
theorem Trie.closed : PrefixClosed {w | w ∈ words} :=
  ⟨mem_of_getElem? h.root, h.init⟩

/-- A word has a state. -/
theorem Trie.lt (hi : words[i]? = some w) : i < a.nodes.length := by
  rw [h.length]
  exact (List.getElem?_eq_some_iff.mp hi).1

/-- A word has one state. -/
theorem Trie.inj (hi : words[i]? = some w) (hj : words[j]? = some w) : i = j :=
  (getElem?_inj (List.getElem?_eq_some_iff.mp hi).1 h.nodup).mp (hi.trans hj.symm)

/-- The root is the empty word. -/
theorem Trie.eq_zero_iff (hi : words[i]? = some w) : i = 0 ↔ w = [] := by
  constructor
  · rintro rfl
    exact Option.some.inj (hi.symm.trans h.root)
  · rintro rfl
    exact h.inj hi h.root

/-- A word has fewer bytes than there are words, since all its prefixes are words. -/
theorem Trie.length_lt (hw : w ∈ words) : w.length < words.length := by
  have hsub : (range (w.length + 1)).map w.take ⊆ words := by
    intro u hu
    obtain ⟨k, -, rfl⟩ := mem_map.mp hu
    exact h.closed.of_prefix hw ( take_prefix k w)
  have hnodup : ((range (w.length + 1)).map w.take).Nodup := by
    refine nodup_range.map_on fun k hk k' hk' heq => ?_
    have hlen := congrArg List.length heq
    rw [mem_range] at hk hk'
    rw [length_take, length_take] at hlen
    omega
  have hle := (subperm_of_subset hnodup hsub).length_le
  rw [length_map, length_range] at hle
  omega

/-- A change that leaves edges and depth alone keeps the trie. -/
theorem Trie.modifyNode
    (hedges : ∀ node, (f node).edges = node.edges) (hdepth : ∀ node, (f node).depth = node.depth) :
    Trie words (a.modifyNode i f) := by
  refine ⟨?_, h.root, h.nodup, h.init, fun j u hj b k => ?_, fun j u hj => ?_⟩
  · rw [length_modifyNode, h.length]
  · rw [node_modifyNode_congr hedges]
    exact h.edges j u hj b k
  · rw [node_modifyNode_congr hdepth]
    exact h.depth j u hj

end

/-! ### Building the trie -/

/-- A trie whose words are those the patterns need, up to `extra`, the part of a pattern that is
being added. A node that ends a pattern knows its length, and no node has a failure link. -/
structure Built (patterns : List (List UInt8)) (extra : List UInt8) (words : List (List UInt8))
    (a : Automaton) : Prop extends Trie words a where
  ends : ∀ i w, words[i]? = some w → (a.node i).terminal = if w ∈ patterns then w.length else 0
  unlinked : ∀ i, (a.node i).failure = 0
  whole : ∀ p ∈ patterns, p ∈ words
  needed : ∀ w ∈ words, w <+: extra ∨ ∃ p ∈ patterns, w <+: p

private theorem getElem?_singleton {u v : List UInt8} : [v][i]? = some u ↔ i = 0 ∧ u = v := by
  cases i with
  | zero => exact ⟨fun h => ⟨rfl, (Option.some.inj h).symm⟩, fun h => h.2 ▸ rfl⟩
  | succ i => exact iff_of_false (nofun) fun h => absurd h.1 (Nat.succ_ne_zero i)

/-- The automaton of no phrase. -/
theorem built_new : Built [] [] [[]] {} where
  length := rfl
  root := rfl
  nodup := nodup_singleton _
  init w b hw := by
    rw [mem_singleton] at hw
    exact absurd hw (append_ne_nil_of_right_ne_nil _ (cons_ne_nil _ _))
  edges i w hi b j := by
    obtain ⟨rfl, rfl⟩ := getElem?_singleton.mp hi
    refine iff_of_false (nofun) fun hj => ?_
    have hnil := (getElem?_singleton.mp hj).2
    exact absurd hnil (cons_ne_nil _ _)
  depth i w hi := by
    obtain ⟨rfl, rfl⟩ := getElem?_singleton.mp hi
    rfl
  ends i w hi := by
    obtain ⟨rfl, rfl⟩ := getElem?_singleton.mp hi
    rfl
  unlinked i := by
    cases i <;> rfl
  whole _ hp := nomatch hp
  needed w hw := .inl (mem_singleton.mp hw ▸ prefix_rfl)

private theorem node_append (a : Automaton) (node : Node) (j : ℕ) :
    (mk (a.nodes ++ [node])).node j = if j = a.nodes.length then node else a.node j := by
  rw [node_eq, node_eq]
  split_ifs with hj
  · rw [hj, getElem?_concat_length]
    rfl
  · rcases lt_or_gt_of_ne hj with hlt | hgt
    · rw [getElem?_append_left hlt]
    · rw [getElem?_eq_none (length_append ▸ hgt), getElem?_eq_none hgt.le]

/-- One more byte of a word: an existing edge is followed, a missing one is added. -/
private theorem Built.addByte (h : Built patterns w words a) (hi : words[i]? = some w) (byte : UInt8) :
    ∃ words', Built patterns (w ++ [byte]) words' (addByte (i, a) byte).2 ∧
      words'[(addByte (i, a) byte).1]? = some (w ++ [byte]) := by
  have hextra : ∀ u, u <+: w → u <+: w ++ [byte] := fun u hu => hu.trans (prefix_append _ _)
  cases hget : (a.node i).edges.get? byte with
  | some next =>
    rw [Automaton.addByte, hget]
    refine ⟨words, ⟨h.toTrie, h.ends, h.unlinked, h.whole, fun u hu => ?_⟩, (h.edges i w hi byte next).mp hget⟩
    exact (h.needed u hu).imp_left (hextra u)
  | none =>
    have hnew : w ++ [byte] ∉ words := by
      intro hmem
      obtain ⟨j, hj⟩ := mem_iff_getElem?.mp hmem
      rw [(h.edges i w hi byte j).mpr hj] at hget
      cases hget
    have hlt := h.lt hi
    have hold : ∀ {j : ℕ} {u}, words[j]? = some u → (words ++ [w ++ [byte]])[j]? = some u := by
      intro j u hj
      rwa [getElem?_append_left (List.getElem?_eq_some_iff.mp hj).1]
    have hlast : (words ++ [w ++ [byte]])[a.nodes.length]? = some (w ++ [byte]) := by
      rw [h.length, getElem?_concat_length]
    -- a node of the new trie is an old one or the last
    have hcases : ∀ {j : ℕ} {u}, (words ++ [w ++ [byte]])[j]? = some u →
        words[j]? = some u ∨ j = a.nodes.length ∧ u = w ++ [byte] := by
      intro j u hj
      rw [h.length]
      rcases lt_or_ge j words.length with hlt | hge
      · rw [getElem?_append_left hlt] at hj
        exact .inl hj
      · rw [getElem?_append_right hge, getElem?_singleton] at hj
        exact .inr ⟨by omega, hj.2⟩
    rw [Automaton.addByte, hget]
    set a' := a.modifyNode i fun node =>
      { node with edges := node.edges.set byte a.nodes.length }
    have hlen : a'.nodes.length = a.nodes.length := length_modifyNode
    have hnode := node_append a' { depth := (a.node i).depth + 1 }
    rw [hlen] at hnode
    refine ⟨words ++ [w ++ [byte]], ⟨⟨?_, hold h.root, ?_, ?_, ?_, ?_⟩, ?_, ?_, ?_, ?_⟩, hlast⟩
    · rw [length_append, length_append, hlen, h.length]
      rfl
    · exact h.nodup.append (nodup_singleton _) (disjoint_singleton.mpr hnew)
    · intro u b hu
      rcases mem_append.mp hu with hu | hu
      · exact mem_append_left _ (h.init u b hu)
      · obtain ⟨rfl, -⟩ := append_inj' (mem_singleton.mp hu) rfl
        exact mem_append_left _ (mem_of_getElem? hi)
    · intro j u hj b k
      rcases hcases hj with hj | ⟨rfl, rfl⟩
      · rw [hnode, if_neg (h.lt hj).ne]
        by_cases hji : j = i
        · subst hji
          obtain rfl := Option.some.inj (hi.symm.trans hj)
          rw [node_modifyNode_self _ hlt]
          by_cases hb : b = byte
          · subst hb
            rw [Dict.get?_set_self, Option.some.injEq]
            constructor
            · rintro rfl
              exact hlast
            · intro hk
              rcases hcases hk with hk | ⟨rfl, -⟩
              · exact absurd (mem_of_getElem? hk) hnew
              · rfl
          · rw [Dict.get?_set_of_ne hb, h.edges j w hj]
            refine ⟨hold, fun hk => (hcases hk).resolve_right fun hnewest => hb ?_⟩
            exact singleton_injective (append_cancel_left hnewest.2)
        · rw [node_modifyNode_of_ne hji, h.edges j u hj]
          refine ⟨hold, fun hk => (hcases hk).resolve_right fun hnewest => hji ?_⟩
          have hword : u = w := (append_inj' hnewest.2 rfl).1
          exact h.inj (hword ▸ hj) hi
      · rw [hnode, if_pos rfl]
        refine iff_of_false (nofun) fun hk => ?_
        rcases hcases hk with hk | ⟨-, heq⟩
        · exact hnew (h.init _ b (mem_of_getElem? hk))
        · have hlen := congrArg length heq
          rw [length_append] at hlen
          exact absurd hlen (Nat.succ_ne_self _)
    · intro j u hj
      rcases hcases hj with hj | ⟨rfl, rfl⟩
      · rw [hnode, if_neg (h.lt hj).ne]
        exact (node_modifyNode_congr (fun _ => by rfl)).trans (h.depth j u hj)
      · rw [hnode, if_pos rfl, length_append]
        exact congrArg _ (h.depth i w hi)
    · intro j u hj
      rcases hcases hj with hj | ⟨rfl, rfl⟩
      · rw [hnode, if_neg (h.lt hj).ne]
        exact (node_modifyNode_congr (fun _ => by rfl)).trans (h.ends j u hj)
      · rw [hnode, if_pos rfl, if_neg fun hmem => hnew (h.whole _ hmem)]
    · intro j
      rw [hnode]
      split_ifs
      · rfl
      · exact (node_modifyNode_congr (fun _ => by rfl)).trans (h.unlinked j)
    · exact fun p hp => mem_append_left _ (h.whole p hp)
    · intro u hu
      rcases mem_append.mp hu with hu | hu
      · exact (h.needed u hu).imp_left (hextra u)
      · exact .inl (mem_singleton.mp hu ▸ prefix_rfl)

/-- A whole word is added byte by byte. -/
private theorem Built.addBytes (h : Built patterns w words a) (hi : words[i]? = some w)
    (bytes : List UInt8) :
    ∃ words', Built patterns (w ++ bytes) words' (bytes.foldl Automaton.addByte (i, a)).2 ∧
      words'[(bytes.foldl Automaton.addByte (i, a)).1]? = some (w ++ bytes) := by
  induction bytes generalizing w words a i with
  | nil =>
    rw [append_nil]
    exact ⟨words, h, hi⟩
  | cons byte bytes ih =>
    obtain ⟨words1, hbuilt, hget⟩ := h.addByte hi byte
    obtain ⟨words2, hbuilt2, hget2⟩ := ih hbuilt hget
    rw [append_assoc] at hbuilt2 hget2
    exact ⟨words2, hbuilt2, hget2⟩

/-- One more phrase. -/
theorem Built.add (h : Built patterns [] words a) (pattern : List UInt8) :
    ∃ words', Built (patterns ++ [pattern]) [] words' (a.add pattern) := by
  obtain ⟨words', hbuilt, hget⟩ := h.addBytes h.root pattern
  rw [nil_append] at hbuilt hget
  rw [Automaton.add]
  set s := pattern.foldl Automaton.addByte (0, a)
  have hlt := hbuilt.lt hget
  refine ⟨words', ⟨hbuilt.toTrie.modifyNode (fun _ => rfl) fun _ => rfl, ?_, ?_, ?_, ?_⟩⟩
  · intro j u hj
    by_cases hjs : j = s.1
    · subst hjs
      obtain rfl := Option.some.inj (hget.symm.trans hj)
      rw [node_modifyNode_self _ hlt, if_pos (mem_append_right _ (mem_singleton_self _))]
    · have hne : u ≠ pattern := fun heq => hjs (hbuilt.inj (heq ▸ hj) hget)
      rw [node_modifyNode_of_ne hjs, hbuilt.ends j u hj]
      refine if_congr ?_ rfl rfl
      rw [mem_append, mem_singleton, or_iff_left hne]
  · intro j
    exact (node_modifyNode_congr (fun _ => by rfl)).trans (hbuilt.unlinked j)
  · intro p hp
    rcases mem_append.mp hp with hp | hp
    · exact hbuilt.whole p hp
    · exact mem_singleton.mp hp ▸ mem_of_getElem? hget
  · intro u hu
    rcases hbuilt.needed u hu with hu | ⟨p, hp, hu⟩
    · exact .inr ⟨pattern, mem_append_right _ (mem_singleton_self _), hu⟩
    · exact .inr ⟨p, mem_append_left _ hp, hu⟩

/-- More phrases, one by one. -/
theorem Built.addAll (h : Built patterns [] words a) (more : List (List UInt8)) :
    ∃ words', Built (patterns ++ more) [] words' (more.foldl Automaton.add a) := by
  induction more generalizing patterns words a with
  | nil =>
    rw [append_nil]
    exact ⟨words, h⟩
  | cons pattern more ih =>
    obtain ⟨words1, hbuilt⟩ := h.add pattern
    obtain ⟨words2, hbuilt2⟩ := ih hbuilt
    rw [append_assoc] at hbuilt2
    exact ⟨words2, hbuilt2⟩

end Sonar.PhraseGuard.Automaton
