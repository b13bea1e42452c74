import Furious.BTree.Runs

/-!
Removals that find nothing.

A removal of a key that is not there removes nothing, but on its way back it merges
neighbours as any other. Its search must end in a leaf, at a place inside its arrays:
there is no leaf in an empty tree, and behind the entries of a full one no place.

* `Tree.misses`: whether the search ends at a place, and what the merges on the way
  back do;
* `missing`, `BTree.tolerates`: the same, read off the nodes, `missing_eq`;
* `Misses`: the effect on a subtree, `removeNode_missing`;
* `Stands.remove_missing`: **the B-tree shows the same map**.
-/

namespace Furious

variable {V : Type} {d : ℕ} {key : ℕ}

/-- How many children the topmost node loses in a removal that finds nothing, and whether
a key between two merged nodes is lost; `none` if the search ends at no place. -/
def Tree.misses (key : ℕ) : {d : ℕ} → Tree V d → Option (ℕ × Bool)
  | 0, t =>
      if ((Leaf.entries t).takeWhile fun e => e.1 < key).length < leafMaxArity then some (0, false)
      else none
  | d + 1, t =>
      match (Inner.children t).drop ((Inner.keys t).takeWhile fun k => k ≤ key).length with
      | [] => none
      | c :: r => do
          let lost ← misses key c
          let joined := joins (decide (d = 0)) ((c.count - lost.1) :: r.map Tree.count)
          some (joined.1, lost.2 || joined.2)

/-- What `fdb_btree_remove_node` will do if it finds nothing. -/
def missing (nodes : Pool (Node V)) (key : ℕ) : ℕ → ℕ → Option (ℕ × Bool)
  | 0, _ => none
  | fuel + 1, node => do
      match ← nodes.get node with
      | .leaf n => if n.nextPos key < leafMaxArity then some (0, false) else none
      | .internal n => do
          let childIdx := n.next key
          let child ← n.children[childIdx]?.join
          let lost ← missing nodes key fuel child
          let c ← nodes.get child
          let joined := joins c.isLeaf
            ((c.count - lost.1) :: countsOf nodes (n.children.drop (childIdx + 1)))
          some (joined.1, lost.2 || joined.2)

/-- A removal that does not find the key does no harm. -/
def BTree.tolerates (t : BTree V) (key : ℕ) : Bool :=
  match missing t.nodes key t.nodes.cells.length t.root with
  | some lost => !lost.2
  | none => false

lemma Tree.misses_node {a : ℕ} {l r : List (Tree V d)} {c : Tree V d} {kl kr : List ℕ}
    (h : Route key l r kl kr) :
    (Tree.node a (l ++ c :: r) (kl ++ kr)).misses key
      = (c.misses key).bind fun lost =>
          some ((joins (decide (d = 0)) ((c.count - lost.1) :: r.map Tree.count)).1,
            lost.2 || (joins (decide (d = 0)) ((c.count - lost.1) :: r.map Tree.count)).2) := by
  rw [Tree.misses]
  have hdrop : (Inner.children (Tree.node a (l ++ c :: r) (kl ++ kr))).drop
      ((Inner.keys (Tree.node a (l ++ c :: r) (kl ++ kr))).takeWhile fun k => k ≤ key).length
        = c :: r := by
    show (l ++ c :: r).drop ((kl ++ kr).takeWhile fun k => k ≤ key).length = c :: r
    rw [h.takeWhile_eq, ← h.left]
    exact List.drop_left
  rw [hdrop]
  rfl

/-- The prediction is that of the tree. -/
theorem missing_eq {nodes : Pool (Node V)} {T : Tree V d} {fuel : ℕ} (h : T.Held nodes.get)
    (hf : T.Filled) (hfuel : d < fuel) : missing nodes key fuel T.addr = T.misses key := by
  induction d generalizing fuel with
  | zero =>
      obtain ⟨a, es, nx, rfl⟩ := T.eq_leaf
      obtain ⟨n, hn, hin⟩ := Tree.held_leaf.mp h
      cases fuel with
      | zero => omega
      | succ fuel =>
          rw [missing, Tree.addr_leaf, hn]
          simp only [Option.bind_eq_bind, Option.bind_some, hin.nextPos_eq]
          rfl
  | succ d ih =>
      obtain ⟨a, cs, ks, rfl⟩ := T.eq_node
      obtain ⟨_, -, hin, hcs⟩ := Tree.held_node.mp h
      obtain ⟨hne, hfs⟩ := Tree.filled_node.mp hf
      cases fuel with
      | zero => omega
      | succ fuel =>
          obtain ⟨l, c, r, kl, kr, rfl, rfl, hr⟩ :=
            Route.exists_of_ne (by simpa using hin.length_keys) hne key
          obtain ⟨n, n', hn, hnext, hslot, hn', hcount, hleaf, hcounts⟩ := h.route hr
          rw [missing, Tree.addr_node, hn, Tree.misses_node hr]
          simp only [Option.bind_eq_bind, Option.bind_some, hnext, hslot, hn',
            ih (hcs c (by simp)) (hfs c (by simp)) (Nat.lt_of_succ_lt_succ hfuel), hcount, hleaf, hcounts]

/-! ### The removal -/

/-- The effect of a removal that finds nothing on a subtree. -/
structure Misses (t t' : BTree V) (T T' : Tree V d) (lost : ℕ × Bool) : Prop where
  root : t'.root = t.root
  size : t'.size = t.size
  step : Step t.nodes.get t'.nodes.get T T'
  filled : T'.Filled
  toList : T'.toList = T.toList
  count : T'.count + lost.1 = T.count
  order : lost.2 = false → KeepsOrder T T'
  chain : SameChain T.leaves T'.leaves

/-- A filled tree has an entry or a child. -/
lemma Tree.Filled.count_ne {T : Tree V d} (h : T.Filled) : T.count ≠ 0 := by
  cases d with
  | zero =>
      obtain ⟨a, es, nx, rfl⟩ := T.eq_leaf
      exact fun h0 => h (List.length_eq_zero_iff.mp h0)
  | succ d =>
      obtain ⟨a, cs, ks, rfl⟩ := T.eq_node
      exact fun h0 => (Tree.filled_node.mp h).1 (List.length_eq_zero_iff.mp h0)

/-- `fdb_btree_remove_node` on a leaf without the key. -/
lemma removeNode_leaf_missing {t : BTree V} {T : Tree V 0} {fuel : ℕ} {lost : ℕ × Bool}
    (h : T.Held t.nodes.get) (hf : T.Filled) (hfind : T.find key = none)
    (hmiss : T.misses key = some lost) :
    removeNode key (fuel + 1) t T.addr = some (t, none, none) ∧ Misses t t T T lost := by
  obtain ⟨a, es, nx, rfl⟩ := T.eq_leaf
  obtain ⟨n, hn, hin⟩ := Tree.held_leaf.mp h
  obtain ⟨l, r, rfl, htake, hdrop, -, -⟩ := exists_place es key
  have hpos : n.nextPos key = l.length := by rw [hin.nextPos_eq, htake]
  have hmiss' : (if ((l ++ r).takeWhile fun e => e.1 < key).length < leafMaxArity
      then some (0, false) else none) = some lost := hmiss
  rw [htake] at hmiss'
  by_cases hlt : l.length < leafMaxArity
  · rw [if_pos hlt] at hmiss'
    obtain rfl := Option.some.inj hmiss'
    refine ⟨?_, rfl, rfl, Step.refl h (List.nodup_singleton a), hf, rfl, rfl, fun _ _ _ h => h,
      SameChain.refl _⟩
    have hvalue := hin.value_some hlt
    obtain ⟨k, hk⟩ := hin.key_some hlt
    have hcond : ((l ++ r)[l.length]?.map Prod.snd).isNone = true ∨ k ≠ key := by
      cases r with
      | nil => exact Or.inl (by simp)
      | cons e r =>
          right
          rintro rfl
          have hkey := hin.key_mid
          rw [hk] at hkey
          rw [Tree.find_leaf, findEntry, hdrop] at hfind
          change (if e.1 = k then some e.2 else none) = none at hfind
          rw [if_pos (Option.some.inj hkey).symm] at hfind
          cases hfind
    simp only [removeNode, Tree.addr_leaf, hn, Option.bind_eq_bind, Option.bind_some, hpos, hvalue, hk,
      if_pos hcond]
  · rw [if_neg hlt] at hmiss'
    cases hmiss'

/-- The way back to a node. -/
lemma Misses.node {t t₁ : BTree V} {a : ℕ} {l r : List (Tree V d)} {c c' : Tree V d} {kl kr : List ℕ}
    {lost : ℕ × Bool} {nodes₂ : Pool (Node V)} {T' : Tree V (d + 1)} (hc : Misses t t₁ c c' lost)
    (hl : l.length = kl.length) (h : (Tree.node a (l ++ c :: r) (kl ++ kr)).Held t.nodes.get)
    (hnd : (Tree.node a (l ++ c :: r) (kl ++ kr)).cells.Nodup)
    (hclose : Closes t₁.nodes.get nodes₂.get (Tree.node a (l ++ c' :: r) (kl ++ kr)) T' (c' :: r)) :
    Misses t { t₁ with nodes := nodes₂ } (Tree.node a (l ++ c :: r) (kl ++ kr)) T'
      ((joins (decide (d = 0)) ((c.count - lost.1) :: r.map Tree.count)).1,
        lost.2 || (joins (decide (d = 0)) ((c.count - lost.1) :: r.map Tree.count)).2) := by
  have hleft : (c.count - lost.1) :: r.map Tree.count = (c' :: r).map Tree.count := by
    have hcount := hc.count
    rw [List.map_cons, show c.count - lost.1 = c'.count by omega]
  rw [hleft]
  refine ⟨hc.root, hc.size, (Step.focus h hnd hc.step).trans hclose.step, ?_, ?_, ?_, fun hthin => ?_, ?_⟩
  · have hne := hclose.ne (by simp)
    obtain ⟨b, cs, js, rfl⟩ := T'.eq_node
    refine Tree.filled_node.mpr ⟨?_, hclose.filled⟩
    rintro rfl
    exact hne rfl
  · rw [hclose.toList]
    simp [hc.toList]
  · rw [hclose.count]
    simp
  · rw [Bool.or_eq_false_iff] at hthin
    intro A B hs
    refine hclose.order hthin.2 A B ?_
    rw [flat_mid hl] at hs ⊢
    have := hc.order hthin.1 (A ++ leftOf l kl) (rightOf r kr ++ B) (by simpa using hs)
    simpa using this
  · refine SameChain.trans ?_ hclose.chain
    have := hc.chain.mid (l.flatMap Tree.leaves) (r.flatMap Tree.leaves)
    simpa using this

/-- **`fdb_btree_remove_node`**, on a tree in which the search does not find the key. -/
theorem removeNode_missing {t : BTree V} {T : Tree V d} {fuel : ℕ} {lost : ℕ × Bool}
    (h : T.Held t.nodes.get) (hnd : T.cells.Nodup) (hf : T.Filled) (hfind : T.find key = none)
    (hmiss : T.misses key = some lost) (hfuel : d < fuel) :
    ∃ t' T', removeNode key fuel t T.addr = some (t', none, none) ∧ Misses t t' T T' lost := by
  induction d generalizing t fuel lost with
  | zero =>
      cases fuel with
      | zero => omega
      | succ fuel =>
          obtain ⟨heq, hm⟩ := removeNode_leaf_missing h hf hfind hmiss
          exact ⟨t, T, heq, hm⟩
  | succ d ih =>
      cases fuel with
      | zero => omega
      | succ fuel =>
          obtain ⟨a, cs, ks, rfl⟩ := T.eq_node
          obtain ⟨_, -, hin, hcs⟩ := Tree.held_node.mp h
          obtain ⟨hne, hfs⟩ := Tree.filled_node.mp hf
          obtain ⟨l, c, r, kl, kr, rfl, rfl, hr⟩ :=
            Route.exists_of_ne (by simpa using hin.length_keys) hne key
          rw [Tree.find_node hr] at hfind
          rw [Tree.misses_node hr] at hmiss
          obtain ⟨lostc, hmissc, hlost⟩ := Option.bind_eq_some_iff.mp hmiss
          obtain rfl := Option.some.inj hlost
          have hcnd : c.cells.Nodup := by
            have := hnd
            simp only [Tree.cells_node, List.flatMap_append, List.flatMap_cons, List.nodup_cons,
              List.nodup_append] at this
            exact this.2.2.1.1
          obtain ⟨t₁, c', heq, hc⟩ := ih (hcs c (by simp)) hcnd (hfs c (by simp)) hfind hmissc
            (Nat.lt_of_succ_lt_succ hfuel)
          have hfocus := Step.focus h hnd hc.step
          have hfilled : ∀ x ∈ l ++ c' :: r, x.Filled := by
            intro x hx
            rcases List.mem_append.mp hx with hx | hx
            · exact hfs x (List.mem_append_left _ hx)
            · rcases List.mem_cons.mp hx with rfl | hx
              · exact hc.filled
              · exact hfs x (by simp [hx])
          obtain ⟨nodes₂, T', hmerge, hclose⟩ := mergeNext_spec hfocus.held hfocus.nodup hfilled
          refine ⟨_, T', ?_, hc.node hr.left h hnd hclose⟩
          obtain ⟨n, -, hn, hnext, hslot, -⟩ := h.route hr
          -- the child keeps entries or children, so it is not dropped
          obtain ⟨n', hn', hcount, -⟩ := hc.step.held.top
          have hkeep : n'.count ≠ 0 := by rw [hcount]; exact hc.filled.count_ne
          rw [hc.step.addr] at hn'
          rw [removeNode, Tree.addr_node, hn]
          simp only [Option.bind_eq_bind, Option.bind_some, hnext, hslot, heq, setSeparator, dropEmpty,
            hn', if_neg hkeep, hmerge]

/-- **`fdb_btree_remove`** of a key that is not there. -/
theorem Stands.remove_missing {t : BTree V} {M : KeyMap V} {T : Tree V (d + 1)} (h : Stands t M T)
    (hkey : M.lookup key = none) (htol : t.tolerates key = true) :
    ∃ (d' : ℕ) (t' : BTree V) (T' : Tree V (d' + 1)), t.remove key = some (t', none)
      ∧ Stands t' M T' ∧ t'.size = t.size
      ∧ (Linked none T.leaves → Linked none T'.leaves) := by
  have hle := cells_length_le h.rooted.held h.rooted.nodup
  -- there is a leaf to end in
  have hfilled : T.Filled := by
    obtain ⟨a, cs, ks, rfl⟩ := T.eq_node
    refine Tree.filled_node.mpr ⟨?_, h.rooted.filled⟩
    rintro rfl
    obtain ⟨n, hn, hin, -⟩ := Tree.held_node.mp h.rooted.held
    have hslot : n.children[n.next key]?.join = none := by rw [hin.slot]; rfl
    obtain ⟨fuel, hfuel⟩ := Nat.exists_eq_add_one.mpr (lt_of_lt_of_le Nat.one_pos hle)
    rw [BTree.tolerates, hfuel, ← h.rooted.addr, Tree.addr_node, missing, hn] at htol
    simp only [Option.bind_eq_bind, Option.bind_some, hslot, Option.bind_none, Bool.false_eq_true] at htol
  have hdepth : d + 1 < t.nodes.cells.length := lt_of_lt_of_le hfilled.depth_lt hle
  rw [BTree.tolerates, ← h.rooted.addr, missing_eq h.rooted.held hfilled hdepth] at htol
  cases hmiss : T.misses key with
  | none =>
      rw [hmiss] at htol
      cases htol
  | some lost =>
      rw [hmiss, Bool.not_eq_true'] at htol
      have hfind : T.find key = none := by rw [h.find_eq, hkey]
      obtain ⟨t₁, T₁, hrem, h₁⟩ := removeNode_missing h.rooted.held h.rooted.nodup hfilled hfind hmiss hdepth
      have hrooted : Rooted t₁ T₁ := by
        refine ⟨?_, h₁.step.held, h₁.step.nodup, ?_, h₁.step.exact h.rooted.exact⟩
        · rw [h₁.step.addr, h₁.root, h.rooted.addr]
        · obtain ⟨b, cs, ks, rfl⟩ := T₁.eq_node
          exact (Tree.filled_node.mp h₁.filled).2
      obtain ⟨d', t', T', hcol, hrooted', hsize, hlist, hleaves, horder⟩ := collapseRoot_spec hrooted
      refine ⟨d', t', T', ?_, ⟨hrooted', horder ?_, ?_⟩, by rw [hsize, h₁.size], fun hl => ?_⟩
      · rw [h.rooted.addr] at hrem
        simp only [BTree.remove, Option.bind_eq_bind, Option.bind_some, hrem, hcol]
      · have := h₁.order htol [] [] (by simpa using h.inorder)
        simpa using this
      · rw [hlist, h₁.toList]
        exact h.lists
      · rw [hleaves]
        exact h₁.chain.linked none hl

end Furious
