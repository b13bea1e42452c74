import Furious.BTree.Root

/-!
Merging and dropping nodes.

A removal may leave a node without entries, which its parent drops, and two
neighbours that fit into one node, which their parent merges. The key between two
internal nodes is lost if the right one has a single child; the order of the tree
is kept in all other merges.

* `removeShiftInternal_eq`: the release of an emptied child;
* `mergeLeaf_spec`, `mergeInternal_spec`: the node that takes the place of two;
* `joins`, `mergeNext_spec`: whether neighbours are merged, and what becomes of the
  parent.
-/

namespace Furious

variable {V : Type} {d : ℕ}

/-! ### Releasing a node -/

/-- A node without children. -/
def Bare : Node V → Prop
  | .internal n => ∃ k, n.children = List.replicate k none
  | .leaf _ => True

/-- `fdb_btree_destroy_node` on a node without children. -/
lemma destroyNode_bare {nodes : Pool (Node V)} {x fuel : ℕ} {n : Node V} (hx : nodes.get x = some n)
    (hn : Bare n) : destroyNode (fuel + 1) nodes x = nodes.release x := by
  rw [destroyNode, hx]
  cases n with
  | leaf n => rfl
  | internal n =>
      obtain ⟨k, hk⟩ := hn
      have hfold : ∀ (f : Pool (Node V) → Option ℕ → Option (Pool (Node V))) k,
          f nodes none = some nodes → (List.replicate k none).foldlM f nodes = some nodes := by
        intro f k hf
        induction k with
        | zero => rfl
        | succ k ih =>
            rw [List.replicate_succ, List.foldlM_cons, hf]
            exact ih
      simp only [Option.bind_eq_bind, Option.bind_some, hk]
      rw [hfold _ k rfl, Option.bind_some]

/-- `fdb_btree_remove_shift_internal`, on a child without children. -/
lemma removeShiftInternal_eq {nodes : Pool (Node V)} {a x i : ℕ} {n : InternalNode} {c : Node V}
    (ha : nodes.get a = some (.internal n)) (hcount : n.nchildren ≠ 0)
    (hi : n.children[i]?.join = some x) (hax : x ≠ a)
    (hx : nodes.get x = some c) (hc : Bare c) :
    ∃ nodes', removeShiftInternal nodes a i = some nodes'
      ∧ nodes'.get = Function.update (Function.update nodes.get a (some (.internal (n.removeShift i))))
          x none := by
  obtain ⟨nodes₁, hput, hget₁⟩ := Pool.get_put ha (.internal (n.removeShift i))
  have hx₁ : nodes₁.get x = some c := by rw [hget₁, Function.update_of_ne hax, hx]
  obtain ⟨nodes₂, hrel, hget₂⟩ := Pool.get_release hx₁
  obtain ⟨fuel, hfuel⟩ : ∃ fuel, nodes₁.cells.length = fuel + 1 :=
    Nat.exists_eq_add_one.mpr (lt_of_le_of_lt (Nat.zero_le x) (Pool.lt_length_of_get hx₁))
  refine ⟨nodes₂, ?_, by rw [hget₂, hget₁]⟩
  simp only [removeShiftInternal, getInternal_eq ha, Option.bind_eq_bind, Option.bind_some, hi,
    if_neg hcount, hput, hfuel, destroyNode_bare hx₁ hc, hrel]

/-- The cells that a merge touches. -/
lemma Frame.merge {m m' : ℕ → Option (Node V)} {a x y : ℕ} (hy : m' y = none)
    (hm : ∀ k, k ≠ a → k ≠ x → k ≠ y → m' k = m k) : Frame m m' {a, x, y} {a, x} where
  same k hk hk' := by
    simp only [Set.mem_insert_iff, Set.mem_singleton_iff, not_or] at hk
    exact hm k hk.1 hk.2.1 hk.2.2
  fresh k hk' hk := by
    simp only [Set.mem_insert_iff, Set.mem_singleton_iff, not_or] at hk hk'
    rcases hk' with rfl | rfl
    · exact absurd rfl hk.1
    · exact absurd rfl hk.2.1
  dropped k hk hk' := by
    simp only [Set.mem_insert_iff, Set.mem_singleton_iff, not_or] at hk hk'
    rw [(hk.resolve_left hk'.1).resolve_left hk'.2]
    exact hy

/-! ### Merging two children -/

/-- A step on the neighbours `c₁` and `c₂` below a node, with the key `k` between them,
which become the one child `c`. -/
structure Joins (m m' : ℕ → Option (Node V)) (a : ℕ) (c₁ c₂ : Tree V d) (k : ℕ) (c : Tree V d) :
    Prop where
  held : c.Held m'
  nodup : (a :: c.cells).Nodup
  frame : Frame m m' (insert a (cellSet [c₁, c₂])) (insert a (cellSet [c]))
  filled : c.Filled
  toList : c.toList = c₁.toList ++ c₂.toList
  order : ¬(d ≠ 0 ∧ c₂.count = 1) →
    ∀ A B, Inorder (A ++ (c₁.flat ++ .sep k :: c₂.flat) ++ B) → Inorder (A ++ c.flat ++ B)
  chain : SameChain (c₁.leaves ++ c₂.leaves) c.leaves

section

variable {a : ℕ} {l r : List (Tree V d)} {kl kr : List ℕ} {k : ℕ} {nodes : Pool (Node V)}

lemma slots_mid {n : InternalNode} {c₁ c₂ : Tree V d} {ks : List ℕ}
    (hin : IsInternal n ((l ++ c₁ :: c₂ :: r).map Tree.addr) ks) :
    n.children[l.length]?.join = some c₁.addr ∧ n.children[l.length + 1]?.join = some c₂.addr := by
  rw [hin.slot, hin.slot]
  constructor
  · rw [List.getElem?_map, List.getElem?_append_right le_rfl]
    simp
  · rw [List.getElem?_map, List.getElem?_append_right (Nat.le_add_right _ 1),
      Nat.add_sub_cancel_left]
    simp

lemma IsInternal.nchildren_ne {n : InternalNode} {c : Tree V d} {q : List (Tree V d)} {ks : List ℕ}
    (hin : IsInternal n ((l ++ c :: q).map Tree.addr) ks) : n.nchildren ≠ 0 := by
  rw [hin.nchildren]
  simp

/-- The parent of two merged children. -/
lemma removeShift_right {n : InternalNode} {c₁ c₂ : Tree V d} (x : ℕ)
    (hin : IsInternal n ((l ++ c₁ :: c₂ :: r).map Tree.addr) (kl ++ k :: kr))
    (hl : l.length = kl.length) (hx : c₁.addr = x) (c : Tree V d) (hc : c.addr = x) :
    IsInternal (n.removeShift (l.length + 1)) ((l ++ [c] ++ r).map Tree.addr) (kl ++ kr) := by
  have h : IsInternal n (((l ++ [c₁]).map Tree.addr) ++ c₂.addr :: r.map Tree.addr) (kl ++ k :: kr) := by
    simpa using hin
  have := h.removeShift_mid (by simp [hl])
  simpa [hx, hc] using this

end

/-- `fdb_btree_merge_leaf`. -/
lemma mergeLeaf_spec {nodes : Pool (Node V)} {a : ℕ} {l r : List (Tree V 0)} {c₁ c₂ : Tree V 0}
    {kl kr : List ℕ} {k : ℕ} (h : (Tree.node a (l ++ c₁ :: c₂ :: r) (kl ++ k :: kr)).Held nodes.get)
    (hnd : (Tree.node a (l ++ c₁ :: c₂ :: r) (kl ++ k :: kr)).cells.Nodup) (hl : l.length = kl.length)
    (hfit : c₁.count + c₂.count ≤ leafMaxArity) (hc₁ : c₁.Filled) :
    ∃ c nodes', mergeLeaf nodes a l.length (l.length + 1) = some nodes'
      ∧ Joins nodes.get nodes'.get a c₁ c₂ k c
      ∧ ∃ n', nodes'.get a = some (.internal n')
        ∧ IsInternal n' ((l ++ [c] ++ r).map Tree.addr) (kl ++ kr) := by
  obtain ⟨n, hn, hin, hcs⟩ := Tree.held_node.mp h
  obtain ⟨x, es, nx, rfl⟩ := c₁.eq_leaf
  obtain ⟨y, fs, ny, rfl⟩ := c₂.eq_leaf
  obtain ⟨n₁, hn₁, hin₁⟩ := Tree.held_leaf.mp (hcs (Tree.leaf x es nx) (by simp))
  obtain ⟨n₂, hn₂, hin₂⟩ := Tree.held_leaf.mp (hcs (Tree.leaf y fs ny) (by simp))
  obtain ⟨hs₁, hs₂⟩ := slots_mid hin
  have hcount := hin.nchildren_ne
  rw [Tree.addr_leaf] at hs₁ hs₂
  have hne : a ≠ x ∧ a ≠ y ∧ x ≠ y := by
    simp only [Tree.cells_node, List.flatMap_append, List.flatMap_cons, Tree.cells_leaf,
      List.nodup_cons, List.mem_append, List.mem_cons, List.nodup_append, not_or,
      List.singleton_append] at hnd
    exact ⟨hnd.1.2.1, hnd.1.2.2.1, hnd.2.2.1.1.1⟩
  obtain ⟨hax, hay, hxy⟩ := hne
  -- the left leaf, the right leaf and the parent are written, and the right leaf released
  obtain ⟨nodes₁, hput₁, hget₁⟩ := Pool.get_put hn₁ (.leaf
    { leafs := overwrite n₁.leafs n₁.nleafs (n₂.leafs.take n₂.nleafs)
      keys := overwrite n₁.keys n₁.nleafs (n₂.keys.take n₂.nleafs)
      next := n₂.next
      nleafs := n₁.nleafs + n₂.nleafs })
  obtain ⟨nodes₂, hput₂, hget₂⟩ := Pool.get_put
    (show nodes₁.get y = some _ by rw [hget₁, Function.update_of_ne (Ne.symm hxy), hn₂])
    (.leaf { n₂ with leafs := overwrite n₂.leafs 0 (List.replicate n₂.nleafs none) })
  have ha₂ : nodes₂.get a = some (.internal n) := by
    rw [hget₂, hget₁, Function.update_of_ne hay, Function.update_of_ne hax, hn]
  obtain ⟨nodes₃, hrem, hget₃⟩ := removeShiftInternal_eq ha₂ hcount hs₂ (Ne.symm hay)
    (c := .leaf { n₂ with leafs := overwrite n₂.leafs 0 (List.replicate n₂.nleafs none) })
    (by rw [hget₂, Function.update_self]) trivial
  have hother : ∀ k, k ≠ a → k ≠ x → k ≠ y → nodes₃.get k = nodes.get k := by
    intro k hka hkx hky
    rw [hget₃, hget₂, hget₁, Function.update_of_ne hky, Function.update_of_ne hka,
      Function.update_of_ne hky, Function.update_of_ne hkx]
  have hseparator : n.keys[l.length]? = some k := by rw [hl]; exact hin.key_mid
  refine ⟨Tree.leaf x (es ++ fs) ny, nodes₃, ?_, ⟨?_, by simp [hax], ?_, ?_, by simp, ?_, ?_⟩,
    n.removeShift (l.length + 1), ?_, removeShift_right x hin hl rfl _ rfl⟩
  · have hcond : True ∧ n₁.nleafs + n₂.nleafs ≤ leafMaxArity :=
      ⟨trivial, by rw [hin₁.nleafs, hin₂.nleafs]; exact hfit⟩
    simp only [mergeLeaf, getInternal_eq hn, Option.bind_eq_bind, Option.bind_some, hs₁, hs₂,
      getLeaf_eq hn₁, getLeaf_eq hn₂, hput₁, hput₂, if_pos hcond, hrem]
  · refine Tree.held_leaf.mpr ⟨_, ?_, hin₁.merge hin₂ (by simpa using hfit)⟩
    rw [hget₃, Function.update_of_ne hxy, Function.update_of_ne (Ne.symm hax), hget₂,
      Function.update_of_ne hxy, hget₁, Function.update_self]
  · have hset : insert a (cellSet [Tree.leaf x es nx, Tree.leaf y fs ny]) = {a, x, y} := by
      ext k
      simp [cellSet]
    have hset' : insert a (cellSet [Tree.leaf x (es ++ fs) ny]) = {a, x} := by
      ext k
      simp [cellSet]
    rw [hset, hset']
    exact Frame.merge (by rw [hget₃, Function.update_self]) hother
  · refine Tree.filled_leaf.mpr fun hnil => ?_
    exact hc₁ (List.append_eq_nil_iff.mp hnil).1
  · intro _ A B hs
    refine hs.sublist ?_
    simp
  · exact ⟨fun e he => by simp at he ⊢; exact he.2, fun _ => rfl⟩
  · rw [hget₃, Function.update_of_ne hay, Function.update_self]

/-- `fdb_btree_merge_internal`. -/
lemma mergeInternal_spec {nodes : Pool (Node V)} {a : ℕ} {l r : List (Tree V (d + 1))}
    {c₁ c₂ : Tree V (d + 1)} {kl kr : List ℕ} {k : ℕ}
    (h : (Tree.node a (l ++ c₁ :: c₂ :: r) (kl ++ k :: kr)).Held nodes.get)
    (hnd : (Tree.node a (l ++ c₁ :: c₂ :: r) (kl ++ k :: kr)).cells.Nodup) (hl : l.length = kl.length)
    (hfit : c₁.count + c₂.count ≤ internalMaxArity) (hc₁ : c₁.Filled) (hc₂ : c₂.Filled) :
    ∃ c nodes', mergeInternal nodes a l.length (l.length + 1) = some nodes'
      ∧ Joins nodes.get nodes'.get a c₁ c₂ k c
      ∧ ∃ n', nodes'.get a = some (.internal n')
        ∧ IsInternal n' ((l ++ [c] ++ r).map Tree.addr) (kl ++ kr) := by
  obtain ⟨n, hn, hin, hcs⟩ := Tree.held_node.mp h
  obtain ⟨x, cs, ks, rfl⟩ := c₁.eq_node
  obtain ⟨y, ds, js, rfl⟩ := c₂.eq_node
  obtain ⟨n₁, hn₁, hin₁, hcs₁⟩ := Tree.held_node.mp (hcs (Tree.node x cs ks) (by simp))
  obtain ⟨n₂, hn₂, hin₂, hcs₂⟩ := Tree.held_node.mp (hcs (Tree.node y ds js) (by simp))
  obtain ⟨hs₁, hs₂⟩ := slots_mid hin
  have hcount := hin.nchildren_ne
  rw [Tree.addr_node] at hs₁ hs₂
  obtain ⟨hne₁, hf₁⟩ := Tree.filled_node.mp hc₁
  obtain ⟨hne₂, hf₂⟩ := Tree.filled_node.mp hc₂
  simp only [Tree.count_node] at hfit
  simp only [Tree.cells_node, List.flatMap_append, List.flatMap_cons, List.nodup_cons,
    List.mem_append, List.mem_cons, List.nodup_append, not_or, List.cons_append] at hnd
  obtain ⟨⟨-, hax, hacs, hay, hads, -⟩, -, ⟨⟨hxcs, hxy, hxds, -⟩, hcsn, ⟨⟨hyds, -⟩, ⟨hdsn, -, -⟩⟩,
    hcsds⟩, -⟩ := hnd
  have hycs : y ∉ cs.flatMap Tree.cells := fun hy => hcsds y hy y (Or.inl rfl) rfl
  have hdisj : ∀ k ∈ cs.flatMap Tree.cells, k ∉ ds.flatMap Tree.cells := fun k hk hk' =>
    hcsds k hk k (Or.inr (Or.inl hk')) rfl
  obtain ⟨ks', hin', hlen', hks'⟩ := hin₁.merge hin₂ (by simpa using hne₁) (by simpa using hne₂)
    (by simpa using hfit) k
  have hseparator : n.keys[l.length]? = some k := by rw [hl]; exact hin.key_mid
  -- the left node, the right node and the parent are written, and the right node released
  obtain ⟨nodes₁, hput₁, hget₁⟩ := Pool.get_put hn₁ (.internal
    { children := overwrite n₁.children n₁.nchildren (n₂.children.take n₂.nchildren)
      keys := if n₂.nchildren > 1 then
          overwrite n₁.keys (n₁.nchildren - 1) (k :: n₂.keys.take (n₂.nchildren - 1))
        else n₁.keys
      nchildren := n₁.nchildren + n₂.nchildren })
  obtain ⟨nodes₂, hput₂, hget₂⟩ := Pool.get_put
    (show nodes₁.get y = some _ by rw [hget₁, Function.update_of_ne (Ne.symm hxy), hn₂])
    (.internal { n₂ with children := overwrite n₂.children 0 (List.replicate n₂.nchildren none) })
  have ha₂ : nodes₂.get a = some (.internal n) := by
    rw [hget₂, hget₁, Function.update_of_ne hay, Function.update_of_ne hax, hn]
  have hbare : Bare (V := V)
      (.internal { n₂ with children := overwrite n₂.children 0 (List.replicate n₂.nchildren none) }) := by
    refine ⟨internalMaxArity, ?_⟩
    have := hin₂.children.clear
    simpa [hin₂.nchildren] using this
  obtain ⟨nodes₃, hrem, hget₃⟩ := removeShiftInternal_eq ha₂ hcount hs₂ (Ne.symm hay)
    (by rw [hget₂, Function.update_self]) hbare
  have hother : ∀ k, k ≠ a → k ≠ x → k ≠ y → nodes₃.get k = nodes.get k := by
    intro k hka hkx hky
    rw [hget₃, hget₂, hget₁, Function.update_of_ne hky, Function.update_of_ne hka,
      Function.update_of_ne hky, Function.update_of_ne hkx]
  have hsub : ∀ g, g ∈ cs ∨ g ∈ ds → g.Held nodes₃.get := by
    rintro g (hg | hg)
    · refine (hcs₁ g hg).congr fun k hk => ?_
      have hk' := List.mem_flatMap.mpr ⟨g, hg, hk⟩
      refine hother k ?_ ?_ ?_
      · rintro rfl
        exact hacs hk'
      · rintro rfl
        exact hxcs hk'
      · rintro rfl
        exact hycs hk'
    · refine (hcs₂ g hg).congr fun k hk => ?_
      have hk' := List.mem_flatMap.mpr ⟨g, hg, hk⟩
      refine hother k ?_ ?_ ?_
      · rintro rfl
        exact hads hk'
      · rintro rfl
        exact hxds hk'
      · rintro rfl
        exact hyds hk'
  have hcells : (Tree.node x (cs ++ ds) ks').cells
      = x :: (cs.flatMap Tree.cells ++ ds.flatMap Tree.cells) := by simp
  refine ⟨Tree.node x (cs ++ ds) ks', nodes₃, ?_, ⟨?_, ?_, ?_, ?_, by simp, ?_, ?_⟩,
    n.removeShift (l.length + 1), ?_, removeShift_right x hin hl rfl _ rfl⟩
  · have hcond : True ∧ n₁.nchildren + n₂.nchildren ≤ internalMaxArity
        ∧ (n₂.nchildren > 1 → n₁.nchildren ≠ 0) := by
      rw [hin₁.nchildren, hin₂.nchildren, List.length_map, List.length_map]
      exact ⟨trivial, hfit, fun _ => List.length_pos_iff.mpr hne₁ |>.ne'⟩
    simp only [mergeInternal, getInternal_eq hn, Option.bind_eq_bind, Option.bind_some, hs₁, hs₂,
      getInternal_eq hn₁, getInternal_eq hn₂, Nat.add_sub_cancel, hseparator, hput₁, hput₂,
      if_pos hcond, hrem]
  · refine Tree.held_node.mpr ⟨_, ?_, by rw [List.map_append]; exact hin', fun g hg => ?_⟩
    · rw [hget₃, Function.update_of_ne hxy, Function.update_of_ne (Ne.symm hax), hget₂,
        Function.update_of_ne hxy, hget₁, Function.update_self]
    · exact hsub g (List.mem_append.mp hg)
  · rw [hcells]
    simp only [List.nodup_cons, List.mem_cons, List.mem_append, List.nodup_append, not_or]
    exact ⟨⟨hax, hacs, hads⟩, ⟨hxcs, hxds⟩, hcsn, hdsn, fun k hk k' hk' e => hdisj k hk (e ▸ hk')⟩
  · rw [cellSet_nodes, cellSet_node]
    exact (Frame.merge (by rw [hget₃, Function.update_self]) hother).extend _
  · refine Tree.filled_node.mpr ⟨fun hnil => hne₁ (List.append_eq_nil_iff.mp hnil).1, fun g hg => ?_⟩
    exact (List.mem_append.mp hg).elim (hf₁ g) (hf₂ g)
  · intro hthin A B hs
    have hds : ds.length ≠ 1 := fun h1 => hthin ⟨Nat.succ_ne_zero d, h1⟩
    have hkeys : cs.length = ks.length + 1 := by
      have h1 := hin₁.length_keys
      have h2 := List.length_pos_iff.mpr hne₁
      rw [List.length_map] at h1
      omega
    rw [Tree.flat_node, hks' (by simpa using hds), List.map_append,
      interleave_split (by rw [List.length_map]; exact hkeys)]
    exact hs
  · simpa using SameChain.refl _
  · rw [hget₃, Function.update_of_ne hay, Function.update_self]

/-! ### The parent -/

/-- What becomes of the first two of some neighbours with these numbers of entries or
children: how many nodes a merge takes away, and whether a key between them is lost. -/
def joins (isLeaf : Bool) : List ℕ → ℕ × Bool
  | x :: y :: _ =>
      if x + y ≤ (if isLeaf then leafMaxArity else internalMaxArity) then (1, !isLeaf && y == 1)
      else (0, false)
  | _ => (0, false)

/-- The effect of the end of a removal on a node with the children `l ++ q`, the first two
of `q` of which may be merged. -/
structure Closes (m m' : ℕ → Option (Node V)) (T T' : Tree V (d + 1)) (q : List (Tree V d)) : Prop where
  step : Step m m' T T'
  filled : ∀ c ∈ T'.children, c.Filled
  toList : T'.toList = T.toList
  count : T'.count + (joins (decide (d = 0)) (q.map Tree.count)).1 = T.count
  ne : T.count ≠ 0 → T'.count ≠ 0
  order : (joins (decide (d = 0)) (q.map Tree.count)).2 = false → KeepsOrder T T'
  chain : SameChain T.leaves T'.leaves

lemma Closes.refl {m : ℕ → Option (Node V)} {T : Tree V (d + 1)} {q : List (Tree V d)}
    (h : T.Held m) (hnd : T.cells.Nodup) (hf : ∀ c ∈ T.children, c.Filled)
    (hq : (joins (decide (d = 0)) (q.map Tree.count)).1 = 0) : Closes m m T T q where
  step := Step.refl h hnd
  filled := hf
  toList := rfl
  count := by rw [hq]; rfl
  ne h := h
  order _ _ _ h := h
  chain := SameChain.refl _

/-- The parent of two merged children. -/
lemma Joins.closes {m m' : ℕ → Option (Node V)} {a : ℕ} {l r : List (Tree V d)} {c₁ c₂ c : Tree V d}
    {kl kr : List ℕ} {k : ℕ} (hj : Joins m m' a c₁ c₂ k c)
    (h : (Tree.node a (l ++ c₁ :: c₂ :: r) (kl ++ k :: kr)).Held m)
    (hnd : (Tree.node a (l ++ c₁ :: c₂ :: r) (kl ++ k :: kr)).cells.Nodup) (hl : l.length = kl.length)
    (hf : ∀ x, x ∈ l ∨ x ∈ r → x.Filled)
    (hnode : ∃ n', m' a = some (.internal n')
      ∧ IsInternal n' ((l ++ [c] ++ r).map Tree.addr) (kl ++ kr))
    (hq : joins (decide (d = 0)) ((c₁ :: c₂ :: r).map Tree.count)
      = (1, !decide (d = 0) && c₂.count == 1)) :
    Closes m m' (Tree.node a (l ++ c₁ :: c₂ :: r) (kl ++ k :: kr))
      (Tree.node a (l ++ c :: r) (kl ++ kr)) (c₁ :: c₂ :: r) := by
  refine ⟨?_, fun x hx => ?_, by simp [hj.toList], ?_, fun _ => by simp, fun hthin A B hs => ?_, ?_⟩
  · have hsplit : l ++ c₁ :: c₂ :: r = l ++ [c₁, c₂] ++ r := by simp
    have hsplit' : l ++ c :: r = l ++ [c] ++ r := by simp
    rw [hsplit] at h hnd ⊢
    rw [hsplit']
    refine Step.window h hnd hj.frame hnode (fun x hx => ?_) (by simpa using hj.nodup)
    rw [List.mem_singleton.mp hx]
    exact hj.held
  · rcases List.mem_append.mp hx with hx | hx
    · exact hf x (Or.inl hx)
    · rcases List.mem_cons.mp hx with rfl | hx
      · exact hj.filled
      · exact hf x (Or.inr hx)
  · rw [hq]
    simp only [Tree.count_node, List.length_append, List.length_cons]
    omega
  · rw [hq] at hthin
    have hthin' : ¬(d ≠ 0 ∧ c₂.count = 1) := by
      rintro ⟨hd, h1⟩
      simp [hd, h1] at hthin
    rw [flat_mid hl, rightOf_cons] at hs
    have := hj.order hthin' (A ++ leftOf l kl) (rightOf r kr ++ B) (by simpa using hs)
    rw [flat_mid hl]
    simpa using this
  · have := hj.chain.mid (l.flatMap Tree.leaves) (r.flatMap Tree.leaves)
    simpa using this

/-- **The merge of a child with its right neighbour**, at the end of `fdb_btree_remove_node`. -/
theorem mergeNext_spec {nodes : Pool (Node V)} {a : ℕ} {l q : List (Tree V d)} {ks : List ℕ}
    (h : (Tree.node a (l ++ q) ks).Held nodes.get) (hnd : (Tree.node a (l ++ q) ks).cells.Nodup)
    (hf : ∀ x ∈ l ++ q, x.Filled) :
    ∃ nodes' T', mergeNext nodes a l.length = some nodes'
      ∧ Closes nodes.get nodes'.get (Tree.node a (l ++ q) ks) T' q := by
  obtain ⟨n, hn, hin, hcs⟩ := Tree.held_node.mp h
  have hnone : q.length ≤ 1 → ∃ nodes' T', mergeNext nodes a l.length = some nodes'
      ∧ Closes nodes.get nodes'.get (Tree.node a (l ++ q) ks) T' q := by
    intro hq
    have hslot : n.children[l.length + 1]?.join = none := by
      rw [hin.slot]
      exact List.getElem?_eq_none (by simp; omega)
    refine ⟨nodes, _, ?_, Closes.refl h hnd hf ?_⟩
    · simp only [mergeNext, getInternal_eq hn, Option.bind_eq_bind, Option.bind_some, hslot]
    · cases q with
      | nil => rfl
      | cons c q =>
          obtain rfl := List.length_eq_zero_iff.mp (Nat.le_zero.mp (Nat.le_of_succ_le_succ hq))
          rfl
  cases q with
  | nil => exact hnone (Nat.zero_le 1)
  | cons c₁ q =>
      cases q with
      | nil => exact hnone le_rfl
      | cons c₂ r =>
          obtain ⟨kl, k, kr, rfl, hl⟩ : ∃ kl k kr, ks = kl ++ k :: kr ∧ l.length = kl.length := by
            have hlt : l.length < ks.length := by
              rw [hin.length_keys]
              simp
            refine ⟨ks.take l.length, ks[l.length], ks.drop (l.length + 1), ?_, ?_⟩
            · rw [← List.drop_eq_getElem_cons hlt, List.take_append_drop]
            · simp [hlt.le]
          obtain ⟨hs₁, hs₂⟩ := slots_mid hin
          have hc₁ := hf c₁ (by simp)
          have hc₂ := hf c₂ (by simp)
          have hf' : ∀ x, x ∈ l ∨ x ∈ r → x.Filled := fun x hx => hf x (by simp; tauto)
          cases d with
          | zero =>
              obtain ⟨x, es, nx, rfl⟩ := c₁.eq_leaf
              obtain ⟨y, fs, ny, rfl⟩ := c₂.eq_leaf
              obtain ⟨n₁, hn₁, hin₁⟩ := Tree.held_leaf.mp (hcs (Tree.leaf x es nx) (by simp))
              obtain ⟨n₂, hn₂, hin₂⟩ := Tree.held_leaf.mp (hcs (Tree.leaf y fs ny) (by simp))
              rw [Tree.addr_leaf] at hs₁ hs₂
              by_cases hfit : es.length + fs.length ≤ leafMaxArity
              · obtain ⟨c, nodes', hmerge, hj, hnode⟩ := mergeLeaf_spec h hnd hl hfit hc₁
                refine ⟨nodes', _, ?_, hj.closes h hnd hl hf' hnode ?_⟩
                · simp only [mergeNext, getInternal_eq hn, Option.bind_eq_bind, Option.bind_some, hs₁,
                    hs₂, hn₁, hn₂, Node.count, hin₁.nleafs, hin₂.nleafs, if_pos hfit, hmerge]
                · simp [joins, hfit]
              · refine ⟨nodes, _, ?_, Closes.refl h hnd hf ?_⟩
                · simp only [mergeNext, getInternal_eq hn, Option.bind_eq_bind, Option.bind_some, hs₁,
                    hs₂, hn₁, hn₂, Node.count, hin₁.nleafs, hin₂.nleafs, if_neg hfit]
                · simp [joins, hfit]
          | succ d =>
              obtain ⟨x, cs, js, rfl⟩ := c₁.eq_node
              obtain ⟨y, ds, js', rfl⟩ := c₂.eq_node
              obtain ⟨n₁, hn₁, hin₁, -⟩ := Tree.held_node.mp (hcs (Tree.node x cs js) (by simp))
              obtain ⟨n₂, hn₂, hin₂, -⟩ := Tree.held_node.mp (hcs (Tree.node y ds js') (by simp))
              rw [Tree.addr_node] at hs₁ hs₂
              have h₁ : n₁.nchildren = cs.length := by rw [hin₁.nchildren, List.length_map]
              have h₂ : n₂.nchildren = ds.length := by rw [hin₂.nchildren, List.length_map]
              by_cases hfit : cs.length + ds.length ≤ internalMaxArity
              · obtain ⟨c, nodes', hmerge, hj, hnode⟩ := mergeInternal_spec h hnd hl hfit hc₁ hc₂
                refine ⟨nodes', _, ?_, hj.closes h hnd hl hf' hnode ?_⟩
                · simp only [mergeNext, getInternal_eq hn, Option.bind_eq_bind, Option.bind_some, hs₁,
                    hs₂, hn₁, hn₂, Node.count, h₁, h₂, if_pos hfit, hmerge]
                · simp [joins, hfit]
              · refine ⟨nodes, _, ?_, Closes.refl h hnd hf ?_⟩
                · simp only [mergeNext, getInternal_eq hn, Option.bind_eq_bind, Option.bind_some, hs₁,
                    hs₂, hn₁, hn₂, Node.count, h₁, h₂, if_neg hfit]
                · simp [joins, hfit]

end Furious
