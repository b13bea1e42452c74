import Furious.BTree.Search

/-!
Insertion.

A full node is split before the insertion descends into it, so that the leaf that it
reaches has room. Splitting a node changes neither the entries nor the order nor the
chain of the leaves.

* `splitInternal_eq`, `splitLeaf_eq`: the nodes that a split leaves behind;
* `Descent`: what `fdb_btree_split_child_full` makes of a node and where it goes on,
  `splitChildFull_spec`;
* `Inserts`: the effect of an insertion on a subtree, `insertNode_spec`.
-/

namespace Furious

variable {V : Type} {d : ℕ} {key : ℕ}

lemma getInternal_eq {nodes : Pool (Node V)} {a : ℕ} {n : InternalNode}
    (h : nodes.get a = some (.internal n)) : getInternal nodes a = some n := by
  rw [getInternal, h]

lemma getLeaf_eq {nodes : Pool (Node V)} {a : ℕ} {n : LeafNode V}
    (h : nodes.get a = some (.leaf n)) : getLeaf nodes a = some n := by
  rw [getLeaf, h]

/-- `fdb_btree_shift_insert_internal`, behind a slot of a node that is not full. -/
lemma shiftInsertInternal_eq {nodes nodes' : Pool (Node V)} {a i x k : ℕ} {n : InternalNode}
    (ha : nodes.get a = some (.internal n)) (hi : i + 1 < internalMaxArity)
    (hput : nodes.put a (.internal (n.shiftInsert (i + 1) x k)) = some nodes') :
    shiftInsertInternal nodes a (i + 1) x k = some nodes' := by
  simp only [shiftInsertInternal, getInternal_eq ha, Option.bind_eq_bind, Option.bind_some,
    if_pos (And.intro (Nat.succ_pos i) hi), hput]

/-! ### Splitting a node -/

/-- `fdb_btree_split_internal`. -/
lemma splitInternal_eq {nodes : Pool (Node V)} {x s : ℕ} {n : InternalNode} {l r kl kr : List ℕ}
    (hx : nodes.get x = some (.internal n)) (hn : IsInternal n (l ++ r) (kl ++ s :: kr))
    (hl : l.length = internalMinArity) (hkl : kl.length = internalMinArity - 1)
    (hr : r.length = internalMaxArity - internalMinArity) :
    ∃ b nodes' n₁ n₂, splitInternal nodes x = some (b, s, nodes') ∧ nodes.get b = none
      ∧ nodes'.get = Function.update (Function.update nodes.get b (some (.internal n₂))) x
          (some (.internal n₁))
      ∧ IsInternal n₁ l kl ∧ IsInternal n₂ r kr := by
  obtain ⟨b, nodes₁, halloc, hb, hget₁⟩ := nodes.get_alloc (.internal
    ⟨List.replicate internalMaxArity none, List.replicate (internalMaxArity - 1) 0, 0⟩)
  have hxb : x ≠ b := by
    rintro rfl
    rw [hx] at hb
    cases hb
  have hx₁ : nodes₁.get x = some (.internal n) := by rw [hget₁, Function.update_of_ne hxb, hx]
  have hs : n.keys[internalMinArity - 1]? = some s := by rw [← hkl]; exact hn.key_mid
  obtain ⟨nodes₂, hput₂, hget₂⟩ := Pool.get_put
    (show nodes₁.get b = some _ by rw [hget₁, Function.update_self]) (.internal
      { children := n.children.drop internalMinArity ++ List.replicate internalMinArity none
        keys := n.keys.drop internalMinArity ++ List.replicate internalMinArity 0
        nchildren := internalMaxArity - internalMinArity })
  obtain ⟨nodes₃, hput₃, hget₃⟩ := Pool.get_put
    (show nodes₂.get x = some _ by rw [hget₂, Function.update_of_ne hxb, hx₁]) (.internal
      { children := n.children.take internalMinArity
          ++ List.replicate (internalMaxArity - internalMinArity) none
        keys := n.keys.take (internalMinArity - 1)
          ++ List.replicate (internalMaxArity - internalMinArity) 0
        nchildren := n.nchildren - (internalMaxArity - internalMinArity) })
  refine ⟨b, nodes₃, _, _, ?_, hb, ?_, hn.lower hl hkl hr, hn.upper hl hkl hr⟩
  · simp only [splitInternal, createInternal, halloc, getInternal_eq hx₁, hs, hput₂, hput₃,
      Option.bind_eq_bind, Option.bind_some]
  · rw [hget₃, hget₂, hget₁, Function.update_idem]

/-- `fdb_btree_split_leaf`. -/
lemma splitLeaf_eq {nodes : Pool (Node V)} {x : ℕ} {n : LeafNode V} {l r : List (ℕ × V)} {e : ℕ × V}
    {next : Option ℕ} (hx : nodes.get x = some (.leaf n)) (hn : IsLeaf n (l ++ e :: r) next)
    (hl : l.length = leafMinArity) (hr : (e :: r).length = leafMaxArity - leafMinArity) :
    ∃ b nodes' n₁ n₂, splitLeaf nodes x = some (b, e.1, nodes') ∧ nodes.get b = none
      ∧ nodes'.get = Function.update (Function.update nodes.get b (some (.leaf n₂))) x
          (some (.leaf n₁))
      ∧ IsLeaf n₁ l next ∧ IsLeaf n₂ (e :: r) none := by
  obtain ⟨b, nodes₁, halloc, hb, hget₁⟩ := nodes.get_alloc (.leaf
    ⟨List.replicate leafMaxArity none, List.replicate leafMaxArity 0, none, 0⟩)
  have hxb : x ≠ b := by
    rintro rfl
    rw [hx] at hb
    cases hb
  have hx₁ : nodes₁.get x = some (.leaf n) := by rw [hget₁, Function.update_of_ne hxb, hx]
  have hs : n.keys[leafMinArity]? = some e.1 := by rw [← hl]; exact hn.key_mid
  obtain ⟨nodes₂, hput₂, hget₂⟩ := Pool.get_put
    (show nodes₁.get b = some _ by rw [hget₁, Function.update_self]) (.leaf
      { leafs := n.leafs.drop leafMinArity ++ List.replicate leafMinArity none
        keys := n.keys.drop leafMinArity ++ List.replicate leafMinArity 0
        next := none
        nleafs := leafMaxArity - leafMinArity })
  obtain ⟨nodes₃, hput₃, hget₃⟩ := Pool.get_put
    (show nodes₂.get x = some _ by rw [hget₂, Function.update_of_ne hxb, hx₁]) (.leaf
      { leafs := n.leafs.take leafMinArity ++ List.replicate (leafMaxArity - leafMinArity) none
        keys := n.keys.take leafMinArity ++ List.replicate (leafMaxArity - leafMinArity) 0
        next := n.next
        nleafs := n.nleafs - (leafMaxArity - leafMinArity) })
  refine ⟨b, nodes₃, _, _, ?_, hb, ?_, hn.lower hl hr, hn.upper hl hr⟩
  · simp only [splitLeaf, createLeaf, halloc, getLeaf_eq hx₁, hs, hput₂, hput₃,
      Option.bind_eq_bind, Option.bind_some]
  · rw [hget₃, hget₂, hget₁, Function.update_idem]

/-- The most entries or children of a node. -/
def arity : ℕ → ℕ
  | 0 => leafMaxArity
  | _ + 1 => internalMaxArity

/-- The tree `t'` may take the place of `t` in a sorted sequence. -/
def KeepsOrder (t t' : Tree V d) : Prop :=
  ∀ A B, Inorder (A ++ t.flat ++ B) → Inorder (A ++ t'.flat ++ B)

/-- A separator may be put in front of an entry with its key. -/
lemma Inorder.insert_sep {A B : List (Item ℕ V)} {k : ℕ} {v : V}
    (h : Inorder (A ++ .entry k v :: B)) : Inorder (A ++ .sep k :: .entry k v :: B) := by
  obtain ⟨hA, hB, hAB⟩ := Inorder.append_iff.mp h
  refine Inorder.append_iff.mpr ⟨hA, List.pairwise_cons.mpr ⟨fun y hy => ?_, hB⟩, fun x hx y hy => ?_⟩
  · rcases List.mem_cons.mp hy with rfl | hy'
    · exact le_refl k
    · have := (List.pairwise_cons.mp hB).1 y hy'
      cases y with
      | sep j => exact le_of_lt this
      | entry j w => exact le_of_lt this
  · rcases List.mem_cons.mp hy with rfl | hy'
    · have := hAB x hx _ List.mem_cons_self
      cases x with
      | sep j => exact this
      | entry j w => exact this
    · exact hAB x hx y hy'

/-- Every node above the leaves has a child, and the entries of every leaf meet `P`. -/
def Tree.Bushy (P : List (ℕ × V) → Prop) : {d : ℕ} → Tree V d → Prop
  | 0, t => P (Leaf.entries t)
  | _ + 1, t => Inner.children t ≠ [] ∧ ∀ c ∈ Inner.children t, Bushy P c

variable {P : List (ℕ × V) → Prop}

@[simp] lemma Tree.bushy_leaf {a : ℕ} {es : List (ℕ × V)} {nx : Option ℕ} :
    (Tree.leaf a es nx).Bushy P ↔ P es := Iff.rfl

@[simp] lemma Tree.bushy_node {a : ℕ} {cs : List (Tree V d)} {ks : List ℕ} :
    (Tree.node a cs ks).Bushy P ↔ cs ≠ [] ∧ ∀ c ∈ cs, c.Bushy P := Iff.rfl

/-- Without an empty node. -/
lemma Tree.bushy_iff_filled {t : Tree V d} : t.Bushy (· ≠ []) ↔ t.Filled := by
  induction d with
  | zero => exact Iff.rfl
  | succ d ih =>
      obtain ⟨a, cs, ks, rfl⟩ := t.eq_node
      rw [Tree.bushy_node, Tree.filled_node]
      exact and_congr_right fun _ => forall₂_congr fun _ _ => ih

/-- A tree without a childless node above its leaves has a node on each of its levels. -/
lemma Tree.Bushy.depth_lt {t : Tree V d} (h : t.Bushy P) : d < t.cells.length := by
  induction d with
  | zero => exact Nat.one_pos
  | succ d ih =>
      obtain ⟨a, cs, ks, rfl⟩ := t.eq_node
      obtain ⟨hne, hcs⟩ := Tree.bushy_node.mp h
      obtain ⟨c, cs, rfl⟩ := List.exists_cons_of_ne_nil hne
      have hc := ih (hcs c List.mem_cons_self)
      simp only [Tree.cells_node, List.flatMap_cons, List.length_cons, List.length_append]
      omega

/-- The halves of a full internal node. -/
lemma exists_halves {β : Type} {cs : List β} {ks : List ℕ} (hcs : cs.length = internalMaxArity)
    (hks : ks.length = cs.length - 1) : ∃ cl cr k₁ s k₂, cs = cl ++ cr ∧ ks = k₁ ++ s :: k₂
      ∧ cl.length = internalMinArity ∧ cr.length = internalMaxArity - internalMinArity
      ∧ k₁.length = internalMinArity - 1 := by
  obtain ⟨cl, cr, rfl, hcl⟩ := exists_append (show internalMinArity ≤ cs.length by rw [hcs]; decide)
  obtain ⟨k₁, s, k₂, rfl, hk₁⟩ :=
    exists_append_cons (show internalMinArity - 1 < ks.length by rw [hks, hcs]; decide)
  rw [List.length_append, hcl] at hcs
  exact ⟨cl, cr, k₁, s, k₂, rfl, rfl, hcl, by omega, hk₁⟩

/-- The cells of a node whose children are in two parts. -/
lemma cellSet_node (a x : ℕ) (cs ds : List (Tree V d)) (ks : List ℕ) :
    insert a (cellSet [Tree.node x (cs ++ ds) ks])
      = {a, x} ∪ {k | k ∈ cs.flatMap Tree.cells ∨ k ∈ ds.flatMap Tree.cells} := by
  ext k
  simp only [cellSet, List.flatMap_cons, List.flatMap_nil, List.append_nil, Tree.cells_node,
    List.flatMap_append, Set.mem_insert_iff, Set.mem_ofPred_eq, List.mem_cons, List.mem_append,
    Set.mem_union, Set.mem_singleton_iff]
  tauto

/-- The cells of two nodes. -/
lemma cellSet_nodes (a x y : ℕ) (cs ds : List (Tree V d)) (ks js : List ℕ) :
    insert a (cellSet [Tree.node x cs ks, Tree.node y ds js])
      = {a, x, y} ∪ {k | k ∈ cs.flatMap Tree.cells ∨ k ∈ ds.flatMap Tree.cells} := by
  ext k
  simp only [cellSet, List.flatMap_cons, List.flatMap_nil, List.append_nil, Tree.cells_node,
    Set.mem_insert_iff, Set.mem_ofPred_eq, List.mem_cons, List.mem_append, List.cons_append,
    Set.mem_union, Set.mem_singleton_iff]
  tauto

/-- A step on the child `c` of a node, which becomes the two children `c₁` and `c₂` with
the key `s` between them. -/
structure Splits (P : List (ℕ × V) → Prop) (m m' : ℕ → Option (Node V)) (a : ℕ) (c c₁ c₂ : Tree V d)
    (s : ℕ) : Prop where
  addr : c₁.addr = c.addr
  held₁ : c₁.Held m'
  held₂ : c₂.Held m'
  nodup : (a :: (c₁.cells ++ c₂.cells)).Nodup
  frame : Frame m m' (insert a (cellSet [c])) (insert a (cellSet [c₁, c₂]))
  bushy₁ : c₁.Bushy P
  bushy₂ : c₂.Bushy P
  room₁ : c₁.count < arity d
  room₂ : c₂.count < arity d
  toList : c₁.toList ++ c₂.toList = c.toList
  order : ∀ A B, Inorder (A ++ c.flat ++ B) → Inorder (A ++ (c₁.flat ++ .sep s :: c₂.flat) ++ B)
  chain : SameChain c.leaves (c₁.leaves ++ c₂.leaves)

/-- The cells that a split touches. -/
lemma Frame.split {m m' : ℕ → Option (Node V)} {a x b : ℕ} (hb : m b = none)
    (hm : ∀ k, k ≠ a → k ≠ x → k ≠ b → m' k = m k) : Frame m m' {a, x} {a, x, b} where
  same k hk hk' := by
    simp only [Set.mem_insert_iff, Set.mem_singleton_iff, not_or] at hk'
    exact hm k hk'.1 hk'.2.1 hk'.2.2
  fresh k hk' hk := by
    simp only [Set.mem_insert_iff, Set.mem_singleton_iff, not_or] at hk hk'
    rw [(hk'.resolve_left hk.1).resolve_left hk.2]
    exact hb
  dropped k hk hk' := by
    simp only [Set.mem_insert_iff, Set.mem_singleton_iff, not_or] at hk hk'
    rcases hk with rfl | rfl
    · exact absurd rfl hk'.1
    · exact absurd rfl hk'.2.1

/-- A child that is a full internal node. -/
lemma splitChildFull_internal {nodes : Pool (Node V)} {a : ℕ} {l r : List (Tree V (d + 1))}
    {c : Tree V (d + 1)} {kl kr : List ℕ}
    (h : (Tree.node a (l ++ c :: r) (kl ++ kr)).Held nodes.get)
    (hnd : (Tree.node a (l ++ c :: r) (kl ++ kr)).cells.Nodup) (hlen : l.length = kl.length)
    (hroom : (l ++ c :: r).length < internalMaxArity) (hfull : c.count = internalMaxArity)
    (hc : c.Bushy P) :
    ∃ c₁ c₂ s nodes',
      splitChildFull nodes a l.length key = some (if key ≥ s then c₂.addr else c₁.addr, nodes')
      ∧ Splits P nodes.get nodes'.get a c c₁ c₂ s
      ∧ ∃ n', nodes'.get a = some (.internal n')
        ∧ IsInternal n' ((l ++ [c₁, c₂] ++ r).map Tree.addr) (kl ++ s :: kr) := by
  obtain ⟨n, hn, hin, hcs⟩ := Tree.held_node.mp h
  obtain ⟨x, cs, ks, rfl⟩ := c.eq_node
  obtain ⟨m, hm, him, hgs⟩ := Tree.held_node.mp (hcs (Tree.node x cs ks) (by simp))
  rw [Tree.count_node] at hfull
  have hks := him.length_keys
  rw [List.length_map] at hks
  obtain ⟨cl, cr, k₁, s, k₂, rfl, rfl, hcl, hcr, hk₁⟩ := exists_halves hfull hks
  rw [List.map_append] at him
  obtain ⟨b, nodes₁, n₁, n₂, hsplit, hb, hget₁, hn₁, hn₂⟩ := splitInternal_eq hm him
    (by simpa using hcl) hk₁ (by simpa using hcr)
  have hlive := h.live
  have hnot : ∀ k, nodes.get k ≠ none → k ≠ b := by
    rintro k hk rfl
    exact hk hb
  have hab : a ≠ b := hnot a (hlive a List.mem_cons_self)
  have hxb : x ≠ b := hnot x (by rw [hm]; simp)
  simp only [Tree.cells_node, List.flatMap_append, List.flatMap_cons, List.nodup_cons,
    List.mem_append, List.mem_cons, List.nodup_append, not_or, List.cons_append] at hnd
  obtain ⟨⟨-, hax, ⟨hacl, hacr⟩, -⟩, -, ⟨⟨⟨hxcl, hxcr⟩, -⟩, ⟨hcln, hcrn, hclr⟩, -⟩, -⟩ := hnd
  have ha₁ : nodes₁.get a = some (.internal n) := by
    rw [hget₁, Function.update_of_ne hax, Function.update_of_ne hab, hn]
  rw [List.map_append, List.map_cons] at hin
  have hslot := hin.slot_mid
  rw [List.length_map] at hslot
  have hin' := hin.shiftInsert (by simpa using hlen) (by simpa using hroom) b s
  rw [List.length_map] at hin'
  obtain ⟨nodes₂, hput₂, hget₂⟩ := Pool.get_put ha₁ (.internal (n.shiftInsert (l.length + 1) b s))
  have hother : ∀ k, k ≠ a → k ≠ x → k ≠ b → nodes₂.get k = nodes.get k := by
    intro k hka hkx hkb
    rw [hget₂, hget₁, Function.update_of_ne hka, Function.update_of_ne hkx, Function.update_of_ne hkb]
  have hlive' : ∀ k, k ∈ cl.flatMap Tree.cells ∨ k ∈ cr.flatMap Tree.cells →
      k ≠ a ∧ k ≠ x ∧ k ≠ b := by
    intro k hk
    refine ⟨?_, ?_, hnot k (hlive k ?_)⟩
    · rintro rfl
      exact hk.elim hacl hacr
    · rintro rfl
      exact hk.elim hxcl hxcr
    · simp only [Tree.cells_node, List.flatMap_append, List.flatMap_cons, List.mem_append,
        List.mem_cons]
      tauto
  have hsub : ∀ g, g ∈ cl ∨ g ∈ cr → g.Held nodes₂.get := by
    intro g hg
    refine (hgs g (List.mem_append.mpr hg)).congr fun k hk => ?_
    obtain ⟨hka, hkx, hkb⟩ := hlive' k (hg.imp (fun hg => List.mem_flatMap.mpr ⟨g, hg, hk⟩)
      fun hg => List.mem_flatMap.mpr ⟨g, hg, hk⟩)
    exact hother k hka hkx hkb
  obtain ⟨hcne, hcf⟩ := Tree.bushy_node.mp hc
  refine ⟨Tree.node x cl k₁, Tree.node b cr k₂, s, nodes₂, ?_, ⟨rfl, ?_, ?_, ?_, ?_, ?_, ?_, ?_, ?_, ?_,
    ?_, ?_⟩, n.shiftInsert (l.length + 1) b s, ?_, by simpa using hin'⟩
  · have hcount : m.nchildren = internalMaxArity := by
      rw [him.nchildren, ← List.map_append, List.length_map, hfull]
    have hidx : l.length + 1 < internalMaxArity := by
      rw [List.length_append, List.length_cons] at hroom
      omega
    simp only [splitChildFull, getInternal_eq hn, hslot, Option.bind_eq_bind, Option.bind_some,
      Option.join_some, Tree.addr_node, hm, hcount, if_true, hsplit,
      shiftInsertInternal_eq ha₁ hidx hput₂]
  · refine Tree.held_node.mpr ⟨n₁, ?_, hn₁, fun g hg => hsub g (Or.inl hg)⟩
    rw [hget₂, Function.update_of_ne (Ne.symm hax), hget₁, Function.update_self]
  · refine Tree.held_node.mpr ⟨n₂, ?_, hn₂, fun g hg => hsub g (Or.inr hg)⟩
    rw [hget₂, Function.update_of_ne (Ne.symm hab), hget₁, Function.update_of_ne (Ne.symm hxb),
      Function.update_self]
  · simp only [Tree.cells_node, List.nodup_cons, List.cons_append, List.mem_append, List.mem_cons,
      List.nodup_append, not_or]
    refine ⟨⟨hax, hacl, hab, hacr⟩, ⟨hxcl, hxb, hxcr⟩, hcln, ⟨?_, hcrn⟩, ?_⟩
    · exact fun hk => (hlive' b (Or.inr hk)).2.2 rfl
    · rintro k hk k' (rfl | hk') rfl
      · exact (hlive' k (Or.inl hk)).2.2 rfl
      · exact hclr k hk k hk' rfl
  · rw [cellSet_node, cellSet_nodes]
    exact (Frame.split hb hother).extend _
  · refine Tree.bushy_node.mpr ⟨?_, fun g hg => hcf g (List.mem_append_left _ hg)⟩
    rintro rfl
    cases hcl
  · refine Tree.bushy_node.mpr ⟨?_, fun g hg => hcf g (List.mem_append_right _ hg)⟩
    rintro rfl
    cases hcr
  · rw [Tree.count_node, hcl]
    exact (by decide : internalMinArity < internalMaxArity)
  · rw [Tree.count_node, hcr]
    exact (by decide : internalMaxArity - internalMinArity < internalMaxArity)
  · simp
  · intro A B hs
    rw [Tree.flat_node, List.map_append, interleave_split (by rw [List.length_map, hcl, hk₁]; rfl)]
      at hs
    exact hs
  · simpa using SameChain.refl _
  · rw [hget₂, Function.update_self]

/-- A child that is a full leaf. -/
lemma splitChildFull_leaf (hP : ∀ es, es ≠ [] → P es) {nodes : Pool (Node V)} {a : ℕ} {l r : List (Tree V 0)}
    {c : Tree V 0} {kl kr : List ℕ} (h : (Tree.node a (l ++ c :: r) (kl ++ kr)).Held nodes.get)
    (hnd : (Tree.node a (l ++ c :: r) (kl ++ kr)).cells.Nodup) (hlen : l.length = kl.length)
    (hroom : (l ++ c :: r).length < internalMaxArity) (hfull : c.count = leafMaxArity) :
    ∃ c₁ c₂ s nodes',
      splitChildFull nodes a l.length key = some (if key ≥ s then c₂.addr else c₁.addr, nodes')
      ∧ Splits P nodes.get nodes'.get a c c₁ c₂ s
      ∧ ∃ n', nodes'.get a = some (.internal n')
        ∧ IsInternal n' ((l ++ [c₁, c₂] ++ r).map Tree.addr) (kl ++ s :: kr) := by
  obtain ⟨n, hn, hin, hcs⟩ := Tree.held_node.mp h
  obtain ⟨x, es, nx, rfl⟩ := c.eq_leaf
  obtain ⟨m, hm, him⟩ := Tree.held_leaf.mp (hcs (Tree.leaf x es nx) (by simp))
  rw [Tree.count_leaf] at hfull
  -- the halves
  obtain ⟨el, e, er, rfl, hel⟩ :=
    exists_append_cons (show leafMinArity < es.length by rw [hfull]; decide)
  have her : (e :: er).length = leafMaxArity - leafMinArity := by
    rw [List.length_append, hel] at hfull
    omega
  obtain ⟨b, nodes₁, n₁, n₂, hsplit, hb, hget₁, hn₁, hn₂⟩ := splitLeaf_eq hm him hel her
  have hnot : ∀ k, nodes.get k ≠ none → k ≠ b := by
    rintro k hk rfl
    exact hk hb
  have hab : a ≠ b := hnot a (h.live a List.mem_cons_self)
  have hxb : x ≠ b := hnot x (by rw [hm]; simp)
  have hax : a ≠ x := by
    rintro rfl
    simp at hnd
  have ha₁ : nodes₁.get a = some (.internal n) := by
    rw [hget₁, Function.update_of_ne hax, Function.update_of_ne hab, hn]
  rw [List.map_append, List.map_cons] at hin
  have hslot := hin.slot_mid
  rw [List.length_map] at hslot
  have hin' := hin.shiftInsert (by simpa using hlen) (by simpa using hroom) b e.1
  rw [List.length_map] at hin'
  -- the parent, the upper half and the lower half are written
  obtain ⟨nodes₂, hput₂, hget₂⟩ := Pool.get_put ha₁ (.internal (n.shiftInsert (l.length + 1) b e.1))
  have hx₂ : nodes₂.get x = some (.leaf n₁) := by
    rw [hget₂, Function.update_of_ne (Ne.symm hax), hget₁, Function.update_self]
  have hb₂ : nodes₂.get b = some (.leaf n₂) := by
    rw [hget₂, Function.update_of_ne (Ne.symm hab), hget₁, Function.update_of_ne (Ne.symm hxb),
      Function.update_self]
  obtain ⟨nodes₃, hput₃, hget₃⟩ := Pool.get_put hb₂ (.leaf { n₂ with next := n₁.next })
  have hx₃ : nodes₃.get x = some (.leaf n₁) := by rw [hget₃, Function.update_of_ne hxb, hx₂]
  obtain ⟨nodes₄, hput₄, hget₄⟩ := Pool.get_put hx₃ (.leaf { n₁ with next := some b })
  have hother : ∀ k, k ≠ a → k ≠ x → k ≠ b → nodes₄.get k = nodes.get k := by
    intro k hka hkx hkb
    rw [hget₄, hget₃, hget₂, hget₁, Function.update_of_ne hkx, Function.update_of_ne hkb,
      Function.update_of_ne hka, Function.update_of_ne hkx, Function.update_of_ne hkb]
  refine ⟨Tree.leaf x el (some b), Tree.leaf b (e :: er) nx, e.1, nodes₄, ?_, ⟨rfl, ?_, ?_, ?_, ?_, ?_,
    ?_, ?_, ?_, ?_, ?_, ?_⟩, n.shiftInsert (l.length + 1) b e.1, ?_, by simpa using hin'⟩
  · have hcount : m.nleafs = leafMaxArity := by rw [him.nleafs, hfull]
    have hidx : l.length + 1 < internalMaxArity := by
      rw [List.length_append, List.length_cons] at hroom
      omega
    simp only [splitChildFull, getInternal_eq hn, hslot, Option.bind_eq_bind, Option.bind_some,
      Option.join_some, Tree.addr_leaf, hm, hcount, if_true, hsplit,
      shiftInsertInternal_eq ha₁ hidx hput₂, getLeaf_eq hx₂, getLeaf_eq hb₂, hput₃, hput₄]
  · refine Tree.held_leaf.mpr ⟨_, ?_, hn₁.link _⟩
    rw [hget₄, Function.update_self]
  · refine Tree.held_leaf.mpr ⟨_, ?_, hn₂.link nx⟩
    rw [hget₄, Function.update_of_ne (Ne.symm hxb), hget₃, Function.update_self, hn₁.next]
  · simp [hax, hab, hxb]
  · have hset : insert a (cellSet [Tree.leaf x (el ++ e :: er) nx]) = {a, x} := by
      ext k
      simp [cellSet]
    have hset' : insert a (cellSet [Tree.leaf x el (some b), Tree.leaf b (e :: er) nx])
        = {a, x, b} := by
      ext k
      simp [cellSet]
    rw [hset, hset']
    exact Frame.split hb hother
  · refine hP el ?_
    rintro rfl
    cases hel
  · exact hP (e :: er) (List.cons_ne_nil _ _)
  · rw [Tree.count_leaf, hel]
    exact (by decide : leafMinArity < leafMaxArity)
  · rw [Tree.count_leaf, her]
    exact (by decide : leafMaxArity - leafMinArity < leafMaxArity)
  · simp
  · intro A B hs
    have hs' : Inorder ((A ++ el.map fun e => .entry e.1 e.2)
        ++ .entry e.1 e.2 :: (er.map (fun e => .entry e.1 e.2) ++ B)) := by simpa using hs
    simpa using hs'.insert_sep
  · exact ⟨fun e' he => by simpa using he, fun _ => rfl⟩
  · rw [hget₄, Function.update_of_ne hax, hget₃, Function.update_of_ne hab, hget₂,
      Function.update_self]

/-! ### The way down -/

/-- Bushy, but a leaf may have any entries. -/
def Tree.Proper (P : List (ℕ × V) → Prop) (t : Tree V d) : Prop := d ≠ 0 → t.Bushy P

lemma Tree.Bushy.proper {t : Tree V d} (h : t.Bushy P) : t.Proper P := fun _ => h

/-- The way down from the node `t`: it may be restructured to `t'`, and goes on to the
child between `l` and `r`, which has room. -/
structure Descent (P : List (ℕ × V) → Prop) (key : ℕ) (m m' : ℕ → Option (Node V)) (t : Tree V (d + 1))
    (l : List (Tree V d)) (c : Tree V d) (r : List (Tree V d)) (kl kr : List ℕ) : Prop where
  step : Step m m' t (Tree.node t.addr (l ++ c :: r) (kl ++ kr))
  route : Route key l r kl kr
  room : c.count < arity d
  proper : c.Proper P
  bushy : ∀ x, x ∈ l ∨ x ∈ r → x.Bushy P
  toList : (Tree.node t.addr (l ++ c :: r) (kl ++ kr)).toList = t.toList
  order : KeepsOrder t (Tree.node t.addr (l ++ c :: r) (kl ++ kr))
  chain : SameChain t.leaves (Tree.node t.addr (l ++ c :: r) (kl ++ kr)).leaves

section

variable {m m' : ℕ → Option (Node V)} {a s : ℕ} {l r : List (Tree V d)} {c c₁ c₂ : Tree V d}
  {kl kr : List ℕ}

lemma Splits.step (h : Splits P m m' a c c₁ c₂ s)
    (hheld : (Tree.node a (l ++ c :: r) (kl ++ kr)).Held m)
    (hnd : (Tree.node a (l ++ c :: r) (kl ++ kr)).cells.Nodup)
    (hnode : ∃ n', m' a = some (.internal n')
      ∧ IsInternal n' ((l ++ [c₁, c₂] ++ r).map Tree.addr) (kl ++ s :: kr)) :
    Step m m' (Tree.node a (l ++ c :: r) (kl ++ kr))
      (Tree.node a (l ++ [c₁, c₂] ++ r) (kl ++ s :: kr)) := by
  have hsplit : l ++ c :: r = l ++ [c] ++ r := by simp
  rw [hsplit] at hheld hnd ⊢
  refine Step.window hheld hnd h.frame hnode (fun x hx => ?_) ?_
  · rcases List.mem_cons.mp hx with rfl | hx
    · exact h.held₁
    · rw [List.mem_singleton.mp hx]
      exact h.held₂
  · simpa using h.nodup

lemma Splits.keepsOrder (h : Splits P m m' a c c₁ c₂ s) (hl : l.length = kl.length) :
    KeepsOrder (Tree.node a (l ++ c :: r) (kl ++ kr))
      (Tree.node a (l ++ [c₁, c₂] ++ r) (kl ++ s :: kr)) := by
  intro A B hs
  rw [flat_mid hl] at hs
  have := h.order (A ++ leftOf l kl) (rightOf r kr ++ B) (by simpa using hs)
  rw [show l ++ [c₁, c₂] ++ r = l ++ c₁ :: c₂ :: r by simp, flat_mid hl, rightOf_cons]
  simpa using this

lemma Splits.sameChain (h : Splits P m m' a c c₁ c₂ s) :
    SameChain (Tree.node a (l ++ c :: r) (kl ++ kr)).leaves
      (Tree.node a (l ++ [c₁, c₂] ++ r) (kl ++ s :: kr)).leaves := by
  have := h.chain.mid (l.flatMap Tree.leaves) (r.flatMap Tree.leaves)
  simpa using this

/-- The descent goes on in the half that the key belongs to. -/
lemma Splits.descent (h : Splits P m m' a c c₁ c₂ s)
    (hheld : (Tree.node a (l ++ c :: r) (kl ++ kr)).Held m)
    (hnd : (Tree.node a (l ++ c :: r) (kl ++ kr)).cells.Nodup) (hroute : Route key l r kl kr)
    (hnode : ∃ n', m' a = some (.internal n')
      ∧ IsInternal n' ((l ++ [c₁, c₂] ++ r).map Tree.addr) (kl ++ s :: kr))
    (hbushy : ∀ x, x ∈ l ∨ x ∈ r → x.Bushy P) :
    ∃ l' c' r' kl' kr', (if key ≥ s then c₂.addr else c₁.addr) = c'.addr
      ∧ Descent P key m m' (Tree.node a (l ++ c :: r) (kl ++ kr)) l' c' r' kl' kr' := by
  have hstep := h.step hheld hnd hnode
  have horder : KeepsOrder (Tree.node a (l ++ c :: r) (kl ++ kr))
      (Tree.node a (l ++ [c₁, c₂] ++ r) (kl ++ s :: kr)) := h.keepsOrder hroute.left
  have htoList : (Tree.node a (l ++ [c₁, c₂] ++ r) (kl ++ s :: kr)).toList
      = (Tree.node a (l ++ c :: r) (kl ++ kr)).toList := by
    simp [← h.toList]
  have hchain : SameChain (Tree.node a (l ++ c :: r) (kl ++ kr)).leaves
      (Tree.node a (l ++ [c₁, c₂] ++ r) (kl ++ s :: kr)).leaves := h.sameChain
  by_cases hs : key ≥ s
  · refine ⟨l ++ [c₁], c₂, r, kl ++ [s], kr, if_pos hs, ?_, ⟨?_, hroute.right, ?_, hroute.lt⟩, h.room₂,
      h.bushy₂.proper, ?_, ?_, ?_, ?_⟩
    · simpa using hstep
    · simp [hroute.left]
    · intro k hk
      rcases List.mem_append.mp hk with hk | hk
      · exact hroute.le k hk
      · rw [List.mem_singleton.mp hk]
        exact hs
    · intro x hx
      rcases hx with hx | hx
      · rcases List.mem_append.mp hx with hx | hx
        · exact hbushy x (Or.inl hx)
        · rw [List.mem_singleton.mp hx]
          exact h.bushy₁
      · exact hbushy x (Or.inr hx)
    · simpa using htoList
    · simpa using horder
    · simpa using hchain
  · refine ⟨l, c₁, c₂ :: r, kl, s :: kr, if_neg hs, ?_, ⟨hroute.left, ?_, hroute.le, ?_⟩, h.room₁,
      h.bushy₁.proper, ?_, ?_, ?_, ?_⟩
    · simpa using hstep
    · simp [hroute.right]
    · intro k hk
      obtain rfl := Option.some.inj hk
      exact not_le.mp hs
    · intro x hx
      rcases hx with hx | hx
      · exact hbushy x (Or.inl hx)
      · rcases List.mem_cons.mp hx with rfl | hx
        · exact h.bushy₂
        · exact hbushy x (Or.inr hx)
    · simpa using htoList
    · simpa using horder
    · simpa using hchain

end

/-- A full node is not empty. -/
lemma Tree.Proper.bushy {t : Tree V d} (h : t.Proper P) (hP : ∀ es, es ≠ [] → P es)
    (hfull : t.count = arity d) : t.Bushy P := by
  cases d with
  | zero =>
      obtain ⟨a, es, nx, rfl⟩ := t.eq_leaf
      refine hP es ?_
      rintro rfl
      cases hfull
  | succ d => exact h (Nat.succ_ne_zero d)

/-- **`fdb_btree_split_child_full`.** -/
theorem splitChildFull_spec (hP : ∀ es, es ≠ [] → P es) {nodes : Pool (Node V)} {a : ℕ}
    {l r : List (Tree V d)} {c : Tree V d}
    {kl kr : List ℕ} (h : (Tree.node a (l ++ c :: r) (kl ++ kr)).Held nodes.get)
    (hnd : (Tree.node a (l ++ c :: r) (kl ++ kr)).cells.Nodup) (hroute : Route key l r kl kr)
    (hroom : (l ++ c :: r).length < internalMaxArity) (hc : c.Proper P)
    (hbushy : ∀ x, x ∈ l ∨ x ∈ r → x.Bushy P) :
    ∃ l' c' r' kl' kr' nodes', splitChildFull nodes a l.length key = some (c'.addr, nodes')
      ∧ Descent P key nodes.get nodes'.get (Tree.node a (l ++ c :: r) (kl ++ kr)) l' c' r' kl' kr' := by
  obtain ⟨n, hn, hin, hcs⟩ := Tree.held_node.mp h
  rw [List.map_append, List.map_cons] at hin
  have hslot := hin.slot_mid
  rw [List.length_map] at hslot
  by_cases hfull : c.count = arity d
  · obtain ⟨c₁, c₂, s, nodes', heq, hs, hnode⟩ : ∃ c₁ c₂ s nodes',
        splitChildFull nodes a l.length key = some (if key ≥ s then c₂.addr else c₁.addr, nodes')
        ∧ Splits P nodes.get nodes'.get a c c₁ c₂ s
        ∧ ∃ n', nodes'.get a = some (.internal n')
          ∧ IsInternal n' ((l ++ [c₁, c₂] ++ r).map Tree.addr) (kl ++ s :: kr) := by
      cases d with
      | zero => exact splitChildFull_leaf hP h hnd hroute.left hroom hfull
      | succ d => exact splitChildFull_internal h hnd hroute.left hroom hfull (hc.bushy hP hfull)
    obtain ⟨l', c', r', kl', kr', haddr, hd⟩ := hs.descent h hnd hroute hnode hbushy
    exact ⟨l', c', r', kl', kr', nodes', by rw [heq, haddr], hd⟩
  · have hle : c.count < arity d ∧ splitChildFull nodes a l.length key = some (c.addr, nodes) := by
      cases d with
      | zero =>
          obtain ⟨x, es, nx, rfl⟩ := c.eq_leaf
          obtain ⟨m, hm, him⟩ := Tree.held_leaf.mp (hcs (Tree.leaf x es nx) (by simp))
          have hlen := him.length_le
          have hcount : m.nleafs ≠ leafMaxArity := by rw [him.nleafs]; exact hfull
          refine ⟨lt_of_le_of_ne hlen hfull, ?_⟩
          simp only [splitChildFull, getInternal_eq hn, hslot, Option.bind_eq_bind,
            Option.bind_some, Option.join_some, Tree.addr_leaf, hm, if_neg hcount]
      | succ d =>
          obtain ⟨x, cs, ks, rfl⟩ := c.eq_node
          obtain ⟨m, hm, him, -⟩ := Tree.held_node.mp (hcs (Tree.node x cs ks) (by simp))
          have hlen := him.length_le
          rw [List.length_map] at hlen
          have hcount : m.nchildren ≠ internalMaxArity := by
            rw [him.nchildren, List.length_map]
            exact hfull
          refine ⟨lt_of_le_of_ne hlen hfull, ?_⟩
          simp only [splitChildFull, getInternal_eq hn, hslot, Option.bind_eq_bind,
            Option.bind_some, Option.join_some, Tree.addr_node, hm, if_neg hcount]
    exact ⟨l, c, r, kl, kr, nodes, hle.2, Step.refl h hnd, hroute, hle.1, hc, hbushy, rfl,
      fun A B hs => hs, SameChain.refl _⟩

/-! ### The insertion -/

/-- The slot that an insertion reports holds the value. -/
def Inserted.Holds (ins : Inserted) (nodes : Pool (Node V)) (v : V) : Prop :=
  ∃ n, nodes.get ins.leaf = some (.leaf n) ∧ n.leafs[ins.slot]? = some (some v)

/-- The insertion adds an entry to `es`, or it finds one there. -/
inductive Outcome (key : ℕ) (value : V) (t t' : BTree V) (es es' : List (ℕ × V)) (ins : Inserted) :
    Prop where
  | added (h : ins.inserted = true) (e₁ e₂ : List (ℕ × V)) (before : es = e₁ ++ e₂)
      (after : es' = e₁ ++ (key, value) :: e₂) (size : t'.size = (t.size + 1) % 2 ^ 32)
      (slot : ins.Holds t'.nodes value)
  | found (h : ins.inserted = false) (entries : es' = es) (size : t'.size = t.size) (v : V)
      (mem : (key, v) ∈ es) (slot : ins.Holds t'.nodes v)

/-- The effect of an insertion on a subtree. -/
structure Inserts (P : List (ℕ × V) → Prop) (key : ℕ) (value : V) (t t' : BTree V) (T T' : Tree V d)
    (ins : Inserted) : Prop where
  root : t'.root = t.root
  step : Step t.nodes.get t'.nodes.get T T'
  bushy : T'.Bushy P
  chain : SameChain T.leaves T'.leaves
  order : ∀ A B, Inorder (A ++ T.flat ++ B) → Fits key A B → Inorder (A ++ T'.flat ++ B)
  absent : ins.inserted = true →
    ∀ A B, Inorder (A ++ T.flat ++ B) → Fits key A B → ∀ v, (key, v) ∉ T.toList
  outcome : Outcome key value t t' T.toList T'.toList ins

/-- An insertion below a node, after the way down to the child. -/
lemma Descent.inserts {value : V} {t t' : BTree V} {nodes : Pool (Node V)} {T : Tree V (d + 1)}
    {l r : List (Tree V d)}
    {c c' : Tree V d} {kl kr : List ℕ} {ins : Inserted}
    (hd : Descent P key t.nodes.get nodes.get T l c r kl kr)
    (hc : Inserts P key value { t with nodes := nodes } t' c c' ins) :
    Inserts P key value t t' T (Tree.node T.addr (l ++ c' :: r) (kl ++ kr)) ins := by
  have hstep := Step.focus hd.step.held hd.step.nodup hc.step
  have hfit : ∀ A B, Inorder (A ++ T.flat ++ B) → Fits key A B →
      Inorder ((A ++ leftOf l kl) ++ c.flat ++ (rightOf r kr ++ B))
        ∧ Fits key (A ++ leftOf l kl) (rightOf r kr ++ B) := by
    intro A B hs hf
    have hs₁ := hd.order A B hs
    rw [flat_mid hd.route.left] at hs₁
    exact ⟨by simpa using hs₁, hd.route.fits hs₁ hf⟩
  have hlist : T.toList = l.flatMap Tree.toList ++ c.toList ++ r.flatMap Tree.toList := by
    rw [← hd.toList]
    simp
  have hlist' : (Tree.node T.addr (l ++ c' :: r) (kl ++ kr)).toList
      = l.flatMap Tree.toList ++ c'.toList ++ r.flatMap Tree.toList := by simp
  refine ⟨hc.root, hd.step.trans hstep, ?_, hd.chain.trans ?_, fun A B hs hf => ?_,
    fun hins A B hs hf v => ?_, ?_⟩
  · refine Tree.bushy_node.mpr ⟨by simp, fun x hx => ?_⟩
    rcases List.mem_append.mp hx with hx | hx
    · exact hd.bushy x (Or.inl hx)
    · rcases List.mem_cons.mp hx with rfl | hx
      · exact hc.bushy
      · exact hd.bushy x (Or.inr hx)
  · simpa using hc.chain.mid (l.flatMap Tree.leaves) (r.flatMap Tree.leaves)
  · obtain ⟨hs', hf'⟩ := hfit A B hs hf
    rw [flat_mid hd.route.left]
    simpa using hc.order _ _ hs' hf'
  · obtain ⟨hs', hf'⟩ := hfit A B hs hf
    obtain ⟨hA, hB⟩ := hf'.not_mem v
    rw [entriesOf_append, List.mem_append, not_or] at hA hB
    have hmid := hc.absent hins _ _ hs' hf' v
    have hT : T.toList = entriesOf (leftOf l kl) ++ c.toList ++ entriesOf (rightOf r kr) := by
      rw [← hd.toList, Tree.toList, flat_mid hd.route.left]
      simp [Tree.toList]
    rw [hT]
    simp [hA.2, hB.1, hmid]
  · cases hc.outcome with
    | added h e₁ e₂ before after size slot =>
        refine Outcome.added h (l.flatMap Tree.toList ++ e₁) (e₂ ++ r.flatMap Tree.toList) ?_ ?_
          size slot
        · rw [hlist, before]
          simp
        · rw [hlist', after]
          simp
    | found h entries size v mem slot =>
        refine Outcome.found h ?_ size v ?_ slot
        · rw [hlist, hlist', entries]
        · rw [hlist]
          simp [mem]

/-- `fdb_btree_insert_node` on a leaf with room. -/
lemma insertNode_leaf (hP : ∀ es, es ≠ [] → P es) {t : BTree V} {T : Tree V 0} {fuel : ℕ} (value : V)
    (h : T.Held t.nodes.get)
    (hroom : T.count < leafMaxArity) :
    ∃ t' T' ins, insertNode key value (fuel + 1) t T.addr = some (t', ins)
      ∧ Inserts P key value t t' T T' ins := by
  obtain ⟨a, es, nx, rfl⟩ := T.eq_leaf
  obtain ⟨n, hn, hin⟩ := Tree.held_leaf.mp h
  obtain ⟨l, r, rfl, htake, -, hl, hr⟩ := exists_place es key
  have hpos : n.nextPos key = l.length := by rw [hin.nextPos_eq, htake]
  rw [Tree.count_leaf] at hroom
  have hlt : l.length < leafMaxArity := by
    rw [List.length_append] at hroom
    omega
  obtain ⟨k, hk⟩ := hin.key_some hlt
  have hv := hin.value_some hlt
  have hnl : ∀ v, (key, v) ∉ l := fun v hv => lt_irrefl key (hl _ hv)
  by_cases hnew : k ≠ key ∨ (((l ++ r)[l.length]?.map Prod.snd).isNone = true)
  · -- the place is free, and in a sorted leaf what is behind it is of larger keys
    have hright : ∀ A B, Inorder (A ++ (Tree.leaf a (l ++ r) nx).flat ++ B) → ∀ e ∈ r, key < e.1 := by
      intro A B hs e he
      cases r with
      | nil => cases he
      | cons e' r =>
          have hkey : e'.1 ≠ key := by
            have hk' := hin.key_mid
            rw [hk] at hk'
            rw [← Option.some.inj hk']
            simpa using hnew
          have hlt' : key < e'.1 := lt_of_le_of_ne (hr e' rfl) (Ne.symm hkey)
          have hs' : Inorder (Tree.leaf a (l ++ e' :: r) nx).flat :=
            hs.sublist (List.IsInfix.sublist ⟨A, B, rfl⟩)
          have hsort := hs'.entries
          rw [show entriesOf _ = _ from Tree.toList_leaf] at hsort
          rcases List.mem_cons.mp he with rfl | he
          · exact hlt'
          · exact hlt'.trans ((List.pairwise_cons.mp (List.pairwise_append.mp hsort).2.1).1 e he)
    obtain ⟨nodes', hput, hget⟩ := Pool.get_put hn (.leaf { n.shiftInsert l.length key with
      leafs := (n.shiftInsert l.length key).leafs.set l.length (some value) })
    have hin' := hin.shiftInsert hroom key value
    refine ⟨⟨t.root, (t.size + 1) % 2 ^ 32, nodes'⟩, Tree.leaf a (l ++ (key, value) :: r) nx,
      ⟨true, a, l.length⟩, ?_, rfl, ⟨rfl, ?_, List.nodup_singleton a, ?_⟩, ?_, ⟨?_, fun _ => rfl⟩, ?_, ?_, ?_⟩
    · simp only [insertNode, Tree.addr_leaf, hn, Option.bind_eq_bind, Option.bind_some, hpos, hk, hv,
        if_pos hnew, hput]
    · exact Tree.held_leaf.mpr ⟨_, by rw [hget, Function.update_self], hin'⟩
    · rw [hget]
      exact Frame.write (show a ∈ {k | k ∈ (Tree.leaf a (l ++ r) nx).cells} from
        List.mem_singleton_self a) _
    · exact hP (l ++ (key, value) :: r) (by simp)
    · intro e he
      simpa using he
    · intro A B hs hf
      have hs' : Inorder ((A ++ l.map fun e => .entry e.1 e.2)
          ++ (r.map (fun e => .entry e.1 e.2) ++ B)) := by simpa using hs
      have hf' : Fits key (A ++ l.map fun e => Item.entry e.1 e.2)
          (r.map (fun e => Item.entry e.1 e.2) ++ B) := by
        refine ⟨fun x hx => ?_, fun x hx => ?_⟩
        · rcases List.mem_append.mp hx with hx | hx
          · exact hf.below x hx
          · obtain ⟨e, he, rfl⟩ := List.mem_map.mp hx
            exact hl e he
        · rcases List.mem_append.mp hx with hx | hx
          · obtain ⟨e, he, rfl⟩ := List.mem_map.mp hx
            exact hright A B hs e he
          · exact hf.above x hx
      simpa using hf'.inorder hs' value
    · intro _ A B hs _ v hv
      rcases List.mem_append.mp ((Tree.toList_leaf : (Tree.leaf a (l ++ r) nx).toList = _) ▸ hv) with hv | hv
      · exact hnl v hv
      · exact lt_irrefl key (hright A B hs _ hv)
    · exact Outcome.added rfl l r (by simp) (by simp) rfl
        ⟨_, by rw [hget, Function.update_self], hin'.value_mid⟩
  · -- the key is there
    push Not at hnew
    obtain ⟨rfl, hsome⟩ := hnew
    cases r with
    | nil => simp at hsome
    | cons e r =>
        have he : e.1 = k := by
          have := hin.key_mid
          rw [hk] at this
          exact (Option.some.inj this).symm
        refine ⟨t, _, ⟨false, a, l.length⟩, ?_, rfl, Step.refl h (List.nodup_singleton a), ?_,
          SameChain.refl _, fun A B hs _ => hs, fun h => absurd h Bool.false_ne_true, ?_⟩
        · have hnot : ¬(k ≠ k ∨ (((l ++ e :: r)[l.length]?.map Prod.snd).isNone = true)) := by simp
          simp only [insertNode, Tree.addr_leaf, hn, Option.bind_eq_bind, Option.bind_some, hpos, hk,
            hv, if_neg hnot]
        · exact hP (l ++ e :: r) (by simp)
        · refine Outcome.found rfl rfl rfl e.2 ?_ ⟨n, hn, hin.value_mid⟩
          rw [Tree.toList_leaf, ← he]
          simp

/-- A step of `insertNode` on an internal node. -/
lemma insertChild_spec (hP : ∀ es, es ≠ [] → P es) (key : ℕ) {nodes : Pool (Node V)} {T : Tree V (d + 1)}
    (h : T.Held nodes.get) (hnd : T.cells.Nodup) (hbushy : T.Bushy P) (hroom : T.count < internalMaxArity) :
    ∃ l c r kl kr nodes', insertChild nodes T.addr key = some (c.addr, nodes')
      ∧ Descent P key nodes.get nodes'.get T l c r kl kr := by
  obtain ⟨a, cs, ks, rfl⟩ := T.eq_node
  obtain ⟨n, hn, hin, hcs⟩ := Tree.held_node.mp h
  obtain ⟨hne, hf⟩ := Tree.bushy_node.mp hbushy
  obtain ⟨l, c, r, kl, kr, rfl, rfl, hr⟩ :=
    Route.exists_of_ne (by simpa using hin.length_keys) hne key
  rw [List.map_append, List.map_cons] at hin
  have hnext : n.next key = l.length := by
    rw [(hr.map Tree.addr).next_eq hin, List.length_map]
  have hslot := hin.slot_mid
  rw [List.length_map] at hslot
  obtain ⟨l', c', r', kl', kr', nodes', heq, hd⟩ := splitChildFull_spec hP h hnd hr hroom
    (hf c (by simp)).proper fun x hx => hf x (by simp; tauto)
  refine ⟨l', c', r', kl', kr', nodes', ?_, hd⟩
  simp only [insertChild, Tree.addr_node, getInternal_eq hn, Option.bind_eq_bind, Option.bind_some,
    hnext, hslot]
  exact heq

/-- **`fdb_btree_insert_node`.** -/
theorem insertNode_spec (hP : ∀ es, es ≠ [] → P es) {t : BTree V} {T : Tree V d} {fuel : ℕ} (value : V)
    (h : T.Held t.nodes.get) (hnd : T.cells.Nodup) (hproper : T.Proper P)
    (hroom : T.count < arity d) (hfuel : d < fuel) :
    ∃ t' T' ins, insertNode key value fuel t T.addr = some (t', ins)
      ∧ Inserts P key value t t' T T' ins := by
  induction d generalizing t fuel with
  | zero =>
      cases fuel with
      | zero => omega
      | succ fuel => exact insertNode_leaf hP value h hroom
  | succ d ih =>
      cases fuel with
      | zero => omega
      | succ fuel =>
          obtain ⟨l, c, r, kl, kr, nodes', heq, hd⟩ :=
            insertChild_spec hP key h hnd (hproper (Nat.succ_ne_zero d)) hroom
          obtain ⟨a, cs, ks, rfl⟩ := T.eq_node
          obtain ⟨n, hn, -, -⟩ := Tree.held_node.mp h
          obtain ⟨n', -, -, hcs⟩ := Tree.held_node.mp hd.step.held
          have hcnd : c.cells.Nodup := by
            have := hd.step.nodup
            simp only [Tree.cells_node, List.flatMap_append, List.flatMap_cons, List.nodup_cons,
              List.nodup_append] at this
            exact this.2.2.1.1
          obtain ⟨t', c', ins, heq', hc'⟩ := @ih { t with nodes := nodes' } c fuel (hcs c (by simp)) hcnd
            hd.proper hd.room (Nat.lt_of_succ_lt_succ hfuel)
          refine ⟨t', _, ins, ?_, hd.inserts hc'⟩
          rw [insertNode, Tree.addr_node, hn]
          rw [Tree.addr_node] at heq
          simp only [Option.bind_eq_bind, Option.bind_some, heq, heq']

end Furious
