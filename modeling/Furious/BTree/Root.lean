import Furious.BTree.Insert

/-!
The whole tree.

The root is an internal node, the only one that may be without children. The nodes
of the tree are all the nodes of the pool.

* `Rooted`: a B-tree stands for a tree;
* `Rooted.init`, `Rooted.get_eq`: the new tree, and lookup;
* `Planted`: the same for a tree whose leaves meet a condition, in a pool that may have other nodes;
* `Grows`: the effect of an insertion, `Planted.insert_spec`, and `Rooted.insert_spec`.
-/

namespace Furious

variable {V : Type} {d : ℕ} {key : ℕ}

/-- The children of the topmost node. -/
def Tree.children (T : Tree V (d + 1)) : List (Tree V d) := Inner.children T

@[simp] lemma Tree.children_node (a : ℕ) (cs : List (Tree V d)) (ks : List ℕ) :
    (Tree.node a cs ks).children = cs := rfl

/-- The B-tree `t` stands for the tree `T`. -/
structure Rooted (t : BTree V) (T : Tree V (d + 1)) : Prop where
  addr : T.addr = t.root
  held : T.Held t.nodes.get
  nodup : T.cells.Nodup
  filled : ∀ c ∈ T.children, c.Filled
  exact : ∀ a, t.nodes.get a ≠ none → a ∈ T.cells

/-- The nodes of the tree are no more than those of the pool. -/
lemma cells_length_le {nodes : Pool (Node V)} {T : Tree V d} (h : T.Held nodes.get)
    (hnd : T.cells.Nodup) : T.cells.length ≤ nodes.cells.length :=
  Pool.length_le_of_live hnd h.live

/-- A tree that is bushy but for its leaf has a node on each of its levels. -/
lemma Tree.Proper.depth_lt {P : List (ℕ × V) → Prop} {T : Tree V d} (h : T.Proper P) :
    d < T.cells.length := by
  cases d with
  | zero => exact Nat.one_pos
  | succ d => exact (h (Nat.succ_ne_zero d)).depth_lt

/-- A step keeps the nodes of the pool those of the tree. -/
lemma Step.exact {m m' : ℕ → Option (Node V)} {T T' : Tree V d} (h : Step m m' T T')
    (hT : ∀ a, m a ≠ none → a ∈ T.cells) : ∀ a, m' a ≠ none → a ∈ T'.cells := by
  intro a ha
  by_contra hnot
  by_cases hin : a ∈ T.cells
  · exact ha (h.frame.dropped a hin hnot)
  · rw [h.frame.same a hin hnot] at ha
    exact hin (hT a ha)

namespace Rooted

variable {t : BTree V} {T : Tree V (d + 1)}

/-- `fdb_btree_init`. -/
lemma init : ∃ a, Rooted (BTree.init : BTree V) (Tree.node a ([] : List (Tree V 0)) []) := by
  obtain ⟨a, nodes, halloc, -, hget⟩ := (Pool.empty : Pool (Node V)).get_alloc (.internal
    ⟨List.replicate internalMaxArity none, List.replicate (internalMaxArity - 1) 0, 0⟩)
  have hinit : (BTree.init : BTree V) = ⟨a, 0, nodes⟩ := by
    rw [BTree.init, createInternal, halloc]
  refine ⟨a, ?_, ?_, List.nodup_singleton a, fun c hc => (by cases hc), fun b hb => ?_⟩
  · rw [hinit]
    rfl
  · rw [hinit]
    refine Tree.held_node.mpr ⟨_, ?_, IsInternal.create, fun c hc => (by cases hc)⟩
    rw [hget, Function.update_self]
  · rw [hinit] at hb
    by_cases hba : b = a
    · rw [hba]
      exact List.mem_cons_self
    · rw [hget, Function.update_of_ne hba, Pool.get_empty] at hb
      exact absurd rfl hb

/-- **`fdb_btree_get`** finds what the search finds. -/
theorem get_eq (h : Rooted t T) (key : ℕ) : t.get key = some (T.find key) := by
  have hle := cells_length_le h.held h.nodup
  rw [BTree.get, ← h.addr]
  obtain ⟨a, cs, ks, rfl⟩ := T.eq_node
  rcases eq_or_ne cs [] with rfl | hne
  · obtain ⟨n, hn, hin, -⟩ := Tree.held_node.mp h.held
    obtain ⟨fuel, hfuel⟩ : ∃ fuel, t.nodes.cells.length = fuel + 1 :=
      Nat.exists_eq_add_one.mpr (lt_of_lt_of_le Nat.one_pos hle)
    rw [hfuel, Tree.addr_node, getNode_internal key fuel hn, Tree.find_nil, hin.next_nil, hin.slot]
    rfl
  · have hf : (Tree.node a cs ks).Filled := Tree.filled_node.mpr ⟨hne, h.filled⟩
    exact getNode_eq h.held (lt_of_lt_of_le hf.depth_lt hle)

end Rooted

/-! ### Insertion -/

/-- The B-tree `t` stands for the tree `T`, the entries of whose leaves meet `P`. -/
structure Planted (P : List (ℕ × V) → Prop) (t : BTree V) (T : Tree V (d + 1)) : Prop where
  addr : T.addr = t.root
  held : T.Held t.nodes.get
  nodup : T.cells.Nodup
  bushy : ∀ c ∈ T.children, c.Bushy P

/-- The tree is all of the pool. -/
def Whole (nodes : Pool (Node V)) (T : Tree V d) : Prop := ∀ a, nodes.get a ≠ none → a ∈ T.cells

lemma Rooted.planted {t : BTree V} {T : Tree V (d + 1)} (h : Rooted t T) : Planted (· ≠ []) t T :=
  ⟨h.addr, h.held, h.nodup, fun c hc => Tree.bushy_iff_filled.mpr (h.filled c hc)⟩

lemma Planted.rooted {t : BTree V} {T : Tree V (d + 1)} (h : Planted (· ≠ []) t T)
    (hwhole : Whole t.nodes T) : Rooted t T :=
  ⟨h.addr, h.held, h.nodup, fun c hc => Tree.bushy_iff_filled.mp (h.bushy c hc), hwhole⟩

/-- The effect of an insertion on a planted tree. -/
structure Grows {d' : ℕ} (P : List (ℕ × V) → Prop) (key : ℕ) (value : V) (t t' : BTree V)
    (T : Tree V (d + 1)) (T' : Tree V (d' + 1)) (ins : Inserted) : Prop where
  planted : Planted P t' T'
  whole : Whole t.nodes T → Whole t'.nodes T'
  chain : Linked none T.leaves → Linked none T'.leaves
  order : Inorder T.flat → Inorder T'.flat
  absent : ins.inserted = true → Inorder T.flat → ∀ v, (key, v) ∉ T.toList
  outcome : Outcome key value t t' T.toList T'.toList ins

/-- The effect of an insertion on the whole tree. -/
structure RootInserts {d' : ℕ} (key : ℕ) (value : V) (t t' : BTree V) (T : Tree V (d + 1))
    (T' : Tree V (d' + 1)) (ins : Inserted) : Prop where
  rooted : Rooted t' T'
  chain : Linked none T.leaves → Linked none T'.leaves
  order : Inorder T.flat → Inorder T'.flat
  absent : ins.inserted = true → Inorder T.flat → ∀ v, (key, v) ∉ T.toList
  outcome : Outcome key value t t' T.toList T'.toList ins

variable {P : List (ℕ × V) → Prop}

/-- The rest of an insertion behind the first step downwards. -/
lemma Descent.insert_rest (hP : ∀ es, es ≠ [] → P es) {t : BTree V} {nodes nodes' : Pool (Node V)}
    {T : Tree V (d + 1)} {l r : List (Tree V d)} {c : Tree V d} {kl kr : List ℕ} (value : V)
    (hd : Descent P key nodes.get nodes'.get T l c r kl kr) (haddr : T.addr = t.root) :
    ∃ t' T' ins, insertNode key value nodes'.cells.length { t with nodes := nodes' } c.addr
        = some (t', ins)
      ∧ Inserts P key value { t with nodes := nodes } t' T T' ins ∧ Planted P t' T' := by
  obtain ⟨n, -, -, hcs⟩ := Tree.held_node.mp hd.step.held
  have hcnd : c.cells.Nodup := by
    have := hd.step.nodup
    simp only [Tree.cells_node, List.flatMap_append, List.flatMap_cons, List.nodup_cons,
      List.nodup_append] at this
    exact this.2.2.1.1
  have hheld : c.Held nodes'.get := hcs c (by simp)
  obtain ⟨t', c', ins, heq, hc'⟩ := insertNode_spec hP (t := { t with nodes := nodes' }) value
    hheld hcnd hd.proper hd.room (lt_of_lt_of_le hd.proper.depth_lt (cells_length_le hheld hcnd))
  have hins : Inserts P key value { t with nodes := nodes } t' T _ ins := hd.inserts hc'
  refine ⟨t', _, ins, heq, hins, ?_, hins.step.held, hins.step.nodup, hins.bushy.2⟩
  rw [hins.root]
  exact haddr

/-- A full root is split. -/
lemma splitRoot_spec {t : BTree V} {T : Tree V (d + 1)} (h : Planted P t T) :
    ∃ (d₁ : ℕ) (t₁ : BTree V) (T₁ : Tree V (d₁ + 1)), splitRoot t = some t₁ ∧ Planted P t₁ T₁
      ∧ (Whole t.nodes T → Whole t₁.nodes T₁) ∧ T₁.count < internalMaxArity ∧ T₁.flat = T.flat
      ∧ T₁.leaves = T.leaves ∧ t₁.size = t.size := by
  obtain ⟨a, cs, ks, rfl⟩ := T.eq_node
  obtain ⟨n, hn, hin, hcs⟩ := Tree.held_node.mp h.held
  have haddr : a = t.root := h.addr
  have hn' : t.nodes.get t.root = some (.internal n) := by rw [← haddr]; exact hn
  have hlen := hin.length_le
  rw [List.length_map] at hlen
  have hcount : n.nchildren = cs.length := by rw [hin.nchildren, List.length_map]
  by_cases hfull : cs.length = internalMaxArity
  · have hks := hin.length_keys
    rw [List.length_map] at hks
    obtain ⟨cl, cr, k₁, s, k₂, rfl, rfl, hcl, hcr, hk₁⟩ := exists_halves hfull hks
    rw [List.map_append] at hin
    obtain ⟨b, nodes₁, n₁, n₂, hsplit, hb, hget₁, hn₁, hn₂⟩ := splitInternal_eq hn' hin
      (by simpa using hcl) hk₁ (by simpa using hcr)
    obtain ⟨e, nodes₂, halloc, he, hget₂⟩ := nodes₁.get_alloc (.internal
      ⟨List.replicate internalMaxArity none, List.replicate (internalMaxArity - 1) 0, 0⟩)
    have he₂ : nodes₂.get e = some (.internal
        ⟨List.replicate internalMaxArity none, List.replicate (internalMaxArity - 1) 0, 0⟩) := by
      rw [hget₂, Function.update_self]
    obtain ⟨nodes₃, hput₃, hget₃⟩ := Pool.get_put he₂ (.internal
      ⟨((List.replicate internalMaxArity none).set 0 (some t.root)).set 1 (some b),
        (List.replicate (internalMaxArity - 1) 0).set 0 s, 2⟩)
    rw [← haddr] at hget₁
    have hlive := h.held.live
    have hab : a ≠ b := by
      rintro rfl
      exact hlive a List.mem_cons_self hb
    have hae : a ≠ e := by
      rintro rfl
      rw [hget₁, Function.update_self] at he
      cases he
    have hbe : b ≠ e := by
      rintro rfl
      rw [hget₁, Function.update_of_ne (Ne.symm hab), Function.update_self] at he
      cases he
    have hnd := h.nodup
    simp only [Tree.cells_node, List.flatMap_append, List.nodup_cons, List.mem_append,
      List.nodup_append, not_or] at hnd
    obtain ⟨⟨hacl, hacr⟩, hcln, hcrn, hclr⟩ := hnd
    have hother : ∀ k, k ≠ a → k ≠ b → k ≠ e → nodes₃.get k = t.nodes.get k := by
      intro k hka hkb hke
      rw [hget₃, hget₂, hget₁, Function.update_of_ne hke, Function.update_of_ne hke,
        Function.update_of_ne hka, Function.update_of_ne hkb]
    have hnew : ∀ k, k ∈ cl.flatMap Tree.cells ∨ k ∈ cr.flatMap Tree.cells →
        k ≠ a ∧ k ≠ b ∧ k ≠ e := by
      intro k hk
      have hk' : t.nodes.get k ≠ none := hlive k (by
        simp only [Tree.cells_node, List.flatMap_append, List.mem_cons, List.mem_append]
        exact Or.inr hk)
      have hka : k ≠ a := by
        rintro rfl
        exact hk.elim hacl hacr
      have hkb : k ≠ b := by
        rintro rfl
        exact hk' hb
      refine ⟨hka, hkb, ?_⟩
      rintro rfl
      rw [hget₁, Function.update_of_ne hka, Function.update_of_ne hkb] at he
      exact hk' he
    have hsub : ∀ g, g ∈ cl ∨ g ∈ cr → g.Held nodes₃.get := by
      intro g hg
      refine (hcs g (List.mem_append.mpr hg)).congr fun k hk => ?_
      obtain ⟨hka, hkb, hke⟩ := hnew k (hg.imp (fun hg => List.mem_flatMap.mpr ⟨g, hg, hk⟩)
        fun hg => List.mem_flatMap.mpr ⟨g, hg, hk⟩)
      exact hother k hka hkb hke
    have hfl : ∀ g, g ∈ cl ∨ g ∈ cr → g.Bushy P := fun g hg => h.bushy g (List.mem_append.mpr hg)
    refine ⟨d + 1, ⟨e, t.size, nodes₃⟩, Tree.node e [Tree.node a cl k₁, Tree.node b cr k₂] [s], ?_,
      ⟨rfl, ?_, ?_, ?_⟩, ?_, (by decide : 2 < internalMaxArity), ?_, ?_, rfl⟩
    · have hcount' : n.nchildren = internalMaxArity := by rw [hcount, hfull]
      simp only [splitRoot, getInternal_eq hn', Option.bind_eq_bind, Option.bind_some, hcount',
        if_true, hsplit, createInternal, halloc, getInternal_eq he₂, hput₃]
    · refine Tree.held_node.mpr ⟨_, by rw [hget₃, Function.update_self], ?_, fun c hc => ?_⟩
      · rw [← haddr]
        exact IsInternal.root a b s
      · rcases List.mem_cons.mp hc with rfl | hc
        · refine Tree.held_node.mpr ⟨n₁, ?_, hn₁, fun g hg => hsub g (Or.inl hg)⟩
          rw [hget₃, hget₂, hget₁, Function.update_of_ne hae, Function.update_of_ne hae,
            Function.update_self]
        · rw [List.mem_singleton.mp hc]
          refine Tree.held_node.mpr ⟨n₂, ?_, hn₂, fun g hg => hsub g (Or.inr hg)⟩
          rw [hget₃, hget₂, hget₁, Function.update_of_ne hbe, Function.update_of_ne hbe,
            Function.update_of_ne (Ne.symm hab), Function.update_self]
    · simp only [Tree.cells_node, List.flatMap_cons, List.flatMap_nil, List.append_nil,
        List.nodup_cons, List.mem_cons, List.mem_append, List.cons_append, List.nodup_append, not_or]
      refine ⟨⟨Ne.symm hae, fun hk => (hnew e (Or.inl hk)).2.2 rfl, Ne.symm hbe,
        fun hk => (hnew e (Or.inr hk)).2.2 rfl⟩, ⟨hacl, hab, hacr⟩, hcln,
        ⟨fun hk => (hnew b (Or.inr hk)).2.1 rfl, hcrn⟩, ?_⟩
      rintro k hk k' (rfl | hk') rfl
      · exact (hnew k (Or.inl hk)).2.1 rfl
      · exact hclr k hk k hk' rfl
    · intro c hc
      rcases List.mem_cons.mp hc with rfl | hc
      · refine Tree.bushy_node.mpr ⟨?_, fun g hg => hfl g (Or.inl hg)⟩
        rintro rfl
        cases hcl
      · rw [List.mem_singleton.mp hc]
        refine Tree.bushy_node.mpr ⟨?_, fun g hg => hfl g (Or.inr hg)⟩
        rintro rfl
        cases hcr
    · intro hwhole k hk
      simp only [Tree.cells_node, List.flatMap_cons, List.flatMap_nil, List.append_nil,
        List.mem_cons, List.mem_append, List.cons_append]
      by_cases hka : k = a
      · exact Or.inr (Or.inl hka)
      by_cases hkb : k = b
      · exact Or.inr (Or.inr (Or.inr (Or.inl hkb)))
      by_cases hke : k = e
      · exact Or.inl hke
      rw [hother k hka hkb hke] at hk
      have := hwhole k hk
      simp only [Tree.cells_node, List.flatMap_append, List.mem_cons, List.mem_append] at this
      tauto
    · rw [Tree.flat_node, Tree.flat_node, List.map_append,
        interleave_split (by rw [List.length_map, hcl, hk₁]; rfl)]
      simp
    · simp
  · refine ⟨d, t, Tree.node a cs ks, ?_, h, id, lt_of_le_of_ne hlen hfull, rfl, rfl, rfl⟩
    simp only [splitRoot, getInternal_eq hn', Option.bind_eq_bind, Option.bind_some, hcount,
      if_neg hfull]

/-- The first leaf of an empty tree. -/
lemma insertChild_empty (hP : ∀ es, es ≠ [] → P es) {t : BTree V} {a : ℕ} {ks : List ℕ}
    (h : Planted P t (Tree.node a ([] : List (Tree V d)) ks)) (key : ℕ) :
    ∃ (b : ℕ) (nodes nodes' : Pool (Node V)) (l : List (Tree V 0)) (c : Tree V 0)
      (r : List (Tree V 0)) (kl kr : List ℕ), insertChild t.nodes a key = some (c.addr, nodes')
      ∧ (Whole t.nodes (Tree.node a ([] : List (Tree V d)) ks) → ∀ x, nodes.get x ≠ none → x = a ∨ x = b)
      ∧ Descent P key nodes.get nodes'.get (Tree.node a [Tree.leaf b [] none] []) l c r kl kr := by
  obtain ⟨n, hn, hin, -⟩ := Tree.held_node.mp h.held
  obtain rfl : ks = [] := List.length_eq_zero_iff.mp hin.length_keys
  obtain ⟨b, nodes₁, halloc, hb, hget₁⟩ := t.nodes.get_alloc (.leaf
    ⟨List.replicate leafMaxArity none, List.replicate leafMaxArity 0, none, 0⟩)
  have hab : a ≠ b := by
    rintro rfl
    exact h.held.live a List.mem_cons_self hb
  obtain ⟨nodes₂, hput₂, hget₂⟩ := Pool.get_put
    (show nodes₁.get a = some _ by rw [hget₁, Function.update_of_ne hab, hn])
    (.internal ⟨n.children.set 0 (some b), n.keys, n.nchildren + 1⟩)
  have hheld : (Tree.node a [Tree.leaf b ([] : List (ℕ × V)) none] []).Held nodes₂.get := by
    refine Tree.held_node.mpr ⟨_, by rw [hget₂, Function.update_self], hin.first b, fun c hc => ?_⟩
    rw [List.mem_singleton.mp hc]
    refine Tree.held_leaf.mpr ⟨_, ?_, IsLeaf.create⟩
    rw [hget₂, Function.update_of_ne (Ne.symm hab), hget₁, Function.update_self]
  have hroute : Route key ([] : List (Tree V 0)) [] [] [] :=
    ⟨rfl, rfl, fun k hk => (by cases hk), fun k hk => (by cases hk)⟩
  obtain ⟨l, c, r, kl, kr, nodes', heq, hd⟩ := splitChildFull_spec hP (l := [])
    hheld (by simp [hab]) hroute (by decide : 1 < internalMaxArity) (fun h => absurd rfl h)
    fun x hx => by rcases hx with hx | hx <;> cases hx
  refine ⟨b, nodes₂, nodes', l, c, r, kl, kr, ?_, fun hwhole x hx => ?_, hd⟩
  · have hslot : n.children[0]? = some none := by
      rw [Padded.eq_replicate hin.children]
      rfl
    have hcount : n.nchildren = 0 := hin.nchildren
    simp only [insertChild, getInternal_eq hn, Option.bind_eq_bind, Option.bind_some, hin.next_nil,
      hslot, childIsLeaf, hcount, if_true, createLeaf, halloc]
    rw [hcount] at hput₂
    simp only [Nat.lt_irrefl, if_false, hput₂, Option.bind_some, gt_iff_lt]
    exact heq
  · by_contra hnot
    rw [not_or] at hnot
    rw [hget₂, hget₁, Function.update_of_ne hnot.1, Function.update_of_ne hnot.2] at hx
    have := hwhole x hx
    simp only [Tree.cells_node, List.flatMap_nil, List.mem_singleton] at this
    exact hnot.1 this

/-- **`fdb_btree_insert`.** -/
theorem Planted.insert_spec (hP : ∀ es, es ≠ [] → P es) {t : BTree V} {T : Tree V (d + 1)}
    (h : Planted P t T) (key : ℕ) (value : V) :
    ∃ (d' : ℕ) (t' : BTree V) (T' : Tree V (d' + 1)) (ins : Inserted),
      t.insert key value = some (t', ins) ∧ Grows P key value t t' T T' ins := by
  obtain ⟨d₁, t₁, T₁, hsplit, h₁, hwhole₁, hroom, hflat, hleaves, hsize⟩ := splitRoot_spec h
  have hlist : T₁.toList = T.toList := by rw [Tree.toList, hflat, Tree.toList]
  obtain ⟨a, cs, ks, rfl⟩ := T₁.eq_node
  have haddr : a = t₁.root := h₁.addr
  rcases eq_or_ne cs [] with rfl | hne
  · obtain ⟨b, nodes, nodes', l, c, r, kl, kr, heq, hexact, hd⟩ := insertChild_empty hP h₁ key
    obtain ⟨t', T', ins, hins, hT', hplanted⟩ := hd.insert_rest hP (t := t₁) value haddr
    have hnil : T.toList = [] := by rw [← hlist]; simp
    refine ⟨0, t', T', ins, ?_, hplanted, fun hwhole => hT'.step.exact fun x hx => ?_, fun _ => ?_,
      fun _ => ?_, fun _ _ v => ?_, ?_⟩
    · rw [haddr] at heq
      simp only [BTree.insert, hsplit, Option.bind_eq_bind, Option.bind_some, heq, hins]
    · rcases hexact (hwhole₁ hwhole) x hx with rfl | rfl <;> simp
    · exact hT'.chain.linked none (by simp)
    · simpa using hT'.order [] [] (by simp [Inorder]) Fits.nil
    · simp [hnil]
    · have hout := hT'.outcome
      rw [show (Tree.node a [Tree.leaf b ([] : List (ℕ × V)) none] []).toList = T.toList by
        simp [hnil]] at hout
      cases hout with
      | added h e₁ e₂ before after size slot =>
          exact Outcome.added h e₁ e₂ before after (by rw [size, hsize]) slot
      | found h entries size v mem slot =>
          exact Outcome.found h entries (by rw [size, hsize]) v mem slot
  · have hbushy : (Tree.node a cs ks).Bushy P := Tree.bushy_node.mpr ⟨hne, h₁.bushy⟩
    obtain ⟨l, c, r, kl, kr, nodes', heq, hd⟩ :=
      insertChild_spec hP key h₁.held h₁.nodup hbushy hroom
    rw [Tree.addr_node] at heq
    obtain ⟨t', T', ins, hins, hT', hplanted⟩ := hd.insert_rest hP (t := t₁) value haddr
    refine ⟨d₁, t', T', ins, ?_, hplanted, fun hwhole => hT'.step.exact (hwhole₁ hwhole), fun hl => ?_,
      fun hs => ?_, fun hi hs v => ?_, ?_⟩
    · rw [haddr] at heq
      simp only [BTree.insert, hsplit, Option.bind_eq_bind, Option.bind_some, heq, hins]
    · exact hT'.chain.linked none (by rwa [hleaves])
    · simpa using hT'.order [] [] (by simpa [hflat] using hs) Fits.nil
    · rw [← hlist]
      exact hT'.absent hi [] [] (by simpa [hflat] using hs) Fits.nil v
    · have hout := hT'.outcome
      rw [hlist] at hout
      cases hout with
      | added h e₁ e₂ before after size slot =>
          exact Outcome.added h e₁ e₂ before after (by rw [size, hsize]) slot
      | found h entries size v mem slot =>
          exact Outcome.found h entries (by rw [size, hsize]) v mem slot

/-- **`fdb_btree_insert`**, on the whole tree. -/
theorem Rooted.insert_spec {t : BTree V} {T : Tree V (d + 1)} (h : Rooted t T) (key : ℕ) (value : V) :
    ∃ (d' : ℕ) (t' : BTree V) (T' : Tree V (d' + 1)) (ins : Inserted),
      t.insert key value = some (t', ins) ∧ RootInserts key value t t' T T' ins := by
  obtain ⟨d', t', T', ins, heq, hgrows⟩ := h.planted.insert_spec (fun es hes => hes) key value
  exact ⟨d', t', T', ins, heq, hgrows.planted.rooted (hgrows.whole h.exact), hgrows.chain, hgrows.order,
    hgrows.absent, hgrows.outcome⟩

end Furious
