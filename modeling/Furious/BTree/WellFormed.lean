import Furious.BTree.Shape
import Furious.BTree.Tolerance

/-!
Insertion into well-formed trees.

A tree is well formed if its leaves are at one depth and linked in order, the counts are those of the
arrays, and the keys are sorted, with the separators between the subtrees. Leaves may be empty, and the
pool may have other nodes.

* `Node.HasRoom`, `nodesEntered`: the nodes that an insertion enters, each as it is at that time;
  `nodesEntered_spec`: **none of them is full**;
* `Inserted.At`: the place of a key, `insertNode_place`;
* `WellFormed`: well-formed trees with the entries of a map;
* `insert_well_formed`: **an insertion keeps a tree well formed**, and adds its key to the map.
-/

namespace Furious

variable {V : Type} {d key : ℕ} {P : List (ℕ × V) → Prop}

/-! ### The way down -/

/-- One more child or entry fits into the node. -/
def Node.HasRoom : Node V → Prop
  | .internal n => n.nchildren < internalMaxArity
  | .leaf n => n.nleafs < leafMaxArity

/-- The nodes that `fdb_btree_insert_node` enters, each as it is when it is entered. -/
def nodesEntered (key : ℕ) : ℕ → Pool (Node V) → ℕ → Option (List (Node V))
  | 0, _, _ => none
  | fuel + 1, nodes, node => do
      match ← nodes.get node with
      | .leaf n => some [.leaf n]
      | .internal n => do
          let (child, nodes) ← insertChild nodes node key
          let below ← nodesEntered key fuel nodes child
          some (.internal n :: below)

/-- The nodes that `fdb_btree_insert` enters, from the root on, which may have been split. -/
def BTree.entered (t : BTree V) (key : ℕ) : Option (List (Node V)) := do
  let t ← splitRoot t
  let root ← t.nodes.get t.root
  let (child, nodes) ← insertChild t.nodes t.root key
  let below ← nodesEntered key nodes.cells.length nodes child
  some (root :: below)

/-- The topmost node of a tree that is not full. -/
lemma Tree.Held.hasRoom {m : ℕ → Option (Node V)} {T : Tree V d} (h : T.Held m) (hroom : T.count < arity d) :
    ∃ n, m T.addr = some n ∧ n.HasRoom := by
  cases d with
  | zero =>
      obtain ⟨a, es, nx, rfl⟩ := T.eq_leaf
      obtain ⟨n, hn, hin⟩ := Tree.held_leaf.mp h
      exact ⟨.leaf n, hn, lt_of_eq_of_lt hin.nleafs hroom⟩
  | succ d =>
      obtain ⟨a, cs, ks, rfl⟩ := T.eq_node
      obtain ⟨n, hn, hin, -⟩ := Tree.held_node.mp h
      refine ⟨.internal n, hn, lt_of_eq_of_lt ?_ hroom⟩
      rw [hin.nchildren, List.length_map, Tree.count_node]

/-- What a descent leads to. -/
lemma Descent.child {m m' : ℕ → Option (Node V)} {T : Tree V (d + 1)} {l r : List (Tree V d)} {c : Tree V d}
    {kl kr : List ℕ} (hd : Descent P key m m' T l c r kl kr) : c.Held m' ∧ c.cells.Nodup := by
  obtain ⟨n, -, -, hcs⟩ := Tree.held_node.mp hd.step.held
  refine ⟨hcs c (by simp), ?_⟩
  have hnd := hd.step.nodup
  simp only [Tree.cells_node, List.flatMap_append, List.flatMap_cons, List.nodup_cons,
    List.nodup_append] at hnd
  exact hnd.2.2.1.1

/-- **No node is entered full.** -/
theorem nodesEntered_spec (hP : ∀ es, es ≠ [] → P es) {nodes : Pool (Node V)} {T : Tree V d} {fuel : ℕ}
    (h : T.Held nodes.get) (hnd : T.cells.Nodup) (hproper : T.Proper P) (hroom : T.count < arity d)
    (hfuel : d < fuel) :
    ∃ ns, nodesEntered key fuel nodes T.addr = some ns ∧ ∀ n ∈ ns, n.HasRoom := by
  induction d generalizing nodes fuel with
  | zero =>
      cases fuel with
      | zero => omega
      | succ fuel =>
          obtain ⟨x, hx, hxroom⟩ := h.hasRoom hroom
          obtain ⟨a, es, nx, rfl⟩ := T.eq_leaf
          obtain ⟨n, hn, -⟩ := Tree.held_leaf.mp h
          rw [Tree.addr_leaf] at hx
          obtain rfl := Option.some.inj (hn.symm.trans hx)
          refine ⟨[.leaf n], ?_, List.forall_mem_cons.mpr ⟨hxroom, fun y hy => absurd hy List.not_mem_nil⟩⟩
          simp only [nodesEntered, Tree.addr_leaf, hn, Option.bind_eq_bind, Option.bind_some]
  | succ d ih =>
      cases fuel with
      | zero => omega
      | succ fuel =>
          obtain ⟨x, hx, hxroom⟩ := h.hasRoom hroom
          obtain ⟨l, c, r, kl, kr, nodes', heq, hd⟩ :=
            insertChild_spec hP key h hnd (hproper (Nat.succ_ne_zero d)) hroom
          obtain ⟨hheld, hcnd⟩ := hd.child
          obtain ⟨ns, hns, hall⟩ := ih hheld hcnd hd.proper hd.room (Nat.lt_of_succ_lt_succ hfuel)
          obtain ⟨a, cs, ks, rfl⟩ := T.eq_node
          obtain ⟨n, hn, -, -⟩ := Tree.held_node.mp h
          rw [Tree.addr_node] at hx heq
          obtain rfl := Option.some.inj (hn.symm.trans hx)
          refine ⟨.internal n :: ns, ?_, List.forall_mem_cons.mpr ⟨hxroom, hall⟩⟩
          simp only [nodesEntered, Tree.addr_node, hn, Option.bind_eq_bind, Option.bind_some, heq, hns]

/-! ### The place of the key -/

/-- The place is that of `key`, with the value `v`. -/
def Inserted.At (ins : Inserted) (nodes : Pool (Node V)) (key : ℕ) (v : V) : Prop :=
  ∃ n, nodes.get ins.leaf = some (.leaf n) ∧ n.keys[ins.slot]? = some key
    ∧ n.leafs[ins.slot]? = some (some v)

/-- An insertion tells the place of its key. -/
lemma insertNode_place (hP : ∀ es, es ≠ [] → P es) {value : V} {t t' : BTree V} {T : Tree V d} {fuel : ℕ}
    {ins : Inserted} (h : T.Held t.nodes.get) (hnd : T.cells.Nodup) (hproper : T.Proper P)
    (hroom : T.count < arity d) (hcall : insertNode key value fuel t T.addr = some (t', ins)) :
    ∃ n, t'.nodes.get ins.leaf = some (.leaf n) ∧ n.keys[ins.slot]? = some key := by
  induction d generalizing t fuel with
  | zero =>
      cases fuel with
      | zero => cases hcall
      | succ fuel =>
          obtain ⟨a, es, nx, rfl⟩ := T.eq_leaf
          obtain ⟨n, hn, hin⟩ := Tree.held_leaf.mp h
          simp only [insertNode, Tree.addr_leaf, hn, Option.bind_eq_bind, Option.bind_some] at hcall
          obtain ⟨k, hk, hcall⟩ := Option.bind_eq_some_iff.mp hcall
          obtain ⟨old, -, hcall⟩ := Option.bind_eq_some_iff.mp hcall
          split at hcall
          · obtain ⟨nodes, hput, hcall⟩ := Option.bind_eq_some_iff.mp hcall
            obtain ⟨rfl, rfl⟩ := Prod.mk.inj (Option.some.inj hcall)
            obtain ⟨nodes', hput', hget⟩ := Pool.get_put hn (.leaf { n.shiftInsert (n.nextPos key) key with
              leafs := (n.shiftInsert (n.nextPos key) key).leafs.set (n.nextPos key) (some value) })
            obtain rfl := Option.some.inj (hput'.symm.trans hput)
            refine ⟨_, by rw [hget, Function.update_self], ?_⟩
            have hlt : n.nextPos key < n.keys.length := (List.getElem?_eq_some_iff.mp hk).1
            have hlen : n.keys.length = leafMaxArity := hin.keys.2
            change ((n.keys.insertIdx (n.nextPos key) key).take leafMaxArity)[n.nextPos key]? = some key
            rw [List.getElem?_take_of_lt (by omega), List.getElem?_insertIdx_self, if_pos hlt.le]
          · next hcond =>
              obtain ⟨rfl, rfl⟩ := Prod.mk.inj (Option.some.inj hcall)
              push Not at hcond
              exact ⟨n, hn, by rw [hk, hcond.1]⟩
  | succ d ih =>
      cases fuel with
      | zero => cases hcall
      | succ fuel =>
          obtain ⟨l, c, r, kl, kr, nodes', heq, hd⟩ :=
            insertChild_spec hP key h hnd (hproper (Nat.succ_ne_zero d)) hroom
          obtain ⟨hheld, hcnd⟩ := hd.child
          obtain ⟨a, cs, ks, rfl⟩ := T.eq_node
          obtain ⟨n, hn, -, -⟩ := Tree.held_node.mp h
          rw [Tree.addr_node] at heq hcall
          rw [insertNode, hn] at hcall
          simp only [Option.bind_eq_bind, Option.bind_some, heq] at hcall
          exact ih (t := { t with nodes := nodes' }) hheld hcnd hd.proper hd.room hcall

/-- The first step of an insertion, from the root. -/
lemma Planted.first (hP : ∀ es, es ≠ [] → P es) {t : BTree V} {T : Tree V (d + 1)} (h : Planted P t T)
    (key : ℕ) : ∃ (t₁ : BTree V) (n : Node V) (d' : ℕ) (c : Tree V d') (nodes' : Pool (Node V)),
      splitRoot t = some t₁ ∧ t₁.nodes.get t₁.root = some n ∧ n.HasRoom
      ∧ insertChild t₁.nodes t₁.root key = some (c.addr, nodes') ∧ c.Held nodes'.get ∧ c.cells.Nodup
      ∧ c.Proper P ∧ c.count < arity d' ∧ d' < nodes'.cells.length := by
  obtain ⟨d₁, t₁, T₁, hsplit, h₁, -, hroom, -, -, -⟩ := splitRoot_spec h
  obtain ⟨n, hn, hnroom⟩ := h₁.held.hasRoom hroom
  rw [h₁.addr] at hn
  -- what is left to do once the step is there
  have hrest : ∀ (d' : ℕ) (nodes nodes' : Pool (Node V)) (T' : Tree V (d' + 1)) (l r : List (Tree V d'))
      (c : Tree V d') (kl kr : List ℕ), insertChild t₁.nodes t₁.root key = some (c.addr, nodes') →
      Descent P key nodes.get nodes'.get T' l c r kl kr → ∃ (t₁ : BTree V) (n : Node V) (d' : ℕ)
        (c : Tree V d') (nodes' : Pool (Node V)), splitRoot t = some t₁
        ∧ t₁.nodes.get t₁.root = some n ∧ n.HasRoom
        ∧ insertChild t₁.nodes t₁.root key = some (c.addr, nodes') ∧ c.Held nodes'.get ∧ c.cells.Nodup
        ∧ c.Proper P ∧ c.count < arity d' ∧ d' < nodes'.cells.length := by
    intro d' nodes nodes' T' l r c kl kr heq hd
    obtain ⟨hheld, hcnd⟩ := hd.child
    exact ⟨t₁, n, d', c, nodes', hsplit, hn, hnroom, heq, hheld, hcnd, hd.proper, hd.room,
      lt_of_lt_of_le hd.proper.depth_lt (cells_length_le hheld hcnd)⟩
  obtain ⟨a, cs, ks, rfl⟩ := T₁.eq_node
  have haddr : a = t₁.root := h₁.addr
  rcases eq_or_ne cs [] with rfl | hne
  · obtain ⟨b, nodes, nodes', l, c, r, kl, kr, heq, -, hd⟩ := insertChild_empty hP h₁ key
    rw [haddr] at heq
    exact hrest 0 nodes nodes' _ l r c kl kr heq hd
  · obtain ⟨l, c, r, kl, kr, nodes', heq, hd⟩ :=
      insertChild_spec hP key h₁.held h₁.nodup (Tree.bushy_node.mpr ⟨hne, h₁.bushy⟩) hroom
    rw [Tree.addr_node, haddr] at heq
    exact hrest d₁ t₁.nodes nodes' _ l r c kl kr heq hd

/-! ### Insertion -/

/-- The B-tree is well formed, and has the entries of the map. -/
structure WellFormed (t : BTree V) (M : KeyMap V) : Prop where
  tree : ∃ (d : ℕ) (T : Tree V (d + 1)), Planted (fun _ => True) t T ∧ Inorder T.flat
    ∧ Linked none T.leaves ∧ Lists T.toList M

lemma Tree.Bushy.mono {Q : List (ℕ × V) → Prop} {T : Tree V d} (h : T.Bushy P) (hPQ : ∀ es, P es → Q es) :
    T.Bushy Q := by
  induction d with
  | zero => exact hPQ _ h
  | succ d ih =>
      obtain ⟨a, cs, ks, rfl⟩ := T.eq_node
      obtain ⟨hne, hcs⟩ := Tree.bushy_node.mp h
      exact Tree.bushy_node.mpr ⟨hne, fun c hc => ih (hcs c hc)⟩

/-- The trees of the runs are well formed. -/
lemma Shows.wellFormed {t : BTree V} {M : KeyMap V} (h : Shows t M) : WellFormed t M := by
  obtain ⟨d, T, hT, hlinked⟩ := h.tree
  obtain ⟨haddr, hheld, hnd, hbushy⟩ := hT.rooted.planted
  exact ⟨d, T, ⟨haddr, hheld, hnd, fun c hc => (hbushy c hc).mono fun _ _ => trivial⟩, hT.inorder, hlinked,
    hT.lists⟩

/-- The size after an insertion. -/
lemma Outcome.size_eq {value : V} {t t' : BTree V} {es es' : List (ℕ × V)} {ins : Inserted}
    (h : Outcome key value t t' es es' ins) (hsize : t.size = es.length % 2 ^ 32) :
    t'.size = es'.length % 2 ^ 32 := by
  cases h with
  | added hi e₁ e₂ before after size slot =>
      rw [before, List.length_append] at hsize
      rw [size, hsize, after, List.length_append, List.length_cons]
      omega
  | found hi entries size v mem slot => rw [size, hsize, entries]

/-- **`fdb_btree_insert`** keeps a tree well formed: the key is added to the map if it was not there, and
the map is as it was otherwise; the place that is returned is that of the key, with its value; no node on
the way down is full when it is entered. -/
theorem insert_well_formed {t : BTree V} {M : KeyMap V} (h : WellFormed t M)
    (hsize : t.size = M.keys.card % 2 ^ 32) (key : ℕ) (value : V) :
    ∃ t' ins, t.insert key value = some (t', ins) ∧ WellFormed t' ((Op.insert key value).act M)
      ∧ t'.size = ((Op.insert key value).act M).keys.card % 2 ^ 32
      ∧ (ins.inserted = true ↔ key ∉ M)
      ∧ (∃ v, ((Op.insert key value).act M).lookup key = some v ∧ ins.At t'.nodes key v)
      ∧ ∃ ns, t.entered key = some ns ∧ ∀ n ∈ ns, n.HasRoom := by
  have hP : ∀ es : List (ℕ × V), es ≠ [] → True := fun _ _ => trivial
  obtain ⟨d, T, hT, hin, hlinked, hl⟩ := h.tree
  obtain ⟨d', t', T', ins, heq, hins⟩ := hT.insert_spec hP key value
  have hin' := hins.order hin
  obtain ⟨hlists, hiff⟩ := hins.outcome.lists hl hin'.entries fun hi => hins.absent hi hin
  obtain ⟨t₁, n, d₁, c, nodes', hsplit, hroot, hroom, hchild, hheld, hcnd, hproper, hcroom, hfuel⟩ :=
    hT.first hP key
  refine ⟨t', ins, heq, ⟨d', T', hins.planted, hin', hins.chain hlinked, hlists⟩, ?_, hiff, ?_, ?_⟩
  · rw [hl.card] at hsize
    rw [hlists.card]
    exact hins.outcome.size_eq hsize
  · -- the place of the key, and the value there
    obtain ⟨leaf, hleaf, hkey⟩ : ∃ n, t'.nodes.get ins.leaf = some (.leaf n) ∧ n.keys[ins.slot]? = some key := by
      simp only [BTree.insert, hsplit, Option.bind_eq_bind, Option.bind_some, hchild] at heq
      exact insertNode_place hP (t := { t₁ with nodes := nodes' }) hheld hcnd hproper hcroom heq
    obtain ⟨v, hv, hslot⟩ : ∃ v, (key, v) ∈ T'.toList ∧ ins.Holds t'.nodes v := by
      cases hins.outcome with
      | added hi e₁ e₂ before after size slot => exact ⟨value, by rw [after]; simp, slot⟩
      | found hi entries size v mem slot => exact ⟨v, entries ▸ mem, slot⟩
    obtain ⟨leaf', hleaf', hvalue⟩ := hslot
    obtain rfl := Node.leaf.inj (Option.some.inj (hleaf.symm.trans hleaf'))
    exact ⟨v, (hlists.mem key v).mp hv, leaf, hleaf, hkey, hvalue⟩
  · obtain ⟨ns, hns, hall⟩ : ∃ ns, nodesEntered key nodes'.cells.length nodes' c.addr = some ns
        ∧ ∀ n ∈ ns, n.HasRoom := nodesEntered_spec hP hheld hcnd hproper hcroom hfuel
    refine ⟨n :: ns, ?_, List.forall_mem_cons.mpr ⟨hroom, hall⟩⟩
    simp only [BTree.entered, hsplit, Option.bind_eq_bind, Option.bind_some, hroot, hchild, hns]

/-- A key comes back to a tree from which it was removed. -/
theorem insert_well_formed_again : ∃ (t t' : BTree ℕ) (M : KeyMap ℕ) (ins : Inserted), WellFormed t M
    ∧ M.lookup 2 = none ∧ t.insert 2 7 = some (t', ins) ∧ ins.At t'.nodes 2 7 := by
  obtain ⟨t, M, h, hM⟩ := Run.exists_of_map Orderly (upAndDown 51 0 5) (f := fun r => r.2.lookup 2)
    (x := none) (by decide +kernel)
  have hshows := h.roam.shows
  have hkey : 2 ∉ M := Finmap.lookup_eq_none.mp hM
  obtain ⟨t', ins, heq, -, -, -, ⟨v, hv, hat⟩, -⟩ :=
    insert_well_formed hshows.wellFormed hshows.size 2 7
  rw [Op.act, if_neg hkey, Finmap.lookup_insert] at hv
  exact ⟨t, t', M, ins, hshows.wellFormed, hM, heq, Option.some.inj hv ▸ hat⟩

/-- With all keys but the last one in the tree, the last one takes the counter back to zero. -/
theorem not_insert_well_formed : ¬ ∀ (t : BTree ℕ) (M : KeyMap ℕ), WellFormed t M → t.size = M.keys.card →
    ∀ key value t' ins, t.insert key value = some (t', ins) →
      t'.size = ((Op.insert key value).act M).keys.card := by
  intro hall
  obtain ⟨n, hn⟩ : ∃ n, n + 1 = 2 ^ 32 := ⟨2 ^ 32 - 1, by norm_num⟩
  obtain ⟨t, M, h, hM⟩ := Run.ascending n
  have hshows : Shows t M := (h.mono fun t op hop => by
    obtain ⟨key, rfl⟩ := hop
    exact (trivial : Orderly t (.insert key key))).roam.shows
  have hcard : M.keys.card = n := by rw [hM, Finset.card_range]
  have hkey : n ∉ M := by
    rw [← Finmap.mem_keys, hM]
    exact Finset.notMem_range_self
  have hsize : t.size = M.keys.card := by
    rw [hshows.size]
    exact Nat.mod_eq_of_lt (by omega)
  obtain ⟨t', ins, heq, -, -, hshows'⟩ := hshows.insert hkey n
  have hafter := hall t M hshows.wellFormed hsize n n t' ins heq
  rw [Op.act, if_neg hkey] at hafter
  have hcard' : (M.insert n n).keys.card = n + 1 := by
    have hkeys : (M.insert n n).keys = insert n M.keys := by
      ext k
      rw [Finmap.mem_keys, Finmap.mem_insert, Finset.mem_insert, Finmap.mem_keys]
    rw [hkeys, Finset.card_insert_of_notMem (by rwa [Finmap.mem_keys]), hcard]
  rw [hshows'.size, hcard', hn, Nat.mod_self] at hafter
  exact absurd hafter (by norm_num)

end Furious
