import Furious.BTree.Remove

/-!
What a removal will do, read off the nodes.

Two slips of the removal show only for some trees: a merge of two internal nodes
forgets the key between them if the right one has a single child, and the leaf in
front of an emptied one keeps its link to it. Both can be predicted from the numbers
of children and entries on the path to the key.

* `thinning`: how many children or entries a removal takes from a node, and whether
  it forgets a key, `thinning_eq`;
* `leafOf`: the leaf that a search ends in, `leafOf_eq`;
* `BTree.thins`, `BTree.unlinks`: whether a removal forgets a key, or empties a leaf
  that another one is linked to.
-/

namespace Furious

variable {V : Type} {d : ℕ} {key : ℕ}

/-- The numbers of children or entries of the nodes in some slots. -/
def countsOf (nodes : Pool (Node V)) (slots : List (Option ℕ)) : List ℕ :=
  slots.filterMap fun slot => (slot.bind nodes.get).map Node.count

/-- Whether a node is a leaf. -/
def Node.isLeaf : Node V → Bool
  | .internal _ => false
  | .leaf _ => true

/-- How many entries or children `fdb_btree_remove_node` takes from a node, and whether
somewhere below it a key between two merged nodes is forgotten. -/
def thinning (nodes : Pool (Node V)) (key : ℕ) : ℕ → ℕ → Option (ℕ × Bool)
  | 0, _ => none
  | fuel + 1, node => do
      match ← nodes.get node with
      | .leaf _ => some (1, false)
      | .internal n => do
          let childIdx := n.next key
          let child ← n.children[childIdx]?.join
          let lost ← thinning nodes key fuel child
          let c ← nodes.get child
          let left := c.count - lost.1
          let joined := joins c.isLeaf
            ((if left = 0 then [] else [left]) ++ countsOf nodes (n.children.drop (childIdx + 1)))
          some ((if left = 0 then 1 else 0) + joined.1, lost.2 || joined.2)

/-- The leaf that `fdb_btree_get_node` ends in. -/
def leafOf (nodes : Pool (Node V)) (key : ℕ) : ℕ → ℕ → Option ℕ
  | 0, _ => none
  | fuel + 1, node => do
      match ← nodes.get node with
      | .internal n => do
          let child ← n.children[n.next key]?.join
          leafOf nodes key fuel child
      | .leaf _ => some node

/-- Whether removing the key merges an internal node that has a single child into its
left neighbour. -/
def BTree.thins (t : BTree V) (key : ℕ) : Bool :=
  ((thinning t.nodes key t.nodes.cells.length t.root).map Prod.snd).getD false

/-- Whether removing the key empties a leaf other than the first one. -/
def BTree.unlinks (t : BTree V) (key : ℕ) : Bool :=
  match leafOf t.nodes key t.nodes.cells.length t.root with
  | none => false
  | some leaf =>
      match getLeaf t.nodes leaf with
      | none => false
      | some n => n.nleafs == 1 && firstLeaf t.nodes t.nodes.cells.length (some t.root) != some (some leaf)

/-! ### The predictions -/

lemma countsOf_children {nodes : Pool (Node V)} {cs : List (Tree V d)} {m : ℕ}
    (h : ∀ c ∈ cs, c.Held nodes.get) :
    countsOf nodes (cs.map (fun c => some c.addr) ++ List.replicate m none) = cs.map Tree.count := by
  induction cs with
  | nil => simp [countsOf]
  | cons c cs ih =>
      obtain ⟨n, hn, hcount, -⟩ := (h c List.mem_cons_self).top
      have := ih fun c hc => h c (List.mem_cons_of_mem _ hc)
      simpa [countsOf, hn, hcount] using this

/-- The child that the search turns to, and its right neighbours, read off the node. -/
lemma Tree.Held.route {nodes : Pool (Node V)} {a : ℕ} {l r : List (Tree V d)} {c : Tree V d}
    {kl kr : List ℕ} (h : (Tree.node a (l ++ c :: r) (kl ++ kr)).Held nodes.get)
    (hr : Route key l r kl kr) :
    ∃ n n', nodes.get a = some (.internal n) ∧ n.next key = l.length
      ∧ n.children[l.length]?.join = some c.addr ∧ nodes.get c.addr = some n'
      ∧ n'.count = c.count ∧ n'.isLeaf = decide (d = 0)
      ∧ countsOf nodes (n.children.drop (l.length + 1)) = r.map Tree.count := by
  obtain ⟨n, hn, hin, hcs⟩ := Tree.held_node.mp h
  have hin' := hin
  rw [List.map_append, List.map_cons] at hin'
  have hnext : n.next key = l.length := by
    rw [(hr.map Tree.addr).next_eq hin', List.length_map]
  have hslot : n.children[l.length]?.join = some c.addr := by rw [hin.slot]; simp
  obtain ⟨n', hn', hcount, -⟩ := (hcs c (by simp)).top
  have hleaf : n'.isLeaf = decide (d = 0) := by
    cases d with
    | zero =>
        obtain ⟨m, hm, -⟩ := Tree.held_leaf.mp (hcs c (by simp))
        rw [show nodes.get c.addr = some (.leaf m) from hm] at hn'
        rw [← Option.some.inj hn']
        rfl
    | succ d =>
        obtain ⟨b, ds, js, rfl⟩ := c.eq_node
        obtain ⟨m, hm, -, -⟩ := Tree.held_node.mp (hcs (Tree.node b ds js) (by simp))
        rw [Tree.addr_node, hm] at hn'
        rw [← Option.some.inj hn']
        rfl
  have hcounts : countsOf nodes (n.children.drop (l.length + 1)) = r.map Tree.count := by
    obtain ⟨m, hm, -⟩ := hin.children
    have hdrop : n.children.drop (l.length + 1)
        = r.map (fun c => some c.addr) ++ List.replicate m none := by
      rw [hm, show ((l ++ c :: r).map Tree.addr).map some ++ List.replicate m none
          = (l.map (fun c => some c.addr) ++ [some c.addr])
            ++ (r.map (fun c => some c.addr) ++ List.replicate m none) by simp [Function.comp_def]]
      exact List.drop_left' (by simp)
    rw [hdrop]
    exact countsOf_children fun x hx => hcs x (by simp [hx])
  exact ⟨n, n', hn, hnext, hslot, hn', hcount, hleaf, hcounts⟩

/-- The prediction is that of the tree. -/
theorem thinning_eq {nodes : Pool (Node V)} {T : Tree V d} {fuel : ℕ} (h : T.Held nodes.get)
    (hf : T.Filled) (hfuel : d < fuel) : thinning nodes key fuel T.addr = some (T.losses key) := by
  induction d generalizing fuel with
  | zero =>
      obtain ⟨a, es, nx, rfl⟩ := T.eq_leaf
      obtain ⟨n, hn, -⟩ := Tree.held_leaf.mp h
      cases fuel with
      | zero => omega
      | succ fuel =>
          rw [thinning, Tree.addr_leaf, hn]
          rfl
  | succ d ih =>
      obtain ⟨a, cs, ks, rfl⟩ := T.eq_node
      obtain ⟨n, hn, hin, hcs⟩ := Tree.held_node.mp h
      obtain ⟨hne, hfs⟩ := Tree.filled_node.mp hf
      cases fuel with
      | zero => omega
      | succ fuel =>
          obtain ⟨l, c, r, kl, kr, rfl, rfl, hr⟩ :=
            Route.exists_of_ne (by simpa using hin.length_keys) hne key
          obtain ⟨n, n', hn, hnext, hslot, hn', hcount, hleaf, hcounts⟩ := h.route hr
          rw [thinning, Tree.addr_node, hn]
          simp only [Option.bind_eq_bind, Option.bind_some, hnext, hslot, hn',
            ih (hcs c (by simp)) (hfs c (by simp)) (Nat.lt_of_succ_lt_succ hfuel), hcount, hleaf, hcounts]
          rw [Tree.losses_node hr]

/-- The search ends in the leaf of the tree. -/
theorem leafOf_eq {nodes : Pool (Node V)} {T : Tree V d} {fuel : ℕ} (h : T.Held nodes.get)
    (hf : T.Filled) (hfuel : d < fuel) :
    leafOf nodes key fuel T.addr = (T.leafFor key).map Leaf.addr := by
  induction d generalizing fuel with
  | zero =>
      obtain ⟨a, es, nx, rfl⟩ := T.eq_leaf
      obtain ⟨n, hn, -⟩ := Tree.held_leaf.mp h
      cases fuel with
      | zero => omega
      | succ fuel =>
          rw [leafOf, Tree.addr_leaf, hn]
          rfl
  | succ d ih =>
      obtain ⟨a, cs, ks, rfl⟩ := T.eq_node
      obtain ⟨n, hn, hin, hcs⟩ := Tree.held_node.mp h
      obtain ⟨hne, hfs⟩ := Tree.filled_node.mp hf
      cases fuel with
      | zero => omega
      | succ fuel =>
          obtain ⟨l, c, r, kl, kr, rfl, rfl, hr⟩ :=
            Route.exists_of_ne (by simpa using hin.length_keys) hne key
          obtain ⟨n, -, hn, hnext, hslot, -⟩ := h.route hr
          rw [leafOf, Tree.addr_node, hn, Tree.leafFor_node hr]
          simp only [Option.bind_eq_bind, Option.bind_some, hnext, hslot]
          exact ih (hcs c (by simp)) (hfs c (by simp)) (Nat.lt_of_succ_lt_succ hfuel)

/-- `fdb_btree_iter_init` goes to the first leaf. -/
theorem firstLeaf_eq {nodes : Pool (Node V)} {T : Tree V d} {fuel : ℕ} (h : T.Held nodes.get)
    (hf : T.Filled) (hfuel : d < fuel) :
    firstLeaf nodes fuel (some T.addr) = some (T.leaves.head?.map Leaf.addr) := by
  induction d generalizing fuel with
  | zero =>
      obtain ⟨a, es, nx, rfl⟩ := T.eq_leaf
      obtain ⟨n, hn, -⟩ := Tree.held_leaf.mp h
      cases fuel with
      | zero => omega
      | succ fuel =>
          rw [firstLeaf, Tree.addr_leaf, hn]
          rfl
  | succ d ih =>
      obtain ⟨a, cs, ks, rfl⟩ := T.eq_node
      obtain ⟨n, hn, hin, hcs⟩ := Tree.held_node.mp h
      obtain ⟨hne, hfs⟩ := Tree.filled_node.mp hf
      cases fuel with
      | zero => omega
      | succ fuel =>
          cases cs with
          | nil => exact absurd rfl hne
          | cons c cs =>
              have hslot : n.children[0]? = some (some c.addr) := hin.slot_mid (l := [])
              obtain ⟨x, xs, hx⟩ := List.exists_cons_of_ne_nil (hfs c List.mem_cons_self).leaves_ne
              rw [firstLeaf, Tree.addr_node, hn]
              simp only [Option.bind_eq_bind, Option.bind_some, hslot]
              rw [ih (hcs c List.mem_cons_self) (hfs c List.mem_cons_self) (Nat.lt_of_succ_lt_succ hfuel)]
              simp [hx]

end Furious
