import Furious.BTree.Iterate

/-!
B-trees as dictionaries.

What the users of a B-tree need of it: which map it shows, that its iterator lists
this map, and what its operations do to the map.

* `destroyNode_spec`: all nodes of a tree are released;
* `Shows`: a B-tree shows a map;
* `Shows.init`, `Shows.get`, `Shows.insert`, `Shows.remove`, `Shows.clear`: **the
  operations**, `Shows.iterInit`: the iterator.
-/

namespace Furious

variable {V : Type} {d : ℕ}

/-! ### Releasing a tree -/

/-- A step of the loop of `fdb_btree_destroy_node`. -/
def destroyChild (fuel : ℕ) (nodes : Pool (Node V)) : Option ℕ → Option (Pool (Node V))
  | some child => destroyNode fuel nodes child
  | none => some nodes

lemma destroyNode_internal {nodes : Pool (Node V)} {a : ℕ} {n : InternalNode} (fuel : ℕ)
    (h : nodes.get a = some (.internal n)) :
    destroyNode (fuel + 1) nodes a
      = (n.children.foldlM (destroyChild fuel) nodes).bind fun nodes => nodes.release a := by
  rw [destroyNode, h]
  rfl

lemma foldlM_destroyChild_none (fuel k : ℕ) (nodes : Pool (Node V)) :
    (List.replicate k none).foldlM (destroyChild fuel) nodes = some nodes := by
  induction k with
  | zero => rfl
  | succ k ih => exact ih

/-- The loop releases the subtrees one after the other. -/
lemma foldlM_destroyChild (fuel : ℕ) {cs : List (Tree V d)} {nodes : Pool (Node V)}
    (hone : ∀ {nodes : Pool (Node V)} {c : Tree V d}, c.Held nodes.get → c.cells.Nodup →
      ∃ nodes', destroyNode fuel nodes c.addr = some nodes'
        ∧ Vacates nodes.get nodes'.get {a | a ∈ c.cells})
    (hcs : ∀ c ∈ cs, c.Held nodes.get) (hnd : (cs.flatMap Tree.cells).Nodup) :
    ∃ nodes', (cs.map fun c => some c.addr).foldlM (destroyChild fuel) nodes = some nodes'
      ∧ Vacates nodes.get nodes'.get {a | a ∈ cs.flatMap Tree.cells} := by
  induction cs generalizing nodes with
  | nil =>
      have hset : {b | b ∈ ([] : List (Tree V d)).flatMap Tree.cells} = (∅ : Set ℕ) := by
        ext b
        simp
      exact ⟨nodes, rfl, hset ▸ Vacates.empty _⟩
  | cons c cs ih =>
      rw [List.flatMap_cons, List.nodup_append] at hnd
      obtain ⟨hndc, hnds, hdisj⟩ := hnd
      obtain ⟨nodes₁, hdes, hvac⟩ := hone (hcs c List.mem_cons_self) hndc
      have hheld : ∀ g ∈ cs, g.Held nodes₁.get := by
        intro g hg
        refine (hcs g (List.mem_cons_of_mem _ hg)).congr fun k hk => hvac.same k fun hkc => ?_
        exact hdisj k hkc k (List.mem_flatMap.mpr ⟨g, hg, hk⟩) rfl
      obtain ⟨nodes₂, hrest, hvac₂⟩ := ih hheld hnds
      have hset : {b | b ∈ (c :: cs).flatMap Tree.cells}
          = {b | b ∈ c.cells} ∪ {b | b ∈ cs.flatMap Tree.cells} := by
        ext b
        simp
      refine ⟨nodes₂, ?_, hset ▸ hvac.trans hvac₂⟩
      rw [List.map_cons, List.foldlM_cons, destroyChild, hdes]
      exact hrest

/-- **`fdb_btree_destroy_node`** releases the nodes of the tree and no others. -/
theorem destroyNode_spec {nodes : Pool (Node V)} {T : Tree V d} {fuel : ℕ} (h : T.Held nodes.get)
    (hnd : T.cells.Nodup) (hfuel : d < fuel) :
    ∃ nodes', destroyNode fuel nodes T.addr = some nodes'
      ∧ Vacates nodes.get nodes'.get {a | a ∈ T.cells} := by
  induction d generalizing nodes fuel with
  | zero =>
      obtain ⟨a, es, nx, rfl⟩ := T.eq_leaf
      obtain ⟨n, hn, -⟩ := Tree.held_leaf.mp h
      obtain ⟨nodes', hrel, hget⟩ := Pool.get_release hn
      cases fuel with
      | zero => omega
      | succ fuel =>
          have hset : {b | b ∈ (Tree.leaf a es nx).cells} = {a} := by
            ext b
            simp
          refine ⟨nodes', by rw [Tree.addr_leaf, destroyNode_bare hn trivial, hrel], ?_⟩
          rw [hset, hget]
          exact Vacates.single _ _
  | succ d ih =>
      obtain ⟨a, cs, ks, rfl⟩ := T.eq_node
      obtain ⟨n, hn, hin, hcs⟩ := Tree.held_node.mp h
      rw [Tree.cells_node, List.nodup_cons] at hnd
      obtain ⟨ha, hnd⟩ := hnd
      cases fuel with
      | zero => omega
      | succ fuel =>
          obtain ⟨nodes₁, hfold, hvac⟩ := foldlM_destroyChild fuel
            (fun hc hnd => ih hc hnd (Nat.lt_of_succ_lt_succ hfuel)) hcs hnd
          have hn₁ : nodes₁.get a = some (.internal n) := by rw [hvac.same a ha, hn]
          obtain ⟨nodes₂, hrel, hget⟩ := Pool.get_release hn₁
          obtain ⟨m, hm, -⟩ := hin.children
          have hloop : n.children.foldlM (destroyChild fuel) nodes = some nodes₁ := by
            rw [hm, List.map_map, List.foldlM_append]
            have hcast : cs.map (some ∘ Tree.addr) = cs.map fun c => some c.addr := rfl
            rw [hcast, hfold]
            exact foldlM_destroyChild_none fuel m nodes₁
          have hset : {b | b ∈ (Tree.node a cs ks).cells} = {b | b ∈ cs.flatMap Tree.cells} ∪ {a} := by
            ext b
            simp
          refine ⟨nodes₂, ?_, ?_⟩
          · rw [Tree.addr_node, destroyNode_internal fuel hn, hloop, Option.bind_some, hrel]
          · rw [hset]
            refine hvac.trans ?_
            rw [hget]
            exact Vacates.single _ _

/-- The nodes of a whole tree. -/
lemma Rooted.destroy_spec {t : BTree V} {T : Tree V (d + 1)} (h : Rooted t T) :
    ∃ nodes, t.release = some nodes ∧ ∀ a, nodes.get a = none := by
  have hle := cells_length_le h.held h.nodup
  have hdestroy : ∃ nodes, destroyNode t.nodes.cells.length t.nodes T.addr = some nodes
      ∧ Vacates t.nodes.get nodes.get {a | a ∈ T.cells} := by
    obtain ⟨a, cs, ks, rfl⟩ := T.eq_node
    rcases eq_or_ne cs [] with rfl | hne
    · obtain ⟨n, hn, hin, -⟩ := Tree.held_node.mp h.held
      obtain ⟨nodes, hrel, hget⟩ := Pool.get_release hn
      obtain ⟨fuel, hfuel⟩ := Nat.exists_eq_add_one.mpr (lt_of_lt_of_le Nat.one_pos hle)
      have hset : {b | b ∈ (Tree.node a ([] : List (Tree V d)) ks).cells} = {a} := by
        ext b
        simp
      refine ⟨nodes, ?_, ?_⟩
      · rw [Tree.addr_node, hfuel, destroyNode_bare hn ⟨_, Padded.eq_replicate hin.children⟩, hrel]
      · rw [hset, hget]
        exact Vacates.single _ _
    · have hf : (Tree.node a cs ks).Filled := Tree.filled_node.mpr ⟨hne, h.filled⟩
      exact destroyNode_spec h.held h.nodup (lt_of_lt_of_le hf.depth_lt hle)
  obtain ⟨nodes, hdes, hvac⟩ := hdestroy
  refine ⟨nodes, by rw [BTree.release, ← h.addr, hdes], fun a => ?_⟩
  by_cases ha : a ∈ T.cells
  · exact hvac.vacant a ha
  · rw [hvac.same a ha]
    by_contra hne
    exact ha (h.exact a hne)

/-! ### The map that a B-tree shows -/

/-- The B-tree shows the map `M`. -/
structure Shows (t : BTree V) (M : KeyMap V) : Prop where
  tree : ∃ (d : ℕ) (T : Tree V (d + 1)), Stands t M T ∧ Linked none T.leaves
  size : t.size = M.keys.card % 2 ^ 32

namespace Shows

variable {t : BTree V} {M : KeyMap V} {key : ℕ}

lemma init : Shows (BTree.init : BTree V) ∅ := by
  obtain ⟨a, ha⟩ := Rooted.init (V := V)
  refine ⟨⟨0, _, ⟨ha, by simp [Inorder], ⟨by simp, fun k v => ?_⟩⟩, by simp⟩, rfl⟩
  simp [Finmap.lookup_empty]

/-- **Lookup.** -/
theorem get (h : Shows t M) (key : ℕ) : t.get key = some (M.lookup key) := by
  obtain ⟨d, T, hT, -⟩ := h.tree
  exact hT.get_eq key

/-- **Insertion** of a key that is not there. -/
theorem insert (h : Shows t M) (hk : key ∉ M) (value : V) :
    ∃ t' ins, t.insert key value = some (t', ins) ∧ ins.inserted = true
      ∧ ins.Holds t'.nodes value ∧ Shows t' (M.insert key value) := by
  obtain ⟨d, T, hT, hlinked⟩ := h.tree
  obtain ⟨d', t', T', ins, heq, hT', hins, hiff⟩ := hT.insert key value
  rw [Op.act, if_neg hk] at hT'
  cases hins.outcome with
  | added hi e₁ e₂ before after size slot =>
      refine ⟨t', ins, heq, hi, slot, ⟨d', T', hT', hins.chain hlinked⟩, ?_⟩
      have hcard := hT.lists.card
      rw [before, List.length_append] at hcard
      rw [size, h.size, hT'.lists.card, hcard, after, List.length_append, List.length_cons]
      omega
  | found hi entries size v mem slot =>
      rw [hiff.mpr hk] at hi
      cases hi

/-- Insertion of a key that is there changes nothing that the map shows. -/
theorem insert_present (h : Shows t M) {v : V} (hv : M.lookup key = some v) (value : V) :
    ∃ t' ins, t.insert key value = some (t', ins) ∧ ins.inserted = false
      ∧ ins.Holds t'.nodes v ∧ Shows t' M := by
  obtain ⟨d, T, hT, hlinked⟩ := h.tree
  obtain ⟨d', t', T', ins, heq, hT', hins, hiff⟩ := hT.insert key value
  have hk : key ∈ M := Finmap.mem_of_lookup_eq_some hv
  rw [Op.act, if_pos hk] at hT'
  cases hins.outcome with
  | added hi e₁ e₂ before after size slot => exact absurd hk (hiff.mp hi)
  | found hi entries size w mem slot =>
      have hw := (hT.lists.mem key w).mp mem
      rw [hv] at hw
      obtain rfl := Option.some.inj hw
      exact ⟨t', ins, heq, hi, slot, ⟨d', T', hT', hins.chain hlinked⟩, by rw [size, h.size]⟩

/-- **Removal**, where it forgets no key and unlinks no leaf. -/
theorem remove (h : Shows t M) {v : V} (hv : M.lookup key = some v)
    (hok : Orderly t (.remove key)) :
    ∃ t', t.remove key = some (t', some v) ∧ Shows t' (M.erase key) := by
  obtain ⟨d, T, hT, hlinked⟩ := h.tree
  obtain ⟨d', t', T', heq, hrem, hT'⟩ := hT.remove hv
  obtain ⟨x, hx⟩ := Tree.leafFor_exists hT.rooted.held (hT.filled hv) key
  have hstands : Stands t' (M.erase key) T' := hT' hok.1
  refine ⟨t', heq, ⟨d', T', hstands, hrem.chain x hx (hT.unlinks hv hok.2 hx) hlinked⟩, ?_⟩
  obtain ⟨e₁, e₂, he, he'⟩ := hrem.entries
  have hcard := hT.lists.card
  rw [he, List.length_append, List.length_cons] at hcard
  rw [hrem.size, h.size, hstands.lists.card, hcard, he', List.length_append]
  omega

/-- **Clearing.** -/
theorem clear (h : Shows t M) : ∃ t', t.clear = some t' ∧ Shows t' ∅ := by
  obtain ⟨d, T, hT, -⟩ := h.tree
  obtain ⟨nodes, hdes, hvac⟩ := hT.rooted.destroy_spec
  obtain ⟨a, nodes', halloc, -, hget⟩ := nodes.get_alloc (.internal
    ⟨List.replicate internalMaxArity none, List.replicate (internalMaxArity - 1) 0, 0⟩)
  rw [BTree.release] at hdes
  have hclear : t.clear = some ⟨a, 0, nodes'⟩ := by
    simp only [BTree.clear, hdes, Option.bind_eq_bind, Option.bind_some, createInternal, halloc]
  refine ⟨_, hclear, ⟨0, Tree.node a [] [], ⟨⟨rfl, ?_, List.nodup_singleton a, ?_, ?_⟩, ?_, ?_⟩, ?_⟩, ?_⟩
  · exact Tree.held_node.mpr ⟨_, by rw [hget, Function.update_self], IsInternal.create,
      fun c hc => (by cases hc)⟩
  · exact fun c hc => (by cases hc)
  · intro b hb
    by_cases hba : b = a
    · rw [hba]
      exact List.mem_cons_self
    · rw [hget, Function.update_of_ne hba] at hb
      exact absurd (hvac b) hb
  · simp [Inorder]
  · exact ⟨by simp, fun k v => by simp [Finmap.lookup_empty]⟩
  · simp
  · rfl

/-- **The iterator** has the entries of the map before it, in ascending order. -/
theorem iterInit (h : Shows t M) :
    ∃ l iter, Lists l M ∧ t.iterInit = some iter ∧ iter.Remains t.nodes l := by
  obtain ⟨d, T, hT, hlinked⟩ := h.tree
  obtain ⟨iter, hinit, hiter⟩ := hT.rooted.iterInit_eq hlinked
  exact ⟨T.toList, iter, hT.lists, hinit, hiter⟩

lemma release (h : Shows t M) : ∃ nodes, t.release = some nodes := by
  obtain ⟨d, T, hT, -⟩ := h.tree
  obtain ⟨nodes, hdes, -⟩ := hT.rooted.destroy_spec
  exact ⟨nodes, hdes⟩

end Shows

end Furious
