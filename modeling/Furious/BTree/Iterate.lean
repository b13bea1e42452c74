import Furious.BTree.Runs

/-!
Iteration.

An iterator starts at the first leaf and follows the links of the leaves. If these
lead through all leaves from left to right it lists the entries of the tree; if a
link leads back to a leaf in front of it the iteration never ends.

* `LeafIn`: a leaf is in its cell;
* `Iter.Remains`: what an iterator has before it, `remains_of_linked`: the entries of
  linked leaves, `Rooted.iterInit_eq`: those of the tree;
* `Iter.skip`, `Iter.drain_loop`: an iterator that comes back never ends;
* `Orderly`, `iterates_map`: **the runs in which an iteration lists the map**.
-/

namespace Furious

variable {V : Type} {d : ℕ}

/-- The leaf is in its cell. -/
def LeafIn (nodes : Pool (Node V)) (x : Leaf V) : Prop :=
  ∃ n, nodes.get x.addr = some (.leaf n) ∧ IsLeaf n x.entries x.next

lemma Tree.Held.leafIn {nodes : Pool (Node V)} {T : Tree V d} (h : T.Held nodes.get) :
    ∀ x ∈ T.leaves, LeafIn nodes x := by
  induction d with
  | zero =>
      intro x hx
      rw [List.mem_singleton.mp hx]
      exact h
  | succ d ih =>
      obtain ⟨a, cs, ks, rfl⟩ := T.eq_node
      obtain ⟨-, -, -, hcs⟩ := Tree.held_node.mp h
      intro x hx
      obtain ⟨c, hc, hx⟩ := List.mem_flatMap.mp hx
      exact ih (hcs c hc) x hx

lemma Tree.Filled.entries_ne {T : Tree V d} (h : T.Filled) : ∀ x ∈ T.leaves, x.entries ≠ [] := by
  induction d with
  | zero =>
      intro x hx
      rw [List.mem_singleton.mp hx]
      exact h
  | succ d ih =>
      obtain ⟨a, cs, ks, rfl⟩ := T.eq_node
      intro x hx
      obtain ⟨c, hc, hx⟩ := List.mem_flatMap.mp hx
      exact ih ((Tree.filled_node.mp h).2 c hc) x hx

lemma Tree.toList_eq_leaves (T : Tree V d) : T.toList = T.leaves.flatMap Leaf.entries := by
  induction d with
  | zero =>
      obtain ⟨a, es, nx, rfl⟩ := T.eq_leaf
      simp
  | succ d ih =>
      obtain ⟨a, cs, ks, rfl⟩ := T.eq_node
      rw [Tree.toList_node, Tree.leaves_node, List.flatMap_assoc]
      exact List.flatMap_congr fun c _ => ih c

/-- What an iteration reports for some entries. -/
def reported (l : List (ℕ × V)) : List (ℕ × Option V) := l.map fun e => (e.1, some e.2)

/-- At an entry of a leaf the iterator reports it, and goes to the next one or to the
next leaf. -/
lemma Iter.step_eq {nodes : Pool (Node V)} {x : Leaf V} {l r : List (ℕ × V)} {e : ℕ × V}
    (hx : LeafIn nodes x) (hes : x.entries = l ++ e :: r) :
    (Iter.mk (some x.addr) l.length).hasNext nodes = some true
    ∧ (Iter.mk (some x.addr) l.length).next nodes = some ((e.1, some e.2),
        if r = [] then ⟨x.next, 0⟩ else ⟨some x.addr, (l ++ [e]).length⟩) := by
  obtain ⟨n, hn, hin⟩ := hx
  rw [hes] at hin
  have hcount : n.nleafs = l.length + 1 + r.length := by
    rw [hin.nleafs, List.length_append, List.length_cons]
    omega
  have hlt : l.length < n.nleafs := by omega
  have hne : n.nleafs ≠ 0 := by omega
  constructor
  · simp only [Iter.hasNext, getLeaf_eq hn, Option.bind_eq_bind, Option.bind_some, if_pos hlt]
  · simp only [Iter.next, getLeaf_eq hn, Option.bind_eq_bind, Option.bind_some, if_neg hne,
      hin.key_mid, hin.value_mid, hin.next]
    cases r with
    | nil =>
        rw [if_pos (by rw [hcount]; simp), if_pos rfl]
    | cons f r =>
        rw [if_neg (by rw [hcount, List.length_cons]; omega), if_neg (List.cons_ne_nil _ _)]
        simp

/-- The iterator has the entries `l` before it: with an entry before it there is a next
one, at the end it stays there and gives no pointer. -/
def Iter.Remains (nodes : Pool (Node V)) : Iter → List (ℕ × V) → Prop
  | iter, [] => iter.hasNext nodes = some false ∧ iter.next nodes = some ((0xffffffff, none), iter)
  | iter, e :: l => iter.hasNext nodes = some true
      ∧ ∃ iter', iter.next nodes = some ((e.1, some e.2), iter') ∧ iter'.Remains nodes l

/-- **The entries of linked leaves.** -/
theorem remains_of_linked {nodes : Pool (Node V)} {ls : List (Leaf V)}
    (hin : ∀ x ∈ ls, LeafIn nodes x) (hne : ∀ x ∈ ls, x.entries ≠ []) (hl : Linked none ls) :
    Iter.Remains nodes ⟨firstOf none ls, 0⟩ (ls.flatMap Leaf.entries) := by
  induction ls with
  | nil => exact ⟨rfl, rfl⟩
  | cons x ls ih =>
      obtain ⟨hnext, hl'⟩ := (linked_cons _ _ _).mp hl
      have hrest := ih (fun y hy => hin y (List.mem_cons_of_mem _ hy))
        (fun y hy => hne y (List.mem_cons_of_mem _ hy)) hl'
      -- the entries of `x` from a place on, and then the other leaves
      have hleaf : ∀ r l : List (ℕ × V), x.entries = l ++ r → r ≠ [] →
          Iter.Remains nodes ⟨some x.addr, l.length⟩ (r ++ ls.flatMap Leaf.entries) := by
        intro r
        induction r with
        | nil => exact fun _ _ h => absurd rfl h
        | cons e r ihr =>
            intro l hes _
            obtain ⟨hhas, hnx⟩ := Iter.step_eq (hin x List.mem_cons_self) hes
            refine ⟨hhas, _, hnx, ?_⟩
            by_cases hr : r = []
            · rw [if_pos hr, hr, hnext]
              exact hrest
            · rw [if_neg hr]
              exact ihr (l ++ [e]) (by simpa using hes) hr
      exact hleaf x.entries [] rfl (hne x List.mem_cons_self)

/-- A whole iteration. -/
lemma Iter.Remains.drain {nodes : Pool (Node V)} {iter : Iter} {l : List (ℕ × V)}
    (h : iter.Remains nodes l) {fuel : ℕ} (hfuel : l.length < fuel) :
    iter.drain nodes fuel = some (reported l) := by
  induction l generalizing iter fuel with
  | nil =>
      cases fuel with
      | zero => omega
      | succ fuel =>
          simp only [Iter.drain, h.1, Option.bind_eq_bind, Option.bind_some, Bool.false_eq_true, if_false]
          rfl
  | cons e l ih =>
      obtain ⟨hhas, iter', hnext, hrest⟩ := h
      cases fuel with
      | zero => omega
      | succ fuel =>
          have htail := ih hrest (Nat.lt_of_succ_lt_succ hfuel)
          simp only [Iter.drain, hhas, Option.bind_eq_bind, Option.bind_some, if_true, hnext, htail]
          rfl

/-- **An iterator over a tree** whose leaves are linked. -/
theorem Rooted.iterInit_eq {t : BTree V} {T : Tree V (d + 1)} (h : Rooted t T)
    (hl : Linked none T.leaves) :
    ∃ iter, t.iterInit = some iter ∧ iter.Remains t.nodes T.toList := by
  have hne : ∀ x ∈ T.leaves, x.entries ≠ [] := by
    obtain ⟨a, cs, ks, rfl⟩ := T.eq_node
    intro x hx
    obtain ⟨c, hc, hx⟩ := List.mem_flatMap.mp hx
    exact (h.filled c hc).entries_ne x hx
  have hfirst : firstLeaf t.nodes t.nodes.cells.length (some t.root) = some (firstOf none T.leaves) := by
    have hle := cells_length_le h.held h.nodup
    rw [← h.addr]
    obtain ⟨a, cs, ks, rfl⟩ := T.eq_node
    rcases eq_or_ne cs [] with rfl | hcs
    · obtain ⟨n, hn, hin, -⟩ := Tree.held_node.mp h.held
      obtain ⟨fuel, hfuel⟩ : ∃ fuel, t.nodes.cells.length = fuel + 1 :=
        Nat.exists_eq_add_one.mpr (lt_of_lt_of_le Nat.one_pos hle)
      have hslot : n.children[0]? = some none := by
        rw [Padded.eq_replicate hin.children]
        rfl
      rw [hfuel, firstLeaf, Tree.addr_node, hn]
      simp only [Option.bind_eq_bind, Option.bind_some, hslot, firstLeaf]
      rfl
    · have hf : (Tree.node a cs ks).Filled := Tree.filled_node.mpr ⟨hcs, h.filled⟩
      rw [firstLeaf_eq h.held hf (lt_of_lt_of_le hf.depth_lt hle)]
      cases (Tree.node a cs ks).leaves <;> rfl
  refine ⟨⟨firstOf none T.leaves, 0⟩, ?_, ?_⟩
  · simp only [BTree.iterInit, hfirst, Option.bind_eq_bind, Option.bind_some]
  · rw [T.toList_eq_leaves]
    exact remains_of_linked h.held.leafIn hne hl

/-! ### Iterators that come back -/

/-- `n` steps of an iteration. -/
def Iter.skip (nodes : Pool (Node V)) : ℕ → Iter → Option Iter
  | 0, iter => some iter
  | n + 1, iter => do
      let more ← iter.hasNext nodes
      if more = true then do
        let (_, iter) ← iter.next nodes
        Iter.skip nodes n iter
      else none

/-- The iteration goes on after `n` steps. -/
lemma Iter.drain_skip {nodes : Pool (Node V)} {n fuel : ℕ} {iter iter' : Iter}
    {l : List (ℕ × Option V)} (h : iter.skip nodes n = some iter')
    (hd : iter.drain nodes fuel = some l) :
    n ≤ fuel ∧ ∃ l', iter'.drain nodes (fuel - n) = some l' := by
  induction n generalizing iter fuel l with
  | zero =>
      obtain rfl := Option.some.inj h
      exact ⟨Nat.zero_le _, l, hd⟩
  | succ n ih =>
      cases fuel with
      | zero => cases hd
      | succ fuel =>
          obtain ⟨more, hmore, h⟩ := Option.bind_eq_some_iff.mp h
          rw [Iter.drain, hmore] at hd
          cases more with
          | false => cases h
          | true =>
              obtain ⟨⟨e, iter₁⟩, hnext, h⟩ := Option.bind_eq_some_iff.mp h
              simp only [Option.bind_eq_bind, Option.bind_some, if_true, hnext] at hd
              obtain ⟨l₁, hd, -⟩ := Option.bind_eq_some_iff.mp hd
              obtain ⟨hle, l', hl'⟩ := ih h hd
              exact ⟨Nat.succ_le_succ hle, l', by rwa [Nat.succ_sub_succ]⟩

/-- **An iterator that comes back** to where it was never ends. -/
theorem Iter.drain_loop {nodes : Pool (Node V)} {n : ℕ} {iter : Iter}
    (h : iter.skip nodes (n + 1) = some iter) (fuel : ℕ) : iter.drain nodes fuel = none := by
  induction fuel using Nat.strong_induction_on with
  | h fuel ih =>
      by_contra hne
      obtain ⟨l, hl⟩ := Option.ne_none_iff_exists'.mp hne
      obtain ⟨hle, l', hl'⟩ := Iter.drain_skip h hl
      rw [ih (fuel - (n + 1)) (by omega)] at hl'
      cases hl'

/-! ### Runs -/

/-- No removal forgets a key or empties a leaf that another one is linked to. -/
def Orderly (t : BTree V) : Op V → Prop
  | .insert _ _ => True
  | .remove key => t.thins key = false ∧ t.unlinks key = false

instance (t : BTree V) : (op : Op V) → Decidable (Orderly t op)
  | .insert _ _ => isTrue trivial
  | .remove key => inferInstanceAs (Decidable (t.thins key = false ∧ t.unlinks key = false))

/-- What `BTree.unlinks` says about the tree. -/
lemma Stands.unlinks {t : BTree V} {M : KeyMap V} {T : Tree V (d + 1)} {key : ℕ} {v : V}
    (h : Stands t M T) (hv : M.lookup key = some v) (hu : t.unlinks key = false) {x : Leaf V}
    (hx : T.leafFor key = some x) :
    2 ≤ x.entries.length ∨ T.leaves.head?.map Leaf.addr = some x.addr := by
  obtain ⟨n, hn, hin⟩ := h.rooted.held.leafIn x (Tree.leafFor_mem hx)
  have hpos := List.length_pos_iff.mpr ((h.filled hv).entries_ne x (Tree.leafFor_mem hx))
  rw [BTree.unlinks, ← h.rooted.addr, leafOf_eq h.rooted.held (h.filled hv) (h.depth_lt hv), hx,
    firstLeaf_eq h.rooted.held (h.filled hv) (h.depth_lt hv)] at hu
  simp only [Option.map_some, getLeaf_eq hn, hin.nleafs] at hu
  by_cases h1 : x.entries.length = 1
  · right
    simpa [h1] using hu
  · left
    omega

/-- A search ends in a leaf. -/
lemma Tree.leafFor_exists {m : ℕ → Option (Node V)} {T : Tree V d} (h : T.Held m) (hf : T.Filled)
    (key : ℕ) : ∃ x, T.leafFor key = some x := by
  induction d with
  | zero => exact ⟨T, rfl⟩
  | succ d ih =>
      obtain ⟨a, cs, ks, rfl⟩ := T.eq_node
      obtain ⟨n, -, hin, hcs⟩ := Tree.held_node.mp h
      obtain ⟨hne, hfs⟩ := Tree.filled_node.mp hf
      obtain ⟨l, c, r, kl, kr, rfl, rfl, hr⟩ :=
        Route.exists_of_ne (by simpa using hin.length_keys) hne key
      rw [Tree.leafFor_node hr]
      exact ih (hcs c (by simp)) (hfs c (by simp))

/-- The leaves stay linked in these runs. -/
lemma Run.linked {t : BTree V} {M : KeyMap V} (h : Run Orderly t M) :
    ∃ (d : ℕ) (T : Tree V (d + 1)), Stands t M T ∧ Linked none T.leaves := by
  induction h with
  | init =>
      obtain ⟨a, ha⟩ := Rooted.init (V := V)
      refine ⟨0, _, ⟨ha, by simp [Inorder], ⟨by simp, fun k v => ?_⟩⟩, by simp⟩
      simp [Finmap.lookup_empty]
  | @step t t' M h op legal hop hcall ih =>
      obtain ⟨d, T, hT, hlinked⟩ := ih
      cases op with
      | insert key value =>
          obtain ⟨d', t', T', ins, heq, hT', hins, -⟩ := hT.insert key value
          rw [Op.call, heq] at hcall
          obtain rfl := Option.some.inj hcall
          exact ⟨d', T', hT', hins.chain hlinked⟩
      | remove key =>
          obtain ⟨v, hv⟩ := Finmap.mem_iff.mp legal
          obtain ⟨d', t', T', heq, hrem, hT'⟩ := hT.remove hv
          rw [Op.call, heq] at hcall
          obtain rfl := Option.some.inj hcall
          obtain ⟨x, hx⟩ := Tree.leafFor_exists hT.rooted.held (hT.filled hv) key
          exact ⟨d', T', hT' hop.1, hrem.chain x hx (hT.unlinks hv hop.2 hx) hlinked⟩

/-- **In every orderly run an iteration lists the map** in ascending order, and ends. -/
theorem iterates_map {t : BTree V} {M : KeyMap V} (h : Run Orderly t M) :
    ∃ l, Lists l M ∧ ∀ fuel, l.length < fuel → t.entries fuel = some (reported l) := by
  obtain ⟨d, T, hT, hlinked⟩ := h.linked
  obtain ⟨iter, hinit, hiter⟩ := hT.rooted.iterInit_eq hlinked
  refine ⟨T.toList, hT.lists, fun fuel hfuel => ?_⟩
  simp only [BTree.entries, hinit, Option.bind_eq_bind, Option.bind_some, hiter.drain hfuel]

theorem iterates_map_upAndDown : ∃ (t : BTree ℕ) (M : KeyMap ℕ),
    (M.lookup 20 = some 1020 ∧ M.lookup 4 = none)
    ∧ ∃ l, Lists l M ∧ ∀ fuel, l.length < fuel → t.entries fuel = some (reported l) := by
  obtain ⟨t, M, h, hM⟩ := Run.exists_of_map Orderly (upAndDown 51 0 5)
    (f := fun r => (r.2.lookup 20, r.2.lookup 4)) (x := (some 1020, none)) (by decide +kernel)
  exact ⟨t, M, Prod.mk.inj hM, iterates_map h⟩

/-- After the keys `0` to `9` the upper leaf is emptied and the keys come back: they get
the node of that leaf, which the lower leaf still links to. -/
theorem not_iterates_map : ¬ ∀ (t : BTree ℕ) (M : KeyMap ℕ), Run (fun _ _ => True) t M →
    ∃ l, Lists l M ∧ ∃ fuel, t.entries fuel = some (reported l) := by
  intro hall
  obtain ⟨t, M, h, hM⟩ := Run.exists_of_map (fun _ _ => True)
    (upAndDown 10 5 5 ++ (List.range 5).map fun k => .insert (k + 5) (k + 1005))
    (f := fun r => do
      let iter₀ ← r.1.iterInit
      let iter ← iter₀.skip r.1.nodes 5
      some (decide (iter.skip r.1.nodes 5 = some iter))) (x := some true) (by decide +kernel)
  obtain ⟨iter₀, hinit, hM⟩ := Option.bind_eq_some_iff.mp hM
  obtain ⟨iter, hskip, hM⟩ := Option.bind_eq_some_iff.mp hM
  have hloop : iter.skip t.nodes 5 = some iter := of_decide_eq_true (Option.some.inj hM)
  obtain ⟨l, -, fuel, hl⟩ := hall t M h
  rw [BTree.entries, hinit] at hl
  obtain ⟨-, l', hl'⟩ := Iter.drain_skip hskip hl
  rw [Iter.drain_loop hloop] at hl'
  cases hl'

end Furious
