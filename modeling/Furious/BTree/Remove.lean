import Furious.BTree.Merge

/-!
Removal.

On its way back from the leaf a removal corrects the separator on the left of the
child, drops the child if it has become empty and merges it with its neighbour.

* `Tree.losses`: how many children or entries a node loses, and whether a merge on
  the way loses a key;
* `Tree.leafFor`: the leaf that a search ends in;
* `Drops`: the first two steps of the way back, `drop_spec`;
* `Removes`: the effect of a removal on a subtree, `removeNode_spec`.
-/

namespace Furious

variable {V : Type} {d : ℕ} {key : ℕ}

/-! ### What a removal does, read off the tree -/

/-- How many entries or children the topmost node loses in a removal, and whether a key
between two merged nodes is lost anywhere. -/
def Tree.losses (key : ℕ) : {d : ℕ} → Tree V d → ℕ × Bool
  | 0, _ => (1, false)
  | d + 1, t =>
      match (Inner.children t).drop ((Inner.keys t).takeWhile fun k => k ≤ key).length with
      | [] => (0, false)
      | c :: r =>
          let lost := losses key c
          let left := c.count - lost.1
          let joined := joins (decide (d = 0)) ((if left = 0 then [] else [left]) ++ r.map Tree.count)
          ((if left = 0 then 1 else 0) + joined.1, lost.2 || joined.2)

/-- The leaf that a search ends in. -/
def Tree.leafFor (key : ℕ) : {d : ℕ} → Tree V d → Option (Leaf V)
  | 0, t => some t
  | _ + 1, t =>
      match (Inner.children t)[((Inner.keys t).takeWhile fun k => k ≤ key).length]? with
      | some c => leafFor key c
      | none => none

section

variable {a : ℕ} {l r : List (Tree V d)} {c : Tree V d} {kl kr : List ℕ}

lemma Tree.losses_node (h : Route key l r kl kr) :
    (Tree.node a (l ++ c :: r) (kl ++ kr)).losses key
      = ((if c.count - (c.losses key).1 = 0 then 1 else 0)
          + (joins (decide (d = 0)) ((if c.count - (c.losses key).1 = 0 then []
              else [c.count - (c.losses key).1]) ++ r.map Tree.count)).1,
        (c.losses key).2 || (joins (decide (d = 0)) ((if c.count - (c.losses key).1 = 0 then []
              else [c.count - (c.losses key).1]) ++ r.map Tree.count)).2) := by
  rw [Tree.losses]
  have hdrop : (Inner.children (Tree.node a (l ++ c :: r) (kl ++ kr))).drop
      ((Inner.keys (Tree.node a (l ++ c :: r) (kl ++ kr))).takeWhile fun k => k ≤ key).length
        = c :: r := by
    show (l ++ c :: r).drop ((kl ++ kr).takeWhile fun k => k ≤ key).length = c :: r
    rw [h.takeWhile_eq, ← h.left]
    exact List.drop_left
  rw [hdrop]

lemma Tree.leafFor_node (h : Route key l r kl kr) :
    (Tree.node a (l ++ c :: r) (kl ++ kr)).leafFor key = c.leafFor key := by
  show (match (l ++ c :: r)[((kl ++ kr).takeWhile fun k => k ≤ key).length]? with
    | some c => Tree.leafFor key c
    | none => none) = _
  rw [h.takeWhile_eq, ← h.left]
  simp

end

/-- The leaf is one of the leaves. -/
lemma Tree.leafFor_mem {T : Tree V d} {x : Leaf V} (h : T.leafFor key = some x) : x ∈ T.leaves := by
  induction d with
  | zero => exact List.mem_singleton.mpr (Option.some.inj h).symm
  | succ d ih =>
      obtain ⟨a, cs, ks, rfl⟩ := T.eq_node
      change (match cs[(ks.takeWhile fun k => k ≤ key).length]? with
        | some c => Tree.leafFor key c
        | none => none) = some x at h
      split at h
      · next c hc => exact List.mem_flatMap.mpr ⟨c, List.mem_of_getElem? hc, ih h⟩
      · cases h

/-- The leaves are among the nodes. -/
lemma Tree.addr_mem_cells_of_leaf {T : Tree V d} {x : Leaf V} (h : x ∈ T.leaves) :
    x.addr ∈ T.cells := by
  induction d with
  | zero => rw [List.mem_singleton.mp h]; exact List.mem_singleton_self _
  | succ d ih =>
      obtain ⟨a, cs, ks, rfl⟩ := T.eq_node
      obtain ⟨c, hc, hx⟩ := List.mem_flatMap.mp h
      exact List.mem_cons_of_mem _ (List.mem_flatMap.mpr ⟨c, hc, ih hx⟩)

lemma Tree.Filled.leaves_ne {T : Tree V d} (h : T.Filled) : T.leaves ≠ [] := by
  induction d with
  | zero => exact List.cons_ne_nil _ _
  | succ d ih =>
      obtain ⟨a, cs, ks, rfl⟩ := T.eq_node
      obtain ⟨hne, hcs⟩ := Tree.filled_node.mp h
      cases cs with
      | nil => exact absurd rfl hne
      | cons c cs => simp [ih (hcs c List.mem_cons_self)]

/-! ### Emptied nodes -/

section

variable {T : Tree V d} {m : ℕ → Option (Node V)}

lemma Tree.cells_of_empty (h : T.count = 0) : T.cells = [T.addr] := by
  cases d with
  | zero => rfl
  | succ d =>
      obtain ⟨a, cs, ks, rfl⟩ := T.eq_node
      obtain rfl := List.length_eq_zero_iff.mp h
      rfl

/-- The node of a held tree has as many entries or children, and is bare if there are none. -/
lemma Tree.Held.top (h : T.Held m) :
    ∃ n, m T.addr = some n ∧ n.count = T.count ∧ (T.count = 0 → Bare n) := by
  cases d with
  | zero =>
      obtain ⟨n, hn, hin⟩ := h
      exact ⟨_, hn, hin.nleafs, fun _ => trivial⟩
  | succ d =>
      obtain ⟨a, cs, ks, rfl⟩ := T.eq_node
      obtain ⟨n, hn, hin, -⟩ := Tree.held_node.mp h
      have hcount : n.nchildren = cs.length := by simpa using hin.nchildren
      refine ⟨_, hn, hcount, fun h0 => ?_⟩
      obtain rfl := List.length_eq_zero_iff.mp h0
      exact ⟨_, Padded.eq_replicate hin.children⟩

end

/-! ### The separator and the emptied child -/

/-- Correcting the separator of a child and dropping it if it is empty, as
`fdb_btree_remove_node` does. -/
def setAndDrop (nodes : Pool (Node V)) (node child childIdx : ℕ) (newMin : Option ℕ) :
    Option (Pool (Node V) × Option ℕ) := do
  let (nodes, newMin) ← setSeparator nodes node childIdx newMin
  dropEmpty nodes node child childIdx newMin

/-- The child, unless it is empty. -/
def kept (c : Tree V d) : List (Tree V d) := if c.count = 0 then [] else [c]

/-- The sequence `f` of a child may be replaced by that of `c'`, also if the separator in
front of it becomes the new smallest key. -/
structure Shrinks (f : List (Item ℕ V)) (c' : Tree V d) (newMin : Option ℕ) : Prop where
  order : ∀ A B, Inorder (A ++ f ++ B) → Inorder (A ++ c'.flat ++ B)
  min : ∀ m, newMin = some m → c'.count ≠ 0 → ∀ A k B, Inorder (A ++ .sep k :: f ++ B) →
    Inorder (A ++ .sep m :: c'.flat ++ B)

/-- Keeping a child that is not empty. -/
lemma setAndDrop_keep {nodes : Pool (Node V)} {a : ℕ} {l r : List (Tree V d)} {c' : Tree V d}
    {kl kr : List ℕ} {newMin : Option ℕ}
    (h : (Tree.node a (l ++ c' :: r) (kl ++ kr)).Held nodes.get)
    (hnd : (Tree.node a (l ++ c' :: r) (kl ++ kr)).cells.Nodup) (hl : l.length = kl.length)
    (hc : c'.count ≠ 0) :
    ∃ nodes' newMin' ks, setAndDrop nodes a c'.addr l.length newMin = some (nodes', newMin')
      ∧ Step nodes.get nodes'.get (Tree.node a (l ++ c' :: r) (kl ++ kr))
          (Tree.node a (l ++ c' :: r) ks)
      ∧ ∀ f, Shrinks f c' newMin →
          Shrinks (leftOf l kl ++ f ++ rightOf r kr) (Tree.node a (l ++ c' :: r) ks) newMin' := by
  obtain ⟨n, hn, hin, hcs⟩ := Tree.held_node.mp h
  obtain ⟨n', hn', hcount, -⟩ := (hcs c' (by simp)).top
  have hdrop : ∀ nodes' : Pool (Node V), nodes'.get c'.addr = some n' → ∀ newMin',
      dropEmpty nodes' a c'.addr l.length newMin' = some (nodes', newMin') := by
    intro nodes' hget newMin'
    simp only [dropEmpty, hget, Option.bind_eq_bind, Option.bind_some, hcount, if_neg hc]
  have horder : ∀ f, Shrinks f c' newMin → ∀ A B, Inorder (A ++ (leftOf l kl ++ f ++ rightOf r kr) ++ B) →
      Inorder (A ++ (Tree.node a (l ++ c' :: r) (kl ++ kr)).flat ++ B) := by
    intro f hf A B hs
    have := hf.order (A ++ leftOf l kl) (rightOf r kr ++ B) (by simpa using hs)
    rw [flat_mid hl]
    simpa using this
  cases newMin with
  | none =>
      refine ⟨nodes, none, kl ++ kr, ?_, Step.refl h hnd, fun f hf => ⟨horder f hf, ?_⟩⟩
      · simp only [setAndDrop, setSeparator, Option.bind_eq_bind, Option.bind_some, hdrop nodes hn']
      · intro m hm
        cases hm
  | some m =>
      rcases List.eq_nil_or_concat l with rfl | ⟨l', x, rfl⟩
      · obtain rfl := List.length_eq_zero_iff.mp hl.symm
        refine ⟨nodes, some m, kr, ?_, Step.refl h hnd, fun f hf => ⟨horder f hf, ?_⟩⟩
        · simp only [setAndDrop, setSeparator, List.length_nil, if_true, Option.bind_eq_bind,
            Option.bind_some]
          exact hdrop nodes hn' _
        · intro m' hm' _ A k B hs
          obtain rfl := Option.some.inj hm'
          have := hf.min m rfl hc A k (rightOf r kr ++ B) (by simpa [leftOf] using hs)
          have hflat : (Tree.node a ([] ++ c' :: r) kr).flat = c'.flat ++ rightOf r kr := by
            have : (Tree.node a ([] ++ c' :: r) ([] ++ kr)).flat
                = leftOf [] [] ++ c'.flat ++ rightOf r kr := flat_mid rfl c'
            simpa [leftOf] using this
          rw [hflat]
          simpa using this
      · rcases List.eq_nil_or_concat kl with rfl | ⟨kl', k, rfl⟩
        · simp at hl
        · simp only [List.concat_eq_append] at h hnd hl hin hdrop horder ⊢
          have hl' : l'.length = kl'.length := by simpa using hl
          have hidx : (l' ++ [x]).length ≠ 0 := by simp
          have hidx' : (l' ++ [x]).length - 1 = kl'.length := by simp [hl']
          have hin' : IsInternal n ((l' ++ [x] ++ c' :: r).map Tree.addr) (kl' ++ k :: kr) := by
            simpa using hin
          obtain ⟨nodes', hput, hget⟩ := Pool.get_put hn
            (.internal { n with keys := n.keys.set kl'.length m })
          have hstep := Step.rekey h hnd hget (hin'.set_key m)
          have hnc : c'.addr ≠ a := by
            intro e
            have hmem : c' ∈ l' ++ [x] ++ c' :: r := by simp
            refine (List.nodup_cons.mp hnd).1 (List.mem_flatMap.mpr ⟨c', hmem, ?_⟩)
            rw [← e]
            exact c'.addr_mem_cells
          refine ⟨nodes', none, kl' ++ m :: kr, ?_, hstep, fun f hf => ⟨fun A B hs => ?_, ?_⟩⟩
          · simp only [setAndDrop, setSeparator, if_neg hidx, getInternal_eq hn, Option.bind_eq_bind,
              Option.bind_some, hidx', hput]
            exact hdrop nodes' (by rw [hget, Function.update_of_ne hnc, hn']) _
          · rw [leftOf_append_singleton hl'] at hs
            have := hf.min m rfl hc (A ++ leftOf l' kl' ++ x.flat) k (rightOf r kr ++ B)
              (by simpa using hs)
            rw [show kl' ++ m :: kr = (kl' ++ [m]) ++ kr by simp, flat_mid (by simp [hl']),
              leftOf_append_singleton hl']
            simpa using this
          · intro m' hm'
            cases hm'

/-- The release of an empty child. -/
lemma removeShiftInternal_spec {nodes : Pool (Node V)} {a : ℕ} {l r : List (Tree V d)} {c : Tree V d}
    {ks ks' : List ℕ} {n : InternalNode} (h : (Tree.node a (l ++ c :: r) ks).Held nodes.get)
    (hnd : (Tree.node a (l ++ c :: r) ks).cells.Nodup) (hn : nodes.get a = some (.internal n))
    (hin : IsInternal n ((l ++ c :: r).map Tree.addr) ks) (hc : c.count = 0)
    (hin' : IsInternal (n.removeShift l.length) ((l ++ r).map Tree.addr) ks') :
    ∃ nodes', removeShiftInternal nodes a l.length = some nodes'
      ∧ Step nodes.get nodes'.get (Tree.node a (l ++ c :: r) ks) (Tree.node a (l ++ r) ks') := by
  obtain ⟨-, -, -, hcs⟩ := Tree.held_node.mp h
  obtain ⟨n', hn', -, hbare⟩ := (hcs c (by simp)).top
  have hslot : n.children[l.length]?.join = some c.addr := by
    rw [hin.slot]
    simp
  have hca : c.addr ≠ a := by
    intro e
    have hmem : c ∈ l ++ c :: r := by simp
    refine (List.nodup_cons.mp hnd).1 (List.mem_flatMap.mpr ⟨c, hmem, ?_⟩)
    rw [← e]
    exact c.addr_mem_cells
  obtain ⟨nodes', hrem, hget⟩ := removeShiftInternal_eq hn hin.nchildren_ne hslot hca hn' (hbare hc)
  refine ⟨nodes', hrem, ?_⟩
  have hsplit : l ++ c :: r = l ++ [c] ++ r := by simp
  have hsplit' : l ++ r = l ++ [] ++ r := by simp
  rw [hsplit] at h hnd ⊢
  rw [hsplit'] at hin' ⊢
  have hset : insert a (cellSet [c]) = insert c.addr {a} := by
    ext k
    simp [cellSet, Tree.cells_of_empty hc, or_comm]
  have hset' : insert a (cellSet ([] : List (Tree V d))) = {a} := by
    ext k
    simp [cellSet]
  refine Step.window h hnd ?_ ⟨_, ?_, hin'⟩ (fun x hx => by cases hx) (List.nodup_singleton a)
  · rw [hset, hset', hget]
    have hwrite : Frame nodes.get (Function.update nodes.get a (some (.internal (n.removeShift l.length))))
        (insert c.addr {a}) (insert c.addr {a}) :=
      Frame.write (Set.mem_insert_of_mem _ (Set.mem_singleton a)) _
    exact hwrite.trans (Frame.free (fun h => hca (Set.mem_singleton_iff.mp h)) _)
  · rw [hget, Function.update_of_ne (Ne.symm hca), Function.update_self]

/-- Dropping an empty child. -/
lemma setAndDrop_drop {nodes : Pool (Node V)} {a : ℕ} {l r : List (Tree V d)} {c' : Tree V d}
    {kl kr : List ℕ} {newMin : Option ℕ}
    (h : (Tree.node a (l ++ c' :: r) (kl ++ kr)).Held nodes.get)
    (hnd : (Tree.node a (l ++ c' :: r) (kl ++ kr)).cells.Nodup) (hl : l.length = kl.length)
    (hr : r.length = kr.length) (hc : c'.count = 0) :
    ∃ nodes' newMin' ks, setAndDrop nodes a c'.addr l.length newMin = some (nodes', newMin')
      ∧ Step nodes.get nodes'.get (Tree.node a (l ++ c' :: r) (kl ++ kr)) (Tree.node a (l ++ r) ks)
      ∧ ∀ f, Shrinks (leftOf l kl ++ f ++ rightOf r kr) (Tree.node a (l ++ r) ks) newMin' := by
  rcases List.eq_nil_or_concat l with rfl | ⟨l', x, rfl⟩
  · -- the first child goes with the key on its right, which is the new smallest one
    obtain rfl := List.length_eq_zero_iff.mp hl.symm
    obtain ⟨n, hn, hin, hcs⟩ := Tree.held_node.mp h
    obtain ⟨n', hn', hcount, -⟩ := (hcs c' (by simp)).top
    rw [hc] at hcount
    obtain ⟨first, hfirst, hkey⟩ := hin.key_zero
    have hset : ∀ newMin : Option ℕ, setSeparator nodes a 0 newMin = some (nodes, newMin) := by
      intro newMin
      cases newMin <;> simp [setSeparator]
    cases r with
    | nil =>
        obtain rfl := List.length_eq_zero_iff.mp hr.symm
        obtain ⟨nodes', hrem, hstep⟩ := removeShiftInternal_spec (l := []) h hnd hn hin hc
          (by simpa using IsInternal.removeShift_only (by simpa using hin))
        rw [List.length_nil] at hrem
        refine ⟨nodes', some first, [], ?_, hstep, fun f => ⟨fun A B hs => ?_, fun m _ hne => ?_⟩⟩
        · simp only [setAndDrop, hset, dropEmpty, Option.bind_eq_bind, Option.bind_some, hn', hcount,
            if_true, getInternal_eq hn, hfirst, hrem, List.length_nil]
        · refine hs.sublist ?_
          simp [leftOf, rightOf]
        · exact absurd rfl hne
    | cons g r =>
        cases kr with
        | nil => simp at hr
        | cons k kr =>
            obtain rfl : first = k := hkey k rfl
            obtain ⟨nodes', hrem, hstep⟩ := removeShiftInternal_spec (l := []) h hnd hn hin hc
              (by simpa using IsInternal.removeShift_first (by simpa using hin))
            rw [List.length_nil] at hrem
            have hflat : (Tree.node a ([] ++ g :: r) kr).flat = g.flat ++ rightOf r kr := by
              have : (Tree.node a ([] ++ g :: r) ([] ++ kr)).flat = leftOf [] [] ++ g.flat ++ rightOf r kr :=
                flat_mid rfl g
              simpa [leftOf] using this
            refine ⟨nodes', some first, kr, ?_, hstep, fun f => ⟨fun A B hs => ?_, fun m hm _ A k B hs => ?_⟩⟩
            · simp only [setAndDrop, hset, dropEmpty, Option.bind_eq_bind, Option.bind_some, hn',
                hcount, if_true, getInternal_eq hn, hfirst, hrem, List.length_nil]
            · rw [hflat]
              refine hs.sublist ?_
              rw [rightOf_cons]
              refine List.Sublist.append_right (List.Sublist.append_left ?_ A) B
              simp [leftOf]
            · obtain rfl := Option.some.inj hm
              rw [hflat]
              refine hs.sublist ?_
              rw [rightOf_cons]
              refine List.Sublist.append_right (List.Sublist.append_left ?_ A) B
              refine List.Sublist.cons _ ?_
              simp [leftOf]
  · -- another child goes with the key on its left, whatever that has become
    rcases List.eq_nil_or_concat kl with rfl | ⟨kl', k, rfl⟩
    · simp at hl
    · simp only [List.concat_eq_append] at h hnd hl ⊢
      have hl' : l'.length = kl'.length := by simpa using hl
      have hidx : (l' ++ [x]).length ≠ 0 := by simp
      have hidx' : (l' ++ [x]).length - 1 = kl'.length := by simp [hl']
      obtain ⟨nodes₁, k₁, hset, hstep₁⟩ : ∃ nodes₁ k₁,
          setSeparator nodes a (l' ++ [x]).length newMin = some (nodes₁, none)
          ∧ Step nodes.get nodes₁.get (Tree.node a (l' ++ [x] ++ c' :: r) (kl' ++ [k] ++ kr))
              (Tree.node a (l' ++ [x] ++ c' :: r) (kl' ++ k₁ :: kr)) := by
        cases newMin with
        | none =>
            exact ⟨nodes, k, rfl, by simpa using Step.refl h hnd⟩
        | some m =>
            obtain ⟨n, hn, hin, -⟩ := Tree.held_node.mp h
            have hin' : IsInternal n ((l' ++ [x] ++ c' :: r).map Tree.addr) (kl' ++ k :: kr) := by
              simpa using hin
            obtain ⟨nodes₁, hput, hget⟩ := Pool.get_put hn
              (.internal { n with keys := n.keys.set kl'.length m })
            refine ⟨nodes₁, m, ?_, Step.rekey h hnd hget (hin'.set_key m)⟩
            simp only [setSeparator, if_neg hidx, getInternal_eq hn, Option.bind_eq_bind,
              Option.bind_some, hidx', hput]
      obtain ⟨n, hn, hin, hcs⟩ := Tree.held_node.mp hstep₁.held
      obtain ⟨n', hn', hcount, -⟩ := (hcs c' (by simp)).top
      rw [hc] at hcount
      obtain ⟨first, hfirst, -⟩ := hin.key_zero
      have hin₁ : IsInternal n ((l' ++ [x]).map Tree.addr ++ c'.addr :: r.map Tree.addr)
          (kl' ++ k₁ :: kr) := by simpa using hin
      have hin' : IsInternal (n.removeShift (l' ++ [x]).length) ((l' ++ [x] ++ r).map Tree.addr)
          (kl' ++ kr) := by
        have := hin₁.removeShift_mid (by simp [hl'])
        simpa using this
      obtain ⟨nodes', hrem, hstep⟩ :=
        removeShiftInternal_spec hstep₁.held hstep₁.nodup hn hin hc hin'
      refine ⟨nodes', none, kl' ++ kr, ?_, hstep₁.trans hstep, fun f => ⟨fun A B hs => ?_, fun m hm => ?_⟩⟩
      · simp only [setAndDrop, hset, dropEmpty, Option.bind_eq_bind, Option.bind_some, hn', hcount,
          if_true, getInternal_eq hn, hfirst, hrem, if_neg hidx]
      · refine hs.sublist ?_
        rw [show l' ++ [x] ++ r = l' ++ x :: r by simp, flat_mid hl', leftOf_append_singleton hl']
        refine List.Sublist.append_right (List.Sublist.append_left ?_ A) B
        simp only [List.append_assoc]
        refine List.Sublist.append_left (List.Sublist.append_left ?_ _) _
        simp
      · cases hm

/-- **The separator and the emptied child.** -/
theorem setAndDrop_spec {nodes : Pool (Node V)} {a : ℕ} {l r : List (Tree V d)} {c' : Tree V d}
    {kl kr : List ℕ} {newMin : Option ℕ}
    (h : (Tree.node a (l ++ c' :: r) (kl ++ kr)).Held nodes.get)
    (hnd : (Tree.node a (l ++ c' :: r) (kl ++ kr)).cells.Nodup) (hl : l.length = kl.length)
    (hr : r.length = kr.length) :
    ∃ nodes' newMin' ks, setAndDrop nodes a c'.addr l.length newMin = some (nodes', newMin')
      ∧ Step nodes.get nodes'.get (Tree.node a (l ++ c' :: r) (kl ++ kr))
          (Tree.node a (l ++ (kept c' ++ r)) ks)
      ∧ ∀ f, Shrinks f c' newMin →
          Shrinks (leftOf l kl ++ f ++ rightOf r kr) (Tree.node a (l ++ (kept c' ++ r)) ks) newMin' := by
  by_cases hc : c'.count = 0
  · obtain ⟨nodes', newMin', ks, heq, hstep, hs⟩ := setAndDrop_drop h hnd hl hr hc
    refine ⟨nodes', newMin', ks, heq, ?_, fun f _ => ?_⟩
    · simpa [kept, hc] using hstep
    · simpa [kept, hc] using hs f
  · obtain ⟨nodes', newMin', ks, heq, hstep, hs⟩ := setAndDrop_keep h hnd hl hc
    refine ⟨nodes', newMin', ks, heq, ?_, fun f hf => ?_⟩
    · simpa [kept, hc] using hstep
    · simpa [kept, hc] using hs f hf

/-! ### The removal -/

/-- The effect of a removal on a subtree. -/
structure Removes (key : ℕ) (t t' : BTree V) (T T' : Tree V d) (v : V) (newMin : Option ℕ) :
    Prop where
  root : t'.root = t.root
  size : t'.size = (t.size + (2 ^ 32 - 1)) % 2 ^ 32
  step : Step t.nodes.get t'.nodes.get T T'
  filled : T'.count ≠ 0 → T'.Filled
  entries : ∃ e₁ e₂, T.toList = e₁ ++ (key, v) :: e₂ ∧ T'.toList = e₁ ++ e₂
  lost : T'.count + (T.losses key).1 = T.count
  shrinks : (T.losses key).2 = false → Shrinks T.flat T' newMin
  keeps : ∀ x, T.leafFor key = some x → 2 ≤ x.entries.length →
    T'.count ≠ 0 ∧ SameChain T.leaves T'.leaves
  first : ∀ x, T.leafFor key = some x → T.leaves.head?.map Leaf.addr = some x.addr →
    ∀ e, Linked e T.leaves → Linked e T'.leaves

/-- The leaf of the search is the first one only if the search turns to the first child. -/
lemma eq_nil_of_first {a : ℕ} {l r : List (Tree V d)} {c : Tree V d} {ks : List ℕ} {x : Leaf V}
    (hnd : (Tree.node a (l ++ c :: r) ks).cells.Nodup) (hf : ∀ y ∈ l, y.Filled)
    (hx : c.leafFor key = some x)
    (hhead : (Tree.node a (l ++ c :: r) ks).leaves.head?.map Leaf.addr = some x.addr) : l = [] := by
  cases l with
  | nil => rfl
  | cons y l =>
      exfalso
      obtain ⟨z, zs, hz⟩ := List.exists_cons_of_ne_nil (hf y List.mem_cons_self).leaves_ne
      have hzx : z.addr = x.addr := by
        simpa [hz] using hhead
      have hy : x.addr ∈ y.cells := by
        rw [← hzx]
        exact Tree.addr_mem_cells_of_leaf (by rw [hz]; exact List.mem_cons_self)
      have hc : x.addr ∈ c.cells := Tree.addr_mem_cells_of_leaf (Tree.leafFor_mem hx)
      simp only [Tree.cells_node, List.cons_append, List.flatMap_cons, List.flatMap_append,
        List.nodup_cons, List.nodup_append] at hnd
      exact hnd.2.2.2 _ hy _ (by simp [hc]) rfl

/-- The way back to a node. -/
lemma Removes.node {t t₁ : BTree V} {a : ℕ} {l r : List (Tree V d)} {c c' : Tree V d}
    {kl kr ks : List ℕ} {v : V} {newMin newMin' : Option ℕ} {nodes₂ nodes₃ : Pool (Node V)}
    {T' : Tree V (d + 1)} (hc : Removes key t t₁ c c' v newMin) (hr : Route key l r kl kr)
    (h : (Tree.node a (l ++ c :: r) (kl ++ kr)).Held t.nodes.get)
    (hnd : (Tree.node a (l ++ c :: r) (kl ++ kr)).cells.Nodup)
    (hf : (Tree.node a (l ++ c :: r) (kl ++ kr)).Filled)
    (hstep : Step t₁.nodes.get nodes₂.get (Tree.node a (l ++ c' :: r) (kl ++ kr))
      (Tree.node a (l ++ (kept c' ++ r)) ks))
    (hshrinks : ∀ f, Shrinks f c' newMin →
      Shrinks (leftOf l kl ++ f ++ rightOf r kr) (Tree.node a (l ++ (kept c' ++ r)) ks) newMin')
    (hclose : Closes nodes₂.get nodes₃.get (Tree.node a (l ++ (kept c' ++ r)) ks) T' (kept c' ++ r)) :
    Removes key t { t₁ with nodes := nodes₃ } (Tree.node a (l ++ c :: r) (kl ++ kr)) T' v newMin' := by
  have hleft : c.count - (c.losses key).1 = c'.count := by
    have := hc.lost
    omega
  have hkept : (kept c' ++ r).map Tree.count
      = (if c'.count = 0 then [] else [c'.count]) ++ r.map Tree.count := by
    by_cases h0 : c'.count = 0 <;> simp [kept, h0]
  have hlen : (kept c').length + (if c'.count = 0 then 1 else 0) = 1 := by
    by_cases h0 : c'.count = 0 <;> simp [kept, h0]
  have hcount := hclose.count
  simp only [Tree.count_node, List.length_append] at hcount
  have hT' : T'.toList = l.flatMap Tree.toList ++ c'.toList ++ r.flatMap Tree.toList := by
    rw [hclose.toList]
    by_cases h0 : c'.count = 0
    · have : c'.toList = [] := by
        cases d with
        | zero =>
            obtain ⟨x, es, nx, rfl⟩ := c'.eq_leaf
            rw [Tree.toList_leaf]
            exact List.length_eq_zero_iff.mp h0
        | succ d =>
            obtain ⟨x, cs, js, rfl⟩ := c'.eq_node
            obtain rfl := List.length_eq_zero_iff.mp h0
            simp
      simp [kept, h0, this]
    · simp [kept, h0]
  refine ⟨hc.root, hc.size, ?_, fun hne => ?_, ?_, ?_, fun hthin => ?_, fun x hx hlen' => ?_,
    fun x hx hhead e he => ?_⟩
  · exact ((Step.focus h hnd hc.step).trans hstep).trans hclose.step
  · obtain ⟨b, cs, js, rfl⟩ := T'.eq_node
    refine Tree.filled_node.mpr ⟨?_, hclose.filled⟩
    rintro rfl
    exact hne rfl
  · obtain ⟨e₁, e₂, he, he'⟩ := hc.entries
    refine ⟨l.flatMap Tree.toList ++ e₁, e₂ ++ r.flatMap Tree.toList, ?_, ?_⟩
    · simp [he]
    · rw [hT', he']
      simp
  · rw [Tree.losses_node hr, hleft, Tree.count_node, List.length_append, List.length_cons, ← hkept]
    simp only []
    omega
  · rw [Tree.losses_node hr, hleft, ← hkept, Bool.or_eq_false_iff] at hthin
    have hs := hshrinks _ (hc.shrinks hthin.1)
    rw [flat_mid hr.left]
    refine ⟨fun A B h => hclose.order hthin.2 A B (hs.order A B h), fun m hm hne A k B h => ?_⟩
    have hne' : (Tree.node a (l ++ (kept c' ++ r)) ks).count ≠ 0 := by
      have := hclose.count
      omega
    have := hclose.order hthin.2 (A ++ [.sep m]) B (by simpa using hs.min m hm hne' A k B h)
    simpa using this
  · rw [Tree.leafFor_node hr] at hx
    obtain ⟨hne, hchain⟩ := hc.keeps x hx hlen'
    refine ⟨hclose.ne ?_, ?_⟩
    · simp [kept, hne]
    · refine SameChain.trans ?_ hclose.chain
      have := hchain.mid (l.flatMap Tree.leaves) (r.flatMap Tree.leaves)
      simpa [kept, hne] using this
  · rw [Tree.leafFor_node hr] at hx
    obtain rfl := eq_nil_of_first hnd (fun y hy => hf.2 y (List.mem_append_left _ hy)) hx hhead
    have hhead' : c.leaves.head?.map Leaf.addr = some x.addr := by
      have hne := ((Tree.filled_node.mp hf).2 c (by simp)).leaves_ne
      obtain ⟨z, zs, hz⟩ := List.exists_cons_of_ne_nil hne
      simpa [hz] using hhead
    refine hclose.chain.linked e ?_
    have he' : Linked (firstOf e (r.flatMap Tree.leaves)) c.leaves ∧ Linked e (r.flatMap Tree.leaves) := by
      have : Linked e (c.leaves ++ r.flatMap Tree.leaves) := by simpa using he
      exact (linked_append _ _ _).mp this
    by_cases h0 : c'.count = 0
    · simpa [kept, h0] using he'.2
    · have := (linked_append e c'.leaves (r.flatMap Tree.leaves)).mpr
        ⟨hc.first x hx hhead' _ he'.1, he'.2⟩
      simpa [kept, h0] using this

/-- `fdb_btree_remove_node` on a leaf that has the key. -/
lemma removeNode_leaf {t : BTree V} {T : Tree V 0} {fuel : ℕ} {v : V} (h : T.Held t.nodes.get)
    (hfind : T.find key = some v) :
    ∃ t' T' newMin, removeNode key (fuel + 1) t T.addr = some (t', some v, newMin)
      ∧ Removes key t t' T T' v newMin := by
  obtain ⟨a, es, nx, rfl⟩ := T.eq_leaf
  obtain ⟨n, hn, hin⟩ := Tree.held_leaf.mp h
  obtain ⟨l, r, rfl, htake, hdrop, -, -⟩ := exists_place es key
  have hpos : n.nextPos key = l.length := by rw [hin.nextPos_eq, htake]
  rw [Tree.find_leaf, findEntry, hdrop] at hfind
  cases r with
  | nil => cases hfind
  | cons e r =>
      change (if e.1 = key then some e.2 else none) = some v at hfind
      obtain ⟨rfl, rfl⟩ : e.1 = key ∧ e.2 = v := by
        by_cases he : e.1 = key
        · rw [if_pos he] at hfind
          exact ⟨he, Option.some.inj hfind⟩
        · rw [if_neg he] at hfind
          cases hfind
      have hkeep : ¬((some e.2).isNone = true ∨ e.1 ≠ e.1) := by simp
      have hin' := hin.removeShift
      have hcount : n.nleafs ≠ 0 := by
        rw [hin.nleafs]
        simp
      obtain ⟨nodes', hput, hget⟩ := Pool.get_put hn (.leaf (n.removeShift l.length))
      obtain ⟨first, hfirst⟩ := hin'.key_some (i := 0) (by decide)
      refine ⟨⟨t.root, (t.size + (2 ^ 32 - 1)) % 2 ^ 32, nodes'⟩, Tree.leaf a (l ++ r) nx,
        if l.length = 0 then some first else none, ?_, rfl, rfl, ⟨rfl, ?_, List.nodup_singleton a, ?_⟩,
        ?_, ⟨l, r, by simp, by simp⟩, ?_, fun _ => ⟨fun A B hs => ?_, fun m hm hne A k B hs => ?_⟩,
        fun x hx hlen => ⟨?_, ?_⟩, fun x _ _ e' he' => ?_⟩
      · simp only [removeNode, Tree.addr_leaf, hn, Option.bind_eq_bind, Option.bind_some, hpos,
          hin.value_mid, hin.key_mid, if_neg hkeep, if_neg hcount,
          hput, hfirst]
      · exact Tree.held_leaf.mpr ⟨_, by rw [hget, Function.update_self], hin'⟩
      · rw [hget]
        exact Frame.write (show a ∈ {k | k ∈ (Tree.leaf a (l ++ e :: r) nx).cells} from
          List.mem_singleton_self a) _
      · intro hne
        refine Tree.filled_leaf.mpr ?_
        intro hnil
        rw [Tree.count_leaf, hnil] at hne
        exact hne rfl
      · show (l ++ r).length + 1 = (l ++ e :: r).length
        simp
        omega
      · refine hs.sublist ?_
        simp
      · -- the first entry has become the smallest one
        by_cases h0 : l.length = 0
        · obtain rfl := List.length_eq_zero_iff.mp h0
          rw [if_pos h0] at hm
          obtain rfl := Option.some.inj hm
          cases r with
          | nil => exact absurd rfl hne
          | cons e' r =>
              have hkey : first = e'.1 := by
                have hk : (n.removeShift ([] : List (ℕ × V)).length).keys[0]? = some e'.1 :=
                  hin'.key_mid (l := [])
                rw [hfirst] at hk
                exact Option.some.inj hk
              have hs' : Inorder (A ++ .entry e'.1 e'.2 :: ((r.map fun e => .entry e.1 e.2) ++ B)) := by
                refine hs.sublist ?_
                simp only [Tree.flat_leaf, List.nil_append, List.map_cons, List.append_assoc,
                  List.cons_append]
                exact List.Sublist.append_left ((List.Sublist.refl _).cons _ |>.cons _) A
              have := hs'.insert_sep
              rw [hkey]
              simpa using this
        · rw [if_neg h0] at hm
          cases hm
      · obtain rfl : x = ⟨a, l ++ e :: r, nx⟩ := (Option.some.inj hx).symm
        simp only [List.length_append, List.length_cons] at hlen
        rw [Tree.count_leaf, List.length_append]
        omega
      · exact ⟨fun _ h => h, fun _ => rfl⟩
      · exact he'

/-- **`fdb_btree_remove_node`**, on a tree in which the search finds the key. -/
theorem removeNode_spec {t : BTree V} {T : Tree V d} {fuel : ℕ} {v : V} (h : T.Held t.nodes.get)
    (hnd : T.cells.Nodup) (hf : T.Filled) (hfind : T.find key = some v) (hfuel : d < fuel) :
    ∃ t' T' newMin, removeNode key fuel t T.addr = some (t', some v, newMin)
      ∧ Removes key t t' T T' v newMin := by
  induction d generalizing t fuel with
  | zero =>
      cases fuel with
      | zero => omega
      | succ fuel => exact removeNode_leaf h hfind
  | succ d ih =>
      cases fuel with
      | zero => omega
      | succ fuel =>
          obtain ⟨a, cs, ks, rfl⟩ := T.eq_node
          obtain ⟨n, hn, hin, hcs⟩ := Tree.held_node.mp h
          obtain ⟨hne, hfs⟩ := Tree.filled_node.mp hf
          obtain ⟨l, c, r, kl, kr, rfl, rfl, hr⟩ :=
            Route.exists_of_ne (by simpa using hin.length_keys) hne key
          rw [Tree.find_node hr] at hfind
          have hcnd : c.cells.Nodup := by
            have := hnd
            simp only [Tree.cells_node, List.flatMap_append, List.flatMap_cons, List.nodup_cons,
              List.nodup_append] at this
            exact this.2.2.1.1
          obtain ⟨t₁, c', newMin, heq, hc⟩ := ih (hcs c (by simp)) hcnd (hfs c (by simp)) hfind
            (Nat.lt_of_succ_lt_succ hfuel)
          have hfocus := Step.focus h hnd hc.step
          obtain ⟨nodes₂, newMin', ks, hdrop, hstep, hshrinks⟩ :=
            setAndDrop_spec hfocus.held hfocus.nodup hr.left hr.right
          have hfilled : ∀ x ∈ l ++ (kept c' ++ r), x.Filled := by
            intro x hx
            simp only [List.mem_append] at hx
            rcases hx with hx | hx | hx
            · exact hfs x (by simp [hx])
            · by_cases h0 : c'.count = 0
              · simp [kept, h0] at hx
              · rw [kept, if_neg h0, List.mem_singleton] at hx
                rw [hx]
                exact hc.filled h0
            · exact hfs x (by simp [hx])
          obtain ⟨nodes₃, T', hmerge, hclose⟩ := mergeNext_spec hstep.held hstep.nodup hfilled
          refine ⟨_, T', newMin', ?_, hc.node hr h hnd hf hstep hshrinks hclose⟩
          rw [List.map_append, List.map_cons] at hin
          have hnext : n.next key = l.length := by
            rw [(hr.map Tree.addr).next_eq hin, List.length_map]
          have hslot := hin.slot_mid
          rw [List.length_map] at hslot
          obtain ⟨nodes₁, newMin₁, hset, hdrop'⟩ : ∃ nodes₁ newMin₁,
              setSeparator t₁.nodes a l.length newMin = some (nodes₁, newMin₁)
              ∧ dropEmpty nodes₁ a c'.addr l.length newMin₁ = some (nodes₂, newMin') := by
            rw [setAndDrop] at hdrop
            obtain ⟨⟨nodes₁, newMin₁⟩, h₁, h₂⟩ := Option.bind_eq_some_iff.mp hdrop
            exact ⟨nodes₁, newMin₁, h₁, h₂⟩
          rw [hc.step.addr] at hdrop'
          rw [removeNode, Tree.addr_node, hn]
          simp only [Option.bind_eq_bind, Option.bind_some, hnext, hslot, Option.join_some, heq, hset,
            hdrop', hmerge]

/-! ### The whole tree -/

/-- The effect of a removal on the whole tree. -/
structure RootRemoves {d' : ℕ} (key : ℕ) (t t' : BTree V) (T : Tree V (d + 1)) (T' : Tree V (d' + 1))
    (v : V) : Prop where
  rooted : Rooted t' T'
  size : t'.size = (t.size + (2 ^ 32 - 1)) % 2 ^ 32
  entries : ∃ e₁ e₂, T.toList = e₁ ++ (key, v) :: e₂ ∧ T'.toList = e₁ ++ e₂
  order : (T.losses key).2 = false → Inorder T.flat → Inorder T'.flat
  chain : ∀ x, T.leafFor key = some x →
    2 ≤ x.entries.length ∨ T.leaves.head?.map Leaf.addr = some x.addr →
    Linked none T.leaves → Linked none T'.leaves

/-- A root with a single internal child makes room for it. -/
lemma collapseRoot_spec {t : BTree V} {T : Tree V (d + 1)} (h : Rooted t T) :
    ∃ (d' : ℕ) (t' : BTree V) (T' : Tree V (d' + 1)), collapseRoot t = some t' ∧ Rooted t' T'
      ∧ t'.size = t.size ∧ T'.toList = T.toList ∧ T'.leaves = T.leaves
      ∧ (Inorder T.flat → Inorder T'.flat) := by
  obtain ⟨a, cs, ks, rfl⟩ := T.eq_node
  obtain ⟨n, hn, hin, hcs⟩ := Tree.held_node.mp h.held
  have haddr : a = t.root := h.addr
  have hn' : t.nodes.get t.root = some (.internal n) := by rw [← haddr]; exact hn
  have hcount : n.nchildren = cs.length := by rw [hin.nchildren, List.length_map]
  by_cases h1 : cs.length = 1
  · obtain ⟨c, rfl⟩ := List.length_eq_one_iff.mp h1
    obtain rfl : ks = [] := List.length_eq_zero_iff.mp hin.length_keys
    have hslot : n.children[0]?.join = some c.addr := by rw [hin.slot]; rfl
    cases d with
    | zero =>
        obtain ⟨x, es, nx, rfl⟩ := c.eq_leaf
        obtain ⟨m, hm, -⟩ := Tree.held_leaf.mp (hcs (Tree.leaf x es nx) (by simp))
        refine ⟨0, t, Tree.node a [Tree.leaf x es nx] [], ?_, h, rfl, rfl, rfl, fun h => h⟩
        rw [Tree.addr_leaf] at hslot
        simp only [collapseRoot, getInternal_eq hn', Option.bind_eq_bind, Option.bind_some, hcount, h1,
          if_true, hslot, hm]
    | succ d =>
        obtain ⟨x, ds, js, rfl⟩ := c.eq_node
        have hheld := hcs (Tree.node x ds js) (by simp)
        obtain ⟨m, hm, -, -⟩ := Tree.held_node.mp hheld
        have hnd := h.nodup
        simp only [Tree.cells_node, List.flatMap_cons, List.flatMap_nil, List.append_nil] at hnd
        obtain ⟨hac, hcn⟩ := List.nodup_cons.mp hnd
        obtain ⟨nodes₁, hput, hget₁⟩ := Pool.get_put hn'
          (.internal { n with children := n.children.set 0 none, nchildren := 0 })
        have hbare : Bare (V := V)
            (.internal { n with children := n.children.set 0 none, nchildren := 0 }) := by
          obtain ⟨k, hk, -⟩ := hin.children
          exact ⟨k + 1, by rw [hk]; rfl⟩
        have hroot₁ : nodes₁.get t.root
            = some (.internal { n with children := n.children.set 0 none, nchildren := 0 }) := by
          rw [hget₁, Function.update_self]
        obtain ⟨nodes₂, hrel, hget₂⟩ := Pool.get_release hroot₁
        obtain ⟨fuel, hfuel⟩ : ∃ fuel, nodes₁.cells.length = fuel + 1 :=
          Nat.exists_eq_add_one.mpr (lt_of_le_of_lt (Nat.zero_le _) (Pool.lt_length_of_get hroot₁))
        have hother : ∀ k, k ≠ a → nodes₂.get k = t.nodes.get k := by
          intro k hk
          rw [hget₂, hget₁, ← haddr, Function.update_of_ne hk, Function.update_of_ne hk]
        refine ⟨d, ⟨x, t.size, nodes₂⟩, Tree.node x ds js, ?_, ⟨rfl, ?_, hcn, ?_, ?_⟩, rfl, by simp,
          by simp, fun hs => by simpa using hs⟩
        · rw [Tree.addr_node] at hslot
          simp only [collapseRoot, getInternal_eq hn', Option.bind_eq_bind, Option.bind_some, hcount,
            h1, if_true, hslot, hm, hput, hfuel, destroyNode_bare hroot₁ hbare, hrel]
        · refine hheld.congr fun k hk => hother k ?_
          rintro rfl
          exact hac hk
        · exact (Tree.filled_node.mp (h.filled (Tree.node x ds js) (by simp))).2
        · intro k hk
          have hka : k ≠ a := by
            rintro rfl
            rw [hget₂, ← haddr, Function.update_self] at hk
            exact hk rfl
          rw [hother k hka] at hk
          have := h.exact k hk
          simp only [Tree.cells_node, List.flatMap_cons, List.flatMap_nil, List.append_nil,
            List.mem_cons] at this ⊢
          exact this.resolve_left hka
  · refine ⟨d, t, Tree.node a cs ks, ?_, h, rfl, rfl, rfl, fun h => h⟩
    simp only [collapseRoot, getInternal_eq hn', Option.bind_eq_bind, Option.bind_some, hcount,
      if_neg h1]

/-- **`fdb_btree_remove`**, for a key that the search finds. -/
theorem Rooted.remove_spec {t : BTree V} {T : Tree V (d + 1)} {v : V} (h : Rooted t T)
    (hfind : T.find key = some v) :
    ∃ (d' : ℕ) (t' : BTree V) (T' : Tree V (d' + 1)), t.remove key = some (t', some v)
      ∧ RootRemoves key t t' T T' v := by
  have hfilled : T.Filled := by
    obtain ⟨a, cs, ks, rfl⟩ := T.eq_node
    refine Tree.filled_node.mpr ⟨?_, h.filled⟩
    rintro rfl
    rw [Tree.find_nil] at hfind
    cases hfind
  obtain ⟨t₁, T₁, newMin, hrem, h₁⟩ := removeNode_spec h.held h.nodup hfilled hfind
    (lt_of_lt_of_le hfilled.depth_lt (cells_length_le h.held h.nodup))
  have hrooted : Rooted t₁ T₁ := by
    refine ⟨?_, h₁.step.held, h₁.step.nodup, ?_, h₁.step.exact h.exact⟩
    · rw [h₁.step.addr, h₁.root, h.addr]
    · obtain ⟨b, cs, ks, rfl⟩ := T₁.eq_node
      intro c hc
      refine (Tree.filled_node.mp (h₁.filled ?_)).2 c hc
      intro h0
      obtain rfl := List.length_eq_zero_iff.mp h0
      cases hc
  obtain ⟨d', t', T', hcol, hrooted', hsize, hlist, hleaves, horder⟩ := collapseRoot_spec hrooted
  refine ⟨d', t', T', ?_, hrooted', by rw [hsize, h₁.size], ?_, fun hthin hs => horder ?_,
    fun x hx hcase hl => ?_⟩
  · rw [h.addr] at hrem
    simp only [BTree.remove, Option.bind_eq_bind, Option.bind_some, hrem, hcol]
  · rw [hlist]
    exact h₁.entries
  · have := (h₁.shrinks hthin).order [] [] (by simpa using hs)
    simpa using this
  · rw [hleaves]
    rcases hcase with hcase | hcase
    · exact (h₁.keeps x hx hcase).2.linked none hl
    · exact h₁.first x hx hcase none hl

end Furious
