import Furious.BTree.Slots
import Furious.Library.Footprint
import Furious.Library.Inorder

/-!
The trees that the nodes of a B-tree stand for.

All leaves of a tree are at one depth, so the trees are a family over their depth.
A tree is held by a memory if every node of it is in its cell; it owns these cells.

* `Tree`: subtrees of a given height, with the addresses of their nodes;
* `Tree.flat`, `Tree.leaves`: its in-order sequence and its leaves;
* `Tree.Held`, `Tree.Filled`: the nodes are in the memory, and none is empty;
* `Step`: a change of the nodes of one subtree; `Step.window`: **a step on some
  neighbours below a node is a step on the node**;
* `Linked`, `SameChain`: the links of the leaves.
-/

namespace Furious

variable {V : Type} {d : ℕ}

/-- A leaf: where it is, its entries, and where its link leads. -/
structure Leaf (V : Type) where
  addr : ℕ
  entries : List (ℕ × V)
  next : Option ℕ

/-- A node above subtrees. -/
structure Inner (T : Type) where
  addr : ℕ
  children : List T
  keys : List ℕ

/-- The subtrees whose leaves are `d` levels below. -/
def Tree (V : Type) : ℕ → Type
  | 0 => Leaf V
  | d + 1 => Inner (Tree V d)

namespace Tree

/-- A leaf as a tree. -/
def leaf (addr : ℕ) (entries : List (ℕ × V)) (next : Option ℕ) : Tree V 0 :=
  Leaf.mk addr entries next

/-- A node above subtrees. -/
def node (addr : ℕ) (children : List (Tree V d)) (keys : List ℕ) : Tree V (d + 1) :=
  Inner.mk addr children keys

lemma eq_leaf (t : Tree V 0) : ∃ a es nx, t = leaf a es nx := ⟨_, _, _, rfl⟩

lemma eq_node (t : Tree V (d + 1)) : ∃ a cs ks, t = node a cs ks := ⟨_, _, _, rfl⟩

/-- The address of the topmost node. -/
def addr : {d : ℕ} → Tree V d → ℕ
  | 0, t => Leaf.addr t
  | _ + 1, t => Inner.addr t

/-- The number of entries or children of the topmost node. -/
def count : {d : ℕ} → Tree V d → ℕ
  | 0, t => (Leaf.entries t).length
  | _ + 1, t => (Inner.children t).length

/-- The addresses of all nodes. -/
def cells : {d : ℕ} → Tree V d → List ℕ
  | 0, t => [Leaf.addr t]
  | _ + 1, t => Inner.addr t :: (Inner.children t).flatMap cells

/-- The in-order sequence. -/
def flat : {d : ℕ} → Tree V d → List (Item ℕ V)
  | 0, t => (Leaf.entries t).map fun e => .entry e.1 e.2
  | _ + 1, t => interleave ((Inner.children t).map flat) (Inner.keys t)

/-- The leaves from left to right. -/
def leaves : {d : ℕ} → Tree V d → List (Leaf V)
  | 0, t => [t]
  | _ + 1, t => (Inner.children t).flatMap leaves

/-- The entries. -/
def toList (t : Tree V d) : List (ℕ × V) := entriesOf t.flat

/-- The nodes are in their cells. -/
def Held (m : ℕ → Option (Node V)) : {d : ℕ} → Tree V d → Prop
  | 0, t => ∃ n, m (Leaf.addr t) = some (.leaf n) ∧ IsLeaf n (Leaf.entries t) (Leaf.next t)
  | _ + 1, t => ∃ n, m (Inner.addr t) = some (.internal n)
      ∧ IsInternal n ((Inner.children t).map addr) (Inner.keys t)
      ∧ ∀ c ∈ Inner.children t, Held m c

/-- No node is empty. -/
def Filled : {d : ℕ} → Tree V d → Prop
  | 0, t => Leaf.entries t ≠ []
  | _ + 1, t => Inner.children t ≠ [] ∧ ∀ c ∈ Inner.children t, Filled c

/-! ### The parts of a leaf and of a node -/

section

variable {a : ℕ} {es : List (ℕ × V)} {nx : Option ℕ} {cs : List (Tree V d)} {ks : List ℕ}
  {m : ℕ → Option (Node V)}

@[simp] lemma addr_leaf : (leaf a es nx).addr = a := rfl

@[simp] lemma addr_node : (node a cs ks).addr = a := rfl

@[simp] lemma count_leaf : (leaf a es nx).count = es.length := rfl

@[simp] lemma count_node : (node a cs ks).count = cs.length := rfl

@[simp] lemma cells_leaf : (leaf a es nx).cells = [a] := rfl

@[simp] lemma cells_node : (node a cs ks).cells = a :: cs.flatMap cells := rfl

@[simp] lemma flat_leaf : (leaf a es nx).flat = es.map fun e => .entry e.1 e.2 := rfl

@[simp] lemma flat_node : (node a cs ks).flat = interleave (cs.map flat) ks := rfl

@[simp] lemma leaves_leaf : (leaf a es nx).leaves = [⟨a, es, nx⟩] := rfl

@[simp] lemma leaves_node : (node a cs ks).leaves = cs.flatMap leaves := rfl

@[simp] lemma toList_leaf : (leaf a es nx).toList = es := by
  rw [toList, flat_leaf]
  induction es with
  | nil => rfl
  | cons e es ih => simp [ih]

@[simp] lemma toList_node : (node a cs ks).toList = cs.flatMap toList := by
  rw [toList, flat_node, entriesOf_interleave, List.flatMap_map]
  rfl

lemma held_leaf : (leaf a es nx).Held m ↔ ∃ n, m a = some (.leaf n) ∧ IsLeaf n es nx := Iff.rfl

lemma held_node : (node a cs ks).Held m ↔ ∃ n, m a = some (.internal n)
    ∧ IsInternal n (cs.map addr) ks ∧ ∀ c ∈ cs, c.Held m := Iff.rfl

@[simp] lemma filled_leaf : (leaf a es nx).Filled ↔ es ≠ [] := Iff.rfl

@[simp] lemma filled_node : (node a cs ks).Filled ↔ cs ≠ [] ∧ ∀ c ∈ cs, c.Filled := Iff.rfl

end

/-! ### Cells -/

lemma addr_mem_cells (t : Tree V d) : t.addr ∈ t.cells := by
  cases d with
  | zero => exact List.mem_singleton_self _
  | succ d => exact List.mem_cons_self

/-- Every cell of a held tree is live. -/
lemma Held.live {m : ℕ → Option (Node V)} {t : Tree V d} (h : t.Held m) :
    ∀ a ∈ t.cells, m a ≠ none := by
  induction d with
  | zero =>
      obtain ⟨n, hn, -⟩ := h
      intro a ha
      obtain rfl := List.mem_singleton.mp ha
      exact fun h' => by rw [show m (Leaf.addr t) = some _ from hn] at h'; cases h'
  | succ d ih =>
      obtain ⟨a, cs, ks, rfl⟩ := t.eq_node
      obtain ⟨n, hn, -, hcs⟩ := held_node.mp h
      intro b hb
      rcases List.mem_cons.mp hb with rfl | hb
      · exact fun h' => by rw [show m b = some _ from hn] at h'; cases h'
      · obtain ⟨c, hc, hbc⟩ := List.mem_flatMap.mp hb
        exact ih (hcs c hc) b hbc

/-- Only the cells of a tree matter. -/
lemma Held.congr {m m' : ℕ → Option (Node V)} {t : Tree V d} (h : t.Held m)
    (hm : ∀ a ∈ t.cells, m' a = m a) : t.Held m' := by
  induction d with
  | zero =>
      obtain ⟨n, hn, hleaf⟩ := h
      exact ⟨n, (hm _ (List.mem_singleton_self _)).trans hn, hleaf⟩
  | succ d ih =>
      obtain ⟨a, cs, ks, rfl⟩ := t.eq_node
      obtain ⟨n, hn, hin, hcs⟩ := held_node.mp h
      refine held_node.mpr ⟨n, (hm _ List.mem_cons_self).trans hn, hin, fun c hc => ?_⟩
      refine ih (hcs c hc) fun b hb => hm b ?_
      exact List.mem_cons_of_mem _ (List.mem_flatMap.mpr ⟨c, hc, hb⟩)

/-- A filled tree of height `d` has a node on each of its levels. -/
lemma Filled.depth_lt {t : Tree V d} (h : t.Filled) : d < t.cells.length := by
  induction d with
  | zero => exact Nat.one_pos
  | succ d ih =>
      obtain ⟨a, cs, ks, rfl⟩ := t.eq_node
      obtain ⟨hne, hcs⟩ := filled_node.mp h
      cases cs with
      | nil => exact absurd rfl hne
      | cons c cs =>
          have := ih (hcs c List.mem_cons_self)
          simp only [cells_node, List.flatMap_cons, List.length_cons, List.length_append]
          omega

end Tree

/-! ### Steps -/

/-- The cells of some trees. -/
def cellSet (ts : List (Tree V d)) : Set ℕ := {a | a ∈ ts.flatMap Tree.cells}

/-- A change of the memory that turns the subtree `t` into `t'`, which stays in its
place, and concerns no other cell. -/
structure Step (m m' : ℕ → Option (Node V)) (t t' : Tree V d) : Prop where
  addr : t'.addr = t.addr
  held : t'.Held m'
  nodup : t'.cells.Nodup
  frame : Frame m m' {a | a ∈ t.cells} {a | a ∈ t'.cells}

namespace Step

variable {m m' m'' : ℕ → Option (Node V)}

lemma refl {t : Tree V d} (h : t.Held m) (hnd : t.cells.Nodup) : Step m m t t where
  addr := rfl
  held := h
  nodup := hnd
  frame := Frame.refl m _

lemma trans {t t' t'' : Tree V d} (h : Step m m' t t') (h' : Step m' m'' t' t'') :
    Step m m'' t t'' where
  addr := h'.addr.trans h.addr
  held := h'.held
  nodup := h'.nodup
  frame := h.frame.trans h'.frame

/-- **A step on neighbours** below a node, after which the node has the new ones as
children, is a step on the node. -/
theorem window {a : ℕ} {l w w' r : List (Tree V d)} {ks ks' : List ℕ}
    (h : (Tree.node a (l ++ w ++ r) ks).Held m) (hnd : (Tree.node a (l ++ w ++ r) ks).cells.Nodup)
    (hf : Frame m m' (insert a (cellSet w)) (insert a (cellSet w')))
    (hnode : ∃ n, m' a = some (.internal n) ∧ IsInternal n ((l ++ w' ++ r).map Tree.addr) ks')
    (hheld : ∀ c ∈ w', c.Held m') (hnd' : (a :: w'.flatMap Tree.cells).Nodup) :
    Step m m' (Tree.node a (l ++ w ++ r) ks) (Tree.node a (l ++ w' ++ r) ks') := by
  obtain ⟨n, hn, hin⟩ := hnode
  have hlive := h.live
  obtain ⟨-, -, -, hcs⟩ := Tree.held_node.mp h
  simp only [Tree.cells_node, List.flatMap_append, List.nodup_cons, List.mem_append,
    List.nodup_append, not_or] at hnd hnd'
  obtain ⟨⟨⟨hal, haw⟩, har⟩, ⟨hl, hw, hlw⟩, hr, hlwr⟩ := hnd
  obtain ⟨haw', hw'⟩ := hnd'
  -- the cells of the other children are left alone, and are not taken
  have hout : ∀ k, k ∈ l.flatMap Tree.cells ∨ k ∈ r.flatMap Tree.cells →
      k ∉ insert a (cellSet w) := by
    rintro k (hk | hk) (rfl | hk')
    · exact hal hk
    · exact hlw k hk k hk' rfl
    · exact har hk
    · exact hlwr k (Or.inr hk') k hk rfl
  have hlive' : ∀ k, k ∈ l.flatMap Tree.cells ∨ k ∈ r.flatMap Tree.cells → m k ≠ none := by
    intro k hk
    apply hlive
    simp only [Tree.cells_node, List.flatMap_append, List.mem_cons, List.mem_append]
    tauto
  have hnew : ∀ k, k ∈ l.flatMap Tree.cells ∨ k ∈ r.flatMap Tree.cells → k ∉ cellSet w' :=
    fun k hk hk' => hf.not_mem_of_live (hout k hk) (hlive' k hk) (Or.inr hk')
  have hsame : ∀ c, c ∈ l ∨ c ∈ r → c.Held m' := by
    intro c hc
    refine (hcs c (by simp; tauto)).congr fun k hk => ?_
    have hk' : k ∈ l.flatMap Tree.cells ∨ k ∈ r.flatMap Tree.cells :=
      hc.imp (fun hc => List.mem_flatMap.mpr ⟨c, hc, hk⟩) fun hc => List.mem_flatMap.mpr ⟨c, hc, hk⟩
    exact hf.eq_of_live (hout k hk') (hlive' k hk')
  refine ⟨rfl, Tree.held_node.mpr ⟨n, hn, hin, fun c hc => ?_⟩, ?_, ?_⟩
  · rcases List.mem_append.mp hc with hc | hc
    · rcases List.mem_append.mp hc with hc | hc
      · exact hsame c (Or.inl hc)
      · exact hheld c hc
    · exact hsame c (Or.inr hc)
  · simp only [Tree.cells_node, List.flatMap_append, List.nodup_cons, List.mem_append,
      List.nodup_append, not_or]
    refine ⟨⟨⟨hal, haw'⟩, har⟩, ⟨hl, hw', ?_⟩, hr, ?_⟩
    · rintro k hk k' hk' rfl
      exact hnew k (Or.inl hk) hk'
    · rintro k (hk | hk) k' hk' rfl
      · exact hlwr k (Or.inl hk) k hk' rfl
      · exact hnew k (Or.inr hk') hk
  · have hset : ∀ u : List (Tree V d), {k | k ∈ (Tree.node a (l ++ u ++ r) ks).cells}
        = insert a (cellSet u) ∪ {k | k ∈ l.flatMap Tree.cells ∨ k ∈ r.flatMap Tree.cells} := by
      intro u
      ext k
      simp only [cellSet, Tree.cells_node, List.flatMap_append, List.mem_cons, List.mem_append,
        Set.mem_ofPred_eq, Set.mem_union, Set.mem_insert_iff]
      tauto
    rw [hset w, show {k | k ∈ (Tree.node a (l ++ w' ++ r) ks').cells} = _ from hset w']
    exact hf.extend _

/-- A step on one child. -/
theorem focus {a : ℕ} {l r : List (Tree V d)} {c c' : Tree V d} {ks : List ℕ}
    (h : (Tree.node a (l ++ c :: r) ks).Held m) (hnd : (Tree.node a (l ++ c :: r) ks).cells.Nodup)
    (hc : Step m m' c c') :
    Step m m' (Tree.node a (l ++ c :: r) ks) (Tree.node a (l ++ c' :: r) ks) := by
  have hsplit : ∀ x : Tree V d, l ++ x :: r = l ++ [x] ++ r := fun x => by simp
  have hset : ∀ x : Tree V d, insert a (cellSet [x]) = {k | k ∈ x.cells} ∪ {a} := by
    intro x
    ext k
    simp [cellSet]
  rw [hsplit] at h hnd
  rw [hsplit, hsplit]
  obtain ⟨n, hn, hin, -⟩ := Tree.held_node.mp h
  have ha : a ∉ c.cells := by
    intro ha
    have hc : c ∈ l ++ [c] ++ r := by simp
    exact (List.nodup_cons.mp hnd).1 (List.mem_flatMap.mpr ⟨c, hc, ha⟩)
  have hlive : m a ≠ none := h.live a List.mem_cons_self
  refine window h hnd ?_ ⟨n, ?_, ?_⟩ ?_ ?_
  · rw [hset, hset]
    exact hc.frame.extend {a}
  · rw [← hn]
    exact hc.frame.eq_of_live ha hlive
  · simpa [hc.addr] using hin
  · intro x hx
    rw [List.mem_singleton.mp hx]
    exact hc.held
  · simp only [List.flatMap_cons, List.flatMap_nil, List.append_nil]
    exact List.nodup_cons.mpr ⟨fun h' => hc.frame.not_mem_of_live ha hlive h', hc.nodup⟩

/-- New keys for a node. -/
theorem rekey {a : ℕ} {cs : List (Tree V d)} {ks ks' : List ℕ} {n : InternalNode}
    (h : (Tree.node a cs ks).Held m) (hnd : (Tree.node a cs ks).cells.Nodup)
    (hm : m' = Function.update m a (some (.internal n))) (hn : IsInternal n (cs.map Tree.addr) ks') :
    Step m m' (Tree.node a cs ks) (Tree.node a cs ks') := by
  have hcs := (Tree.held_node.mp h).choose_spec.2.2
  refine ⟨rfl, Tree.held_node.mpr ⟨n, ?_, hn, fun c hc => (hcs c hc).congr fun k hk => ?_⟩, hnd, ?_⟩
  · rw [hm, Function.update_self]
  · rw [hm, Function.update_of_ne]
    rintro rfl
    exact (List.nodup_cons.mp hnd).1 (List.mem_flatMap.mpr ⟨c, hc, hk⟩)
  · rw [hm]
    exact Frame.write (show a ∈ {k | k ∈ (Tree.node a cs ks).cells} from List.mem_cons_self) _

end Step

/-! ### The chain of the leaves -/

/-- Where the first of some leaves is; behind the last one follows `e`. -/
def firstOf (e : Option ℕ) : List (Leaf V) → Option ℕ
  | [] => e
  | x :: _ => some x.addr

/-- Every leaf is linked to the next one, and the last one to `e`. -/
def Linked (e : Option ℕ) : List (Leaf V) → Prop
  | [] => True
  | x :: l => x.next = firstOf e l ∧ Linked e l

@[simp] lemma firstOf_nil (e : Option ℕ) : firstOf e ([] : List (Leaf V)) = e := rfl

@[simp] lemma firstOf_cons (e : Option ℕ) (x : Leaf V) (l : List (Leaf V)) :
    firstOf e (x :: l) = some x.addr := rfl

@[simp] lemma linked_nil (e : Option ℕ) : Linked e ([] : List (Leaf V)) := trivial

@[simp] lemma linked_cons (e : Option ℕ) (x : Leaf V) (l : List (Leaf V)) :
    Linked e (x :: l) ↔ x.next = firstOf e l ∧ Linked e l := Iff.rfl

lemma firstOf_append (e : Option ℕ) (x y : List (Leaf V)) :
    firstOf e (x ++ y) = firstOf (firstOf e y) x := by
  cases x <;> rfl

lemma linked_append (e : Option ℕ) (x y : List (Leaf V)) :
    Linked e (x ++ y) ↔ Linked (firstOf e y) x ∧ Linked e y := by
  induction x with
  | nil => simp
  | cons z x ih => simp [ih, firstOf_append, and_assoc]

/-- The leaves `y` may take the place of `x` in a chain. -/
structure SameChain (x y : List (Leaf V)) : Prop where
  linked : ∀ e, Linked e x → Linked e y
  first : ∀ e, firstOf e y = firstOf e x

namespace SameChain

variable {x y z L R : List (Leaf V)}

lemma refl (x : List (Leaf V)) : SameChain x x := ⟨fun _ h => h, fun _ => rfl⟩

lemma trans (h : SameChain x y) (h' : SameChain y z) : SameChain x z where
  linked e hx := h'.linked e (h.linked e hx)
  first e := (h'.first e).trans (h.first e)

/-- Inside a longer chain. -/
lemma mid (h : SameChain x y) (L R : List (Leaf V)) : SameChain (L ++ x ++ R) (L ++ y ++ R) where
  linked e hx := by
    simp only [linked_append] at hx ⊢
    rw [h.first]
    exact ⟨⟨hx.1.1, h.linked _ hx.1.2⟩, hx.2⟩
  first e := by simp only [firstOf_append, h.first]

end SameChain

end Furious
