import Furious.Library.Pool
import Furious.Library.Slots

/-!
The B-tree.

A map from 32 bit keys to pointers. Internal nodes have up to ten children and a
separating key between any two neighbours; leaves have up to nine entries and are
linked to their successors. Nodes come from a pool, and unused slots hold null
pointers. Insertion splits full nodes on its way down; removal merges a node with
its right neighbour on its way up if both fit into one.

* `InternalNode`, `LeafNode`, `Node`, `BTree`: the records;
* `BTree.get`, `BTree.insert`, `BTree.remove`: `fdb_btree_get`, `fdb_btree_insert`
  and `fdb_btree_remove`, with the functions they call;
* `Iter`: the iterator, which follows the links of the leaves.

A slot outside an array, a null pointer, a vacant node or one of the wrong type is
a fault if the code would use it: the operation has no result. Recursions along
the height take fuel, of which the number of nodes of the pool is enough. Keys are
natural numbers; the size is a 32 bit counter.
-/

namespace Furious

variable {V : Type}

/-! ### The data -/

/-- `FDB_BTREE_INTERNAL_MAX_ARITY`. -/
abbrev internalMaxArity : ℕ := 10

/-- `FDB_BTREE_INTERNAL_MIN_ARITY`. -/
abbrev internalMinArity : ℕ := (internalMaxArity + 2 - 1) / 2

/-- `FDB_BTREE_LEAF_MAX_ARITY`. -/
abbrev leafMaxArity : ℕ := 9

/-- `FDB_BTREE_LEAF_MIN_ARITY`. -/
abbrev leafMinArity : ℕ := (leafMaxArity + 2 - 1) / 2

/-- The fields of an internal node: ten slots for children and nine for keys. -/
structure InternalNode where
  children : List (Option ℕ)
  keys : List ℕ
  nchildren : ℕ
deriving DecidableEq, Repr

/-- The fields of a leaf: nine slots for pointers and nine for keys. -/
structure LeafNode (V : Type) where
  leafs : List (Option V)
  keys : List ℕ
  next : Option ℕ
  nleafs : ℕ
deriving DecidableEq, Repr

/-- A node (`fdb_btree_node_t`). -/
inductive Node (V : Type) where
  | internal (n : InternalNode)
  | leaf (n : LeafNode V)
deriving DecidableEq, Repr

/-- A tree (`fdb_btree_t`). -/
structure BTree (V : Type) where
  root : ℕ
  size : ℕ
  nodes : Pool (Node V)

/-- The fields of a node that has to be internal. -/
def getInternal (nodes : Pool (Node V)) (node : ℕ) : Option InternalNode :=
  match nodes.get node with
  | some (.internal n) => some n
  | _ => none

/-- The fields of a node that has to be a leaf. -/
def getLeaf (nodes : Pool (Node V)) (node : ℕ) : Option (LeafNode V) :=
  match nodes.get node with
  | some (.leaf n) => some n
  | _ => none

/-- `fdb_btree_create_internal`. -/
def createInternal (nodes : Pool (Node V)) : ℕ × Pool (Node V) :=
  nodes.alloc (.internal
    ⟨List.replicate internalMaxArity none, List.replicate (internalMaxArity - 1) 0, 0⟩)

/-- `fdb_btree_create_leaf`. -/
def createLeaf (nodes : Pool (Node V)) : ℕ × Pool (Node V) :=
  nodes.alloc (.leaf ⟨List.replicate leafMaxArity none, List.replicate leafMaxArity 0, none, 0⟩)

/-- `fdb_btree_init`. -/
def BTree.init : BTree V :=
  let (root, nodes) := createInternal Pool.empty
  ⟨root, 0, nodes⟩

/-- `fdb_btree_destroy_node`. -/
def destroyNode : ℕ → Pool (Node V) → ℕ → Option (Pool (Node V))
  | 0, _, _ => none
  | fuel + 1, nodes, node => do
      match ← nodes.get node with
      | .internal n => do
          let nodes ← n.children.foldlM (fun nodes child => match child with
            | some child => destroyNode fuel nodes child
            | none => some nodes) nodes
          nodes.release node
      | .leaf _ => nodes.release node

/-- `fdb_btree_clear`. -/
def BTree.clear (t : BTree V) : Option (BTree V) := do
  let nodes ← destroyNode t.nodes.cells.length t.nodes t.root
  let (root, nodes) := createInternal nodes
  some ⟨root, 0, nodes⟩

/-- `fdb_btree_release`: the pool that is left. -/
def BTree.release (t : BTree V) : Option (Pool (Node V)) :=
  destroyNode t.nodes.cells.length t.nodes t.root

/-! ### Search -/

/-- The loop of `fdb_btree_next_internal`, on the children from the second on. -/
def nextChild (key : ℕ) : List (Option ℕ) → List ℕ → ℕ
  | some _ :: children, k :: keys => if key ≥ k then nextChild key children keys + 1 else 0
  | _, _ => 0

/-- `fdb_btree_next_internal`. -/
def InternalNode.next (n : InternalNode) (key : ℕ) : ℕ := nextChild key n.children.tail n.keys

/-- The loop of `fdb_btree_next_leaf`. -/
def nextSlot (key : ℕ) : List (Option V) → List ℕ → ℕ
  | some _ :: leafs, k :: keys => if key > k then nextSlot key leafs keys + 1 else 0
  | _, _ => 0

/-- `fdb_btree_next_leaf`. -/
def LeafNode.nextPos (n : LeafNode V) (key : ℕ) : ℕ := nextSlot key n.leafs n.keys

/-- `fdb_btree_get_node`. -/
def getNode (nodes : Pool (Node V)) (key : ℕ) : ℕ → ℕ → Option (Option V)
  | 0, _ => none
  | fuel + 1, node => do
      match ← nodes.get node with
      | .internal n =>
          match n.children[n.next key]?.join with
          | some child => getNode nodes key fuel child
          | none => some none
      | .leaf n =>
          match n.leafs[n.nextPos key]?.join, n.keys[n.nextPos key]? with
          | some v, some k => some (if k = key then some v else none)
          | _, _ => some none

/-- `fdb_btree_get`. -/
def BTree.get (t : BTree V) (key : ℕ) : Option (Option V) :=
  getNode t.nodes key t.nodes.cells.length t.root

/-! ### Insertion -/

/-- `fdb_btree_split_internal`: the upper children and keys go to a new node; the
key between the two halves is reported. -/
def splitInternal (nodes : Pool (Node V)) (node : ℕ) : Option (ℕ × ℕ × Pool (Node V)) := do
  let (sibling, nodes) := createInternal nodes
  let n ← getInternal nodes node
  let start := internalMinArity
  let siblingKey ← n.keys[start - 1]?
  let nodes ← nodes.put sibling (.internal {
    children := n.children.drop start ++ List.replicate start none
    keys := n.keys.drop start ++ List.replicate start 0
    nchildren := internalMaxArity - start })
  let nodes ← nodes.put node (.internal {
    children := n.children.take start ++ List.replicate (internalMaxArity - start) none
    keys := n.keys.take (start - 1) ++ List.replicate (internalMaxArity - start) 0
    nchildren := n.nchildren - (internalMaxArity - start) })
  some (sibling, siblingKey, nodes)

/-- `fdb_btree_split_leaf`. -/
def splitLeaf (nodes : Pool (Node V)) (node : ℕ) : Option (ℕ × ℕ × Pool (Node V)) := do
  let (sibling, nodes) := createLeaf nodes
  let n ← getLeaf nodes node
  let start := leafMinArity
  let siblingKey ← n.keys[start]?
  let nodes ← nodes.put sibling (.leaf {
    leafs := n.leafs.drop start ++ List.replicate start none
    keys := n.keys.drop start ++ List.replicate start 0
    next := none
    nleafs := leafMaxArity - start })
  let nodes ← nodes.put node (.leaf {
    leafs := n.leafs.take start ++ List.replicate (leafMaxArity - start) none
    keys := n.keys.take start ++ List.replicate (leafMaxArity - start) 0
    next := n.next
    nleafs := n.nleafs - (leafMaxArity - start) })
  some (sibling, siblingKey, nodes)

/-- The arrays of a node in `fdb_btree_shift_insert_internal`: what is in the last slots is
lost. -/
def InternalNode.shiftInsert (n : InternalNode) (idx child key : ℕ) : InternalNode where
  children := (n.children.insertIdx idx (some child)).take internalMaxArity
  keys := (n.keys.insertIdx (idx - 1) key).take (internalMaxArity - 1)
  nchildren := n.nchildren + 1

/-- `fdb_btree_shift_insert_internal`. -/
def shiftInsertInternal (nodes : Pool (Node V)) (node idx child key : ℕ) : Option (Pool (Node V)) := do
  let n ← getInternal nodes node
  if 0 < idx ∧ idx < internalMaxArity then nodes.put node (.internal (n.shiftInsert idx child key))
  else none

/-- `fdb_btree_shift_insert_leaf`. -/
def LeafNode.shiftInsert (n : LeafNode V) (idx key : ℕ) : LeafNode V where
  leafs := (n.leafs.insertIdx idx none).take leafMaxArity
  keys := (n.keys.insertIdx idx key).take leafMaxArity
  next := n.next
  nleafs := n.nleafs + 1

/-- `fdb_btree_split_child_full`: splits the child if it is full, and returns the
one of the halves that the key belongs to. -/
def splitChildFull (nodes : Pool (Node V)) (node childIdx key : ℕ) :
    Option (ℕ × Pool (Node V)) := do
  let n ← getInternal nodes node
  let child ← n.children[childIdx]?.join
  match ← nodes.get child with
  | .internal c =>
      if c.nchildren = internalMaxArity then do
        let (sibling, siblingKey, nodes) ← splitInternal nodes child
        let nodes ← shiftInsertInternal nodes node (childIdx + 1) sibling siblingKey
        some (if key ≥ siblingKey then sibling else child, nodes)
      else some (child, nodes)
  | .leaf c =>
      if c.nleafs = leafMaxArity then do
        let (sibling, siblingKey, nodes) ← splitLeaf nodes child
        let nodes ← shiftInsertInternal nodes node (childIdx + 1) sibling siblingKey
        let c ← getLeaf nodes child
        let s ← getLeaf nodes sibling
        let nodes ← nodes.put sibling (.leaf { s with next := c.next })
        let nodes ← nodes.put child (.leaf { c with next := some sibling })
        some (if key ≥ siblingKey then sibling else child, nodes)
      else some (child, nodes)

/-- Whether a new child of `n` has to be a leaf: it has no children yet, or its first
one is a leaf. -/
def childIsLeaf (nodes : Pool (Node V)) (n : InternalNode) : Option Bool :=
  if n.nchildren = 0 then some true
  else do
    let first ← n.children[0]?.join
    match ← nodes.get first with
    | .internal _ => some false
    | .leaf _ => some true

/-- The step from an internal node towards the key, which `fdb_btree_insert` and
`fdb_btree_insert_node` share: a missing child is created, a full one is split. -/
def insertChild (nodes : Pool (Node V)) (node key : ℕ) : Option (ℕ × Pool (Node V)) := do
  let n ← getInternal nodes node
  let childIdx := n.next key
  let slot ← n.children[childIdx]?
  let nodes ← match slot with
    | some _ => some nodes
    | none => do
        let isLeaf ← childIsLeaf nodes n
        let (child, nodes) := if isLeaf then createLeaf nodes else createInternal nodes
        nodes.put node (.internal {
          children := n.children.set childIdx (some child)
          keys := if childIdx > 0 then n.keys.set (childIdx - 1) key else n.keys
          nchildren := n.nchildren + 1 })
  splitChildFull nodes node childIdx key

/-- What an insertion returns (`fdb_btree_insert_t`); `p_place` is a slot of a leaf. -/
structure Inserted where
  inserted : Bool
  leaf : ℕ
  slot : ℕ
deriving DecidableEq, Repr

/-- `fdb_btree_insert_node`. -/
def insertNode (key : ℕ) (value : V) : ℕ → BTree V → ℕ → Option (BTree V × Inserted)
  | 0, _, _ => none
  | fuel + 1, t, node => do
      match ← t.nodes.get node with
      | .internal _ => do
          let (child, nodes) ← insertChild t.nodes node key
          insertNode key value fuel { t with nodes := nodes } child
      | .leaf n => do
          let pos := n.nextPos key
          let k ← n.keys[pos]?
          let old ← n.leafs[pos]?
          if k ≠ key ∨ old.isNone = true then do
            let n := n.shiftInsert pos key
            let nodes ← t.nodes.put node (.leaf { n with leafs := n.leafs.set pos (some value) })
            some (⟨t.root, (t.size + 1) % 2 ^ 32, nodes⟩, ⟨true, node, pos⟩)
          else some (t, ⟨false, node, pos⟩)

/-- A full root is split below a new one. -/
def splitRoot (t : BTree V) : Option (BTree V) := do
  let root ← getInternal t.nodes t.root
  if root.nchildren = internalMaxArity then do
    let (sibling, siblingKey, nodes) ← splitInternal t.nodes t.root
    let (newRoot, nodes) := createInternal nodes
    let n ← getInternal nodes newRoot
    let nodes ← nodes.put newRoot (.internal {
      children := (n.children.set 0 (some t.root)).set 1 (some sibling)
      keys := n.keys.set 0 siblingKey
      nchildren := 2 })
    some ⟨newRoot, t.size, nodes⟩
  else some t

/-- `fdb_btree_insert`. -/
def BTree.insert (t : BTree V) (key : ℕ) (value : V) : Option (BTree V × Inserted) := do
  let t ← splitRoot t
  let (child, nodes) ← insertChild t.nodes t.root key
  insertNode key value nodes.cells.length { t with nodes := nodes } child

/-! ### Removal -/

/-- The arrays of a node in `fdb_btree_remove_shift_internal`: a child goes, and the key
on its left, or for the first child the one on its right. -/
def InternalNode.removeShift (n : InternalNode) (idx : ℕ) : InternalNode where
  children := (n.children.eraseIdx idx ++ n.children.drop (internalMaxArity - 1)).set
    (n.nchildren - 1) none
  keys := n.keys.eraseIdx (if idx = 0 then 0 else idx - 1) ++ n.keys.drop (internalMaxArity - 2)
  nchildren := n.nchildren - 1

/-- `fdb_btree_remove_shift_internal`. -/
def removeShiftInternal (nodes : Pool (Node V)) (node idx : ℕ) : Option (Pool (Node V)) := do
  let n ← getInternal nodes node
  let old ← n.children[idx]?.join
  -- the last slot, number `m_nchildren - 1`, is cleared
  if n.nchildren = 0 then none
  else do
    let nodes ← nodes.put node (.internal (n.removeShift idx))
    destroyNode nodes.cells.length nodes old

/-- `fdb_btree_remove_shift_leaf`. -/
def LeafNode.removeShift (n : LeafNode V) (idx : ℕ) : LeafNode V where
  leafs := ((n.leafs.eraseIdx idx) ++ n.leafs.drop (leafMaxArity - 1)).set (n.nleafs - 1) none
  keys := n.keys.eraseIdx idx ++ n.keys.drop (leafMaxArity - 1)
  next := n.next
  nleafs := n.nleafs - 1

/-- `fdb_btree_merge_internal`. The key between the two nodes is copied only if the
right one has more than one child. -/
def mergeInternal (nodes : Pool (Node V)) (node idx₁ idx₂ : ℕ) : Option (Pool (Node V)) := do
  let n ← getInternal nodes node
  let child₁ ← n.children[idx₁]?.join
  let child₂ ← n.children[idx₂]?.join
  let c₁ ← getInternal nodes child₁
  let c₂ ← getInternal nodes child₂
  let separator ← n.keys[idx₂ - 1]?
  let keys :=
    if c₂.nchildren > 1 then
      overwrite c₁.keys (c₁.nchildren - 1) (separator :: c₂.keys.take (c₂.nchildren - 1))
    else c₁.keys
  let nodes ← nodes.put child₁ (.internal {
    children := overwrite c₁.children c₁.nchildren (c₂.children.take c₂.nchildren)
    keys := keys
    nchildren := c₁.nchildren + c₂.nchildren })
  let nodes ← nodes.put child₂ (.internal { c₂ with
    children := overwrite c₂.children 0 (List.replicate c₂.nchildren none) })
  -- the assertions, and the key written to slot `num_keys1`, which is `m_nchildren - 1`
  if idx₂ = idx₁ + 1 ∧ c₁.nchildren + c₂.nchildren ≤ internalMaxArity
      ∧ (c₂.nchildren > 1 → c₁.nchildren ≠ 0) then
    removeShiftInternal nodes node idx₂
  else none

/-- `fdb_btree_merge_leaf`. -/
def mergeLeaf (nodes : Pool (Node V)) (node idx₁ idx₂ : ℕ) : Option (Pool (Node V)) := do
  let n ← getInternal nodes node
  let child₁ ← n.children[idx₁]?.join
  let child₂ ← n.children[idx₂]?.join
  let c₁ ← getLeaf nodes child₁
  let c₂ ← getLeaf nodes child₂
  let nodes ← nodes.put child₁ (.leaf {
    leafs := overwrite c₁.leafs c₁.nleafs (c₂.leafs.take c₂.nleafs)
    keys := overwrite c₁.keys c₁.nleafs (c₂.keys.take c₂.nleafs)
    next := c₂.next
    nleafs := c₁.nleafs + c₂.nleafs })
  let nodes ← nodes.put child₂ (.leaf { c₂ with
    leafs := overwrite c₂.leafs 0 (List.replicate c₂.nleafs none) })
  if idx₂ = idx₁ + 1 ∧ c₁.nleafs + c₂.nleafs ≤ leafMaxArity then removeShiftInternal nodes node idx₂
  else none

/-- The number of children or entries of a node. -/
def Node.count : Node V → ℕ
  | .internal n => n.nchildren
  | .leaf n => n.nleafs

/-- The end of `fdb_btree_remove_node` on an internal node: the child at the place of
the key is merged with its right neighbour if both fit into one node. -/
def mergeNext (nodes : Pool (Node V)) (node childIdx : ℕ) : Option (Pool (Node V)) := do
  let n ← getInternal nodes node
  match n.children[childIdx + 1]?.join with
  | none => some nodes
  | some child₂ => do
      let child₁ ← n.children[childIdx]?.join
      let c₁ ← nodes.get child₁
      let c₂ ← nodes.get child₂
      match c₁ with
      | .internal _ =>
          if c₁.count + c₂.count ≤ internalMaxArity then
            mergeInternal nodes node childIdx (childIdx + 1)
          else some nodes
      | .leaf _ =>
          if c₁.count + c₂.count ≤ leafMaxArity then mergeLeaf nodes node childIdx (childIdx + 1)
          else some nodes

/-- The middle of `fdb_btree_remove_node` on an internal node: a child without entries
goes. The new smallest key, if it changed, is passed on. -/
def dropEmpty (nodes : Pool (Node V)) (node child childIdx : ℕ) (newMin : Option ℕ) :
    Option (Pool (Node V) × Option ℕ) := do
  let c ← nodes.get child
  if c.count = 0 then do
    let n ← getInternal nodes node
    let first ← n.keys[0]?
    let nodes ← removeShiftInternal nodes node childIdx
    some (nodes, if childIdx = 0 then some first else newMin)
  else some (nodes, newMin)

/-- The assignment of a new smallest key to the separator on the left of the child;
without one it is passed on. -/
def setSeparator (nodes : Pool (Node V)) (node childIdx : ℕ) (newMin : Option ℕ) :
    Option (Pool (Node V) × Option ℕ) :=
  match newMin with
  | none => some (nodes, none)
  | some m =>
      if childIdx = 0 then some (nodes, some m)
      else do
        let n ← getInternal nodes node
        let nodes ← nodes.put node (.internal { n with keys := n.keys.set (childIdx - 1) m })
        some (nodes, none)

/-- `fdb_btree_remove_node`. It returns the removed pointer and, if `min_changed` was
set, the new smallest key. -/
def removeNode (key : ℕ) : ℕ → BTree V → ℕ → Option (BTree V × Option V × Option ℕ)
  | 0, _, _ => none
  | fuel + 1, t, node => do
      match ← t.nodes.get node with
      | .internal n => do
          let childIdx := n.next key
          let child ← n.children[childIdx]?.join
          let (t, removed, newMin) ← removeNode key fuel t child
          let (nodes, newMin) ← setSeparator t.nodes node childIdx newMin
          let (nodes, newMin) ← dropEmpty nodes node child childIdx newMin
          let nodes ← mergeNext nodes node childIdx
          some ({ t with nodes := nodes }, removed, newMin)
      | .leaf n => do
          let idx := n.nextPos key
          let value ← n.leafs[idx]?
          let k ← n.keys[idx]?
          if value.isNone = true ∨ k ≠ key then some (t, none, none)
          else if n.nleafs = 0 then none
          else do
            let n := n.removeShift idx
            let nodes ← t.nodes.put node (.leaf n)
            let first ← n.keys[0]?
            some (⟨t.root, (t.size + (2 ^ 32 - 1)) % 2 ^ 32, nodes⟩, value,
              if idx = 0 then some first else none)

/-- A root with a single child, an internal one, makes room for it. -/
def collapseRoot (t : BTree V) : Option (BTree V) := do
  let root ← getInternal t.nodes t.root
  if root.nchildren = 1 then do
    let child ← root.children[0]?.join
    match ← t.nodes.get child with
    | .leaf _ => some t
    | .internal _ => do
        let nodes ← t.nodes.put t.root (.internal { root with
          children := root.children.set 0 none
          nchildren := 0 })
        let nodes ← destroyNode nodes.cells.length nodes t.root
        some ⟨child, t.size, nodes⟩
  else some t

/-- `fdb_btree_remove`. -/
def BTree.remove (t : BTree V) (key : ℕ) : Option (BTree V × Option V) := do
  let (t, removed, _) ← removeNode key t.nodes.cells.length t t.root
  let t ← collapseRoot t
  some (t, removed)

/-! ### Iteration -/

/-- An iterator (`fdb_btree_iter_t`). -/
structure Iter where
  leaf : Option ℕ
  index : ℕ
deriving DecidableEq, Repr

/-- The descent of `fdb_btree_iter_init` along the first children. -/
def firstLeaf (nodes : Pool (Node V)) : ℕ → Option ℕ → Option (Option ℕ)
  | _, none => some none
  | 0, some _ => none
  | fuel + 1, some node => do
      match ← nodes.get node with
      | .internal n => do
          let child ← n.children[0]?
          firstLeaf nodes fuel child
      | .leaf _ => some (some node)

/-- `fdb_btree_iter_init`. -/
def BTree.iterInit (t : BTree V) : Option Iter := do
  let leaf ← firstLeaf t.nodes t.nodes.cells.length (some t.root)
  some ⟨leaf, 0⟩

/-- `fdb_btree_iter_has_next`. -/
def Iter.hasNext (nodes : Pool (Node V)) (iter : Iter) : Option Bool :=
  match iter.leaf with
  | none => some false
  | some leaf => do
      let n ← getLeaf nodes leaf
      if iter.index < n.nleafs then some true
      else
        match n.next with
        | none => some false
        | some sibling => do
            let s ← getLeaf nodes sibling
            some (decide (s.nleafs > 0))

/-- `fdb_btree_iter_next`: the key, the pointer, and the iterator after it. -/
def Iter.next (nodes : Pool (Node V)) (iter : Iter) : Option ((ℕ × Option V) × Iter) :=
  match iter.leaf with
  | none => some ((0xffffffff, none), iter)
  | some leaf => do
      let n ← getLeaf nodes leaf
      if n.nleafs = 0 then some ((0xffffffff, none), iter)
      else do
        let id ← n.keys[iter.index]?
        let value ← n.leafs[iter.index]?
        if iter.index + 1 ≥ n.nleafs then some ((id, value), ⟨n.next, 0⟩)
        else some ((id, value), ⟨some leaf, iter.index + 1⟩)

/-- Alternates `fdb_btree_iter_has_next` and `fdb_btree_iter_next` until there is no
next entry. -/
def Iter.drain (nodes : Pool (Node V)) : ℕ → Iter → Option (List (ℕ × Option V))
  | 0, _ => none
  | fuel + 1, iter => do
      let more ← iter.hasNext nodes
      if more = true then do
        let (entry, iter) ← iter.next nodes
        let entries ← Iter.drain nodes fuel iter
        some (entry :: entries)
      else some []

/-- A whole iteration of at most `fuel` steps. -/
def BTree.entries (t : BTree V) (fuel : ℕ) : Option (List (ℕ × Option V)) := do
  let iter ← t.iterInit
  iter.drain t.nodes fuel

end Furious
