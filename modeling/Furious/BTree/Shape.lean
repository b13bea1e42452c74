import Mathlib.Data.List.ReduceOption
import Furious.BTree.Runs

/-!
The shape of a B-tree.

A survey walks through all nodes below the root and looks at their arrays and at
the heights of the subtrees. In every run from the empty tree in which only keys
that a lookup finds are removed, whatever the order of the keys in the tree has
become, the survey finds a tree of nodes that are all those of the pool.

* `InternalNode.Packed`, `LeafNode.Packed`: the arrays of a node;
* `survey`, `BTree.survey`: the height, the nodes and the number of entries;
* `Built`: the runs, and `Formed`: what the survey has to find;
* `Built.formed`: **it finds that in every run**.
-/

namespace Furious

variable {V : Type} {d : ℕ}

/-! ### The survey -/

/-- The children are in the first slots, as many as the counter says. -/
def InternalNode.Packed (n : InternalNode) : Prop :=
  n.keys.length = internalMaxArity - 1 ∧ n.nchildren ≤ internalMaxArity
    ∧ n.children.map Option.isSome
      = List.replicate n.nchildren true ++ List.replicate (internalMaxArity - n.nchildren) false

/-- The entries are in the first slots, as many as the counter says. -/
def LeafNode.Packed (n : LeafNode V) : Prop :=
  n.keys.length = leafMaxArity ∧ n.nleafs ≤ leafMaxArity
    ∧ n.leafs.map Option.isSome
      = List.replicate n.nleafs true ++ List.replicate (leafMaxArity - n.nleafs) false

instance (n : InternalNode) : Decidable n.Packed := inferInstanceAs (Decidable (_ ∧ _ ∧ _))

instance (n : LeafNode V) : Decidable n.Packed := inferInstanceAs (Decidable (_ ∧ _ ∧ _))

/-- What is found at a node: the levels of nodes below it, the nodes from it on, and the
entries. -/
structure Survey where
  height : ℕ
  nodes : List ℕ
  entries : ℕ
deriving DecidableEq, Repr

/-- The surveys of the children in one: all of them have to be of one height. -/
def Survey.join (node : ℕ) (below : List Survey) : Option Survey :=
  let height := (below.head?.map Survey.height).getD 0
  if ∀ s ∈ below, s.height = height then
    some ⟨height + 1, node :: below.flatMap Survey.nodes, (below.map Survey.entries).sum⟩
  else none

/-- The survey of a node other than the root, which must not be empty. -/
def survey (nodes : Pool (Node V)) : ℕ → ℕ → Option Survey
  | 0, _ => none
  | fuel + 1, node => do
      match ← nodes.get node with
      | .internal n =>
          if n.Packed ∧ n.nchildren ≠ 0 then do
            let below ← n.children.reduceOption.mapM (survey nodes fuel)
            Survey.join node below
          else none
      | .leaf n => if n.Packed ∧ n.nleafs ≠ 0 then some ⟨0, [node], n.nleafs⟩ else none

/-- The survey of the root, which has to be internal. -/
def BTree.survey (t : BTree V) : Option Survey := do
  let n ← getInternal t.nodes t.root
  if n.Packed then do
    let below ← n.children.reduceOption.mapM (Furious.survey t.nodes t.nodes.cells.length)
    Survey.join t.root below
  else none

lemma reduceOption_map_some {β : Type} (xs : List β) : (xs.map some).reduceOption = xs := by
  induction xs with
  | nil => rfl
  | cons x xs ih => rw [List.map_cons, List.reduceOption_cons_of_some, ih]

lemma isSome_padded {β : Type} {cap : ℕ} {xs : List β} {arr : List (Option β)}
    (h : Padded cap none (xs.map some) arr) :
    arr.map Option.isSome
        = List.replicate xs.length true ++ List.replicate (cap - xs.length) false
      ∧ arr.reduceOption = xs := by
  obtain ⟨m, rfl, hm⟩ := h
  have hm' : cap - xs.length = m := by
    rw [List.length_map] at hm
    omega
  constructor
  · rw [hm', List.map_append, List.map_map, List.map_replicate]
    congr 1
    exact List.eq_replicate_iff.mpr ⟨by simp, by simp⟩
  · rw [List.reduceOption_append, List.reduceOption_replicate_none, List.append_nil]
    exact reduceOption_map_some xs

lemma IsInternal.packed {n : InternalNode} {cs ks : List ℕ} (h : IsInternal n cs ks) :
    n.Packed ∧ n.children.reduceOption = cs := by
  obtain ⟨hsome, hred⟩ := isSome_padded h.children
  refine ⟨⟨h.keys.2, ?_, ?_⟩, hred⟩
  · rw [h.nchildren]
    exact h.length_le
  · rw [h.nchildren]
    exact hsome

lemma IsLeaf.packed {n : LeafNode V} {es : List (ℕ × V)} {nx : Option ℕ} (h : IsLeaf n es nx) :
    n.Packed := by
  have hleafs : Padded leafMaxArity none ((es.map Prod.snd).map some) n.leafs := by
    rw [List.map_map]
    exact h.leafs
  have hle := hleafs.prefixed.length_le
  rw [List.length_map, List.length_map] at hle
  obtain ⟨hsome, -⟩ := isSome_padded hleafs
  rw [List.length_map] at hsome
  exact ⟨h.keys.2, by rw [h.nleafs]; exact hle, by rw [h.nleafs]; exact hsome⟩

/-- The surveys of children of one height. -/
lemma Survey.join_eq {T : Type} {node h : ℕ} {cs : List T} {f : T → List ℕ} {g : T → ℕ} (hne : cs ≠ []) :
    Survey.join node (cs.map fun c => ⟨h, f c, g c⟩)
      = some ⟨h + 1, node :: cs.flatMap f, (cs.map g).sum⟩ := by
  cases cs with
  | nil => exact absurd rfl hne
  | cons c cs => simp [Survey.join, List.flatMap_map, Function.comp_def]

lemma mapM_eq_of_forall {S T U : Type} {l : List S} {f : S → T} {g : T → Option U} {k : S → U}
    (h : ∀ x ∈ l, g (f x) = some (k x)) : (l.map f).mapM g = some (l.map k) := by
  induction l with
  | nil => rfl
  | cons x l ih =>
      have ih' := ih fun y hy => h y (List.mem_cons_of_mem _ hy)
      simp only [List.map_cons, List.mapM_cons, h x List.mem_cons_self, ih', Option.bind_eq_bind,
        Option.bind_some, Option.pure_def]

/-- **The survey of a subtree** finds its height, nodes and entries. -/
theorem survey_eq {nodes : Pool (Node V)} {T : Tree V d} (h : T.Held nodes.get) (hf : T.Filled)
    {fuel : ℕ} (hfuel : d < fuel) :
    survey nodes fuel T.addr = some ⟨d, T.cells, T.toList.length⟩ := by
  induction d generalizing fuel with
  | zero =>
      obtain ⟨a, es, nx, rfl⟩ := T.eq_leaf
      obtain ⟨n, hn, hin⟩ := Tree.held_leaf.mp h
      have hne : n.nleafs ≠ 0 := by
        rw [hin.nleafs]
        exact (List.length_pos_iff.mpr (Tree.filled_leaf.mp hf)).ne'
      cases fuel with
      | zero => omega
      | succ fuel =>
          simp only [survey, Tree.addr_leaf, hn, Option.bind_eq_bind, Option.bind_some,
            if_pos (And.intro hin.packed hne), Tree.cells_leaf, Tree.toList_leaf]
          rw [hin.nleafs]
  | succ d ih =>
      obtain ⟨a, cs, ks, rfl⟩ := T.eq_node
      obtain ⟨n, hn, hin, hcs⟩ := Tree.held_node.mp h
      obtain ⟨hne, hfs⟩ := Tree.filled_node.mp hf
      have hcount : n.nchildren ≠ 0 := by
        rw [hin.nchildren, List.length_map]
        exact (List.length_pos_iff.mpr hne).ne'
      cases fuel with
      | zero => omega
      | succ fuel =>
          have hbelow := mapM_eq_of_forall (l := cs) (f := Tree.addr) (g := survey nodes fuel)
            (k := fun c => ⟨d, c.cells, c.toList.length⟩)
            fun c hc => ih (hcs c hc) (hfs c hc) (by omega)
          simp only [survey, Tree.addr_node, hn, Option.bind_eq_bind, Option.bind_some,
            if_pos (And.intro hin.packed.1 hcount), hin.packed.2, hbelow, Survey.join_eq hne,
            Tree.cells_node, Tree.toList_node, List.length_flatMap]

/-- **The survey of the whole tree.** -/
theorem Rooted.survey_eq {t : BTree V} {T : Tree V (d + 1)} (h : Rooted t T) :
    ∃ height, t.survey = some ⟨height, T.cells, T.toList.length⟩ := by
  obtain ⟨a, cs, ks, rfl⟩ := T.eq_node
  obtain ⟨n, hn, hin, hcs⟩ := Tree.held_node.mp h.held
  obtain ⟨root, size, nodes⟩ := t
  obtain rfl : a = root := h.addr
  have hle := cells_length_le h.held h.nodup
  rcases eq_or_ne cs [] with rfl | hne
  · refine ⟨1, ?_⟩
    simp only [BTree.survey, getInternal_eq hn, Option.bind_eq_bind, Option.bind_some,
      if_pos hin.packed.1, hin.packed.2]
    rfl
  · have hf : (Tree.node a cs ks).Filled := Tree.filled_node.mpr ⟨hne, h.filled⟩
    have hlt := lt_of_lt_of_le hf.depth_lt hle
    have hbelow := mapM_eq_of_forall (l := cs) (f := Tree.addr)
      (g := Furious.survey nodes nodes.cells.length) (k := fun c => ⟨d, c.cells, c.toList.length⟩)
      fun c hc => Furious.survey_eq (hcs c hc) (h.filled c hc) (lt_trans (Nat.lt_succ_self d) hlt)
    refine ⟨d + 1, ?_⟩
    simp only [BTree.survey, getInternal_eq hn, Option.bind_eq_bind, Option.bind_some,
      if_pos hin.packed.1, hin.packed.2, hbelow, Survey.join_eq hne, Tree.cells_node,
      Tree.toList_node, List.length_flatMap]

/-! ### The runs -/

/-- The B-trees that insertions and removals of keys that are found lead to. -/
inductive Built : BTree V → Prop
  | init : Built BTree.init
  | insert {t t' : BTree V} {ins : Inserted} (h : Built t) (key : ℕ) (value : V)
      (hcall : t.insert key value = some (t', ins)) : Built t'
  | remove {t t' : BTree V} {removed : Option V} (h : Built t) (key : ℕ) (v : V)
      (hget : t.get key = some (some v)) (hcall : t.remove key = some (t', removed)) : Built t'

/-- The B-tree is a tree of packed nodes that are not empty but for the root, all leaves
are at one depth, and the nodes are exactly the live ones of the pool. It has `n` entries. -/
def Formed (t : BTree V) (n : ℕ) : Prop :=
  ∃ s : Survey, t.survey = some s ∧ s.nodes.Nodup ∧ (∀ a, a ∈ s.nodes ↔ t.nodes.get a ≠ none)
    ∧ s.entries = n

/-- No operation meets a fault. -/
structure Faultless (t : BTree V) : Prop where
  get : ∀ key, t.get key ≠ none
  insert : ∀ key value, t.insert key value ≠ none
  remove : ∀ key v, t.get key = some (some v) → t.remove key ≠ none

lemma Rooted.formed {t : BTree V} {T : Tree V (d + 1)} (h : Rooted t T) : Formed t T.toList.length := by
  obtain ⟨height, hs⟩ := h.survey_eq
  exact ⟨_, hs, h.nodup, fun a => ⟨h.held.live a, h.exact a⟩, rfl⟩

lemma Rooted.faultless {t : BTree V} {T : Tree V (d + 1)} (h : Rooted t T) : Faultless t := by
  refine ⟨fun key => ?_, fun key value => ?_, fun key v hget => ?_⟩
  · rw [h.get_eq]
    exact Option.some_ne_none _
  · obtain ⟨d', t', T', ins, heq, -⟩ := h.insert_spec key value
    rw [heq]
    exact Option.some_ne_none _
  · rw [h.get_eq] at hget
    obtain ⟨d', t', T', heq, -⟩ := h.remove_spec (Option.some.inj hget)
    rw [heq]
    exact Option.some_ne_none _

/-- The invariant of these runs. -/
lemma Built.rooted {t : BTree V} (h : Built t) :
    ∃ (d : ℕ) (T : Tree V (d + 1)), Rooted t T ∧ t.size = T.toList.length % 2 ^ 32 := by
  induction h with
  | init =>
      obtain ⟨a, ha⟩ := Rooted.init (V := V)
      exact ⟨0, _, ha, rfl⟩
  | @insert t t' ins h key value hcall ih =>
      obtain ⟨d, T, hT, hsize⟩ := ih
      obtain ⟨d', t₁, T', ins₁, heq, hins⟩ := hT.insert_spec key value
      obtain ⟨rfl, rfl⟩ := Prod.mk.inj (Option.some.inj (heq.symm.trans hcall))
      refine ⟨d', T', hins.rooted, ?_⟩
      cases hins.outcome with
      | added hi e₁ e₂ before after size slot =>
          rw [before, List.length_append] at hsize
          rw [size, hsize, after, List.length_append, List.length_cons]
          omega
      | found hi entries size v mem slot => rw [size, hsize, entries]
  | @remove t t' removed h key v hget hcall ih =>
      obtain ⟨d, T, hT, hsize⟩ := ih
      rw [hT.get_eq] at hget
      obtain ⟨d', t₁, T', heq, hrem⟩ := hT.remove_spec (Option.some.inj hget)
      obtain ⟨rfl, rfl⟩ := Prod.mk.inj (Option.some.inj (heq.symm.trans hcall))
      refine ⟨d', T', hrem.rooted, ?_⟩
      obtain ⟨e₁, e₂, he, he'⟩ := hrem.entries
      rw [he, List.length_append, List.length_cons] at hsize
      rw [hrem.size, hsize, he', List.length_append]
      omega

/-- **Every B-tree of these runs has its shape**, no operation meets a fault, and the
counter is the number of entries, up to its overflow. -/
theorem built_formed {t : BTree V} (h : Built t) :
    ∃ n, Formed t n ∧ t.size = n % 2 ^ 32 ∧ Faultless t := by
  obtain ⟨d, T, hT, hsize⟩ := h.rooted
  exact ⟨_, hT.formed, hsize, hT.faultless⟩

/-- The runs next to a finite map are among these runs. -/
lemma Run.built {ok : BTree V → Op V → Prop} {t : BTree V} {M : KeyMap V}
    (hok : ∀ t key, ok t (.remove key) → t.thins key = false) (h : Run ok t M) : Built t := by
  induction h with
  | init => exact Built.init
  | @step t t' M h op legal hop hcall ih =>
      cases op with
      | insert key value =>
          obtain ⟨⟨t₁, ins⟩, heq, rfl⟩ := Option.map_eq_some_iff.mp hcall
          exact ih.insert key value heq
      | remove key =>
          obtain ⟨d, T, hT⟩ := h.stands hok
          obtain ⟨v, hv⟩ := Finmap.mem_iff.mp legal
          obtain ⟨⟨t₁, removed⟩, heq, rfl⟩ := Option.map_eq_some_iff.mp hcall
          exact ih.remove key v (by rw [hT.get_eq, hv]) heq

theorem built_formed_upAndDown : ∃ t : BTree ℕ, t.size = 30
    ∧ ∃ n, Formed t n ∧ t.size = n % 2 ^ 32 ∧ Faultless t := by
  obtain ⟨t, M, h, ht⟩ := Run.exists_of_map Sound (upAndDown 51 25 21) (f := fun r => r.1.size)
    (x := 30) (by decide +kernel)
  exact ⟨t, ht, built_formed (h.built fun _ _ hop => hop)⟩

/-- As many keys as one likes can be inserted. -/
lemma Run.ascending (n : ℕ) : ∃ (t : BTree ℕ) (M : KeyMap ℕ),
    Run (fun _ op => ∃ key, op = .insert key key) t M ∧ M.keys = Finset.range n := by
  induction n with
  | zero => exact ⟨BTree.init, ∅, Run.init, rfl⟩
  | succ n ih =>
      obtain ⟨t, M, h, hM⟩ := ih
      obtain ⟨d, T, hT⟩ := h.stands fun t key hop => by
        obtain ⟨k, hk⟩ := hop
        cases hk
      obtain ⟨d', t', T', ins, heq, -⟩ := hT.insert n n
      have hcall : (Op.insert n n).call t = some t' := by rw [Op.call, heq]; rfl
      have hn : n ∉ M := by
        rw [← Finmap.mem_keys, hM]
        exact Finset.notMem_range_self
      refine ⟨t', _, h.step (.insert n n) trivial ⟨n, rfl⟩ hcall, ?_⟩
      rw [Op.act, if_neg hn]
      ext k
      rw [Finmap.mem_keys, Finmap.mem_insert, ← Finmap.mem_keys, hM, Finset.mem_range,
        Finset.mem_range, Nat.lt_succ_iff_lt_or_eq, or_comm]

/-- With the keys `0` to `2 ^ 32 - 1` the counter is back at zero. -/
theorem not_built_formed :
    ¬ ∀ t : BTree ℕ, Built t → ∃ n, Formed t n ∧ t.size = n ∧ Faultless t := by
  intro hall
  have hok : ∀ (t : BTree ℕ) key, (∃ k, Op.remove key = .insert k k) → t.thins key = false := by
    rintro t key ⟨k, hk⟩
    cases hk
  obtain ⟨t, M, h, hM⟩ := Run.ascending (2 ^ 32)
  obtain ⟨n, ⟨s, hs, -, -, hn⟩, hsize, -⟩ := hall t (h.built hok)
  obtain ⟨d, T, hT⟩ := h.stands hok
  obtain ⟨height, hsurvey⟩ := hT.rooted.survey_eq
  obtain rfl := Option.some.inj (hsurvey.symm.trans hs)
  have hlen : T.toList.length = 2 ^ 32 := by
    rw [← hT.lists.card, hM, Finset.card_range]
  have hlt := h.size_lt hok
  rw [hsize, ← hn, hlen] at hlt
  exact lt_irrefl _ hlt

end Furious
