import Furious.BTree.Tree

/-!
Searching.

The search descends to the child between two neighbouring separators. It finds what
is there in any tree; in a sorted one it finds the entry if the tree has it.

* `Route`: the child that a search turns to, `Route.exists`;
* `Fits`: where a key belongs in an in-order sequence, and `Route.fits`: **the key
  belongs to the child that the search turns to**;
* `Tree.find`: what the search finds, `getNode_eq`: that `fdb_btree_get_node` does;
* `Tree.find_iff`: in a sorted tree it is the entry of the key.
-/

namespace Furious

variable {V : Type} {d : ℕ} {key : ℕ}

/-- The search for `key` turns to the child between `l` and `r`, where the keys `kl` are
on its left and `kr` on its right. -/
structure Route (key : ℕ) {T : Type} (l r : List T) (kl kr : List ℕ) : Prop where
  left : l.length = kl.length
  right : r.length = kr.length
  le : ∀ k ∈ kl, k ≤ key
  lt : ∀ k, kr.head? = some k → key < k

namespace Route

variable {T : Type} {l r : List T} {kl kr : List ℕ}

/-- In a node that has children there is such a child. -/
lemma exists_of_ne {cs : List T} {ks : List ℕ} (hlen : ks.length = cs.length - 1) (hne : cs ≠ [])
    (key : ℕ) : ∃ l c r kl kr, cs = l ++ c :: r ∧ ks = kl ++ kr ∧ Route key l r kl kr := by
  have hpos := List.length_pos_iff.mpr hne
  obtain ⟨kl, hkl⟩ : ∃ kl, ks.takeWhile (fun k => decide (k ≤ key)) = kl := ⟨_, rfl⟩
  obtain ⟨kr, hkr⟩ : ∃ kr, ks.dropWhile (fun k => decide (k ≤ key)) = kr := ⟨_, rfl⟩
  have hks : ks = kl ++ kr := by rw [← hkl, ← hkr, List.takeWhile_append_dropWhile]
  have hlt : kl.length < cs.length := by
    rw [hks, List.length_append] at hlen
    omega
  refine ⟨cs.take kl.length, cs[kl.length], cs.drop (kl.length + 1), kl, kr, ?_, hks, ?_, ?_, ?_, ?_⟩
  · rw [← List.drop_eq_getElem_cons hlt, List.take_append_drop]
  · simp [hlt.le]
  · rw [hks, List.length_append] at hlen
    rw [List.length_drop]
    omega
  · intro k hk
    rw [← hkl] at hk
    simpa using List.all_eq_true.mp List.all_takeWhile k hk
  · intro k hk
    rw [← hkr] at hk
    have := List.head?_dropWhile_not (fun k => decide (k ≤ key)) ks
    rw [hk] at this
    simpa using this

/-- The keys on the left are those the loop passes. -/
lemma takeWhile_eq (h : Route key l r kl kr) :
    ((kl ++ kr).takeWhile fun k => k ≤ key) = kl := by
  rw [List.takeWhile_append_of_pos fun k hk => by simpa using h.le k hk]
  cases kr with
  | nil => simp
  | cons k kr =>
      have := h.lt k rfl
      rw [List.takeWhile_cons_of_neg (by simpa using this), List.append_nil]

/-- `fdb_btree_next_internal` finds the child. -/
lemma next_eq {n : InternalNode} {l r : List ℕ} {c : ℕ} (h : Route key l r kl kr)
    (hn : IsInternal n (l ++ c :: r) (kl ++ kr)) : n.next key = l.length := by
  obtain ⟨c', cs, hcs⟩ : ∃ c' cs, l ++ c :: r = c' :: cs := by
    cases l with
    | nil => exact ⟨_, _, rfl⟩
    | cons x l => exact ⟨_, _, rfl⟩
  rw [hcs] at hn
  rw [hn.next_eq, h.takeWhile_eq, h.left]

lemma map {T' : Type} (h : Route key l r kl kr) (f : T → T') :
    Route key (l.map f) (r.map f) kl kr where
  left := by simpa using h.left
  right := by simpa using h.right
  le := h.le
  lt := h.lt

end Route

/-! ### Where a key belongs -/

/-- An item that may stand on the left of the key. -/
def Item.Below (key : ℕ) : Item ℕ V → Prop
  | .sep k => k ≤ key
  | .entry k _ => k < key

/-- An item that may stand on the right of the key. -/
def Item.Above (key : ℕ) : Item ℕ V → Prop
  | .sep k => key < k
  | .entry k _ => key < k

@[simp] lemma Item.below_sep {k : ℕ} : (Item.sep k : Item ℕ V).Below key ↔ k ≤ key := Iff.rfl

@[simp] lemma Item.below_entry {k : ℕ} {v : V} : (Item.entry k v).Below key ↔ k < key := Iff.rfl

@[simp] lemma Item.above_sep {k : ℕ} : (Item.sep k : Item ℕ V).Above key ↔ key < k := Iff.rfl

@[simp] lemma Item.above_entry {k : ℕ} {v : V} : (Item.entry k v).Above key ↔ key < k := Iff.rfl

/-- What comes before an item that is not above the key is below it. -/
lemma Item.Before.below {x : Item ℕ V} {k : ℕ} (h : x.Before (.sep k)) (hk : k ≤ key) :
    x.Below key := by
  cases x with
  | sep j => exact le_trans h hk
  | entry j v => exact lt_of_lt_of_le h hk

/-- What comes after a separator that is above the key is above it. -/
lemma Item.Before.above {x : Item ℕ V} {k : ℕ} (h : (Item.sep k : Item ℕ V).Before x) (hk : key < k) :
    x.Above key := by
  cases x with
  | sep j => exact lt_of_lt_of_le hk h
  | entry j v => exact lt_of_lt_of_le hk h

/-- The key belongs between `A` and `B`. -/
structure Fits (key : ℕ) (A B : List (Item ℕ V)) : Prop where
  below : ∀ x ∈ A, x.Below key
  above : ∀ x ∈ B, x.Above key

lemma Fits.nil : Fits key ([] : List (Item ℕ V)) [] where
  below _ h := absurd h List.not_mem_nil
  above _ h := absurd h List.not_mem_nil

/-- An entry of the key may be put where the key belongs. -/
lemma Fits.inorder {A B : List (Item ℕ V)} (h : Fits key A B) (hs : Inorder (A ++ B)) (v : V) :
    Inorder (A ++ .entry key v :: B) := by
  have hs' : Inorder (A ++ [] ++ B) := by simpa using hs
  have hA : ∀ x ∈ A, ∀ y ∈ [Item.entry key v], x.Before y := by
    intro x hx y hy
    rw [List.mem_singleton.mp hy]
    have hb := h.below x hx
    cases x with
    | sep k => exact hb
    | entry k w => exact hb
  have hB : ∀ x ∈ [Item.entry key v], ∀ y ∈ B, x.Before y := by
    intro x hx y hy
    rw [List.mem_singleton.mp hx]
    have ha := h.above y hy
    cases y with
    | sep k => exact ha
    | entry k w => exact ha
  simpa using hs'.mid (List.pairwise_singleton _ _) hA hB

/-- The entries on either side are of other keys. -/
lemma Fits.not_mem {A B : List (Item ℕ V)} (h : Fits key A B) (v : V) :
    (key, v) ∉ entriesOf A ∧ (key, v) ∉ entriesOf B := by
  refine ⟨fun hv => ?_, fun hv => ?_⟩
  · exact lt_irrefl key (h.below _ (mem_entriesOf.mp hv))
  · exact lt_irrefl key (h.above _ (mem_entriesOf.mp hv))

/-- What a node holds on the left of a child. -/
def leftOf (l : List (Tree V d)) (kl : List ℕ) : List (Item ℕ V) := interleave (l.map Tree.flat) kl

/-- What a node holds on the right of a child. -/
def rightOf (r : List (Tree V d)) (kr : List ℕ) : List (Item ℕ V) := after (r.map Tree.flat) kr

/-- The sequence of a node around one of its children. -/
lemma flat_mid {a : ℕ} {l r : List (Tree V d)} {kl kr : List ℕ} (h : l.length = kl.length)
    (c : Tree V d) :
    (Tree.node a (l ++ c :: r) (kl ++ kr)).flat = leftOf l kl ++ c.flat ++ rightOf r kr := by
  rw [Tree.flat_node, List.map_append, List.map_cons, interleave_append (by simpa using h),
    interleave_cons, List.append_assoc]
  rfl

/-- The last item on the left is the key next to the child. -/
lemma leftOf_append_singleton {l : List (Tree V d)} {kl : List ℕ} (h : l.length = kl.length)
    (c : Tree V d) (k : ℕ) : leftOf (l ++ [c]) (kl ++ [k]) = leftOf l kl ++ c.flat ++ [.sep k] := by
  rw [leftOf, List.map_append, interleave_append (by simpa using h)]
  simp [leftOf]

lemma rightOf_cons (c : Tree V d) (r : List (Tree V d)) (k : ℕ) (kr : List ℕ) :
    rightOf (c :: r) (k :: kr) = .sep k :: c.flat ++ rightOf r kr := by
  simp [rightOf]

namespace Route

variable {l r : List (Tree V d)} {kl kr : List ℕ} {A B : List (Item ℕ V)}

/-- **The key belongs to the child** that the search turns to. -/
theorem fits (h : Route key l r kl kr) {c : Tree V d}
    (hs : Inorder (A ++ (leftOf l kl ++ c.flat ++ rightOf r kr) ++ B)) (hf : Fits key A B) :
    Fits key (A ++ leftOf l kl) (rightOf r kr ++ B) where
  below x hx := by
    rcases List.mem_append.mp hx with hx | hx
    · exact hf.below x hx
    · rcases List.eq_nil_or_concat kl with rfl | ⟨kl', k, rfl⟩
      · obtain rfl := List.length_eq_zero_iff.mp h.left
        simp [leftOf] at hx
      · rcases List.eq_nil_or_concat l with rfl | ⟨l', c', rfl⟩
        · have := h.left
          simp at this
        · have hlen := h.left
          simp only [List.concat_eq_append, List.length_append, List.length_singleton,
            Nat.add_right_cancel_iff] at hlen hx hs
          rw [leftOf_append_singleton hlen] at hx hs
          have hsub : Inorder ((leftOf l' kl' ++ c'.flat) ++ [Item.sep k]) := by
            refine hs.sublist ?_
            simp only [List.append_assoc]
            refine (List.Sublist.refl _).trans ?_
            rw [← List.append_assoc, ← List.append_assoc, ← List.append_assoc, ← List.append_assoc]
            refine List.IsInfix.sublist ⟨A, c.flat ++ rightOf r kr ++ B, ?_⟩
            simp [List.append_assoc]
          have hk : k ≤ key := h.le k (by simp)
          rcases List.mem_append.mp hx with hx' | hx'
          · exact ((Inorder.append_iff.mp hsub).2.2 x hx' _ List.mem_cons_self).below hk
          · rw [List.mem_singleton.mp hx']
            exact hk
  above x hx := by
    rcases List.mem_append.mp hx with hx | hx
    · cases kr with
      | nil =>
          obtain rfl := List.length_eq_zero_iff.mp h.right
          simp [rightOf] at hx
      | cons k kr =>
          cases r with
          | nil =>
              have := h.right
              simp at this
          | cons c' r =>
              have hk : key < k := h.lt k rfl
              rw [rightOf_cons] at hx hs
              rcases List.mem_cons.mp hx with rfl | hx'
              · exact hk
              · have hsub : Inorder (Item.sep k :: (c'.flat ++ rightOf r kr)) := by
                  refine hs.sublist (List.IsInfix.sublist ⟨A ++ (leftOf l kl ++ c.flat), B, ?_⟩)
                  simp [List.append_assoc]
                exact ((List.pairwise_cons.mp hsub).1 x hx').above hk
    · exact hf.above x hx

end Route

/-! ### What a search finds -/

/-- The entries of a leaf around the place that `fdb_btree_next_leaf` finds. -/
lemma exists_place (es : List (ℕ × V)) (key : ℕ) : ∃ l r, es = l ++ r
    ∧ (es.takeWhile fun e => e.1 < key) = l ∧ (es.dropWhile fun e => e.1 < key) = r
    ∧ (∀ e ∈ l, e.1 < key) ∧ ∀ e, r.head? = some e → key ≤ e.1 := by
  refine ⟨_, _, List.takeWhile_append_dropWhile.symm, rfl, rfl, fun e he => ?_, fun e he => ?_⟩
  · simpa using List.all_eq_true.mp List.all_takeWhile e he
  · have := List.head?_dropWhile_not (fun e : ℕ × V => decide (e.1 < key)) es
    rw [he] at this
    simpa using this

/-- The search among the entries of a leaf. -/
def findEntry (key : ℕ) (es : List (ℕ × V)) : Option V :=
  match es.dropWhile fun e => e.1 < key with
  | e :: _ => if e.1 = key then some e.2 else none
  | [] => none

/-- What the search finds. -/
def Tree.find (key : ℕ) : {d : ℕ} → Tree V d → Option V
  | 0, t => findEntry key (Leaf.entries t)
  | _ + 1, t =>
      match (Inner.children t)[((Inner.keys t).takeWhile fun k => k ≤ key).length]? with
      | some c => find key c
      | none => none

@[simp] lemma Tree.find_leaf (a : ℕ) (es : List (ℕ × V)) (nx : Option ℕ) :
    (Tree.leaf a es nx).find key = findEntry key es := rfl

lemma Tree.find_node {a : ℕ} {l r : List (Tree V d)} {c : Tree V d} {kl kr : List ℕ}
    (h : Route key l r kl kr) : (Tree.node a (l ++ c :: r) (kl ++ kr)).find key = c.find key := by
  show (match (l ++ c :: r)[((kl ++ kr).takeWhile fun k => k ≤ key).length]? with
    | some c => Tree.find key c
    | none => none) = _
  rw [h.takeWhile_eq, ← h.left]
  simp

lemma Tree.find_nil (a : ℕ) (ks : List ℕ) : (Tree.node a ([] : List (Tree V d)) ks).find key = none :=
  rfl

/-- `fdb_btree_get_node` in an internal node. -/
lemma getNode_internal {nodes : Pool (Node V)} {a : ℕ} {n : InternalNode} (key fuel : ℕ)
    (h : nodes.get a = some (.internal n)) : getNode nodes key (fuel + 1) a
      = n.children[n.next key]?.join.elim (some none) (getNode nodes key fuel) := by
  simp only [getNode, h, Option.bind_eq_bind, Option.bind_some]
  cases n.children[n.next key]?.join <;> rfl

/-- `fdb_btree_get_node` in a leaf. -/
lemma getNode_leaf {nodes : Pool (Node V)} {a : ℕ} {n : LeafNode V} (key fuel : ℕ)
    (h : nodes.get a = some (.leaf n)) : getNode nodes key (fuel + 1) a
      = some (n.leafs[n.nextPos key]?.join.bind fun v =>
        n.keys[n.nextPos key]?.bind fun k => if k = key then some v else none) := by
  simp only [getNode, h, Option.bind_eq_bind, Option.bind_some]
  cases n.leafs[n.nextPos key]?.join with
  | none => rfl
  | some v => cases n.keys[n.nextPos key]? <;> rfl

/-- **`fdb_btree_get_node`** finds it. -/
theorem getNode_eq {nodes : Pool (Node V)} {t : Tree V d} {fuel : ℕ} (h : t.Held nodes.get)
    (hfuel : d < fuel) : getNode nodes key fuel t.addr = some (t.find key) := by
  induction d generalizing fuel with
  | zero =>
      obtain ⟨a, es, nx, rfl⟩ := t.eq_leaf
      obtain ⟨n, hn, hleaf⟩ := Tree.held_leaf.mp h
      cases fuel with
      | zero => omega
      | succ fuel =>
          obtain ⟨l, r, rfl, htake, hdrop, -, -⟩ := exists_place es key
          have hpos : n.nextPos key = l.length := by rw [hleaf.nextPos_eq, htake]
          rw [Tree.addr_leaf, getNode_leaf key fuel hn, Tree.find_leaf, findEntry, hdrop, hpos, hleaf.slot]
          cases r with
          | nil => simp
          | cons e r =>
              rw [hleaf.key_mid]
              simp
  | succ d ih =>
      obtain ⟨a, cs, ks, rfl⟩ := t.eq_node
      obtain ⟨n, hn, hin, hcs⟩ := Tree.held_node.mp h
      cases fuel with
      | zero => omega
      | succ fuel =>
          rw [Tree.addr_node, getNode_internal key fuel hn]
          rcases eq_or_ne cs [] with rfl | hne
          · rw [hin.next_nil, hin.slot]
            rfl
          · obtain ⟨l, c, r, kl, kr, rfl, rfl, hr⟩ :=
              Route.exists_of_ne (by simpa using hin.length_keys) hne key
            rw [List.map_append, List.map_cons] at hin
            rw [(hr.map Tree.addr).next_eq hin, hin.slot_mid, Tree.find_node hr]
            exact ih (hcs c (by simp)) (by omega)

/-- In a sorted leaf the search finds the entry. -/
lemma findEntry_iff {es : List (ℕ × V)} (hs : es.Pairwise fun e f => e.1 < f.1) (v : V) :
    findEntry key es = some v ↔ (key, v) ∈ es := by
  obtain ⟨l, r, rfl, -, hdrop, hl, hr⟩ := exists_place es key
  rw [findEntry, hdrop]
  have hnl : (key, v) ∉ l := fun hv => lt_irrefl key (hl _ hv)
  cases r with
  | nil => simpa using hnl
  | cons e r =>
      obtain ⟨-, hr', -⟩ := List.pairwise_append.mp hs
      have hlt := (List.pairwise_cons.mp hr').1
      have hle := hr e rfl
      have hnr : (key, v) ∉ r := fun hv => absurd (hlt _ hv) (not_lt.mpr hle)
      by_cases he : e.1 = key
      · simp only [he, if_true, Option.some.injEq, List.mem_append, hnl, List.mem_cons, hnr,
          or_false, false_or, Prod.ext_iff, true_and]
        exact eq_comm
      · have : (key, v) ≠ e := fun h' => he (by rw [← h'])
        simp [he, hnl, hnr, this]

/-- **In a sorted tree** the search finds the entry of the key. -/
theorem Tree.find_iff {t : Tree V d} {A B : List (Item ℕ V)} {m : ℕ → Option (Node V)}
    (h : t.Held m) (hs : Inorder (A ++ t.flat ++ B)) (hf : Fits key A B) (v : V) :
    t.find key = some v ↔ (key, v) ∈ t.toList := by
  induction d generalizing A B with
  | zero =>
      obtain ⟨a, es, nx, rfl⟩ := t.eq_leaf
      rw [Tree.find_leaf, Tree.toList_leaf]
      have : Inorder (Tree.leaf a es nx).flat := hs.sublist (List.IsInfix.sublist ⟨A, B, rfl⟩)
      have := this.entries
      rw [show entriesOf (Tree.leaf a es nx).flat = es from Tree.toList_leaf] at this
      exact findEntry_iff this v
  | succ d ih =>
      obtain ⟨a, cs, ks, rfl⟩ := t.eq_node
      obtain ⟨n, -, hin, hcs⟩ := Tree.held_node.mp h
      rcases eq_or_ne cs [] with rfl | hne
      · rw [Tree.find_nil]
        simp
      · obtain ⟨l, c, r, kl, kr, rfl, rfl, hr⟩ :=
          Route.exists_of_ne (by simpa using hin.length_keys) hne key
        rw [flat_mid hr.left] at hs
        have hfc := hr.fits hs hf
        obtain ⟨hA, hB⟩ := hfc.not_mem v
        rw [entriesOf_append, List.mem_append, not_or] at hA hB
        rw [Tree.find_node hr, ih (hcs c (by simp)) (A := A ++ leftOf l kl) (by simpa using hs) hfc,
          Tree.toList, Tree.toList, flat_mid hr.left, entriesOf_append, entriesOf_append]
        simp [hA.2, hB.1]

end Furious
