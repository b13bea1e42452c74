import Furious.BTree.Btree

/-!
The arrays of a node.

The first slots of the arrays of a node hold its children, keys or entries; the
slots for pointers behind them are null, those for keys hold anything.

* `IsInternal`, `IsLeaf`: the arrays against the lists they stand for;
* `IsInternal.next_eq`, `IsLeaf.nextPos_eq`: what the searches find;
* one lemma for each change of the arrays of a node.
-/

namespace Furious

variable {V : Type}

/-- An internal node with the children `cs` and the keys `ks`. -/
structure IsInternal (n : InternalNode) (cs ks : List ℕ) : Prop where
  children : Padded internalMaxArity none (cs.map some) n.children
  keys : Prefixed (internalMaxArity - 1) ks n.keys
  nchildren : n.nchildren = cs.length
  length_keys : ks.length = cs.length - 1

/-- A leaf with the entries `es`, linked to `next`. -/
structure IsLeaf (n : LeafNode V) (es : List (ℕ × V)) (next : Option ℕ) : Prop where
  leafs : Padded leafMaxArity none (es.map fun e => some e.2) n.leafs
  keys : Prefixed leafMaxArity (es.map Prod.fst) n.keys
  next : n.next = next
  nleafs : n.nleafs = es.length

/-! ### The searches -/

lemma nextChild_eq {key : ℕ} {cs ks junk : List ℕ} {m : ℕ} (h : cs.length = ks.length) :
    nextChild key (cs.map some ++ List.replicate m none) (ks ++ junk)
      = (ks.takeWhile fun k => k ≤ key).length := by
  induction cs generalizing ks with
  | nil =>
      obtain rfl := List.length_eq_zero_iff.mp h.symm
      cases m <;> rfl
  | cons c cs ih =>
      cases ks with
      | nil => simp at h
      | cons k ks =>
          have ih' := @ih ks (by simpa using h)
          by_cases hk : k ≤ key
          · simp [nextChild, ih', hk]
          · simp [nextChild, hk]

lemma nextSlot_eq {key : ℕ} {es : List (ℕ × V)} {junk : List ℕ} {m : ℕ} :
    nextSlot key ((es.map fun e => some e.2) ++ List.replicate m none) (es.map Prod.fst ++ junk)
      = (es.takeWhile fun e => e.1 < key).length := by
  induction es with
  | nil => cases m <;> rfl
  | cons e es ih =>
      by_cases he : e.1 < key
      · simp [nextSlot, ih, he]
      · simp [nextSlot, he]

namespace IsInternal

variable {n : InternalNode} {cs l r ks kl kr : List ℕ} {c k : ℕ}

lemma length_le (h : IsInternal n cs ks) : cs.length ≤ internalMaxArity := by
  simpa using h.children.prefixed.length_le

/-- A slot of the children. -/
lemma slot (h : IsInternal n cs ks) (i : ℕ) : n.children[i]?.join = cs[i]? := by
  rw [h.children.join]
  by_cases hi : i < cs.length
  · simp [hi]
  · simp [List.getElem?_eq_none (not_lt.mp hi)]

/-- The child behind `l`. -/
lemma slot_mid (h : IsInternal n (l ++ c :: r) ks) : n.children[l.length]? = some (some c) := by
  have := h.children.prefixed
  rw [List.map_append, List.map_cons] at this
  simpa using this.mid

/-- The key behind `kl`. -/
lemma key_mid (h : IsInternal n cs (kl ++ k :: kr)) : n.keys[kl.length]? = some k :=
  h.keys.mid

/-- The first slot for keys can be read. -/
lemma key_zero (h : IsInternal n cs ks) :
    ∃ k, n.keys[0]? = some k ∧ ∀ k', ks.head? = some k' → k = k' := by
  have hlt : 0 < n.keys.length := by rw [h.keys.2]; decide
  refine ⟨n.keys[0], List.getElem?_eq_getElem hlt, fun k' hk' => ?_⟩
  cases ks with
  | nil => simp at hk'
  | cons k ks =>
      obtain rfl := Option.some.inj hk'
      have : n.keys[0]? = some k := h.keys.mid (l := [])
      rw [List.getElem?_eq_getElem hlt] at this
      exact Option.some.inj this

/-- **The search** in a node that has children. -/
theorem next_eq (h : IsInternal n (c :: cs) ks) (key : ℕ) :
    n.next key = (ks.takeWhile fun k => k ≤ key).length := by
  obtain ⟨⟨junk, hk⟩, -⟩ := h.keys
  obtain ⟨m, hm, -⟩ := h.children
  rw [InternalNode.next, ← hk, hm, List.map_cons, List.cons_append, List.tail_cons]
  exact nextChild_eq (by simpa using h.length_keys.symm)

/-- The search in a node without children. -/
lemma next_nil (h : IsInternal n [] ks) (key : ℕ) : n.next key = 0 := by
  rw [InternalNode.next, Padded.eq_replicate h.children]
  rfl

/-! ### Changes of an internal node -/

/-- A new node. -/
lemma create : IsInternal
    ⟨List.replicate internalMaxArity none, List.replicate (internalMaxArity - 1) 0, 0⟩ [] [] where
  children := Padded.nil _ _
  keys := ⟨List.nil_prefix, rfl⟩
  nchildren := rfl
  length_keys := rfl

/-- The first child. -/
lemma first (h : IsInternal n [] []) (c : ℕ) :
    IsInternal ⟨n.children.set 0 (some c), n.keys, n.nchildren + 1⟩ [c] [] where
  children := by
    rw [Padded.eq_replicate h.children]
    exact ⟨9, rfl, rfl⟩
  keys := h.keys
  nchildren := by rw [h.nchildren]; rfl
  length_keys := rfl

/-- A new root above two nodes. -/
lemma root (c c' k : ℕ) : IsInternal
    ⟨((List.replicate internalMaxArity none).set 0 (some c)).set 1 (some c'),
      (List.replicate (internalMaxArity - 1) 0).set 0 k, 2⟩ [c, c'] [k] where
  children := ⟨8, rfl, rfl⟩
  keys := ⟨⟨_, rfl⟩, rfl⟩
  nchildren := rfl
  length_keys := rfl

/-- Another key. -/
lemma set_key (h : IsInternal n cs (kl ++ k :: kr)) (m : ℕ) :
    IsInternal { n with keys := n.keys.set kl.length m } cs (kl ++ m :: kr) where
  children := h.children
  keys := h.keys.set m
  nchildren := h.nchildren
  length_keys := by simpa using h.length_keys

/-- `fdb_btree_shift_insert_internal`, for the child on the right of the one behind
`l`. -/
lemma shiftInsert (h : IsInternal n (l ++ c :: r) (kl ++ kr)) (hl : l.length = kl.length)
    (hlt : (l ++ c :: r).length < internalMaxArity) (c' k : ℕ) :
    IsInternal (n.shiftInsert (l.length + 1) c' k) (l ++ c :: c' :: r) (kl ++ k :: kr) := by
  have hkeys := h.length_keys
  simp only [List.length_append, List.length_cons] at hlt hkeys
  refine ⟨?_, ?_, ?_, ?_⟩
  · have hc : Padded internalMaxArity none ((l ++ [c]).map some ++ r.map some) n.children := by
      simpa using h.children
    have := hc.insert (by simpa using hlt) (some c')
    simpa [InternalNode.shiftInsert] using this
  · have := h.keys.insert (by simp only [List.length_append]; omega) k
    simpa [InternalNode.shiftInsert, hl] using this
  · simp [InternalNode.shiftInsert, h.nchildren]
    omega
  · simp only [List.length_append, List.length_cons]
    omega

/-- `fdb_btree_remove_shift_internal` for the child behind `l`. -/
lemma removeShift (h : IsInternal n (l ++ c :: r) ks) (ks' : List ℕ)
    (hks : Prefixed (internalMaxArity - 1) ks' (n.removeShift l.length).keys)
    (hlen : ks'.length = (l ++ r).length - 1) :
    IsInternal (n.removeShift l.length) (l ++ r) ks' where
  children := by
    have hc := h.children
    rw [List.map_append, List.map_cons] at hc
    have := hc.erase
    simpa [InternalNode.removeShift, h.nchildren] using this
  keys := hks
  nchildren := by simp [InternalNode.removeShift, h.nchildren]
  length_keys := hlen

/-- Without its only child. -/
lemma removeShift_only (h : IsInternal n [c] ks) : IsInternal (n.removeShift 0) [] [] := by
  have hlen := h.keys.2
  refine h.removeShift (l := []) (r := []) [] ⟨List.nil_prefix, ?_⟩ rfl
  change (n.keys.eraseIdx 0 ++ n.keys.drop (internalMaxArity - 2)).length = internalMaxArity - 1
  rw [List.length_append, List.length_eraseIdx_of_lt (by rw [hlen]; decide), List.length_drop, hlen]
  rfl

/-- Without its first child: the first key goes. -/
lemma removeShift_first (h : IsInternal n (c :: r) (k :: kr)) : IsInternal (n.removeShift 0) r kr :=
  h.removeShift (l := []) kr (h.keys.erase (l := []))
    (by have := h.length_keys; simp only [List.length_cons, List.nil_append] at this ⊢; omega)

/-- Without another child: the key on its left goes. -/
lemma removeShift_mid (h : IsInternal n (l ++ c :: r) (kl ++ k :: kr))
    (hl : l.length = kl.length + 1) : IsInternal (n.removeShift l.length) (l ++ r) (kl ++ kr) := by
  have hlen := h.length_keys
  refine h.removeShift (kl ++ kr) ?_ ?_
  · rw [InternalNode.removeShift, if_neg (by omega), hl, Nat.add_sub_cancel]
    exact h.keys.erase
  · simp only [List.length_append, List.length_cons] at hlen ⊢
    omega

/-- The lower half of a full node. -/
lemma lower (h : IsInternal n (l ++ r) (kl ++ k :: kr)) (hl : l.length = internalMinArity)
    (hkl : kl.length = internalMinArity - 1) (hr : r.length = internalMaxArity - internalMinArity) :
    IsInternal
      { children := n.children.take internalMinArity
          ++ List.replicate (internalMaxArity - internalMinArity) none
        keys := n.keys.take (internalMinArity - 1)
          ++ List.replicate (internalMaxArity - internalMinArity) 0
        nchildren := n.nchildren - (internalMaxArity - internalMinArity) } l kl where
  children := by
    have hc := h.children
    rw [List.map_append] at hc
    exact hc.take (by simpa using hl)
  keys := h.keys.take hkl rfl
  nchildren := by rw [h.nchildren, List.length_append, hr, Nat.add_sub_cancel]
  length_keys := by rw [hkl, hl]

/-- The upper half of a full node. -/
lemma upper (h : IsInternal n (l ++ r) (kl ++ k :: kr)) (hl : l.length = internalMinArity)
    (hkl : kl.length = internalMinArity - 1) (hr : r.length = internalMaxArity - internalMinArity) :
    IsInternal
      { children := n.children.drop internalMinArity ++ List.replicate internalMinArity none
        keys := n.keys.drop internalMinArity ++ List.replicate internalMinArity 0
        nchildren := internalMaxArity - internalMinArity } r kr where
  children := by
    have hc := h.children
    rw [List.map_append] at hc
    exact hc.drop (by simpa using hl)
  keys := by
    have hk : Prefixed (internalMaxArity - 1) ((kl ++ [k]) ++ kr) n.keys := by simpa using h.keys
    exact hk.drop (by rw [List.length_append, hkl]; rfl) rfl
  nchildren := hr.symm
  length_keys := by
    have := h.length_keys
    rw [List.length_append, List.length_append, List.length_cons, hl, hkl, hr] at this
    rw [hr]
    simp only [internalMinArity, internalMaxArity] at this ⊢
    omega

/-- Two neighbours in one node: with the key between them, or if the right one has
only one child, with whatever the slot behind the keys of the left one holds. -/
lemma merge {n' : InternalNode} (h : IsInternal n l kl) (h' : IsInternal n' r kr)
    (hl : l ≠ []) (hr : r ≠ []) (hle : (l ++ r).length ≤ internalMaxArity) (k : ℕ) :
    ∃ ks, IsInternal
      { children := overwrite n.children n.nchildren (n'.children.take n'.nchildren)
        keys := if n'.nchildren > 1 then
            overwrite n.keys (n.nchildren - 1) (k :: n'.keys.take (n'.nchildren - 1))
          else n.keys
        nchildren := n.nchildren + n'.nchildren } (l ++ r) ks
      ∧ ks.length = (l ++ r).length - 1 ∧ (r.length ≠ 1 → ks = kl ++ k :: kr) := by
  have hlpos := List.length_pos_iff.mpr hl
  have hrpos := List.length_pos_iff.mpr hr
  have hkl := h.length_keys
  have hkr := h'.length_keys
  have htake : n'.children.take n'.nchildren = r.map some := by
    simpa [h'.nchildren] using h'.children.prefixed.take_eq
  have hchildren : Padded internalMaxArity none ((l ++ r).map some)
      (overwrite n.children n.nchildren (n'.children.take n'.nchildren)) := by
    rw [htake, List.map_append]
    simpa [h.nchildren] using h.children.overwrite (r.map some) (by simpa using hle)
  have hnum : n.nchildren + n'.nchildren = (l ++ r).length := by
    rw [h.nchildren, h'.nchildren, List.length_append]
  rw [List.length_append] at hle
  by_cases hthin : n'.nchildren > 1
  · have hlen : (kl ++ k :: kr).length = (l ++ r).length - 1 := by
      simp only [List.length_append, List.length_cons]
      rw [h'.nchildren] at hthin
      omega
    refine ⟨kl ++ k :: kr, ⟨hchildren, ?_, hnum, hlen⟩, hlen, fun _ => rfl⟩
    rw [if_pos hthin, h'.nchildren, ← hkr, h'.keys.take_eq, h.nchildren, ← hkl]
    refine h.keys.overwrite _ ?_
    rw [hlen, List.length_append]
    omega
  · rw [h'.nchildren] at hthin
    obtain ⟨⟨junk, hjunk⟩, hlen⟩ := h.keys
    rw [← hjunk, List.length_append] at hlen
    cases junk with
    | nil =>
        rw [List.length_nil] at hlen
        simp only [internalMaxArity] at hle hlen
        omega
    | cons j junk =>
        have hlen' : (kl ++ [j]).length = (l ++ r).length - 1 := by
          simp only [List.length_append, List.length_singleton]
          omega
        refine ⟨kl ++ [j], ⟨hchildren, ?_, hnum, hlen'⟩, hlen', fun hne => by omega⟩
        rw [if_neg (by rw [h'.nchildren]; exact hthin)]
        refine ⟨⟨junk, by rw [← hjunk]; simp⟩, ?_⟩
        rw [← hjunk, List.length_append, hlen]

end IsInternal

namespace IsLeaf

variable {n : LeafNode V} {es l r : List (ℕ × V)} {next : Option ℕ} {e : ℕ × V}

lemma length_le (h : IsLeaf n es next) : es.length ≤ leafMaxArity := by
  simpa using h.leafs.prefixed.length_le

/-- **The search** in a leaf. -/
theorem nextPos_eq (h : IsLeaf n es next) (key : ℕ) :
    n.nextPos key = (es.takeWhile fun e => e.1 < key).length := by
  obtain ⟨⟨junk, hk⟩, -⟩ := h.keys
  obtain ⟨m, hm, -⟩ := h.leafs
  rw [LeafNode.nextPos, ← hk, hm]
  exact nextSlot_eq

/-- The key behind `l`. -/
lemma key_mid (h : IsLeaf n (l ++ e :: r) next) : n.keys[l.length]? = some e.1 := by
  have := h.keys
  rw [List.map_append, List.map_cons] at this
  simpa using this.mid

/-- The pointer behind `l`. -/
lemma value_mid (h : IsLeaf n (l ++ e :: r) next) : n.leafs[l.length]? = some (some e.2) := by
  have := h.leafs.prefixed
  rw [List.map_append, List.map_cons] at this
  simpa using this.mid

/-- A slot of the pointers. -/
lemma slot (h : IsLeaf n es next) (i : ℕ) : n.leafs[i]?.join = es[i]?.map Prod.snd := by
  rw [h.leafs.join]
  by_cases hi : i < es.length
  · simp [hi]
  · simp [List.getElem?_eq_none (not_lt.mp hi)]

/-- A slot of the keys that is inside the array. -/
lemma key_some (h : IsLeaf n es next) {i : ℕ} (hi : i < leafMaxArity) :
    ∃ k, n.keys[i]? = some k :=
  ⟨_, List.getElem?_eq_getElem (by rw [h.keys.2]; exact hi)⟩

/-- A slot of the pointers that is inside the array. -/
lemma value_some (h : IsLeaf n es next) {i : ℕ} (hi : i < leafMaxArity) :
    n.leafs[i]? = some (es[i]?.map Prod.snd) := by
  have hslot := h.slot i
  have hlt : i < n.leafs.length := by rw [h.leafs.prefixed.2]; exact hi
  rw [List.getElem?_eq_getElem hlt] at hslot ⊢
  simpa using hslot

/-! ### Changes of a leaf -/

/-- A new leaf. -/
lemma create : IsLeaf (V := V)
    ⟨List.replicate leafMaxArity none, List.replicate leafMaxArity 0, none, 0⟩ [] none where
  leafs := Padded.nil _ _
  keys := ⟨List.nil_prefix, rfl⟩
  next := rfl
  nleafs := rfl

/-- Another link. -/
lemma link (h : IsLeaf n es next) (next' : Option ℕ) :
    IsLeaf { n with next := next' } es next' where
  leafs := h.leafs
  keys := h.keys
  next := rfl
  nleafs := h.nleafs

/-- `fdb_btree_shift_insert_leaf` and the assignment of the pointer. -/
lemma shiftInsert (h : IsLeaf n (l ++ r) next) (hlt : (l ++ r).length < leafMaxArity) (key : ℕ)
    (value : V) :
    IsLeaf { n.shiftInsert l.length key with
        leafs := (n.shiftInsert l.length key).leafs.set l.length (some value) }
      (l ++ (key, value) :: r) next where
  leafs := by
    have hl := h.leafs
    rw [List.map_append] at hl
    have := (hl.insert (by simpa using hlt) none).set (some value)
    simpa [LeafNode.shiftInsert] using this
  keys := by
    have hk := h.keys
    rw [List.map_append] at hk
    have := hk.insert (by simpa using hlt) key
    simpa [LeafNode.shiftInsert] using this
  next := h.next
  nleafs := by simp [LeafNode.shiftInsert, h.nleafs]; omega

/-- `fdb_btree_remove_shift_leaf`. -/
lemma removeShift (h : IsLeaf n (l ++ e :: r) next) :
    IsLeaf (n.removeShift l.length) (l ++ r) next where
  leafs := by
    have hl := h.leafs
    rw [List.map_append, List.map_cons] at hl
    have := hl.erase
    simpa [LeafNode.removeShift, h.nleafs] using this
  keys := by
    have hk := h.keys
    rw [List.map_append, List.map_cons] at hk
    have := hk.erase
    simpa [LeafNode.removeShift] using this
  next := h.next
  nleafs := by simp [LeafNode.removeShift, h.nleafs]

/-- The lower half of a full leaf. -/
lemma lower (h : IsLeaf n (l ++ r) next) (hl : l.length = leafMinArity)
    (hr : r.length = leafMaxArity - leafMinArity) :
    IsLeaf
      { leafs := n.leafs.take leafMinArity ++ List.replicate (leafMaxArity - leafMinArity) none
        keys := n.keys.take leafMinArity ++ List.replicate (leafMaxArity - leafMinArity) 0
        next := n.next
        nleafs := n.nleafs - (leafMaxArity - leafMinArity) } l next where
  leafs := by
    have h' := h.leafs
    rw [List.map_append] at h'
    exact h'.take (by simpa using hl)
  keys := by
    have h' := h.keys
    rw [List.map_append] at h'
    exact h'.take (by simpa using hl) rfl
  next := h.next
  nleafs := by rw [h.nleafs, List.length_append, hr, Nat.add_sub_cancel]

/-- The upper half of a full leaf. -/
lemma upper (h : IsLeaf n (l ++ r) next) (hl : l.length = leafMinArity)
    (hr : r.length = leafMaxArity - leafMinArity) :
    IsLeaf
      { leafs := n.leafs.drop leafMinArity ++ List.replicate leafMinArity none
        keys := n.keys.drop leafMinArity ++ List.replicate leafMinArity 0
        next := none
        nleafs := leafMaxArity - leafMinArity } r none where
  leafs := by
    have h' := h.leafs
    rw [List.map_append] at h'
    exact h'.drop (by simpa using hl)
  keys := by
    have h' := h.keys
    rw [List.map_append] at h'
    exact h'.drop (by simpa using hl) rfl
  next := rfl
  nleafs := hr.symm

/-- Two neighbours in one leaf. -/
lemma merge {n' : LeafNode V} {next' : Option ℕ} (h : IsLeaf n l next) (h' : IsLeaf n' r next')
    (hle : (l ++ r).length ≤ leafMaxArity) :
    IsLeaf
      { leafs := overwrite n.leafs n.nleafs (n'.leafs.take n'.nleafs)
        keys := overwrite n.keys n.nleafs (n'.keys.take n'.nleafs)
        next := n'.next
        nleafs := n.nleafs + n'.nleafs } (l ++ r) next' where
  leafs := by
    have htake : n'.leafs.take n'.nleafs = r.map fun e => some e.2 := by
      simpa [h'.nleafs] using h'.leafs.prefixed.take_eq
    rw [htake, List.map_append]
    simpa [h.nleafs] using h.leafs.overwrite (r.map fun e => some e.2)
      (by simpa using hle)
  keys := by
    have htake : n'.keys.take n'.nleafs = r.map Prod.fst := by
      simpa [h'.nleafs] using h'.keys.take_eq
    rw [htake, List.map_append]
    simpa [h.nleafs] using h.keys.overwrite (r.map Prod.fst) (by simpa using hle)
  next := h'.next
  nleafs := by rw [h.nleafs, h'.nleafs, List.length_append]

end IsLeaf

end Furious
