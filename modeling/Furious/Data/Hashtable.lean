import Furious.Library.Loops

/-!
The hash table.

An entry of the table is a node of eight cells, with a chain of further nodes behind it; a
key is looked for along the chain of its entry, and a new one is put behind the last node's
cells, or into a node of its own.

* `HashNode`, `HashChain`, `HashTable` and `HashTable.add`, `HashTable.get`: the table; its
  counter has 32 bits;
* `HashIter`: the iterator, with the node, the entry and the cell it looks at next;
* `AssocUpdate`: what an addition does to a list of pairs;
* `HashTable.Stores`: the invariant: what a chain has for a key is what was added last;
* `HashIter.ahead`: the pairs that an iterator has still to give, one after the other;
* `hashtable_additions`: **the table after any additions**.
-/

namespace Furious

/-! ### The table -/

/-- `_FDB_HASHTABLE_NODE_CAPACITY`. -/
abbrev hashNodeCapacity : ℕ := 8

/-- `fdb_hashtable_node_t`: the first `m_num_elements` cells of `m_keys` and `m_elements`. -/
structure HashNode where
  cells : List (ℕ × ℕ)
  room : cells.length ≤ hashNodeCapacity

/-- A node and those that `p_next` leads to. -/
structure HashChain where
  node : HashNode
  next : List HashNode

/-- `fdb_hashtable_t`. -/
structure HashTable where
  capacity : ℕ
  numElements : ℕ
  entries : List HashChain

/-- A node that is filled with zeros. -/
def HashNode.empty : HashNode := ⟨[], Nat.zero_le _⟩

/-- The loop of `fdb_hashtable_add` over the cells of a node, which gives the previous
value if the key is there. -/
def replaceIn (key value : ℕ) : List (ℕ × ℕ) → Option (ℕ × List (ℕ × ℕ))
  | [] => none
  | (k, v) :: cells =>
      if k = key then some (v, (k, value) :: cells)
      else (replaceIn key value cells).map fun r => (r.1, (k, v) :: r.2)

lemma length_replaceIn {key value : ℕ} {cells : List (ℕ × ℕ)} {r : ℕ × List (ℕ × ℕ)}
    (h : replaceIn key value cells = some r) : r.2.length = cells.length := by
  induction cells generalizing r with
  | nil => cases h
  | cons c cells ih =>
      rw [replaceIn] at h
      split at h
      · obtain rfl := Option.some.inj h
        rfl
      · obtain ⟨r', hr', rfl⟩ := Option.map_eq_some_iff.mp h
        rw [List.length_cons, List.length_cons, ih hr']

/-- What an addition to a chain returns, whether the key is new, and the chain. -/
structure HashAdded where
  prev : ℕ
  fresh : Bool
  chain : HashChain

/-- The loop of `fdb_hashtable_add` over the nodes of a chain, and the addition behind the
last of them. The pointer `NULL` is zero. -/
def addAlong (key value : ℕ) (node : HashNode) (next : List HashNode) : HashAdded :=
  match h : replaceIn key value node.cells with
  | some (prev, cells) => ⟨prev, false, ⟨⟨cells, (length_replaceIn h).trans_le node.room⟩, next⟩⟩
  | none =>
      match next with
      | [] =>
          if hroom : node.cells.length < hashNodeCapacity then
            ⟨0, true, ⟨⟨node.cells ++ [(key, value)], by simpa using hroom⟩, []⟩⟩
          else ⟨0, true, ⟨node, [⟨[(key, value)], by simp⟩]⟩⟩
      | n :: rest =>
          let added := addAlong key value n rest
          { added with chain := ⟨node, added.chain.node :: added.chain.next⟩ }

/-- The loops of `fdb_hashtable_get`. -/
def getAlong (key : ℕ) (node : HashNode) (next : List HashNode) : ℕ :=
  match node.cells.lookup key with
  | some value => value
  | none =>
      match next with
      | [] => 0
      | n :: rest => getAlong key n rest

namespace HashTable

/-- `fdb_hashtable_init`. -/
def init (capacity : ℕ) : HashTable := ⟨capacity, 0, List.replicate capacity ⟨.empty, []⟩⟩

/-- `fdb_hashtable_add`; a table of capacity zero has no entry for a key. -/
def add (t : HashTable) (key value : ℕ) : Option (HashTable × ℕ) := do
  let index := key % t.capacity
  let chain ← t.entries[index]?
  let added := addAlong key value chain.node chain.next
  some (⟨t.capacity, if added.fresh then (t.numElements + 1) % 2 ^ 32 else t.numElements,
    t.entries.set index added.chain⟩, added.prev)

/-- `fdb_hashtable_get`. -/
def get (t : HashTable) (key : ℕ) : Option ℕ := do
  let chain ← t.entries[key % t.capacity]?
  some (getAlong key chain.node chain.next)

/-- Additions one after the other. -/
def addAll (t : HashTable) (additions : List (ℕ × ℕ)) : Option HashTable :=
  additions.foldlM (fun t a => (t.add a.1 a.2).map Prod.fst) t

end HashTable

/-! ### The iterator -/

/-- `fdb_hashtable_iter_t`; the node comes with the nodes behind it. -/
structure HashIter where
  nextNode : Option HashChain
  nextEntry : ℕ
  nextElement : ℕ

/-- The search for an entry with elements, from the entries that are left; the entry
that `m_next_entry` counts is the one behind. -/
def seekEntry : List HashChain → ℕ → Option HashChain × ℕ
  | [], nextEntry => (none, nextEntry)
  | c :: entries, nextEntry =>
      if 0 < c.node.cells.length then (some c, nextEntry + 1) else seekEntry entries (nextEntry + 1)

namespace HashIter

/-- `fdb_hashtable_iter_init`. -/
def init (t : HashTable) : HashIter :=
  let found := seekEntry t.entries 0
  ⟨found.1, found.2, 0⟩

/-- `fdb_hashtable_iter_has_next`. -/
def hasNext (it : HashIter) : Bool := it.nextNode.isSome

/-- `fdb_hashtable_iter_next`; a node or a cell that is not there is a fault. -/
def next (t : HashTable) (it : HashIter) : Option ((ℕ × ℕ) × HashIter) := do
  let c ← it.nextNode
  let entry ← c.node.cells[it.nextElement]?
  let it :=
    if c.node.cells.length ≤ it.nextElement + 1 then
      match c.next with
      | [] => { it with nextElement := 0, nextNode := none }
      | n :: rest => { it with nextElement := 0, nextNode := some ⟨n, rest⟩ }
    else { it with nextElement := it.nextElement + 1 }
  match it.nextNode with
  | some _ => some (entry, it)
  | none =>
      if it.nextEntry < t.capacity then
        let found := seekEntry (t.entries.drop it.nextEntry) it.nextEntry
        some (entry, { it with nextNode := found.1, nextEntry := found.2 })
      else some (entry, it)

/-- The loop of a caller over an iterator. -/
def drain (t : HashTable) : ℕ → HashIter → Option (List (ℕ × ℕ))
  | 0, it => if it.hasNext then none else some []
  | fuel + 1, it =>
      if it.hasNext then do
        let (entry, it) ← it.next t
        let entries ← drain t fuel it
        some (entry :: entries)
      else some []

end HashIter

/-! ### Pairs of keys and values -/

/-- Setting `key` to `value` in a list of pairs: the previous value, if any, is `old`, and
the key is put behind the others if it is `new`. -/
structure AssocUpdate (key value : ℕ) (pairs pairs' : List (ℕ × ℕ)) (old : ℕ) (new : Bool) :
    Prop where
  old_eq : old = (pairs.lookup key).getD 0
  lookup_eq : ∀ k, pairs'.lookup k = if k = key then some value else pairs.lookup k
  keys_eq : pairs'.map Prod.fst = pairs.map Prod.fst ++ (if new then [key] else [])
  new_iff : new = true ↔ pairs.lookup key = none

section

variable {key value old : ℕ} {new : Bool} {l l' : List (ℕ × ℕ)}

lemma lookup_cons_eq (k : ℕ) (p : ℕ × ℕ) (l : List (ℕ × ℕ)) :
    (p :: l).lookup k = if k = p.1 then some p.2 else l.lookup k := by
  rw [List.lookup_cons]
  by_cases h : k = p.1
  · simp [h]
  · rw [if_neg h, beq_false_of_ne h]

/-- The loop over the cells of a node replaces a value. -/
lemma replaceIn_some (h : replaceIn key value l = some (old, l')) :
    AssocUpdate key value l l' old false := by
  induction l generalizing l' with
  | nil => cases h
  | cons c cells ih =>
      obtain ⟨k, v⟩ := c
      rw [replaceIn] at h
      split at h
      · next hk =>
          obtain ⟨rfl, rfl⟩ := Prod.mk.inj (Option.some.inj h)
          subst hk
          refine ⟨by simp, fun k' => ?_, by simp, by simp⟩
          rw [lookup_cons_eq, lookup_cons_eq]
          split <;> rfl
      · next hk =>
          obtain ⟨⟨old', cells'⟩, hr, hp⟩ := Option.map_eq_some_iff.mp h
          obtain ⟨rfl, rfl⟩ := Prod.mk.inj hp
          have hu := ih hr
          have hkey : ((k, v) :: cells).lookup key = cells.lookup key := by
            rw [lookup_cons_eq, if_neg (Ne.symm hk)]
          refine ⟨by rw [hkey]; exact hu.old_eq, fun k' => ?_, ?_, by rw [hkey]; exact hu.new_iff⟩
          · rw [lookup_cons_eq, lookup_cons_eq, hu.lookup_eq]
            rcases eq_or_ne k' k with rfl | hne
            · simp [hk]
            · simp [hne]
          · simpa using hu.keys_eq

/-- The loop over the cells takes none away. -/
lemma ne_nil_of_replaceIn (h : replaceIn key value l = some (old, l')) : l' ≠ [] := by
  rintro rfl
  have hlen : [].length = l.length := length_replaceIn h
  rw [List.length_nil, eq_comm, List.length_eq_zero_iff] at hlen
  rw [hlen] at h
  cases h

lemma replaceIn_none (h : replaceIn key value l = none) : l.lookup key = none := by
  induction l with
  | nil => rfl
  | cons c cells ih =>
      rw [replaceIn] at h
      split at h
      · cases h
      · next hk =>
          rw [lookup_cons_eq, if_neg (Ne.symm hk)]
          exact ih (Option.map_eq_none_iff.mp h)

/-- A new key goes behind the others. -/
lemma AssocUpdate.push (h : l.lookup key = none) :
    AssocUpdate key value l (l ++ [(key, value)]) 0 true where
  old_eq := by simp [h]
  lookup_eq k := by
    rw [List.lookup_append, lookup_cons_eq]
    rcases eq_or_ne k key with rfl | hne
    · simp [h]
    · simp [hne]
  keys_eq := by simp
  new_iff := by simp [h]

/-- A key that is found at the front. -/
lemma AssocUpdate.append_right (h : AssocUpdate key value l l' old false) (r : List (ℕ × ℕ)) :
    AssocUpdate key value (l ++ r) (l' ++ r) old false := by
  obtain ⟨w, hw⟩ : ∃ w, l.lookup key = some w := by
    cases hl : l.lookup key with
    | none => exact absurd (h.new_iff.mpr hl) Bool.false_ne_true
    | some w => exact ⟨w, rfl⟩
  refine ⟨?_, fun k => ?_, ?_, ?_⟩
  · rw [h.old_eq, List.lookup_append, hw]
    rfl
  · rw [List.lookup_append, List.lookup_append, h.lookup_eq]
    split <;> rfl
  · simpa using h.keys_eq
  · rw [List.lookup_append, hw]
    simp

/-- A key that is not at the front. -/
lemma AssocUpdate.append_left (h : AssocUpdate key value l l' old new) {f : List (ℕ × ℕ)}
    (hf : f.lookup key = none) : AssocUpdate key value (f ++ l) (f ++ l') old new := by
  have hkey : (f ++ l).lookup key = l.lookup key := by
    rw [List.lookup_append, hf, Option.none_or]
  refine ⟨by rw [hkey]; exact h.old_eq, fun k => ?_, by simp [h.keys_eq], by rw [hkey]; exact h.new_iff⟩
  rw [List.lookup_append, List.lookup_append, h.lookup_eq]
  rcases eq_or_ne k key with rfl | hne
  · simp [hf]
  · simp [hne]

/-- In a list without a key twice a pair is found by its key. -/
lemma mem_iff_lookup (h : (l.map Prod.fst).Nodup) (k v : ℕ) : (k, v) ∈ l ↔ l.lookup k = some v := by
  induction l with
  | nil => simp
  | cons p l ih =>
      obtain ⟨k', v'⟩ := p
      rw [List.map_cons, List.nodup_cons] at h
      rw [lookup_cons_eq, List.mem_cons, Prod.mk.injEq, ih h.2]
      rcases eq_or_ne k k' with rfl | hne
      · have hnone : l.lookup k ≠ some v := by
          intro hl
          exact h.1 (List.mem_map.mpr ⟨(k, v), (ih h.2).mpr hl, rfl⟩)
        simp [hnone, eq_comm]
      · simp [hne]

end

/-! ### A chain -/

/-- The pairs of a chain. -/
def HashChain.pairs (c : HashChain) : List (ℕ × ℕ) := c.node.cells ++ c.next.flatMap HashNode.cells

/-- Only the node in the table can be empty, and then nothing is behind it. -/
structure HashChain.Packed (c : HashChain) : Prop where
  next_eq_nil : c.node.cells = [] → c.next = []
  ne_nil : ∀ n ∈ c.next, n.cells ≠ []

/-- **An addition along a chain.** -/
theorem addAlong_spec (key value : ℕ) (next : List HashNode) : ∀ node : HashNode,
    HashChain.Packed ⟨node, next⟩ →
      AssocUpdate key value (HashChain.pairs ⟨node, next⟩) (addAlong key value node next).chain.pairs
        (addAlong key value node next).prev (addAlong key value node next).fresh
      ∧ (addAlong key value node next).chain.Packed
      ∧ (addAlong key value node next).chain.node.cells ≠ [] := by
  induction next with
  | nil =>
      intro node hp
      unfold addAlong
      split
      · next old cells h =>
          exact ⟨(replaceIn_some h).append_right _, ⟨fun _ => rfl, by simp⟩, ne_nil_of_replaceIn h⟩
      · next h =>
          have hu : AssocUpdate key value node.cells _ 0 true := AssocUpdate.push (replaceIn_none h)
          dsimp only
          split
          · next hroom =>
              refine ⟨?_, ⟨fun _ => rfl, by simp⟩, by simp⟩
              simpa [HashChain.pairs] using hu
          · next hroom =>
              have hne : node.cells ≠ [] := by
                intro hnil
                rw [hnil] at hroom
                exact hroom (by decide)
              refine ⟨?_, ⟨fun hnil => absurd hnil hne, by simp⟩, hne⟩
              simpa [HashChain.pairs] using hu
  | cons n rest ih =>
      intro node hp
      have hn : n.cells ≠ [] := hp.ne_nil n List.mem_cons_self
      have hne : node.cells ≠ [] := fun hnil => List.cons_ne_nil _ _ (hp.next_eq_nil hnil)
      unfold addAlong
      split
      · next old cells h =>
          have hcells : cells ≠ [] := ne_nil_of_replaceIn h
          exact ⟨(replaceIn_some h).append_right _, ⟨fun hnil => absurd hnil hcells, hp.ne_nil⟩, hcells⟩
      · next h =>
          obtain ⟨hu, hpacked, hfirst⟩ := ih n
            ⟨fun hnil => absurd hnil hn, fun m hm => hp.ne_nil m (List.mem_cons_of_mem _ hm)⟩
          refine ⟨?_, ⟨fun hnil => absurd hnil hne, ?_⟩, hne⟩
          · simpa [HashChain.pairs] using hu.append_left (replaceIn_none h)
          · intro m hm
            rcases List.mem_cons.mp hm with rfl | hm
            · exact hfirst
            · exact hpacked.ne_nil m hm

/-- **A look-up along a chain.** -/
lemma getAlong_eq (key : ℕ) (next : List HashNode) : ∀ node : HashNode,
    getAlong key node next = ((HashChain.pairs ⟨node, next⟩).lookup key).getD 0 := by
  induction next with
  | nil =>
      intro node
      unfold getAlong HashChain.pairs
      cases h : node.cells.lookup key <;> simp [h]
  | cons n rest ih =>
      intro node
      unfold getAlong
      rw [HashChain.pairs, List.lookup_append]
      cases node.cells.lookup key with
      | some value => rfl
      | none =>
          rw [Option.none_or]
          exact ih n

/-! ### A table after additions -/

/-- The value added last for a key. -/
def lastAdded (additions : List (ℕ × ℕ)) (key : ℕ) : Option ℕ := additions.reverse.lookup key

lemma lastAdded_snoc (additions : List (ℕ × ℕ)) (key value k : ℕ) :
    lastAdded (additions ++ [(key, value)]) k
      = if k = key then some value else lastAdded additions k := by
  rw [lastAdded, List.reverse_append, List.reverse_singleton, List.singleton_append, lookup_cons_eq]
  rfl

lemma lastAdded_eq_none {additions : List (ℕ × ℕ)} {key : ℕ} :
    lastAdded additions key = none ↔ key ∉ (additions.map Prod.fst).toFinset := by
  rw [lastAdded, List.lookup_eq_none_iff, List.mem_toFinset, List.mem_map]
  constructor
  · rintro h ⟨p, hp, rfl⟩
    simpa using h p (List.mem_reverse.mpr hp)
  · intro h p hp
    have hne : p.1 ≠ key := fun hpk => h ⟨p, List.mem_reverse.mp hp, hpk⟩
    simpa using hne.symm

namespace HashTable

/-- The pairs of all chains. -/
def pairs (t : HashTable) : List (ℕ × ℕ) := t.entries.flatMap HashChain.pairs

/-- **The invariant** of a table to which `additions` have been made. -/
structure Stores (t : HashTable) (additions : List (ℕ × ℕ)) : Prop where
  capacity_pos : 0 < t.capacity
  length_eq : t.entries.length = t.capacity
  packed : ∀ c ∈ t.entries, c.Packed
  nodup : ∀ c ∈ t.entries, (c.pairs.map Prod.fst).Nodup
  placed : ∀ i c, t.entries[i]? = some c → ∀ k ∈ c.pairs.map Prod.fst, k % t.capacity = i
  lookup_eq : ∀ k c, t.entries[k % t.capacity]? = some c → c.pairs.lookup k = lastAdded additions k
  count : t.numElements = (additions.map Prod.fst).toFinset.card % 2 ^ 32

variable {t : HashTable} {additions : List (ℕ × ℕ)}

lemma stores_init {capacity : ℕ} (h : 0 < capacity) : (init capacity).Stores [] where
  capacity_pos := h
  length_eq := List.length_replicate ..
  packed c hc := by
    rw [List.eq_of_mem_replicate hc]
    exact ⟨fun _ => rfl, by simp⟩
  nodup c hc := by
    rw [List.eq_of_mem_replicate hc]
    exact List.nodup_nil
  placed i c hc k hk := by
    rw [List.eq_of_mem_replicate (List.mem_of_getElem? hc)] at hk
    cases hk
  lookup_eq k c hc := by
    rw [List.eq_of_mem_replicate (List.mem_of_getElem? hc)]
    rfl
  count := rfl

/-- Every key has an entry. -/
lemma Stores.exists_chain (h : t.Stores additions) (key : ℕ) :
    ∃ c, t.entries[key % t.capacity]? = some c := by
  have hlt : key % t.capacity < t.entries.length := by
    rw [h.length_eq]
    exact Nat.mod_lt _ h.capacity_pos
  exact ⟨_, List.getElem?_eq_getElem hlt⟩

/-- **One addition**: it returns the value that was added last. -/
theorem Stores.add (h : t.Stores additions) (key value : ℕ) :
    ∃ t', t.add key value = some (t', (lastAdded additions key).getD 0)
      ∧ t'.Stores (additions ++ [(key, value)]) := by
  obtain ⟨c, hc⟩ := h.exists_chain key
  have hmem : c ∈ t.entries := List.mem_of_getElem? hc
  obtain ⟨hu, hpacked, -⟩ := addAlong_spec key value c.next c.node (h.packed c hmem)
  have hlookup : c.pairs.lookup key = lastAdded additions key := h.lookup_eq key c hc
  set a := addAlong key value c.node c.next with ha
  have hold : a.prev = (lastAdded additions key).getD 0 := by rw [← hlookup]; exact hu.old_eq
  have hnew : a.fresh = true ↔ lastAdded additions key = none := by rw [← hlookup]; exact hu.new_iff
  have hkeys : a.chain.pairs.map Prod.fst = c.pairs.map Prod.fst ++ (if a.fresh then [key] else []) :=
    hu.keys_eq
  have hlt : key % t.capacity < t.entries.length := (List.getElem?_eq_some_iff.mp hc).1
  have hget : ∀ i d, (t.entries.set (key % t.capacity) a.chain)[i]? = some d →
      i = key % t.capacity ∧ d = a.chain ∨ i ≠ key % t.capacity ∧ t.entries[i]? = some d := by
    intro i d hd
    rcases eq_or_ne i (key % t.capacity) with rfl | hne
    · rw [List.getElem?_set_self hlt] at hd
      exact Or.inl ⟨rfl, (Option.some.inj hd).symm⟩
    · rw [List.getElem?_set_ne hne.symm] at hd
      exact Or.inr ⟨hne, hd⟩
  refine ⟨_, by rw [← hold, HashTable.add, hc]; rfl, ?_⟩
  refine ⟨h.capacity_pos, (List.length_set ..).trans h.length_eq, fun d hd => ?_, fun d hd => ?_,
    fun i d hd k hk => ?_, fun k d hd => ?_, ?_⟩
  · rcases List.mem_or_eq_of_mem_set hd with hd | rfl
    · exact h.packed d hd
    · exact hpacked
  · rcases List.mem_or_eq_of_mem_set hd with hd | rfl
    · exact h.nodup d hd
    · rw [hkeys]
      cases hf : a.fresh with
      | false => simpa using h.nodup c hmem
      | true =>
          have hnone : c.pairs.lookup key = none := hlookup.trans (hnew.mp hf)
          refine List.nodup_append.mpr ⟨h.nodup c hmem, List.nodup_singleton key, ?_⟩
          rintro k hk k' hk' rfl
          obtain rfl : k = key := List.mem_singleton.mp hk'
          obtain ⟨p, hp, rfl⟩ := List.mem_map.mp hk
          simpa using List.lookup_eq_none_iff.mp hnone p hp
  · rcases hget i d hd with ⟨rfl, rfl⟩ | ⟨-, hd⟩
    · rw [hkeys, List.mem_append] at hk
      rcases hk with hk | hk
      · exact h.placed _ c hc k hk
      · split at hk
        · rw [List.mem_singleton.mp hk]
        · cases hk
    · exact h.placed i d hd k hk
  · rw [lastAdded_snoc]
    rcases hget _ d hd with ⟨hk, rfl⟩ | ⟨hk, hd⟩
    · have hck : t.entries[k % t.capacity]? = some c := hk ▸ hc
      rw [← h.lookup_eq k c hck]
      exact hu.lookup_eq k
    · have hne : k ≠ key := by
        rintro rfl
        exact hk rfl
      rw [if_neg hne]
      exact h.lookup_eq k d hd
  · change (if a.fresh then (t.numElements + 1) % 2 ^ 32 else t.numElements) = _
    rw [List.map_append, List.map_singleton, List.toFinset_append, List.toFinset_cons,
      List.toFinset_nil, insert_empty_eq, Finset.union_singleton]
    cases hf : a.fresh with
    | true =>
        have hnot := lastAdded_eq_none.mp (hnew.mp hf)
        rw [Finset.card_insert_of_notMem hnot, if_pos rfl, h.count, Nat.mod_add_mod]
    | false =>
        have hin : key ∈ (additions.map Prod.fst).toFinset := by
          by_contra hnot
          rw [hnew.mpr (lastAdded_eq_none.mpr hnot)] at hf
          cases hf
        rw [Finset.insert_eq_of_mem hin, if_neg Bool.false_ne_true, h.count]

/-- **Any additions** to a new table. -/
theorem stores_addAll {capacity : ℕ} (hcapacity : 0 < capacity) (additions : List (ℕ × ℕ)) :
    ∃ t, (init capacity).addAll additions = some t ∧ t.Stores additions := by
  refine foldlM_spec (fun done t => Stores t done) additions (stores_init hcapacity) ?_
  rintro done ⟨key, value⟩ rest t - ht
  obtain ⟨t', hadd, ht'⟩ := ht.add key value
  exact ⟨t', by rw [hadd]; rfl, ht'⟩

/-- **A look-up.** -/
lemma Stores.get_eq (h : t.Stores additions) (key : ℕ) :
    t.get key = some ((lastAdded additions key).getD 0) := by
  obtain ⟨c, hc⟩ := h.exists_chain key
  rw [get, hc, Option.bind_eq_bind, Option.bind_some, getAlong_eq]
  have hlookup : c.pairs.lookup key = lastAdded additions key := h.lookup_eq key c hc
  rw [← hlookup]

/-- No key is stored twice. -/
lemma Stores.nodup_keys (h : t.Stores additions) : (t.pairs.map Prod.fst).Nodup := by
  rw [pairs, List.map_flatMap]
  refine List.nodup_flatMap.mpr ⟨h.nodup, ?_⟩
  rw [List.pairwise_iff_getElem]
  intro i j hi hj hij k hk hk'
  have h₁ := h.placed i _ (List.getElem?_eq_getElem hi) k hk
  have h₂ := h.placed j _ (List.getElem?_eq_getElem hj) k hk'
  omega

/-- What is stored. -/
lemma Stores.mem_pairs (h : t.Stores additions) (k v : ℕ) :
    (k, v) ∈ t.pairs ↔ lastAdded additions k = some v := by
  rw [pairs, List.mem_flatMap]
  constructor
  · rintro ⟨c, hc, hkv⟩
    obtain ⟨i, hi, rfl⟩ := List.getElem_of_mem hc
    have hget := List.getElem?_eq_getElem hi
    have hk := h.placed i _ hget k (List.mem_map.mpr ⟨(k, v), hkv, rfl⟩)
    have hentry : t.entries[k % t.capacity]? = some t.entries[i] := by
      rw [hk]
      exact hget
    rw [← h.lookup_eq k _ hentry]
    exact (mem_iff_lookup (h.nodup _ hc) k v).mp hkv
  · intro hlast
    obtain ⟨c, hc⟩ := h.exists_chain k
    have hmem := List.mem_of_getElem? hc
    exact ⟨c, hmem, (mem_iff_lookup (h.nodup c hmem) k v).mpr ((h.lookup_eq k c hc).trans hlast)⟩

end HashTable

/-! ### The iteration -/

namespace HashIter

variable {t : HashTable} {it : HashIter}

/-- The pairs that are still to be given. -/
def ahead (t : HashTable) (it : HashIter) : List (ℕ × ℕ) :=
  match it.nextNode with
  | none => []
  | some c => c.node.cells.drop it.nextElement ++ c.next.flatMap HashNode.cells
      ++ (t.entries.drop it.nextEntry).flatMap HashChain.pairs

/-- The iterator looks at a cell that there is, and no node behind is empty. -/
def Valid (it : HashIter) : Prop :=
  ∀ c ∈ it.nextNode, it.nextElement < c.node.cells.length ∧ ∀ n ∈ c.next, n.cells ≠ []

/-- **The search for an entry** skips only entries without pairs. -/
lemma seekEntry_spec (entries : List HashChain) (hp : ∀ c ∈ entries, c.Packed) : ∀ i,
    (∃ j, seekEntry entries i = (none, j)) ∧ entries.flatMap HashChain.pairs = []
      ∨ ∃ c ∈ entries, ∃ m, seekEntry entries i = (some c, i + (m + 1)) ∧ c.node.cells ≠ []
        ∧ entries.flatMap HashChain.pairs
          = c.pairs ++ (entries.drop (m + 1)).flatMap HashChain.pairs := by
  induction entries with
  | nil => exact fun i => Or.inl ⟨⟨i, rfl⟩, rfl⟩
  | cons c entries ih =>
      intro i
      rw [seekEntry]
      split
      · next hpos =>
          exact Or.inr ⟨c, List.mem_cons_self, 0, rfl, List.ne_nil_of_length_pos hpos, rfl⟩
      · next hzero =>
          have hnil : c.node.cells = [] := List.length_eq_zero_iff.mp (by omega)
          have hpairs : c.pairs = [] := by
            rw [HashChain.pairs, hnil, (hp c List.mem_cons_self).next_eq_nil hnil]
            rfl
          rw [List.flatMap_cons, hpairs, List.nil_append]
          rcases ih (fun d hd => hp d (List.mem_cons_of_mem _ hd)) (i + 1) with h | h
          · exact Or.inl h
          · obtain ⟨d, hd, m, hseek, hne, heq⟩ := h
            refine Or.inr ⟨d, List.mem_cons_of_mem _ hd, m + 1, ?_, hne, heq⟩
            rw [hseek]
            congr 1
            omega

/-- An iterator after a search has the pairs of the entries searched. -/
lemma ahead_seek (hp : ∀ c ∈ t.entries, c.Packed) (i : ℕ) :
    ahead t ⟨(seekEntry (t.entries.drop i) i).1, (seekEntry (t.entries.drop i) i).2, 0⟩
        = (t.entries.drop i).flatMap HashChain.pairs
      ∧ Valid ⟨(seekEntry (t.entries.drop i) i).1, (seekEntry (t.entries.drop i) i).2, 0⟩ := by
  have hp' : ∀ c ∈ t.entries.drop i, c.Packed := fun c hc => hp c (List.mem_of_mem_drop hc)
  rcases seekEntry_spec _ hp' i with ⟨⟨j, hseek⟩, hnil⟩ | ⟨c, hc, m, hseek, hne, heq⟩
  · rw [hseek, hnil]
    exact ⟨rfl, fun c hc => by cases hc⟩
  · rw [hseek, heq, List.drop_drop]
    refine ⟨rfl, fun d hd => ?_⟩
    obtain rfl : c = d := Option.some.inj hd
    exact ⟨List.length_pos_of_ne_nil hne, (hp' c hc).ne_nil⟩

/-- **One step** gives the next pair. -/
theorem next_spec (hp : ∀ c ∈ t.entries, c.Packed) (hlen : t.entries.length = t.capacity)
    (hv : it.Valid) (hnext : it.hasNext = true) :
    ∃ x it', it.next t = some (x, it') ∧ it.ahead t = x :: it'.ahead t ∧ it'.Valid := by
  obtain ⟨nextNode, nextEntry, nextElement⟩ := it
  cases nextNode with
  | none => cases hnext
  | some c =>
      obtain ⟨hlt, hrest⟩ := hv c rfl
      have hlt' : nextElement < c.node.cells.length := hlt
      have hget : c.node.cells[nextElement]? = some c.node.cells[nextElement] :=
        List.getElem?_eq_getElem hlt'
      have hdrop := List.drop_eq_getElem_cons hlt'
      simp only [next, ahead, Option.bind_eq_bind, Option.bind_some, hget, hdrop]
      by_cases hlast : c.node.cells.length ≤ nextElement + 1
      · -- the last cell of its node
        rw [List.drop_eq_nil_of_le hlast]
        simp only [hlast, if_true]
        cases hcn : c.next with
        | nil =>
            by_cases hmore : nextEntry < t.capacity
            · obtain ⟨hahead, hvalid⟩ := ahead_seek hp nextEntry
              simp only [hmore, if_true]
              exact ⟨_, _, rfl, by simpa [ahead] using hahead.symm, hvalid⟩
            · simp only [hmore, if_false]
              refine ⟨_, _, rfl, ?_, fun d hd => by cases hd⟩
              rw [List.drop_eq_nil_of_le (by omega)]
              rfl
        | cons n rest =>
            refine ⟨_, _, rfl, by simp, fun d hd => ?_⟩
            obtain rfl : (⟨n, rest⟩ : HashChain) = d := Option.some.inj hd
            have hn : n.cells ≠ [] := hrest n (by rw [hcn]; exact List.mem_cons_self)
            refine ⟨List.length_pos_of_ne_nil hn, fun m hm => hrest m ?_⟩
            rw [hcn]
            exact List.mem_cons_of_mem _ hm
      · simp only [hlast, if_false]
        refine ⟨_, _, rfl, rfl, fun d hd => ?_⟩
        obtain rfl : c = d := Option.some.inj hd
        exact ⟨Nat.lt_of_not_le hlast, hrest⟩

/-- **The whole iteration** gives what is ahead, one pair after the other. -/
theorem drain_spec (hp : ∀ c ∈ t.entries, c.Packed) (hlen : t.entries.length = t.capacity)
    (fuel : ℕ) : ∀ it : HashIter, it.Valid → (it.ahead t).length ≤ fuel →
      drain t fuel it = some (it.ahead t) := by
  have hdone : ∀ it : HashIter, it.hasNext = false → it.ahead t = [] := by
    rintro ⟨nextNode, nextEntry, nextElement⟩ h
    cases nextNode with
    | none => rfl
    | some c => cases h
  induction fuel with
  | zero =>
      intro it hv hle
      rw [drain]
      cases hnext : it.hasNext with
      | false => rw [hdone it hnext]; rfl
      | true =>
          obtain ⟨x, it', -, hahead, -⟩ := next_spec hp hlen hv hnext
          rw [hahead] at hle
          cases hle
  | succ fuel ih =>
      intro it hv hle
      rw [drain]
      cases hnext : it.hasNext with
      | false => rw [hdone it hnext]; rfl
      | true =>
          obtain ⟨x, it', hstep, hahead, hv'⟩ := next_spec hp hlen hv hnext
          rw [hahead, List.length_cons] at hle
          rw [if_pos rfl, hstep, Option.bind_eq_bind, Option.bind_some]
          change (drain t fuel it').bind _ = _
          rw [ih it' hv' (by omega), hahead]
          rfl

end HashIter

/-- An iterator over a table gives all its pairs. -/
lemma HashTable.Stores.drain_init {t : HashTable} {additions : List (ℕ × ℕ)} (h : t.Stores additions)
    {fuel : ℕ} (hfuel : t.pairs.length ≤ fuel) :
    HashIter.drain t fuel (HashIter.init t) = some t.pairs := by
  obtain ⟨hahead, hvalid⟩ := HashIter.ahead_seek h.packed 0
  have hinit : (HashIter.init t).ahead t = t.pairs := hahead
  rw [HashIter.drain_spec h.packed h.length_eq fuel (HashIter.init t) hvalid (by rwa [hinit]), hinit]

/-- **The table after any additions.** In a table of a positive capacity a key has the value
added last, an addition returns the value it replaces, the counter has the number of different
keys modulo `2 ^ 32`, and an iterator ends and gives every pair once. -/
theorem hashtable_additions (capacity : ℕ) (hcapacity : 0 < capacity) (additions : List (ℕ × ℕ)) :
    ∃ t, (HashTable.init capacity).addAll additions = some t
      ∧ (∀ key, t.get key = some ((lastAdded additions key).getD 0))
      ∧ (∀ key value, ∃ t', t.add key value = some (t', (lastAdded additions key).getD 0))
      ∧ t.numElements = (additions.map Prod.fst).toFinset.card % 2 ^ 32
      ∧ ∃ l : List (ℕ × ℕ), (∀ fuel ≥ l.length, HashIter.drain t fuel (HashIter.init t) = some l)
        ∧ (l.map Prod.fst).Nodup
        ∧ ∀ key value, (key, value) ∈ l ↔ lastAdded additions key = some value := by
  obtain ⟨t, ht, hs⟩ := HashTable.stores_addAll hcapacity additions
  refine ⟨t, ht, hs.get_eq, fun key value => ?_, hs.count, t.pairs, fun fuel hfuel => hs.drain_init hfuel,
    hs.nodup_keys, hs.mem_pairs⟩
  obtain ⟨t', hadd, -⟩ := hs.add key value
  exact ⟨t', hadd⟩

/-- A key that collides with nine others, in the second node of its entry. -/
theorem hashtable_additions_chain :
    ∃ t, (HashTable.init 2).addAll ((List.range 10).map fun i => (2 * i, i + 1)) = some t
      ∧ t.get 18 = some 10 := by
  obtain ⟨t, ht, hget, -⟩ :=
    hashtable_additions 2 (by decide) ((List.range 10).map fun i => (2 * i, i + 1))
  exact ⟨t, ht, (hget 18).trans (by decide)⟩

/-- When all `2 ^ 32` keys have been added the counter is zero. -/
theorem hashtable_counter_wraps : ¬ ∀ (capacity : ℕ) (additions : List (ℕ × ℕ)), 0 < capacity →
    (∀ a ∈ additions, a.1 < 2 ^ 32) →
    ∃ t, (HashTable.init capacity).addAll additions = some t
      ∧ t.numElements = (additions.map Prod.fst).toFinset.card := by
  intro h
  have hkeys : ((List.range (2 ^ 32)).map fun i => (i, i)).map Prod.fst = List.range (2 ^ 32) := by
    rw [List.map_map]
    exact List.map_id _
  obtain ⟨t, ht, hcount⟩ := h 1 ((List.range (2 ^ 32)).map fun i => (i, i)) Nat.one_pos
    (fun a ha => by
      obtain ⟨i, hi, rfl⟩ := List.mem_map.mp ha
      exact List.mem_range.mp hi)
  obtain ⟨t', ht', hs⟩ := HashTable.stores_addAll Nat.one_pos ((List.range (2 ^ 32)).map fun i => (i, i))
  obtain rfl : t' = t := Option.some.inj (ht'.symm.trans ht)
  have hcard : (List.range (2 ^ 32)).toFinset.card = 2 ^ 32 := by
    rw [List.toFinset_range, Finset.card_range]
  have hwrapped := hs.count
  rw [hcount, hkeys, hcard] at hwrapped
  omega

end Furious
