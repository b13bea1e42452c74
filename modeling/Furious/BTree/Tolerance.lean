import Furious.BTree.Absent
import Furious.BTree.Dictionary

/-!
Runs in which keys that are not there are removed.

* `BTree.lands`: the search of a removal ends at a slot of a leaf; `removeNode_fault`: otherwise it
  leaves the arrays, or meets a null pointer;
* `Roam`: runs of insertions and of removals, also of keys that are not there; `Roam.shows`: **they show
  a map**;
* `Ignores`, `remove_ignores`: **a removal that finds nothing changes nothing**, as long as it forgets no
  separator.
-/

namespace Furious

variable {V : Type} {d key : ℕ}

/-- The search of a removal ends at a slot of a leaf. -/
def BTree.lands (t : BTree V) (key : ℕ) : Bool :=
  (missing t.nodes key t.nodes.cells.length t.root).isSome

/-! ### Faults -/

/-- **`fdb_btree_remove_node`** leaves the arrays of a full leaf all of whose keys are smaller. -/
theorem removeNode_fault {t : BTree V} {T : Tree V d} {fuel : ℕ} (h : T.Held t.nodes.get) (hf : T.Filled)
    (hmiss : T.misses key = none) : removeNode key fuel t T.addr = none := by
  induction d generalizing fuel with
  | zero =>
      cases fuel with
      | zero => rfl
      | succ fuel =>
          obtain ⟨a, es, nx, rfl⟩ := T.eq_leaf
          obtain ⟨n, hn, hin⟩ := Tree.held_leaf.mp h
          have hpos : ¬ n.nextPos key < leafMaxArity := by
            rw [hin.nextPos_eq]
            intro hlt
            rw [Tree.misses] at hmiss
            change (if (es.takeWhile fun e => e.1 < key).length < leafMaxArity then some (0, false)
              else none) = none at hmiss
            rw [if_pos hlt] at hmiss
            cases hmiss
          have hslot : n.leafs[n.nextPos key]? = none := by
            refine List.getElem?_eq_none ?_
            rw [hin.leafs.prefixed.2]
            exact not_lt.mp hpos
          simp only [removeNode, Tree.addr_leaf, hn, Option.bind_eq_bind, Option.bind_some, hslot,
            Option.bind_none]
  | succ d ih =>
      cases fuel with
      | zero => rfl
      | succ fuel =>
          obtain ⟨a, cs, ks, rfl⟩ := T.eq_node
          obtain ⟨_, -, hin, hcs⟩ := Tree.held_node.mp h
          obtain ⟨hne, hfs⟩ := Tree.filled_node.mp hf
          obtain ⟨l, c, r, kl, kr, rfl, rfl, hr⟩ :=
            Route.exists_of_ne (by simpa using hin.length_keys) hne key
          obtain ⟨n, -, hn, hnext, hslot, -⟩ := h.route hr
          rw [Tree.misses_node hr] at hmiss
          have hmissc : c.misses key = none := by
            cases hc : c.misses key with
            | none => rfl
            | some lost =>
                rw [hc] at hmiss
                cases hmiss
          have hfault : removeNode key fuel t c.addr = none := ih (hcs c (by simp)) (hfs c (by simp)) hmissc
          rw [removeNode, Tree.addr_node, hn]
          simp only [Option.bind_eq_bind, Option.bind_some, hnext, hslot, hfault, Option.bind_none]

/-- A removal whose search does not land is a fault. -/
lemma Rooted.remove_fault {t : BTree V} {T : Tree V (d + 1)} (h : Rooted t T) (hlands : t.lands key = false) :
    t.remove key = none := by
  have hle := cells_length_le h.held h.nodup
  have hnode : removeNode key t.nodes.cells.length t t.root = none := by
    rw [← h.addr]
    by_cases hf : T.Filled
    · refine removeNode_fault h.held hf ?_
      rw [BTree.lands, ← h.addr, missing_eq h.held hf (lt_of_lt_of_le hf.depth_lt hle)] at hlands
      exact Option.not_isSome_iff_eq_none.mp (by rw [hlands]; exact Bool.false_ne_true)
    · -- a root without children
      obtain ⟨a, cs, ks, rfl⟩ := T.eq_node
      obtain rfl : cs = [] := by
        by_contra hne
        exact hf (Tree.filled_node.mpr ⟨hne, h.filled⟩)
      obtain ⟨n, hn, hin, -⟩ := Tree.held_node.mp h.held
      have hslot : n.children[n.next key]?.join = none := by rw [hin.slot]; rfl
      obtain ⟨fuel, hfuel⟩ := Nat.exists_eq_add_one.mpr (lt_of_lt_of_le Nat.one_pos hle)
      rw [hfuel, Tree.addr_node, removeNode, hn]
      simp only [Option.bind_eq_bind, Option.bind_some, hslot, Option.bind_none]
  rw [BTree.remove, hnode]
  rfl

/-! ### Runs -/

/-- The runs of a B-tree in which removals find their key and are orderly, or do not find it and are
tolerated. -/
inductive Roam : BTree V → KeyMap V → Prop
  | init : Roam BTree.init ∅
  | insert {t t' : BTree V} {M : KeyMap V} {ins : Inserted} (h : Roam t M) (key : ℕ) (value : V)
      (hcall : t.insert key value = some (t', ins)) : Roam t' ((Op.insert key value).act M)
  | remove {t t' : BTree V} {M : KeyMap V} {r : Option V} (h : Roam t M) {key : ℕ} (hkey : key ∈ M)
      (hok : Orderly t (.remove key)) (hcall : t.remove key = some (t', r)) : Roam t' (M.erase key)
  | miss {t t' : BTree V} {M : KeyMap V} {r : Option V} (h : Roam t M) {key : ℕ} (hkey : key ∉ M)
      (hok : t.tolerates key = true) (hcall : t.remove key = some (t', r)) : Roam t' M

variable {t t' : BTree V} {M : KeyMap V}

/-- **Removal** of a key that is not there. -/
lemma Shows.remove_missing (h : Shows t M) (hkey : key ∉ M) (hok : t.tolerates key = true) :
    ∃ t', t.remove key = some (t', none) ∧ t'.size = t.size ∧ Shows t' M := by
  obtain ⟨d, T, hT, hlinked⟩ := h.tree
  obtain ⟨d', t', T', heq, hT', hsize, hchain⟩ :=
    hT.remove_missing (Finmap.lookup_eq_none.mpr hkey) hok
  exact ⟨t', heq, hsize, ⟨d', T', hT', hchain hlinked⟩, hsize.trans h.size⟩

/-- **Every run** shows its map. -/
theorem Roam.shows (h : Roam t M) : Shows t M := by
  induction h with
  | init => exact Shows.init
  | @insert t t' M ins h key value hcall ih =>
      by_cases hk : key ∈ M
      · obtain ⟨v, hv⟩ := Finmap.mem_iff.mp hk
        obtain ⟨t₁, ins₁, heq, -, -, hshows⟩ := ih.insert_present hv value
        obtain rfl := (Prod.mk.inj (Option.some.inj (heq.symm.trans hcall))).1
        rw [Op.act, if_pos hk]
        exact hshows
      · obtain ⟨t₁, ins₁, heq, -, -, hshows⟩ := ih.insert hk value
        obtain rfl := (Prod.mk.inj (Option.some.inj (heq.symm.trans hcall))).1
        rw [Op.act, if_neg hk]
        exact hshows
  | remove h hkey hok hcall ih =>
      obtain ⟨v, hv⟩ := Finmap.mem_iff.mp hkey
      obtain ⟨t₁, heq, hshows⟩ := ih.remove hv hok
      obtain rfl := (Prod.mk.inj (Option.some.inj (heq.symm.trans hcall))).1
      exact hshows
  | miss h hkey hok hcall ih =>
      obtain ⟨t₁, heq, -, hshows⟩ := ih.remove_missing hkey hok
      obtain rfl := (Prod.mk.inj (Option.some.inj (heq.symm.trans hcall))).1
      exact hshows

/-- An orderly run has no removal of a key that is not there. -/
lemma Run.roam (h : Run Orderly t M) : Roam t M := by
  induction h with
  | init => exact .init
  | step _ op legal hok hcall ih =>
      cases op with
      | insert key value =>
          obtain ⟨⟨t₁, ins⟩, hinsert, rfl⟩ := Option.map_eq_some_iff.mp hcall
          exact ih.insert key value hinsert
      | remove key =>
          obtain ⟨⟨t₁, r⟩, hremove, rfl⟩ := Option.map_eq_some_iff.mp hcall
          exact ih.remove legal hok hremove

/-- A map has one list. -/
lemma Lists.unique {l l' : List (ℕ × V)} (h : Lists l M) (h' : Lists l' M) : l = l' := by
  have hnd : ∀ l : List (ℕ × V), l.Pairwise (fun e f => e.1 < f.1) → l.Nodup := fun l hl =>
    hl.imp fun hlt heq => by
      rw [heq] at hlt
      exact lt_irrefl _ hlt
  have hperm : l.Perm l' := by
    rw [List.perm_ext_iff_of_nodup (hnd l h.sorted) (hnd l' h'.sorted)]
    rintro ⟨k, v⟩
    rw [h.mem, h'.mem]
  exact hperm.eq_of_pairwise (fun e f _ _ hef hfe => absurd hfe (lt_asymm hef)) h.sorted h'.sorted

/-- The entries in the order of an iteration. -/
lemma Shows.entries (h : Shows t M) :
    ∃ l, Lists l M ∧ ∀ fuel, l.length < fuel → t.entries fuel = some (reported l) := by
  obtain ⟨l, iter, hl, hinit, hiter⟩ := h.iterInit
  refine ⟨l, hl, fun fuel hfuel => ?_⟩
  simp only [BTree.entries, hinit, Option.bind_eq_bind, Option.bind_some, hiter.drain hfuel]

/-- Removing the key returns a null pointer, and leaves the contents, the size and the order of an
iteration as they were. -/
structure Ignores (t : BTree V) (key : ℕ) (t' : BTree V) : Prop where
  remove : t.remove key = some (t', none)
  get : ∀ k, t'.get k = t.get k
  size : t'.size = t.size
  entries : ∃ l n, ∀ fuel, n < fuel → t.entries fuel = some l ∧ t'.entries fuel = some l

/-- **A removal that finds nothing** changes nothing if it is tolerated; it is a fault if its search does
not land. -/
theorem remove_ignores (h : Roam t M) (hkey : key ∉ M) :
    (t.tolerates key = true → ∃ t', Ignores t key t') ∧ (t.lands key = false → t.remove key = none) := by
  have hshows := h.shows
  refine ⟨fun htol => ?_, fun hlands => ?_⟩
  · obtain ⟨t', heq, hsize, hshows'⟩ := hshows.remove_missing hkey htol
    obtain ⟨l, hl, hentries⟩ := hshows.entries
    obtain ⟨l', hl', hentries'⟩ := hshows'.entries
    refine ⟨t', heq, fun k => by rw [hshows.get, hshows'.get], hsize, reported l, l.length,
      fun fuel hfuel => ⟨hentries fuel hfuel, ?_⟩⟩
    rw [hl'.unique hl] at hentries'
    exact hentries' fuel hfuel
  · obtain ⟨d, T, hT, -⟩ := hshows.tree
    exact hT.rooted.remove_fault hlands

/-- Keys are inserted up to 50 and some of them removed; another removal of one of those changes
nothing. -/
theorem remove_ignores_removed : ∃ (t t₁ t₂ : BTree ℕ) (M : KeyMap ℕ), Roam t M ∧ Ignores t 2 t₁
    ∧ Roam t₁ M ∧ Ignores t₁ 3 t₂ := by
  obtain ⟨t, M, h, hM⟩ := Run.exists_of_map Orderly (upAndDown 51 0 5)
    (f := fun r => (r.2.lookup 2, r.2.lookup 3, r.1.tolerates 2,
      (r.1.remove 2).map fun r => r.1.tolerates 3)) (x := (none, none, true, some true)) (by decide +kernel)
  obtain ⟨h₂, hM⟩ := Prod.mk.inj hM
  obtain ⟨h₃, hM⟩ := Prod.mk.inj hM
  obtain ⟨htol, hM⟩ := Prod.mk.inj hM
  have hkey₂ : 2 ∉ M := Finmap.lookup_eq_none.mp h₂
  have hkey₃ : 3 ∉ M := Finmap.lookup_eq_none.mp h₃
  obtain ⟨t₁, h₁⟩ := (remove_ignores h.roam hkey₂).1 htol
  have hroam := h.roam.miss hkey₂ htol h₁.remove
  have htol₁ : t₁.tolerates 3 = true := by
    have hM' : (t.remove 2).map (fun r => r.1.tolerates 3) = some true := hM
    rw [h₁.remove] at hM'
    exact Option.some.inj hM'
  obtain ⟨t₂, h₂⟩ := (remove_ignores hroam hkey₃).1 htol₁
  exact ⟨t, t₁, t₂, M, h.roam, h₁, hroam, h₂⟩

/-- An empty tree has no child to go to, and a full leaf no slot behind its keys; and a merge on the way
back from a key that is not there forgets other keys. -/
theorem not_remove_ignores : (BTree.init : BTree ℕ).remove 5 = none
    ∧ (∃ (t : BTree ℕ) (M : KeyMap ℕ), Run (fun _ _ => True) t M ∧ 9 ∉ M ∧ t.remove 9 = none)
    ∧ ∃ (t t' : BTree ℕ) (M : KeyMap ℕ), Run (fun _ _ => True) t M ∧ 1 ∉ M
      ∧ t.remove 1 = some (t', none) ∧ t.get 40 = some (some 1020) ∧ t'.get 40 = some none := by
  refine ⟨by decide +kernel, ?_, ?_⟩
  · obtain ⟨t, M, h, hM⟩ := Run.exists_of_map (fun _ _ => True) (upAndDown 9 0 0)
      (f := fun r => (r.2.lookup 9, (r.1.remove 9).isSome)) (x := (none, false)) (by decide +kernel)
    obtain ⟨hkey, hfault⟩ := Prod.mk.inj hM
    refine ⟨t, M, h, Finmap.lookup_eq_none.mp hkey, ?_⟩
    exact Option.not_isSome_iff_eq_none.mp (by rw [hfault]; exact Bool.false_ne_true)
  · obtain ⟨t, M, h, hM⟩ := Run.exists_of_map (fun _ _ => True)
      ((List.range 51).map (fun k => .insert (2 * k) (k + 1000)) ++ (List.range 21).map fun k => .remove (2 * (k + 25)))
      (f := fun r => (r.2.lookup 1, r.1.get 40, (r.1.remove 1).map fun r' => (r'.2, r'.1.get 40)))
      (x := (none, some (some 1020), some (none, some none))) (by decide +kernel)
    obtain ⟨hkey, hM⟩ := Prod.mk.inj hM
    obtain ⟨hget, hM⟩ := Prod.mk.inj hM
    obtain ⟨⟨t', r⟩, hremove, hM⟩ := Option.map_eq_some_iff.mp hM
    obtain ⟨rfl, hget'⟩ := Prod.mk.inj hM
    exact ⟨t, t', M, h, Finmap.lookup_eq_none.mp hkey, hremove, hget, hget'⟩

end Furious
