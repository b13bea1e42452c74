import Mathlib.Data.Finmap
import Furious.BTree.Guards

/-!
Runs of a B-tree.

A B-tree starts empty, and insertions and removals follow in any order; only keys
that are there are removed. In every run whose removals forget no key between two
nodes, the B-tree is the finite map that the operations build.

* `Op`, `Run`: the operations, and runs of a B-tree next to a finite map;
* `Stands`: the invariant, `Stands.insert` and `Stands.remove`;
* `Refines`: what a user sees of the map, `refines_map`: **it is what the B-tree
  shows**;
* `runList`: a list of operations one after the other.
-/

namespace Furious

variable {V : Type} {d : ℕ} {key : ℕ}

/-- The finite maps that B-trees implement. -/
abbrev KeyMap (V : Type) : Type := Finmap fun _ : ℕ => V

/-- An operation. -/
inductive Op (V : Type) where
  | insert (key : ℕ) (value : V)
  | remove (key : ℕ)

namespace Op

/-- A key is removed only if it is there. -/
def Legal (M : KeyMap V) : Op V → Prop
  | insert _ _ => True
  | remove key => key ∈ M

instance (M : KeyMap V) : (op : Op V) → Decidable (op.Legal M)
  | insert _ _ => isTrue trivial
  | remove key => inferInstanceAs (Decidable (key ∈ M))

/-- The effect on the map: a key that is there keeps its value. -/
def act (M : KeyMap V) : Op V → KeyMap V
  | insert key value => if key ∈ M then M else M.insert key value
  | remove key => M.erase key

/-- The effect on the B-tree. -/
def call (t : BTree V) : Op V → Option (BTree V)
  | insert key value => (t.insert key value).map Prod.fst
  | remove key => (t.remove key).map Prod.fst

end Op

/-- The runs whose operations meet the condition `ok` in the state before them. -/
inductive Run (ok : BTree V → Op V → Prop) : BTree V → KeyMap V → Prop
  | init : Run ok BTree.init ∅
  | step {t t' : BTree V} {M : KeyMap V} (h : Run ok t M) (op : Op V) (legal : op.Legal M)
      (hok : ok t op) (hcall : op.call t = some t') : Run ok t' (op.act M)

lemma Run.mono {ok ok' : BTree V → Op V → Prop} (hok : ∀ t op, ok t op → ok' t op) {t : BTree V}
    {M : KeyMap V} (h : Run ok t M) : Run ok' t M := by
  induction h with
  | init => exact .init
  | step _ op legal hop hcall ih => exact ih.step op legal (hok _ op hop) hcall

/-- The operations one after the other, as long as they are legal and meet the condition. -/
def runList (ok : BTree V → Op V → Prop) [∀ t op, Decidable (ok t op)] :
    List (Op V) → BTree V → KeyMap V → Option (BTree V × KeyMap V)
  | [], t, M => some (t, M)
  | op :: ops, t, M =>
      if op.Legal M ∧ ok t op then do
        let t' ← op.call t
        runList ok ops t' (op.act M)
      else none

lemma Run.list {ok : BTree V → Op V → Prop} [∀ t op, Decidable (ok t op)] {ops : List (Op V)}
    {t : BTree V} {M : KeyMap V} {r : BTree V × KeyMap V} (h : Run ok t M)
    (hr : runList ok ops t M = some r) : Run ok r.1 r.2 := by
  induction ops generalizing t M with
  | nil =>
      rw [← Option.some.inj hr]
      exact h
  | cons op ops ih =>
      by_cases hop : op.Legal M ∧ ok t op
      · rw [runList, if_pos hop] at hr
        obtain ⟨t', ht', hr⟩ := Option.bind_eq_some_iff.mp hr
        exact ih (h.step op hop.1 hop.2 ht') hr
      · rw [runList, if_neg hop] at hr
        cases hr

/-- A run is there if something can be read off its end. -/
lemma Run.exists_of_map (ok : BTree V → Op V → Prop) [∀ t op, Decidable (ok t op)]
    (ops : List (Op V)) {T : Type} {f : BTree V × KeyMap V → T} {x : T}
    (h : (runList ok ops BTree.init ∅).map f = some x) : ∃ t M, Run ok t M ∧ f (t, M) = x := by
  obtain ⟨⟨t, M⟩, hr, hx⟩ := Option.map_eq_some_iff.mp h
  exact ⟨t, M, Run.init.list hr, hx⟩

/-! ### Lists of a map -/

/-- The entries of the map in ascending order. -/
structure Lists (l : List (ℕ × V)) (M : KeyMap V) : Prop where
  sorted : l.Pairwise fun e f => e.1 < f.1
  mem : ∀ k v, (k, v) ∈ l ↔ M.lookup k = some v

namespace Lists

variable {l e₁ e₂ : List (ℕ × V)} {M : KeyMap V} {k : ℕ} {v : V}

lemma card (h : Lists l M) : M.keys.card = l.length := by
  have hkeys : M.keys = (l.map Prod.fst).toFinset := by
    ext k
    rw [Finmap.mem_keys, Finmap.mem_iff, List.mem_toFinset, List.mem_map]
    constructor
    · rintro ⟨v, hv⟩
      exact ⟨(k, v), (h.mem k v).mpr hv, rfl⟩
    · rintro ⟨⟨k', v⟩, hv, rfl⟩
      exact ⟨v, (h.mem k' v).mp hv⟩
  have hnd : (l.map Prod.fst).Nodup :=
    List.pairwise_map.mpr (h.sorted.imp fun hlt => ne_of_lt hlt)
  rw [hkeys, List.toFinset_card_of_nodup hnd, List.length_map]

lemma insert (h : Lists (e₁ ++ e₂) M) (hs : (e₁ ++ (k, v) :: e₂).Pairwise fun e f => e.1 < f.1)
    (hk : k ∉ M) : Lists (e₁ ++ (k, v) :: e₂) (M.insert k v) := by
  refine ⟨hs, fun j w => ?_⟩
  have hmem : (j, w) ∈ e₁ ++ (k, v) :: e₂ ↔ (j, w) = (k, v) ∨ (j, w) ∈ e₁ ++ e₂ := by
    simp only [List.mem_append, List.mem_cons]
    tauto
  rw [hmem, h.mem]
  by_cases hj : j = k
  · rw [hj, Finmap.lookup_insert, Finmap.lookup_eq_none.mpr hk]
    simp [eq_comm]
  · rw [Finmap.lookup_insert_of_ne _ hj]
    simp [hj]

lemma erase (h : Lists (e₁ ++ (k, v) :: e₂) M) : Lists (e₁ ++ e₂) (M.erase k) := by
  have hsub : (e₁ ++ e₂).Sublist (e₁ ++ (k, v) :: e₂) :=
    List.Sublist.append_left (List.sublist_cons_self _ _) e₁
  have hne : ∀ w, (k, w) ∉ e₁ ++ e₂ := by
    intro w hw
    have hs := h.sorted
    rw [List.pairwise_append, List.pairwise_cons] at hs
    rcases List.mem_append.mp hw with hw | hw
    · exact lt_irrefl k (hs.2.2 _ hw _ List.mem_cons_self)
    · exact lt_irrefl k (hs.2.1.1 _ hw)
  refine ⟨h.sorted.sublist hsub, fun j w => ?_⟩
  by_cases hj : j = k
  · rw [hj, Finmap.lookup_erase]
    simp [hne]
  · rw [Finmap.lookup_erase_ne hj, ← h.mem]
    simp [hj]

end Lists

/-- The effect of an insertion on the map. -/
lemma Outcome.lists {key : ℕ} {value : V} {t t' : BTree V} {es es' : List (ℕ × V)} {ins : Inserted}
    {M : KeyMap V} (h : Outcome key value t t' es es' ins) (hl : Lists es M)
    (hs : es'.Pairwise fun e f => e.1 < f.1) (habsent : ins.inserted = true → ∀ v, (key, v) ∉ es) :
    Lists es' ((Op.insert key value).act M) ∧ (ins.inserted = true ↔ key ∉ M) := by
  cases h with
  | added hi e₁ e₂ before after size slot =>
      have hk : key ∉ M := by
        intro hk
        obtain ⟨v, hv⟩ := Finmap.mem_iff.mp hk
        exact habsent hi v ((hl.mem key v).mpr hv)
      refine ⟨?_, iff_of_true hi hk⟩
      rw [before] at hl
      rw [after] at hs ⊢
      rw [Op.act, if_neg hk]
      exact hl.insert hs hk
  | found hi entries size v mem slot =>
      have hk : key ∈ M := Finmap.mem_of_lookup_eq_some ((hl.mem key v).mp mem)
      refine ⟨?_, iff_of_false (by rw [hi]; exact Bool.false_ne_true) fun hn => hn hk⟩
      rw [Op.act, if_pos hk, entries]
      exact hl

/-! ### The invariant -/

/-- The B-tree stands for a sorted tree that lists the map. -/
structure Stands (t : BTree V) (M : KeyMap V) (T : Tree V (d + 1)) : Prop where
  rooted : Rooted t T
  inorder : Inorder T.flat
  lists : Lists T.toList M

namespace Stands

variable {t : BTree V} {M : KeyMap V} {T : Tree V (d + 1)}

/-- The search finds what the map has. -/
lemma find_eq (h : Stands t M T) (key : ℕ) : T.find key = M.lookup key := by
  refine Option.ext fun v => ?_
  rw [Tree.find_iff h.rooted.held (A := []) (B := []) (by simpa using h.inorder) Fits.nil, h.lists.mem]

lemma get_eq (h : Stands t M T) (key : ℕ) : t.get key = some (M.lookup key) := by
  rw [h.rooted.get_eq, h.find_eq]

/-- **An insertion** keeps the invariant. -/
theorem insert (h : Stands t M T) (key : ℕ) (value : V) :
    ∃ (d' : ℕ) (t' : BTree V) (T' : Tree V (d' + 1)) (ins : Inserted),
      t.insert key value = some (t', ins) ∧ Stands t' ((Op.insert key value).act M) T'
      ∧ RootInserts key value t t' T T' ins
      ∧ (ins.inserted = true ↔ key ∉ M) := by
  obtain ⟨d', t', T', ins, heq, hins⟩ := h.rooted.insert_spec key value
  have hin := hins.order h.inorder
  obtain ⟨hlists, hiff⟩ := hins.outcome.lists h.lists hin.entries fun hi => hins.absent hi h.inorder
  exact ⟨d', t', T', ins, heq, ⟨hins.rooted, hin, hlists⟩, hins, hiff⟩

/-- The tree has children if the map has a key. -/
lemma filled (h : Stands t M T) {v : V} (hv : M.lookup key = some v) : T.Filled := by
  obtain ⟨a, cs, ks, rfl⟩ := T.eq_node
  refine Tree.filled_node.mpr ⟨?_, h.rooted.filled⟩
  rintro rfl
  have := h.find_eq key
  rw [Tree.find_nil, hv] at this
  cases this

lemma depth_lt (h : Stands t M T) {v : V} (hv : M.lookup key = some v) :
    d + 1 < t.nodes.cells.length :=
  lt_of_lt_of_le (h.filled hv).depth_lt (cells_length_le h.rooted.held h.rooted.nodup)

/-- The prediction for the B-tree is that for the tree. -/
lemma thins_eq (h : Stands t M T) {v : V} (hv : M.lookup key = some v) :
    t.thins key = (T.losses key).2 := by
  rw [BTree.thins, ← h.rooted.addr, thinning_eq h.rooted.held (h.filled hv) (h.depth_lt hv)]
  rfl

/-- **A removal** returns the value, and keeps the invariant if it forgets no key. -/
theorem remove (h : Stands t M T) {v : V} (hv : M.lookup key = some v) :
    ∃ (d' : ℕ) (t' : BTree V) (T' : Tree V (d' + 1)), t.remove key = some (t', some v)
      ∧ RootRemoves key t t' T T' v
      ∧ (t.thins key = false → Stands t' ((Op.remove key).act M) T') := by
  have hfind : T.find key = some v := by rw [h.find_eq, hv]
  obtain ⟨d', t', T', heq, hrem⟩ := h.rooted.remove_spec hfind
  refine ⟨d', t', T', heq, hrem, fun hthin => ⟨hrem.rooted, ?_, ?_⟩⟩
  · rw [h.thins_eq hv] at hthin
    exact hrem.order hthin h.inorder
  · obtain ⟨e₁, e₂, he, he'⟩ := hrem.entries
    have hl := h.lists
    rw [he] at hl
    rw [he']
    exact hl.erase

end Stands

/-! ### The map -/

/-- What the B-tree shows of the map. -/
structure Refines (t : BTree V) (M : KeyMap V) : Prop where
  get : ∀ k, t.get k = some (M.lookup k)
  size : t.size = M.keys.card
  insert_present : ∀ k value v, M.lookup k = some v → ∃ t' ins, t.insert k value = some (t', ins)
    ∧ ins.inserted = false ∧ ins.Holds t'.nodes v
  insert_absent : ∀ k value, k ∉ M → ∃ t' ins, t.insert k value = some (t', ins) ∧ ins.inserted = true
  remove : ∀ k v, M.lookup k = some v → ∃ t', t.remove k = some (t', some v)

/-- No removal forgets a key, and the counter does not overflow. -/
def Sound (t : BTree V) : Op V → Prop
  | .insert key _ => t.size + 1 < 2 ^ 32 ∨ t.get key ≠ some none
  | .remove key => t.thins key = false

instance [DecidableEq V] (t : BTree V) : (op : Op V) → Decidable (Sound t op)
  | .insert key _ => inferInstanceAs (Decidable (t.size + 1 < 2 ^ 32 ∨ t.get key ≠ some none))
  | .remove key => inferInstanceAs (Decidable (t.thins key = false))

/-- The invariant of these runs. -/
lemma Run.stands {ok : BTree V → Op V → Prop} {t : BTree V} {M : KeyMap V}
    (hok : ∀ t key, ok t (.remove key) → t.thins key = false) (h : Run ok t M) :
    ∃ (d : ℕ) (T : Tree V (d + 1)), Stands t M T := by
  induction h with
  | init =>
      obtain ⟨a, ha⟩ := Rooted.init (V := V)
      refine ⟨0, _, ha, by simp [Inorder], ⟨by simp, fun k v => ?_⟩⟩
      simp [Finmap.lookup_empty]
  | @step t t' M h op legal hop hcall ih =>
      obtain ⟨d, T, hT⟩ := ih
      cases op with
      | insert key value =>
          obtain ⟨d', t', T', ins, heq, hT', -, -⟩ := hT.insert key value
          rw [Op.call, heq] at hcall
          obtain rfl := Option.some.inj hcall
          exact ⟨d', T', hT'⟩
      | remove key =>
          obtain ⟨v, hv⟩ := Finmap.mem_iff.mp legal
          obtain ⟨d', t', T', heq, -, hT'⟩ := hT.remove hv
          rw [Op.call, heq] at hcall
          obtain rfl := Option.some.inj hcall
          exact ⟨d', T', hT' (hok _ key hop)⟩

/-- The counter stays below its bound. -/
lemma Run.size_lt {ok : BTree V → Op V → Prop} {t : BTree V} {M : KeyMap V}
    (hok : ∀ t key, ok t (.remove key) → t.thins key = false) (h : Run ok t M) : t.size < 2 ^ 32 := by
  have hpos : 0 < 2 ^ 32 := by decide
  induction h with
  | init => exact hpos
  | @step t t' M h op legal hop hcall ih =>
      obtain ⟨d, T, hT⟩ := h.stands hok
      cases op with
      | insert key value =>
          obtain ⟨d', t', T', ins, heq, -, hins, -⟩ := hT.insert key value
          rw [Op.call, heq] at hcall
          obtain rfl := Option.some.inj hcall
          cases hins.outcome with
          | added hi e₁ e₂ before after size slot =>
              rw [size]
              exact Nat.mod_lt _ hpos
          | found hi entries size v mem slot => rwa [size]
      | remove key =>
          obtain ⟨v, hv⟩ := Finmap.mem_iff.mp legal
          obtain ⟨d', t', T', heq, hrem, -⟩ := hT.remove hv
          rw [Op.call, heq] at hcall
          obtain rfl := Option.some.inj hcall
          rw [hrem.size]
          exact Nat.mod_lt _ hpos

/-- The counter of these runs. -/
lemma Run.size {t : BTree V} {M : KeyMap V} (h : Run Sound t M) : t.size = M.keys.card := by
  have hok : ∀ (t : BTree V) key, Sound t (.remove key) → t.thins key = false := fun _ _ h => h
  induction h with
  | init => rfl
  | @step t t' M h op legal hop hcall ih =>
      obtain ⟨d, T, hT⟩ := h.stands hok
      have hcard := hT.lists.card
      cases op with
      | insert key value =>
          obtain ⟨d', t', T', ins, heq, hT', hins, hiff⟩ := hT.insert key value
          rw [Op.call, heq] at hcall
          obtain rfl := Option.some.inj hcall
          rw [hT'.lists.card]
          cases hins.outcome with
          | added hi e₁ e₂ before after size slot =>
              have hnone : t.get key = some none := by
                rw [hT.get_eq, Finmap.lookup_eq_none.mpr ((hiff).mp hi)]
              have hlt : t.size + 1 < 2 ^ 32 := hop.resolve_right fun hne => hne hnone
              rw [before, List.length_append] at hcard
              rw [size, Nat.mod_eq_of_lt hlt, ih, hcard, after, List.length_append, List.length_cons]
              rfl
          | found hi entries size v mem slot => rw [size, ih, hcard, entries]
      | remove key =>
          obtain ⟨v, hv⟩ := Finmap.mem_iff.mp legal
          obtain ⟨d', t', T', heq, hrem, hT'⟩ := hT.remove hv
          rw [Op.call, heq] at hcall
          obtain rfl := Option.some.inj hcall
          obtain ⟨e₁, e₂, he, he'⟩ := hrem.entries
          have hlt : M.keys.card < 2 ^ 32 := by
            rw [← ih]
            exact h.size_lt hok
          rw [he, List.length_append, List.length_cons] at hcard
          rw [(hT' hop).lists.card, hrem.size, ih, he', List.length_append]
          omega

/-- **In every run without such a removal the B-tree is a finite map**: lookups give its
values, insertions tell whether a key was there and leave the value of one that was,
removals return the value, and the size is the number of keys. -/
theorem refines_map {t : BTree V} {M : KeyMap V} (h : Run Sound t M) : Refines t M := by
  obtain ⟨d, T, hT⟩ := h.stands fun _ _ h => h
  refine ⟨hT.get_eq, h.size, fun k value v hv => ?_, fun k value hk => ?_, fun k v hv => ?_⟩
  · obtain ⟨d', t', T', ins, heq, -, hins, hiff⟩ := hT.insert k value
    refine ⟨t', ins, heq, ?_⟩
    cases hins.outcome with
    | added hi e₁ e₂ before after size slot =>
        exact absurd (Finmap.mem_of_lookup_eq_some hv) (hiff.mp hi)
    | found hi entries size w mem slot =>
        have hw := (hT.lists.mem k w).mp mem
        rw [hv] at hw
        rw [Option.some.inj hw]
        exact ⟨hi, slot⟩
  · obtain ⟨d', t', T', ins, heq, -, -, hiff⟩ := hT.insert k value
    exact ⟨t', ins, heq, hiff.mpr hk⟩
  · obtain ⟨d', t', T', heq, -⟩ := hT.remove hv
    exact ⟨t', heq⟩

/-- Keys are inserted in ascending order, and some are removed. -/
def upAndDown (n lo m : ℕ) : List (Op ℕ) :=
  (List.range n).map (fun k => .insert k (k + 1000))
    ++ (List.range m).map (fun k => .remove (k + lo))

theorem refines_map_upAndDown : ∃ (t : BTree ℕ) (M : KeyMap ℕ),
    (M.lookup 20 = some 1020 ∧ M.lookup 30 = none) ∧ Refines t M := by
  obtain ⟨t, M, h, hM⟩ := Run.exists_of_map Sound (upAndDown 51 25 21)
    (f := fun r => (r.2.lookup 20, r.2.lookup 30)) (x := (some 1020, none)) (by decide +kernel)
  exact ⟨t, M, Prod.mk.inj hM, refines_map h⟩

/-- After another removal five keys are not found any more. -/
theorem not_refines_map :
    ¬ ∀ (t : BTree ℕ) (M : KeyMap ℕ), Run (fun _ _ => True) t M → Refines t M := by
  intro hall
  obtain ⟨t, M, h, hM⟩ := Run.exists_of_map (fun _ _ => True)
    (upAndDown 51 25 21 ++ [.remove 0]) (f := fun r => (r.1.get 20, r.2.lookup 20))
    (x := (some none, some 1020)) (by decide +kernel)
  obtain ⟨hget, hlookup⟩ := Prod.mk.inj hM
  have := (hall t M h).get 20
  rw [hlookup] at this
  rw [show t.get 20 = some none from hget] at this
  cases Option.some.inj this

end Furious
