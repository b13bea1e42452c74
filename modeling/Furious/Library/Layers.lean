import Mathlib.Tactic

/-!
Layers of a relation in which everything has at most one successor.

The first layer is a set of roots, and each further layer has what is one step in front of the
layer before it.

* `layer`: the layers;
* `exists_mem_layer`: what is in a layer leads to a root;
* `layer_injective`: nothing is in two layers, although the relation may have cycles;
* `exists_layer_eq_empty`: with finitely many sources the layers come to an end.
-/

namespace Furious

variable {α : Type*} {E : α → α → Prop} {R : Set α}

/-- What leads to the roots in exactly so many steps. -/
def layer (E : α → α → Prop) (R : Set α) : ℕ → Set α
  | 0 => R
  | n + 1 => {s | ∃ t, E s t ∧ t ∈ layer E R n}

lemma mem_layer_succ {n : ℕ} {s : α} :
    s ∈ layer E R (n + 1) ↔ ∃ t, E s t ∧ t ∈ layer E R n := Iff.rfl

/-- What is in a layer leads to a root. -/
lemma exists_mem_layer {x : α} : (∃ n, x ∈ layer E R n) ↔ ∃ r ∈ R, Relation.ReflTransGen E x r := by
  constructor
  · rintro ⟨n, hn⟩
    induction n generalizing x with
    | zero => exact ⟨x, hn, .refl⟩
    | succ n ih =>
        obtain ⟨t, hxt, ht⟩ := mem_layer_succ.mp hn
        obtain ⟨r, hr, htr⟩ := ih ht
        exact ⟨r, hr, .head hxt htr⟩
  · rintro ⟨r, hr, hxr⟩
    induction hxr using Relation.ReflTransGen.head_induction_on with
    | refl => exact ⟨0, hr⟩
    | head hxt _ ih =>
        obtain ⟨n, hn⟩ := ih
        exact ⟨n + 1, mem_layer_succ.mpr ⟨_, hxt, hn⟩⟩

/-- The layers in front of the first layer. -/
lemma layer_layer (n : ℕ) : layer E (layer E R 1) n = layer E R (n + 1) := by
  induction n with
  | zero => rfl
  | succ n ih =>
      ext s
      rw [mem_layer_succ, mem_layer_succ, ih]

/-- **Nothing is in two layers**: both numbers of steps lead back to a root, which has no
successor. -/
theorem layer_injective (hfun : ∀ s t t', E s t → E s t' → t = t') (hroot : ∀ r ∈ R, ∀ t, ¬ E r t)
    {i j : ℕ} {x : α} (hi : x ∈ layer E R i) (hj : x ∈ layer E R j) : i = j := by
  induction i generalizing x j with
  | zero =>
      cases j with
      | zero => rfl
      | succ j =>
          obtain ⟨t, hxt, -⟩ := mem_layer_succ.mp hj
          exact absurd hxt (hroot x hi t)
  | succ i ih =>
      obtain ⟨t, hxt, ht⟩ := mem_layer_succ.mp hi
      cases j with
      | zero => exact absurd hxt (hroot x hj t)
      | succ j =>
          obtain ⟨t', hxt', ht'⟩ := mem_layer_succ.mp hj
          obtain rfl := hfun x t t' hxt hxt'
          rw [ih ht ht']

/-- After an empty layer there is nothing. -/
lemma layer_eq_empty {n m : ℕ} (h : layer E R n = ∅) (hm : n ≤ m) : layer E R m = ∅ := by
  induction m, hm using Nat.le_induction with
  | base => exact h
  | succ m _ ih =>
      refine Set.eq_empty_iff_forall_notMem.mpr fun s hs => ?_
      obtain ⟨t, -, ht⟩ := mem_layer_succ.mp hs
      rw [ih] at ht
      exact ht

/-- **The layers come to an end** after as many steps as there are sources. -/
theorem exists_layer_eq_empty (hfun : ∀ s t t', E s t → E s t' → t = t')
    (hroot : ∀ r ∈ R, ∀ t, ¬ E r t) (D : Finset α) (hD : ∀ s t, E s t → s ∈ D) :
    layer E R (D.card + 1) = ∅ := by
  by_contra hne
  -- then each of the layers up to this one has an element, and they are distinct sources
  have hsome : ∀ n, ∃ x, n ≤ D.card → x ∈ layer E R (n + 1) := by
    intro n
    by_cases hn : n ≤ D.card
    · have hnn : layer E R (n + 1) ≠ ∅ := fun he => hne (layer_eq_empty he (by omega))
      obtain ⟨x, hx⟩ := Set.nonempty_iff_ne_empty.mpr hnn
      exact ⟨x, fun _ => hx⟩
    · obtain ⟨x, -⟩ := Set.nonempty_iff_ne_empty.mpr hne
      exact ⟨x, fun h => absurd h hn⟩
  choose f hf using hsome
  have hmaps : ∀ n ∈ Finset.range (D.card + 1), f n ∈ D := by
    intro n hn
    obtain ⟨t, hst, -⟩ := mem_layer_succ.mp (hf n (Nat.lt_succ_iff.mp (Finset.mem_range.mp hn)))
    exact hD _ t hst
  obtain ⟨i, hi, j, hj, hij, heq⟩ := Finset.exists_ne_map_eq_of_card_lt_of_maps_to
    (by rw [Finset.card_range]; omega) hmaps
  have hxi := hf i (Nat.lt_succ_iff.mp (Finset.mem_range.mp hi))
  have hxj := hf j (Nat.lt_succ_iff.mp (Finset.mem_range.mp hj))
  rw [heq] at hxi
  have := layer_injective hfun hroot hxi hxj
  omega

end Furious
