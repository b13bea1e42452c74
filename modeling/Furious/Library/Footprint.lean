import Mathlib.Tactic

/-!
Footprints: which cells of a memory an operation may touch.

A memory is a partial function from addresses to values. The cells of a data
structure are its footprint; an operation that works on one structure turns a
footprint `S` into a footprint `S'`, leaves the cells outside both as they were,
draws the cells it adds from the vacant ones and vacates those it drops.

* `Frame`: such a step, `Frame.trans` its composition, `Frame.extend` the frame
  rule: cells that belong to somebody else may be added on both sides;
* `Frame.alloc`, `Frame.write`, `Frame.free`: the updates of one cell, and
  `Vacates` the release of many;
* `Separated`: owners with live and pairwise disjoint footprints;
  `Separated.update`: **a step of one owner keeps all of them separated and
  changes no cell of the others**; `Separated.move`: a part of a footprint
  changes hands.
-/

namespace Furious

variable {κ ν ι : Type*}

/-! ### Steps between footprints -/

/-- A step from the memory `m` to `m'` that owns `S` before and `S'` after. -/
structure Frame (m m' : κ → Option ν) (S S' : Set κ) : Prop where
  same : ∀ k, k ∉ S → k ∉ S' → m' k = m k
  fresh : ∀ k ∈ S', k ∉ S → m k = none
  dropped : ∀ k ∈ S, k ∉ S' → m' k = none

namespace Frame

variable {m m' m'' : κ → Option ν} {S S' S'' R : Set κ}

lemma refl (m : κ → Option ν) (S : Set κ) : Frame m m S S where
  same _ _ _ := rfl
  fresh _ h h' := absurd h h'
  dropped _ h h' := absurd h h'

/-- **Steps compose.** -/
theorem trans (h : Frame m m' S S') (h' : Frame m' m'' S' S'') : Frame m m'' S S'' where
  same k hS hS'' := by
    by_cases hS' : k ∈ S'
    · rw [h'.dropped k hS' hS'', h.fresh k hS' hS]
    · rw [h'.same k hS' hS'', h.same k hS hS']
  fresh k hS'' hS := by
    by_cases hS' : k ∈ S'
    · exact h.fresh k hS' hS
    · rw [← h.same k hS hS']
      exact h'.fresh k hS'' hS'
  dropped k hS hS'' := by
    by_cases hS' : k ∈ S'
    · exact h'.dropped k hS' hS''
    · rw [h'.same k hS' hS'']
      exact h.dropped k hS hS'

/-- **The frame rule.** -/
theorem extend (h : Frame m m' S S') (R : Set κ) : Frame m m' (S ∪ R) (S' ∪ R) where
  same k hS hS' :=
    h.same k (fun hk => hS (Or.inl hk)) (fun hk => hS' (Or.inl hk))
  fresh k hS' hS := by
    rcases hS' with hk | hk
    · exact h.fresh k hk (fun hk' => hS (Or.inl hk'))
    · exact absurd (Or.inr hk) hS
  dropped k hS hS' := by
    rcases hS with hk | hk
    · exact h.dropped k hk (fun hk' => hS' (Or.inl hk'))
    · exact absurd (Or.inr hk) hS'

/-- Live cells of somebody else are not touched. -/
lemma eq_of_live (h : Frame m m' S S') {k : κ} (hS : k ∉ S) (hlive : m k ≠ none) :
    m' k = m k :=
  h.same k hS fun hk => hlive (h.fresh k hk hS)

/-- Live cells of somebody else are not taken over. -/
lemma not_mem_of_live (h : Frame m m' S S') {k : κ} (hS : k ∉ S) (hlive : m k ≠ none) :
    k ∉ S' :=
  fun hk => hlive (h.fresh k hk hS)

variable [DecidableEq κ]

/-- Taking a vacant cell. -/
lemma alloc {k : κ} (hk : m k = none) (v : ν) (S : Set κ) :
    Frame m (Function.update m k (some v)) S (insert k S) where
  same j hS hS' := by
    rw [Function.update_of_ne]
    rintro rfl
    exact hS' (Set.mem_insert _ _)
  fresh j hS' hS := by
    rcases hS' with rfl | hj
    · exact hk
    · exact absurd hj hS
  dropped j hS hS' := absurd (Set.mem_insert_of_mem k hS) hS'

/-- Overwriting an owned cell. -/
lemma write {k : κ} (hk : k ∈ S) (v : ν) : Frame m (Function.update m k (some v)) S S where
  same j hS _ := by
    rw [Function.update_of_ne]
    rintro rfl
    exact hS hk
  fresh j hS' hS := absurd hS' hS
  dropped j hS hS' := absurd hS hS'

/-- Vacating an owned cell. -/
lemma free {k : κ} (hk : k ∉ S) (m : κ → Option ν) :
    Frame m (Function.update m k none) (insert k S) S where
  same j hS _ := by
    rw [Function.update_of_ne]
    rintro rfl
    exact hS (Set.mem_insert _ _)
  fresh j hS' hS := absurd (Set.mem_insert_of_mem k hS') hS
  dropped j hS hS' := by
    rcases hS with rfl | hj
    · exact Function.update_self _ _ _
    · exact absurd hj hS'

end Frame

/-- The step from `m` to `m'` vacates the cells of `S` and touches no other. -/
structure Vacates (m m' : κ → Option ν) (S : Set κ) : Prop where
  vacant : ∀ k ∈ S, m' k = none
  same : ∀ k, k ∉ S → m' k = m k

namespace Vacates

variable {m m' m'' : κ → Option ν} {S T : Set κ}

lemma empty (m : κ → Option ν) : Vacates m m (∅ : Set κ) where
  vacant _ h := absurd h (Set.notMem_empty _)
  same _ _ := rfl

lemma single [DecidableEq κ] (m : κ → Option ν) (k : κ) :
    Vacates m (Function.update m k none) {k} where
  vacant j hj := by
    obtain rfl := Set.mem_singleton_iff.mp hj
    exact Function.update_self _ _ _
  same j hj := Function.update_of_ne (fun e => hj (Set.mem_singleton_iff.mpr e)) _ _

/-- Releases one after the other. -/
lemma trans (h : Vacates m m' S) (h' : Vacates m' m'' T) : Vacates m m'' (S ∪ T) where
  vacant k hk := by
    by_cases hT : k ∈ T
    · exact h'.vacant k hT
    · rw [h'.same k hT]
      exact h.vacant k (hk.resolve_right hT)
  same k hk := by
    rw [h'.same k fun hT => hk (Or.inr hT), h.same k fun hS => hk (Or.inl hS)]

/-- What is released is dropped from the footprint. -/
lemma frame (h : Vacates m m' S) : Frame m m' S ∅ where
  same k hS _ := h.same k hS
  fresh k hk _ := absurd hk (Set.notMem_empty k)
  dropped k hS _ := h.vacant k hS

end Vacates

/-! ### Owners -/

/-- Every owner's cells are live, and no cell has two owners. -/
structure Separated (m : κ → Option ν) (F : ι → Set κ) : Prop where
  live : ∀ i, ∀ k ∈ F i, m k ≠ none
  disjoint : ∀ i j, i ≠ j → ∀ k ∈ F i, k ∉ F j

namespace Separated

variable {m m' : κ → Option ν} {F : ι → Set κ} {S : Set κ} {i : ι}

/-- Nobody owns anything in the beginning. -/
lemma empty (m : κ → Option ν) : Separated m fun _ : ι => (∅ : Set κ) where
  live _ _ h := absurd h (Set.notMem_empty _)
  disjoint _ _ _ _ h := absurd h (Set.notMem_empty _)

/-- A step of one owner changes no cell of another. -/
lemma eq_of_ne (h : Separated m F) (hf : Frame m m' (F i) S) {j : ι} (hj : j ≠ i) {k : κ}
    (hk : k ∈ F j) : m' k = m k :=
  hf.eq_of_live (h.disjoint j i hj k hk) (h.live j k hk)

variable [DecidableEq ι]

/-- **A step of one owner keeps the owners separated.** -/
theorem update (h : Separated m F) (hf : Frame m m' (F i) S) (hS : ∀ k ∈ S, m' k ≠ none) :
    Separated m' (Function.update F i S) where
  live j k hk := by
    rcases eq_or_ne j i with rfl | hj
    · rw [Function.update_self] at hk
      exact hS k hk
    · rw [Function.update_of_ne hj] at hk
      rw [h.eq_of_ne hf hj hk]
      exact h.live j k hk
  disjoint j l hjl k hk hl := by
    have key : ∀ j' : ι, j' ≠ i → k ∈ F j' → k ∉ S := fun j' hj' hk' =>
      hf.not_mem_of_live (h.disjoint j' i hj' k hk') (h.live j' k hk')
    rcases eq_or_ne j i with rfl | hj
    · rw [Function.update_self] at hk
      rw [Function.update_of_ne hjl.symm] at hl
      exact key l hjl.symm hl hk
    · rw [Function.update_of_ne hj] at hk
      rcases eq_or_ne l i with rfl | hli
      · rw [Function.update_self] at hl
        exact key j hj hk hl
      · rw [Function.update_of_ne hli] at hl
        exact h.disjoint j l hjl k hk hl

/-- A part `B` of the cells of `i` goes to an owner that has none. -/
lemma move (h : Separated m F) {j : ι} {A B : Set κ} (hij : i ≠ j) (hi : F i = A ∪ B)
    (hAB : ∀ k ∈ A, k ∉ B) (hj : F j = ∅) :
    Separated m (Function.update (Function.update F i A) j B) := by
  have hval : ∀ l, Function.update (Function.update F i A) j B l ⊆
      if l = i ∨ l = j then F i else F l := by
    intro l k hk
    rcases eq_or_ne l j with rfl | hlj
    · rw [Function.update_self] at hk
      rw [if_pos (Or.inr rfl), hi]
      exact Or.inr hk
    · rw [Function.update_of_ne hlj] at hk
      rcases eq_or_ne l i with rfl | hli
      · rw [Function.update_self] at hk
        rw [if_pos (Or.inl rfl), hi]
        exact Or.inl hk
      · rw [Function.update_of_ne hli] at hk
        rw [if_neg (by simp [hli, hlj])]
        exact hk
  refine ⟨fun l k hk => ?_, fun l l' hll k hk hk' => ?_⟩
  · have := hval l hk
    split at this
    · exact h.live i k this
    · exact h.live l k this
  · have h₁ := hval l hk
    have h₂ := hval l' hk'
    by_cases hl : l = i ∨ l = j
    · rw [if_pos hl] at h₁
      by_cases hl' : l' = i ∨ l' = j
      · -- both sides hold parts of the old footprint of `i`
        rcases hl with rfl | rfl
        · rcases hl' with rfl | rfl
          · exact hll rfl
          · rw [Function.update_of_ne hij, Function.update_self] at hk
            rw [Function.update_self] at hk'
            exact hAB k hk hk'
        · rcases hl' with rfl | rfl
          · rw [Function.update_self] at hk
            rw [Function.update_of_ne hij, Function.update_self] at hk'
            exact hAB k hk' hk
          · exact hll rfl
      · rw [if_neg hl'] at h₂
        exact h.disjoint i l' (fun e => hl' (Or.inl e.symm)) k h₁ h₂
    · rw [if_neg hl] at h₁
      by_cases hl' : l' = i ∨ l' = j
      · rw [if_pos hl'] at h₂
        exact h.disjoint l i (fun e => hl (Or.inl e)) k h₁ h₂
      · rw [if_neg hl'] at h₂
        exact h.disjoint l l' hll k h₁ h₂

end Separated

end Furious
