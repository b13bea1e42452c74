import Mathlib.Tactic

/-!
Doubly linked lists in a memory.

The links of a node are the pair of its `next` and its `prev` pointer; `lk` reads
them. `DLinked lk l` says that the nodes listed in `l`, in this order, are linked
both ways and end with null pointers. The three updates that intrusive lists
need are stated for any new link function that differs from the old one as the
code's assignments make it differ.

* `DLinked.pushFront`, `DLinked.pushBack`: a node joins at an end;
* `DLinked.unlink`: **a node leaves, wherever it stands**.
-/

namespace Furious

variable {κ : Type*}

/-- The links of the nodes of `l`: each points to its neighbours in the list. -/
def DLinked (lk : κ → Option (Option κ × Option κ)) (l : List κ) : Prop :=
  ∀ l₁ a l₂, l = l₁ ++ a :: l₂ → lk a = some (l₂.head?, l₁.getLast?)

variable {lk lk' : κ → Option (Option κ × Option κ)} {l : List κ}

lemma DLinked.nil (lk : κ → Option (Option κ × Option κ)) : DLinked lk [] := by
  intro l₁ a l₂ h
  simp at h

variable [DecidableEq κ]

/-- **A node joins in front.** -/
theorem DLinked.pushFront (h : DLinked lk l) {a : κ} (ha : lk' a = some (l.head?, none))
    (hnd : l.Nodup)
    (hlk : ∀ k nx pv, k ∈ l → lk k = some (nx, pv) →
      lk' k = some (nx, if l.head? = some k then some a else pv)) :
    DLinked lk' (a :: l) := by
  intro l₁ b l₂ hl
  cases l₁ with
  | nil =>
      obtain ⟨rfl, rfl⟩ : a = b ∧ l = l₂ := by simpa using hl
      exact ha
  | cons c l₁ =>
      obtain ⟨rfl, rfl⟩ : a = c ∧ l = l₁ ++ b :: l₂ := by simpa using hl
      rw [hlk b _ _ (by simp) (h l₁ b l₂ rfl)]
      cases l₁ with
      | nil => simp
      | cons d l₁ =>
          have hdb : d ≠ b := by
            rintro rfl
            simp at hnd
          simp [hdb]

/-- **A node joins at the back.** -/
theorem DLinked.pushBack (h : DLinked lk l) {a : κ} (ha : lk' a = some (none, l.getLast?))
    (hnd : l.Nodup)
    (hlk : ∀ k nx pv, k ∈ l → lk k = some (nx, pv) →
      lk' k = some (if l.getLast? = some k then some a else nx, pv)) :
    DLinked lk' (l ++ [a]) := by
  intro l₁ b l₂ hl
  cases l₂ using List.reverseRecOn with
  | nil =>
      obtain ⟨rfl, hab⟩ := List.append_inj' hl rfl
      obtain rfl : a = b := by simpa using hab
      exact ha
  | append_singleton l₃ c _ =>
      have h' : l ++ [a] = (l₁ ++ b :: l₃) ++ [c] := by simpa using hl
      obtain ⟨rfl, hac⟩ := List.append_inj' h' rfl
      obtain rfl : a = c := by simpa using hac
      rw [hlk b _ _ (by simp) (h l₁ b l₃ rfl)]
      cases l₃ with
      | nil => simp
      | cons d l₄ =>
          have hlast : (l₁ ++ b :: d :: l₄).getLast? ≠ some b := by
            rw [List.getLast?_append_cons, List.getLast?_cons_cons]
            intro e
            have := List.mem_of_getLast? e
            simp_all [List.nodup_append]
          rw [if_neg hlast]
          simp

/-- **A node leaves the list**: its predecessor is linked to its successor and
back. -/
theorem DLinked.unlink {l₁ l₂ : List κ} {a : κ} (h : DLinked lk (l₁ ++ a :: l₂))
    (hnd : (l₁ ++ a :: l₂).Nodup)
    (hlk : ∀ k nx pv, k ∈ l₁ ++ l₂ → lk k = some (nx, pv) →
      lk' k = some (if l₁.getLast? = some k then l₂.head? else nx,
        if l₂.head? = some k then l₁.getLast? else pv)) :
    DLinked lk' (l₁ ++ l₂) := by
  -- a node of the second part keeps its successor
  have hright : ∀ t k k₂, l₂ = t ++ k :: k₂ → lk' k = some (k₂.head?, (l₁ ++ t).getLast?) := by
    intro t k k₂ ht
    subst ht
    have hk₁ : l₁.getLast? ≠ some k := by
      intro e
      exact List.disjoint_of_nodup_append hnd (List.mem_of_getLast? e) (by simp)
    rw [hlk k _ _ (by simp) (h (l₁ ++ a :: t) k k₂ (by simp)), if_neg hk₁]
    cases t with
    | nil => simp
    | cons c t =>
        have hck : c ≠ k := by
          rintro rfl
          simp_all [List.nodup_append]
        simp [hck, List.getLast?_append]
  intro k₁ k k₂ hk
  rcases List.append_eq_append_iff.mp hk with ⟨t, rfl, ht⟩ | ⟨t, rfl, ht⟩
  · exact hright t k k₂ ht
  · cases t with
    | nil => simpa using hright [] k k₂ (by simpa using ht.symm)
    | cons c t =>
        obtain ⟨rfl, rfl⟩ : k = c ∧ k₂ = t ++ l₂ := by simpa using ht
        have hk₂ : l₂.head? ≠ some k := by
          intro e
          have := List.mem_of_head? e
          simp_all [List.nodup_append]
        rw [hlk k _ _ (by simp) (h k₁ k (t ++ a :: l₂) (by simp)), if_neg hk₂]
        cases t with
        | nil => simp
        | cons d t =>
            have hlast : (k₁ ++ k :: d :: t).getLast? ≠ some k := by
              rw [List.getLast?_append_cons, List.getLast?_cons_cons]
              intro e
              have := List.mem_of_getLast? e
              simp_all [List.nodup_append]
            rw [if_neg hlast]
            simp

end Furious
