import Mathlib.Tactic

/-!
Arrays of which a first part is used.

An array has a fixed number of slots; the values it stands for are in the first
of them. What the other slots hold is either unknown or one padding value.

* `Prefixed`: the values are in the first slots;
* `Padded`: and the other slots hold the padding;
* `Prefixed.insert`, `Prefixed.erase`, `Prefixed.overwrite` and the same for
  `Padded`: shifting values to the right or to the left, and appending.
-/

namespace Furious

variable {β : Type*} {arr xs ys l r : List β} {cap n : ℕ} {x pad : β}

/-- An array of `cap` slots with `xs` in the first of them. -/
def Prefixed (cap : ℕ) (xs arr : List β) : Prop := xs <+: arr ∧ arr.length = cap

/-- An array of `cap` slots with `xs` in the first of them and `pad` in the others. -/
def Padded (cap : ℕ) (pad : β) (xs arr : List β) : Prop :=
  ∃ m, arr = xs ++ List.replicate m pad ∧ xs.length + m = cap

/-- Consecutive assignments to the slots of an array from `i` on. -/
def overwrite (l : List β) (i : ℕ) (xs : List β) : List β :=
  l.take i ++ xs ++ l.drop (i + xs.length)

lemma insertIdx_mid (l r : List β) (x : β) : (l ++ r).insertIdx l.length x = l ++ x :: r := by
  induction l with
  | nil => simp
  | cons y l ih => simp [ih]

lemma eraseIdx_mid (l r : List β) (x : β) : (l ++ x :: r).eraseIdx l.length = l ++ r := by
  rw [List.eraseIdx_append_of_length_le le_rfl]
  simp

lemma set_mid (l r : List β) (x y : β) : (l ++ x :: r).set l.length y = l ++ y :: r := by
  rw [List.set_append_right _ _ le_rfl]
  simp

/-- A list is cut behind its first `n` elements. -/
lemma exists_append (h : n ≤ xs.length) : ∃ l r, xs = l ++ r ∧ l.length = n :=
  ⟨xs.take n, xs.drop n, (List.take_append_drop n xs).symm, List.length_take_of_le h⟩

/-- A list is cut around its element `n`. -/
lemma exists_append_cons (h : n < xs.length) : ∃ l x r, xs = l ++ x :: r ∧ l.length = n := by
  obtain ⟨l, r, rfl, hl⟩ := exists_append h.le
  cases r with
  | nil =>
      rw [List.append_nil] at h
      omega
  | cons x r => exact ⟨l, x, r, rfl, hl⟩

namespace Prefixed

lemma length_le (h : Prefixed cap xs arr) : xs.length ≤ cap := h.2 ▸ h.1.length_le

/-- The value in a used slot. -/
lemma mid (h : Prefixed cap (l ++ x :: r) arr) : arr[l.length]? = some x := by
  obtain ⟨⟨junk, rfl⟩, -⟩ := h
  simp

lemma set (h : Prefixed cap (l ++ x :: r) arr) (y : β) :
    Prefixed cap (l ++ y :: r) (arr.set l.length y) := by
  obtain ⟨⟨junk, rfl⟩, hlen⟩ := h
  refine ⟨⟨junk, ?_⟩, by simpa using hlen⟩
  rw [List.append_assoc l (x :: r), List.cons_append, set_mid]
  simp

lemma insert (h : Prefixed cap (l ++ r) arr) (hlt : (l ++ r).length < cap) (x : β) :
    Prefixed cap (l ++ x :: r) ((arr.insertIdx l.length x).take cap) := by
  obtain ⟨⟨junk, rfl⟩, hlen⟩ := h
  rw [List.append_assoc, insertIdx_mid]
  simp only [List.length_append] at hlt hlen
  exact ⟨List.prefix_take_iff.mpr ⟨⟨junk, by simp⟩, by simp; omega⟩, by simp; omega⟩

lemma erase (h : Prefixed cap (l ++ x :: r) arr) :
    Prefixed cap (l ++ r) (arr.eraseIdx l.length ++ arr.drop (cap - 1)) := by
  obtain ⟨⟨junk, rfl⟩, hlen⟩ := h
  rw [List.append_assoc, List.cons_append, eraseIdx_mid]
  simp only [List.length_append, List.length_cons] at hlen
  exact ⟨⟨junk ++ List.drop (cap - 1) (l ++ x :: (r ++ junk)), by simp⟩, by simp; omega⟩

lemma overwrite (h : Prefixed cap xs arr) (ys : List β) (hle : (xs ++ ys).length ≤ cap) :
    Prefixed cap (xs ++ ys) (overwrite arr xs.length ys) := by
  obtain ⟨⟨junk, rfl⟩, hlen⟩ := h
  simp only [List.length_append] at hle hlen
  exact ⟨⟨junk.drop ys.length, by simp [Furious.overwrite]⟩, by simp [Furious.overwrite]; omega⟩

/-- The first values, in a new array. -/
lemma take (h : Prefixed cap (l ++ r) arr) (hn : l.length = n) (htail : n + ys.length = cap) :
    Prefixed cap l (arr.take n ++ ys) := by
  obtain ⟨⟨junk, rfl⟩, -⟩ := h
  subst hn
  rw [List.append_assoc, List.take_left]
  exact ⟨List.prefix_append _ _, by simpa using htail⟩

/-- The last values, in a new array. -/
lemma drop (h : Prefixed cap (l ++ r) arr) (hn : l.length = n) (htail : ys.length = n) :
    Prefixed cap r (arr.drop n ++ ys) := by
  obtain ⟨⟨junk, rfl⟩, hlen⟩ := h
  subst hn
  simp only [List.length_append] at hlen
  rw [List.append_assoc, List.drop_left]
  exact ⟨⟨junk ++ ys, by simp⟩, by simp; omega⟩

/-- The used slots. -/
lemma take_eq (h : Prefixed cap xs arr) : arr.take xs.length = xs := by
  obtain ⟨⟨junk, rfl⟩, -⟩ := h
  exact List.take_left

end Prefixed

namespace Padded

/-- Without the padding. -/
lemma prefixed (h : Padded cap pad xs arr) : Prefixed cap xs arr := by
  obtain ⟨m, rfl, hm⟩ := h
  exact ⟨List.prefix_append _ _, by simpa using hm⟩

lemma nil (cap : ℕ) (pad : β) : Padded cap pad [] (List.replicate cap pad) :=
  ⟨cap, rfl, Nat.zero_add _⟩

lemma eq_replicate (h : Padded cap pad [] arr) : arr = List.replicate cap pad := by
  obtain ⟨m, rfl, rfl⟩ := h
  simp

lemma set (h : Padded cap pad (l ++ x :: r) arr) (y : β) :
    Padded cap pad (l ++ y :: r) (arr.set l.length y) := by
  obtain ⟨m, rfl, hm⟩ := h
  refine ⟨m, ?_, by simpa using hm⟩
  rw [List.append_assoc l (x :: r), List.cons_append, set_mid]
  simp

lemma insert (h : Padded cap pad (l ++ r) arr) (hlt : (l ++ r).length < cap) (x : β) :
    Padded cap pad (l ++ x :: r) ((arr.insertIdx l.length x).take cap) := by
  obtain ⟨m, rfl, hm⟩ := h
  cases m with
  | zero => omega
  | succ m =>
      have hlen : (l ++ x :: r ++ List.replicate m pad).length = cap := by
        simp at hm ⊢
        omega
      refine ⟨m, ?_, by simp at hm ⊢; omega⟩
      have hins : (l ++ r ++ List.replicate (m + 1) pad).insertIdx l.length x
          = (l ++ x :: r ++ List.replicate m pad) ++ [pad] := by
        rw [List.append_assoc, insertIdx_mid, List.replicate_succ']
        simp
      rw [hins, ← hlen]
      exact List.take_left

lemma erase (h : Padded cap pad (l ++ x :: r) arr) :
    Padded cap pad (l ++ r)
      ((arr.eraseIdx l.length ++ arr.drop (cap - 1)).set (l ++ r).length pad) := by
  obtain ⟨m, rfl, hm⟩ := h
  simp only [List.length_append, List.length_cons] at hm
  refine ⟨m + 1, ?_, by simp; omega⟩
  rw [List.append_assoc l, List.cons_append, eraseIdx_mid, ← List.append_assoc l r,
    List.append_assoc (l ++ r), List.set_append_right _ _ le_rfl, Nat.sub_self]
  congr 1
  cases m with
  | zero =>
      -- the array was full: its last slot still holds the last value
      obtain ⟨y, hy⟩ : ∃ y, List.drop (cap - 1) (l ++ x :: (r ++ List.replicate 0 pad)) = [y] := by
        apply List.length_eq_one_iff.mp
        simp
        omega
      rw [hy]
      simp
  | succ m =>
      have hd : List.drop (cap - 1) (l ++ x :: (r ++ List.replicate (m + 1) pad)) = [pad] := by
        rw [List.replicate_succ', show l ++ x :: (r ++ (List.replicate m pad ++ [pad]))
          = (l ++ x :: r ++ List.replicate m pad) ++ [pad] by simp,
          show cap - 1 = (l ++ x :: r ++ List.replicate m pad).length by simp; omega]
        exact List.drop_left
      rw [hd, List.replicate_succ, List.cons_append, List.set_cons_zero, List.replicate_succ,
        List.replicate_succ']

lemma overwrite (h : Padded cap pad xs arr) (ys : List β) (hle : (xs ++ ys).length ≤ cap) :
    Padded cap pad (xs ++ ys) (overwrite arr xs.length ys) := by
  obtain ⟨m, rfl, hm⟩ := h
  simp only [List.length_append] at hle
  exact ⟨m - ys.length, by simp [Furious.overwrite], by simp; omega⟩

/-- The first values, the others made vacant. -/
lemma take (h : Padded cap pad (l ++ r) arr) (hn : l.length = n) :
    Padded cap pad l (arr.take n ++ List.replicate (cap - n) pad) := by
  obtain ⟨m, rfl, hm⟩ := h
  subst hn
  simp only [List.length_append] at hm
  exact ⟨cap - l.length, by rw [List.append_assoc, List.take_left], by omega⟩

/-- The last values, in a new array. -/
lemma drop (h : Padded cap pad (l ++ r) arr) (hn : l.length = n) :
    Padded cap pad r (arr.drop n ++ List.replicate n pad) := by
  obtain ⟨m, rfl, hm⟩ := h
  subst hn
  simp only [List.length_append] at hm
  refine ⟨m + l.length, ?_, by omega⟩
  rw [List.append_assoc, List.drop_left, List.append_assoc, List.replicate_append_replicate]

/-- The array with its values made vacant. -/
lemma clear (h : Padded cap pad xs arr) :
    Furious.overwrite arr 0 (List.replicate xs.length pad) = List.replicate cap pad := by
  obtain ⟨m, rfl, rfl⟩ := h
  simp [Furious.overwrite]

/-- A slot of an array of pointers that is not used holds a null pointer. -/
lemma join {xs arr : List (Option β)} (h : Padded cap none xs arr) (i : ℕ) :
    arr[i]?.join = xs[i]?.join := by
  obtain ⟨m, rfl, -⟩ := h
  by_cases hi : i < xs.length
  · rw [List.getElem?_append_left hi]
  · rw [List.getElem?_append_right (not_lt.mp hi), List.getElem?_eq_none (not_lt.mp hi),
      List.getElem?_replicate]
    split <;> rfl

end Padded

end Furious
