import Mathlib.Tactic

/-!
The in-order sequence of a search tree with separators.

A tree that keeps its entries in the leaves and separating keys in between is read
from left to right as one sequence of entries and separators. Everything to the
left of a separator is smaller than it, everything to the right is not; the
sequence is sorted exactly if the tree can be searched. Restructuring a tree
leaves the sequence as it is or drops separators, so the order of a tree is the
order of one list.

* `Item`, `Item.Before`: entries and separators, and their order;
* `interleave`: the sequence of a node from those of its children;
* `Inorder`: sorted sequences;
* `entriesOf`: the entries of a sequence, `Inorder.entries` their order;
* `Inorder.mid`: **a part of a sequence may be replaced by one between the same
  neighbours**.
-/

namespace Furious

variable {κ V : Type*}

/-- An entry of a leaf, or a separator of an internal node. -/
inductive Item (κ V : Type*) where
  | sep (k : κ)
  | entry (k : κ) (v : V)

/-- The entries of a sequence. -/
def entriesOf : List (Item κ V) → List (κ × V)
  | [] => []
  | .sep _ :: l => entriesOf l
  | .entry k v :: l => (k, v) :: entriesOf l

@[simp] lemma entriesOf_nil : entriesOf ([] : List (Item κ V)) = [] := rfl

@[simp] lemma entriesOf_sep (k : κ) (l : List (Item κ V)) :
    entriesOf (.sep k :: l) = entriesOf l := rfl

@[simp] lemma entriesOf_entry (k : κ) (v : V) (l : List (Item κ V)) :
    entriesOf (.entry k v :: l) = (k, v) :: entriesOf l := rfl

@[simp] lemma entriesOf_append (l l' : List (Item κ V)) :
    entriesOf (l ++ l') = entriesOf l ++ entriesOf l' := by
  induction l with
  | nil => rfl
  | cons x l ih => cases x <;> simp [ih]

lemma mem_entriesOf {l : List (Item κ V)} {k : κ} {v : V} :
    (k, v) ∈ entriesOf l ↔ .entry k v ∈ l := by
  induction l with
  | nil => simp
  | cons x l ih => cases x <;> simp [ih]

/-- The sequences of the children of a node with the separators between them. -/
def interleave : List (List (Item κ V)) → List κ → List (Item κ V)
  | [], _ => []
  | f :: fs, [] => f ++ interleave fs []
  | f :: fs, k :: ks => f ++ .sep k :: interleave fs ks

/-- What follows a child: the separator on its right and the other children. -/
def after (fs : List (List (Item κ V))) : List κ → List (Item κ V)
  | [] => interleave fs []
  | k :: ks => .sep k :: interleave fs ks

@[simp] lemma interleave_nil (ks : List κ) : interleave ([] : List (List (Item κ V))) ks = [] := by
  cases ks <;> rfl

@[simp] lemma after_nil : after ([] : List (List (Item κ V))) [] = [] := rfl

@[simp] lemma after_cons (fs : List (List (Item κ V))) (k : κ) (ks : List κ) :
    after fs (k :: ks) = .sep k :: interleave fs ks := rfl

@[simp] lemma interleave_cons (f : List (Item κ V)) (fs : List (List (Item κ V))) (ks : List κ) :
    interleave (f :: fs) ks = f ++ after fs ks := by
  cases ks <;> rfl

/-- A node in two parts, the first of which ends with a separator. -/
lemma interleave_append {fs gs : List (List (Item κ V))} {ks js : List κ}
    (h : fs.length = ks.length) :
    interleave (fs ++ gs) (ks ++ js) = interleave fs ks ++ interleave gs js := by
  induction fs generalizing ks with
  | nil =>
      obtain rfl := List.length_eq_zero_iff.mp h.symm
      simp
  | cons f fs ih =>
      cases ks with
      | nil => simp at h
      | cons k ks => simp [ih (by simpa using h)]

/-- A node in two parts with a separator between them. -/
lemma interleave_split {fs gs : List (List (Item κ V))} {ks js : List κ} {k : κ}
    (h : fs.length = ks.length + 1) :
    interleave (fs ++ gs) (ks ++ k :: js) = interleave fs ks ++ .sep k :: interleave gs js := by
  induction fs generalizing ks with
  | nil => simp at h
  | cons f fs ih =>
      cases ks with
      | nil =>
          obtain rfl := List.length_eq_zero_iff.mp (by simpa using h)
          simp
      | cons j ks => simp [ih (by simpa using h)]

/-- The separators do not matter for the entries. -/
lemma entriesOf_interleave (fs : List (List (Item κ V))) (ks : List κ) :
    entriesOf (interleave fs ks) = fs.flatMap entriesOf := by
  induction fs generalizing ks with
  | nil => simp
  | cons f fs ih => cases ks <;> simp [after, ih]

namespace Item

variable [LinearOrder κ]

/-- The order of a search tree: entries on the left of a separator are smaller than
it, those on its right are not. -/
def Before : Item κ V → Item κ V → Prop
  | sep a, sep b => a ≤ b
  | sep a, entry b _ => a ≤ b
  | entry a _, sep b => a < b
  | entry a _, entry b _ => a < b

@[simp] lemma before_sep_sep {a b : κ} : Before (sep a : Item κ V) (sep b) ↔ a ≤ b := Iff.rfl

@[simp] lemma before_sep_entry {a b : κ} {v : V} : Before (sep a) (entry b v) ↔ a ≤ b := Iff.rfl

@[simp] lemma before_entry_sep {a b : κ} {v : V} : Before (entry a v) (sep b) ↔ a < b := Iff.rfl

@[simp] lemma before_entry_entry {a b : κ} {v w : V} :
    Before (entry a v) (entry b w) ↔ a < b := Iff.rfl

end Item

variable [LinearOrder κ]

/-- Sorted sequences. -/
def Inorder (l : List (Item κ V)) : Prop := l.Pairwise Item.Before

namespace Inorder

variable {l l' l₁ l₂ A B : List (Item κ V)}

lemma sublist (h : Inorder l) (hs : l'.Sublist l) : Inorder l' := List.Pairwise.sublist hs h

/-- The entries of a sorted sequence ascend strictly. -/
theorem entries (h : Inorder l) : (entriesOf l).Pairwise fun e f => e.1 < f.1 := by
  induction l with
  | nil => exact List.Pairwise.nil
  | cons x l ih =>
      obtain ⟨hx, hl⟩ := List.pairwise_cons.mp h
      cases x with
      | sep k => exact ih hl
      | entry k v =>
          refine List.pairwise_cons.mpr ⟨fun e he => ?_, ih hl⟩
          exact hx _ (mem_entriesOf.mp he)

lemma append_iff : Inorder (l ++ l') ↔ Inorder l ∧ Inorder l' ∧ ∀ x ∈ l, ∀ y ∈ l', Item.Before x y :=
  List.pairwise_append

/-- **A part of a sequence may be replaced** by a sorted one between the same
neighbours. -/
theorem mid (h : Inorder (A ++ l ++ B)) (hl : Inorder l') (hA : ∀ x ∈ A, ∀ y ∈ l', Item.Before x y)
    (hB : ∀ x ∈ l', ∀ y ∈ B, Item.Before x y) : Inorder (A ++ l' ++ B) := by
  rw [append_iff, append_iff] at h ⊢
  obtain ⟨⟨hAs, -, -⟩, hBs, hAB⟩ := h
  refine ⟨⟨hAs, hl, hA⟩, hBs, fun x hx y hy => ?_⟩
  rcases List.mem_append.mp hx with hx | hx
  · exact hAB x (List.mem_append_left _ hx) y hy
  · exact hB x hx y hy

end Inorder

end Furious
