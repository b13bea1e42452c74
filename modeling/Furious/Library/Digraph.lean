import Mathlib.Logic.Relation
import Mathlib.Data.Fintype.Card
import Mathlib.Order.WellFounded
import Mathlib.Data.Finset.Max
import Mathlib.Tactic

/-!
Acyclic relations and orders that respect them.

A relation `R a b` is read as an arrow from `a` to `b`. The module knows nothing
of the program: it is used for graphs that are stored as lists of neighbours.

* `Acyclic`: no element reaches itself along a nonempty path;
* `acyclic_of_rank`: a function that strictly drops along every arrow excludes
  cycles;
* `Acyclic.wellFounded`: over a finite carrier acyclicity is well-foundedness;
* `Acyclic.exists_source`: every element is reached from one that no arrow
  enters;
* `PrecededBy`: a list in which every entry is preceded by its predecessors,
  `PrecededBy.snoc` the one way such a list grows, and `PrecededBy.before` what
  it means for two entries of it.
-/

namespace Furious

/-! ### Acyclic relations -/

section Acyclic

variable {α : Type*} {R : α → α → Prop}

/-- No element reaches itself along a nonempty path. -/
def Acyclic (R : α → α → Prop) : Prop :=
  ∀ a, ¬ Relation.TransGen R a a

/-- A rank that strictly drops along every arrow drops along every path. -/
lemma rank_lt_of_transGen {rank : α → ℕ} (h : ∀ a b, R a b → rank b < rank a) {a b : α}
    (hab : Relation.TransGen R a b) : rank b < rank a := by
  induction hab with
  | single hr => exact h _ _ hr
  | tail _ hr ih => exact lt_trans (h _ _ hr) ih

/-- **A rank excludes cycles.** -/
theorem acyclic_of_rank (rank : α → ℕ) (h : ∀ a b, R a b → rank b < rank a) :
    Acyclic R :=
  fun a ha => lt_irrefl (rank a) (rank_lt_of_transGen h ha)

/-- Acyclicity passes along a map that carries arrows to arrows. -/
lemma Acyclic.of_map {β : Type*} {S : β → β → Prop} (f : α → β)
    (h : ∀ a b, R a b → S (f a) (f b)) (hS : Acyclic S) : Acyclic R :=
  fun a ha => hS (f a) (Relation.TransGen.lift f h a a ha)

/-- **Over a finite carrier an acyclic relation is well-founded.** -/
theorem Acyclic.wellFounded (hR : Acyclic R) (s : Finset α) (hs : ∀ a b, R a b → a ∈ s) :
    WellFounded R := by
  let T : s → s → Prop := fun a b => Relation.TransGen R a b
  have : IsTrans s T := ⟨fun _ _ _ hab hbc => hab.trans hbc⟩
  have : Std.Irrefl T := ⟨fun a => hR a⟩
  have hT : WellFounded T := Finite.wellFounded_of_trans_of_irrefl T
  have hacc : ∀ a : s, Acc R (a : α) := by
    intro a
    induction a using hT.induction with
    | _ a ih =>
        refine Acc.intro _ fun b hb => ?_
        exact ih ⟨b, hs b a hb⟩ (Relation.TransGen.single hb)
  exact ⟨fun a => Acc.intro _ fun b hb => hacc ⟨b, hs b a hb⟩⟩

/-- Every element of a finite acyclic relation is reached from a source: an
element that no arrow enters. -/
theorem Acyclic.exists_source (hR : Acyclic R) (s : Finset α) (hs : ∀ a b, R a b → a ∈ s)
    (b : α) : ∃ a, (∀ c, ¬ R c a) ∧ Relation.ReflTransGen R a b := by
  induction b using (hR.wellFounded s hs).induction with
  | _ b ih =>
      by_cases hb : ∃ c, R c b
      · obtain ⟨c, hc⟩ := hb
        obtain ⟨a, ha, hac⟩ := ih c hc
        exact ⟨a, ha, hac.tail hc⟩
      · exact ⟨b, fun c hc => hb ⟨c, hc⟩, Relation.ReflTransGen.refl⟩

end Acyclic

/-! ### Lists that respect a relation -/

section PrecededBy

variable {α : Type*}

/-- `a` stands before `b` in the list. -/
def Before (l : List α) (a b : α) : Prop :=
  ∃ l₁ l₂, l = l₁ ++ b :: l₂ ∧ a ∈ l₁

/-- Every entry of the list is preceded by all the entries of `pred` of it. -/
def PrecededBy (pred : α → List α) (l : List α) : Prop :=
  ∀ l₁ b l₂, l = l₁ ++ b :: l₂ → ∀ a ∈ pred b, a ∈ l₁

lemma PrecededBy.nil (pred : α → List α) : PrecededBy pred [] := by
  intro l₁ b l₂ h
  simp at h

/-- The list grows at its end by an element whose predecessors are all in it. -/
lemma PrecededBy.snoc {pred : α → List α} {l : List α} {b : α} (hl : PrecededBy pred l)
    (hb : ∀ a ∈ pred b, a ∈ l) : PrecededBy pred (l ++ [b]) := by
  intro l₁ c l₂ h a ha
  rcases List.eq_nil_or_concat l₂ with rfl | ⟨l₃, d, rfl⟩
  · obtain ⟨rfl, hbc⟩ := List.append_inj' h rfl
    obtain rfl : b = c := by simpa using hbc
    exact hb a ha
  · have h' : l ++ [b] = (l₁ ++ c :: l₃) ++ [d] := by simpa using h
    obtain ⟨rfl, -⟩ := List.append_inj' h' rfl
    exact hl l₁ c l₃ rfl a ha

/-- In such a list a predecessor of an entry stands before it. -/
lemma PrecededBy.before {pred : α → List α} {l : List α} (hl : PrecededBy pred l) {a b : α}
    (hb : b ∈ l) (ha : a ∈ pred b) : Before l a b := by
  obtain ⟨l₁, l₂, rfl⟩ := List.append_of_mem hb
  exact ⟨l₁, l₂, rfl, hl l₁ b l₂ rfl a ha⟩

end PrecededBy

end Furious
