import Mathlib.Tactic

/-!
Steps in any order.

Where two different steps from a state can be continued to one state, by one step each, the order of the steps does
not matter: if one run comes to an end, then all runs come to this end, after equally many steps.

* `Steps`: a run of so many steps;
* `Exchanges`: two steps can be continued to one state;
* `descent`: **every run can be continued to the end** that one run has.
-/

namespace Furious

variable {α : Type*}

/-- A run of `n` steps. -/
def Steps (r : α → α → Prop) : ℕ → α → α → Prop
  | 0, a, b => a = b
  | n + 1, a, c => ∃ b, r a b ∧ Steps r n b c

/-- From the states in `I`, two steps can be continued to one state. -/
structure Exchanges (r : α → α → Prop) (I : α → Prop) : Prop where
  keeps : ∀ a b, I a → r a b → I b
  exchange : ∀ a b c, I a → r a b → r a c → b = c ∨ ∃ d, r b d ∧ r c d

variable {r : α → α → Prop} {I : α → Prop} {a b c z : α} {m n k : ℕ}

lemma Steps.one (h : r a b) : Steps r 1 a b := ⟨b, h, rfl⟩

lemma Steps.trans (h : Steps r m a b) (h' : Steps r n b c) : Steps r (m + n) a c := by
  induction m generalizing a with
  | zero =>
      obtain rfl : a = b := h
      rwa [Nat.zero_add]
  | succ m ih =>
      obtain ⟨d, hd, hrest⟩ := h
      rw [Nat.succ_add]
      exact ⟨d, hd, ih hrest⟩

namespace Exchanges

/-- **One step** is one of those that lead to the end. -/
lemma step (h : Exchanges r I) (ha : I a) (hz : Steps r n a z) (hend : ∀ y, ¬ r z y) (hb : r a b) :
    ∃ m, n = m + 1 ∧ Steps r m b z := by
  induction n generalizing a b with
  | zero =>
      obtain rfl : a = z := hz
      exact (hend b hb).elim
  | succ n ih =>
      obtain ⟨c, hc, hrest⟩ := hz
      rcases h.exchange a b c ha hb hc with rfl | ⟨d, hbd, hcd⟩
      · exact ⟨n, rfl, hrest⟩
      · obtain ⟨m, rfl, hdz⟩ := ih (h.keeps a c ha hc) hrest hcd
        exact ⟨m + 1, rfl, d, hbd, hdz⟩

/-- **Every run can be continued to the end**, and no run is longer. -/
theorem descent (h : Exchanges r I) (ha : I a) (hz : Steps r n a z) (hend : ∀ y, ¬ r z y) (hb : Steps r k a b) :
    ∃ m, n = k + m ∧ Steps r m b z := by
  induction k generalizing a n with
  | zero =>
      obtain rfl : a = b := hb
      exact ⟨n, (Nat.zero_add n).symm, hz⟩
  | succ k ih =>
      obtain ⟨c, hc, hrest⟩ := hb
      obtain ⟨n, rfl, hcz⟩ := h.step ha hz hend hc
      obtain ⟨m, rfl, hbz⟩ := ih (h.keeps a c ha hc) hcz hrest
      exact ⟨m, by omega, hbz⟩

end Exchanges

end Furious
