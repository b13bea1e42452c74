import Mathlib.Tactic

/-!
Recursions that are given the depth to which they may go.

A result is an output or what has stopped the recursion; some of what stops it is `bad`, such as a depth that
does not suffice.

* `Settles`: from some depth on, nothing bad stops it;
* `settles_of_succ`, `settles_andThen`, `settles_const`: the rules, along the recursion;
* `Fails`, `Fails.not_settles`: what is stopped at every depth.
-/

namespace Furious

variable {ε α : Type*}

/-- **From some depth on, nothing bad happens.** -/
def Settles (bad : ε → Prop) (x : ℕ → Except ε α) : Prop :=
  ∃ n, ∀ m, n ≤ m → ∀ e, x m = .error e → ¬ bad e

/-- One output after another. -/
def andThen (x y : Except ε (List α)) : Except ε (List α) := do
  let a ← x
  let b ← y
  .ok (a ++ b)

variable {bad : ε → Prop}

/-- What does not depend on the depth. -/
lemma settles_const {x : Except ε α} (hx : ∀ e, x = .error e → ¬ bad e) : Settles bad fun _ => x :=
  ⟨0, fun _ _ => hx⟩

/-- A step of the recursion. -/
lemma settles_of_succ {x y : ℕ → Except ε α} (hstep : ∀ n, x (n + 1) = y n) (hy : Settles bad y) :
    Settles bad x := by
  obtain ⟨n, hn⟩ := hy
  refine ⟨n + 1, fun m hm => ?_⟩
  obtain ⟨k, rfl⟩ : ∃ k, m = k + 1 := ⟨m - 1, by omega⟩
  rw [hstep]
  exact hn k (by omega)

/-- One output after another. -/
lemma settles_andThen {x y : ℕ → Except ε (List α)} (hx : Settles bad x) (hy : Settles bad y) :
    Settles bad fun n => andThen (x n) (y n) := by
  obtain ⟨n, hn⟩ := hx
  obtain ⟨k, hk⟩ := hy
  refine ⟨max n k, fun m hm e he => ?_⟩
  have hx := hn m (le_of_max_le_left hm)
  have hy := hk m (le_of_max_le_right hm)
  dsimp only at he
  cases hxm : x m with
  | error e' =>
      rw [hxm] at he
      obtain rfl := Except.error.inj he
      exact hx _ hxm
  | ok a =>
      cases hym : y m with
      | error e' =>
          rw [hxm, hym] at he
          obtain rfl := Except.error.inj he
          exact hy _ hym
      | ok b =>
          rw [hxm, hym] at he
          cases he

/-- **Stopped at every depth.** -/
def Fails (x : ℕ → Except ε α) : Prop := ∀ m, ∃ e, x m = .error e

/-- What is stopped at every depth does not settle. -/
lemma Fails.not_settles {x : ℕ → Except ε α} (h : Fails x) : ¬ Settles (fun _ => True) x := by
  rintro ⟨n, hn⟩
  obtain ⟨e, he⟩ := h n
  exact hn n le_rfl e he trivial

/-- A step of the recursion, which does not begin without depth. -/
lemma Fails.of_succ {x y : ℕ → Except ε α} (hzero : ∃ e, x 0 = .error e) (hstep : ∀ n, x (n + 1) = y n) (hy : Fails y) :
    Fails x
  | 0 => hzero
  | n + 1 => hstep n ▸ hy n

/-- The first of two outputs is stopped. -/
lemma Fails.andThen_left {x : ℕ → Except ε (List α)} (hx : Fails x) (y : ℕ → Except ε (List α)) :
    Fails fun n => andThen (x n) (y n) := by
  intro n
  obtain ⟨e, he⟩ := hx n
  dsimp only
  exact ⟨e, by rw [he]; rfl⟩

/-- The second of two outputs is stopped. -/
lemma Fails.andThen_right (x : ℕ → Except ε (List α)) {y : ℕ → Except ε (List α)} (hy : Fails y) :
    Fails fun n => andThen (x n) (y n) := by
  intro n
  obtain ⟨e, he⟩ := hy n
  dsimp only
  cases x n with
  | error e' => exact ⟨e', rfl⟩
  | ok a => exact ⟨e, by rw [he]; rfl⟩

end Furious
