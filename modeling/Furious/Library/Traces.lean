import Mathlib.Tactic

/-!
Traces of a transition system.

* `Trace`: the states of a run, the last one first;
* `EveryStep`: something holds of each step;
* `Trace.always`: **what steps with a property keep** holds of all states;
* `Trace.always_iff`: when a property of all states is a property of the steps.
-/

namespace Furious

variable {σ : Type*} {init : σ → Prop} {step : σ → σ → Prop} {l : List σ}

/-- The states of a run, the last one first. -/
inductive Trace (init : σ → Prop) (step : σ → σ → Prop) : List σ → Prop
  | start {s : σ} (h : init s) : Trace init step [s]
  | next {s s' : σ} {l : List σ} (h : Trace init step (s :: l)) (hs : step s s') :
      Trace init step (s' :: s :: l)

/-- Each step has the property `P`. -/
def EveryStep (P : σ → σ → Prop) (l : List σ) : Prop := l.IsChain fun s' s => P s s'

lemma everyStep_singleton (P : σ → σ → Prop) (s : σ) : EveryStep P [s] := List.isChain_singleton s

lemma everyStep_cons_cons {P : σ → σ → Prop} {s s' : σ} :
    EveryStep P (s' :: s :: l) ↔ P s s' ∧ EveryStep P (s :: l) := List.isChain_cons_cons

namespace Trace

variable {I A : σ → Prop} {P : σ → σ → Prop}

/-- **What the steps keep** holds of all states, if each step has the property `P`. -/
theorem always (hinit : ∀ s, init s → I s) (hstep : ∀ s s', I s → step s s' → P s s' → I s')
    (h : Trace init step l) (hP : EveryStep P l) : ∀ s ∈ l, I s := by
  induction h with
  | start h => exact fun s hs => List.mem_singleton.mp hs ▸ hinit _ h
  | next _ hs ih =>
      obtain ⟨hlast, hrest⟩ := everyStep_cons_cons.mp hP
      have hall := ih hrest
      exact List.forall_mem_cons.mpr ⟨hstep _ _ (hall _ List.mem_cons_self) hs hlast, hall⟩

/-- **Good states are those that good steps lead to**: if the steps with the property `P` keep an
invariant that makes a state good, and the others lead from it to a state that is not. -/
theorem always_iff (hinit : ∀ s, init s → I s) (hgood : ∀ s, I s → A s)
    (hstep : ∀ s s', I s → step s s' → P s s' → I s') (hbad : ∀ s s', I s → step s s' → A s' → P s s')
    (h : Trace init step l) : (∀ s ∈ l, A s) ↔ EveryStep P l := by
  refine ⟨fun hA => ?_, fun hP s hs => hgood s (always hinit hstep h hP s hs)⟩
  induction h with
  | start _ => exact everyStep_singleton P _
  | @next s s' l h hs ih =>
      obtain ⟨hlast, hrest⟩ := List.forall_mem_cons.mp hA
      have hP := ih hrest
      have hI := always hinit hstep h hP s List.mem_cons_self
      exact everyStep_cons_cons.mpr ⟨hbad s s' hI hs hlast, hP⟩

end Trace

end Furious
