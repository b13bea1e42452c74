import Furious.Library.Digraph

/-!
Actions of which some may be exchanged.

Actions change a state one after the other. Some must come behind others; two of which neither must come behind the
other can be exchanged. Then all orders that keep what must come behind what lead to the same state.

* `Respects`: an order in which nothing comes behind what must come behind it; `PrecededBy.pairwise`: such an order from
  a list in which every entry comes behind its predecessors;
* `foldl_eq_of_respects`: **all such orders** of the same actions lead to one state;
* `Confined`: an action that reads some places and writes some of them; `Confined.comm`: **two actions can be
  exchanged** if none writes what the other reads.
-/

namespace Furious

/-! ### Orders -/

/-- In a list in which every entry comes behind its predecessors, no predecessor comes behind an entry. -/
lemma PrecededBy.pairwise {α : Type*} {pred : α → List α} {l : List α} (h : PrecededBy pred l) (hnd : l.Nodup) :
    l.Pairwise fun a b => b ∉ pred a := by
  rw [List.pairwise_iff_forall_sublist]
  intro a b hab hb
  obtain ⟨r, r', rfl, ha, hb'⟩ := List.cons_sublist_iff.mp hab
  obtain ⟨p, q, rfl⟩ := List.append_of_mem ha
  have hfirst : b ∈ p := h p a (q ++ r') (by simp) b hb
  have hlast : b ∈ r' := List.singleton_sublist.mp hb'
  exact (List.nodup_append.mp hnd).2.2 b (List.mem_append_left _ hfirst) b hlast rfl

section Orders

variable {α σ : Type*} {R : α → α → Prop} {act : σ → α → σ} {l l' : List α} {a : α}

/-- Nothing in the list must come behind something that stands behind it; `R a b` says that `a` must come behind `b`. -/
def Respects (R : α → α → Prop) (l : List α) : Prop := l.Pairwise fun a b => ¬ R a b

/-- Two actions can be exchanged unless one of them must come behind the other. -/
def Exchangeable (R : α → α → Prop) (act : σ → α → σ) (l : List α) : Prop :=
  ∀ a ∈ l, ∀ b ∈ l, ¬ R a b → ¬ R b a → ∀ s, act (act s a) b = act (act s b) a

/-- An action goes to the front. -/
lemma foldl_to_front {p : List α} (q : List α) (h : ∀ b ∈ p, ∀ s, act (act s b) a = act (act s a) b) (s : σ) :
    (p ++ a :: q).foldl act s = (a :: p ++ q).foldl act s := by
  induction p generalizing s with
  | nil => rfl
  | cons b p ih =>
      calc (b :: p ++ a :: q).foldl act s = (p ++ a :: q).foldl act (act s b) := rfl
        _ = (a :: p ++ q).foldl act (act s b) := ih (fun c hc => h c (List.mem_cons_of_mem b hc)) _
        _ = (p ++ q).foldl act (act (act s b) a) := rfl
        _ = (p ++ q).foldl act (act (act s a) b) := by rw [h b List.mem_cons_self s]
        _ = (a :: b :: p ++ q).foldl act s := rfl

/-- **All orders** of some actions that respect what must come behind what lead to the same state. -/
theorem foldl_eq_of_respects (hact : Exchangeable R act l) (hp : l.Perm l') (hl : Respects R l) (hl' : Respects R l')
    (s : σ) : l.foldl act s = l'.foldl act s := by
  induction l generalizing l' s with
  | nil => rw [hp.nil_eq]
  | cons a l ih =>
      -- the first action of the one order stands somewhere in the other one
      obtain ⟨p, q, rfl⟩ := List.append_of_mem (hp.mem_iff.mp List.mem_cons_self)
      have hrest : l.Perm (p ++ q) := (hp.trans List.perm_middle).cons_inv
      obtain ⟨hbehind, hl⟩ := List.pairwise_cons.mp hl
      have hbefore : ∀ b ∈ p, ¬ R b a := fun b hb =>
        (List.pairwise_append.mp hl').2.2 b hb a List.mem_cons_self
      have hfront : ∀ b ∈ p, ∀ s, act (act s b) a = act (act s a) b := fun b hb s => by
        have hbl : b ∈ l := hrest.mem_iff.mpr (List.mem_append_left q hb)
        exact hact b (List.mem_cons_of_mem a hbl) a List.mem_cons_self (hbefore b hb) (hbehind b hbl) s
      have hact' : Exchangeable R act l := fun b hb c hc =>
        hact b (List.mem_cons_of_mem a hb) c (List.mem_cons_of_mem a hc)
      have hl'' : Respects R (p ++ q) := hl'.sublist (List.Sublist.append_left (List.sublist_cons_self a q) p)
      calc (a :: l).foldl act s = l.foldl act (act s a) := rfl
        _ = (p ++ q).foldl act (act s a) := ih hact' hrest hl hl'' _
        _ = (a :: p ++ q).foldl act s := rfl
        _ = (p ++ a :: q).foldl act s := (foldl_to_front q hfront s).symm

end Orders

/-! ### What is read and written -/

section Confined

variable {K V : Type*} {reads writes reads' writes' : K → Prop} {f g : (K → V) → K → V}

/-- The action writes only some places, and what it writes depends only on the places that it reads. -/
structure Confined (reads writes : K → Prop) (f : (K → V) → K → V) : Prop where
  frame : ∀ s k, ¬ writes k → f s k = s k
  reads : ∀ s s' : K → V, (∀ k, reads k → s k = s' k) → ∀ k, writes k → f s k = f s' k

/-- One place is written. -/
lemma Confined.update [DecidableEq K] {k : K} (hk : ∀ k', writes k' ↔ k' = k) {v : (K → V) → V}
    (hv : ∀ s s' : K → V, (∀ k, reads k → s k = s' k) → v s = v s') :
    Confined reads writes fun s => Function.update s k (v s) where
  frame s k' hw := Function.update_of_ne (fun h => hw ((hk k').mpr h)) _ _
  reads s s' hs k' hw := by
    obtain rfl := (hk k').mp hw
    rw [Function.update_self, Function.update_self, hv s s' hs]

/-- **Two actions can be exchanged** if none of them writes what the other one reads or writes. -/
theorem Confined.comm (hf : Confined reads writes f) (hg : Confined reads' writes' g)
    (hfg : ∀ k, writes k → ¬ reads' k ∧ ¬ writes' k) (hgf : ∀ k, writes' k → ¬ reads k ∧ ¬ writes k) (s : K → V) :
    g (f s) = f (g s) := by
  have hg_reads : ∀ k, reads' k → f s k = s k := fun k hk => hf.frame s k fun hw => (hfg k hw).1 hk
  have hf_reads : ∀ k, reads k → g s k = s k := fun k hk => hg.frame s k fun hw => (hgf k hw).1 hk
  funext k
  by_cases hk : writes k
  · calc g (f s) k = f s k := hg.frame _ k (hfg k hk).2
      _ = f (g s) k := hf.reads s (g s) (fun k hk => (hf_reads k hk).symm) k hk
  · by_cases hk' : writes' k
    · calc g (f s) k = g s k := hg.reads (f s) s hg_reads k hk'
        _ = f (g s) k := (hf.frame (g s) k hk).symm
    · rw [hg.frame _ k hk', hf.frame _ k hk, hf.frame _ k hk, hg.frame _ k hk']

end Confined

end Furious
