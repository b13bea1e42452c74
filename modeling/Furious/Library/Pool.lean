import Mathlib.Tactic

/-!
A pool of equal cells with a free list.

Memory is a list of cells, addressed by position; a cell holds a value or is
vacant. Released cells go to the front of a free list and the next allocation
takes the first of them, so addresses come back last in, first out; when the
list is empty the memory grows by one cell. Reading, writing and releasing a
vacant cell fail: what a program does after such an access is not described.

* `Pool`: the memory, with the well-formedness of the free list as fields;
* `Pool.get`, `Pool.alloc`, `Pool.put`, `Pool.release`: the operations;
* `Pool.get_alloc`, `Pool.get_put`, `Pool.get_release`: each of them as an
  update of one cell, the only facts about a pool that its users need;
* `Pool.length_le_of_live`: distinct live addresses are no more than the cells,
  which bounds every walk through the memory.
-/

namespace Furious

variable {β : Type*}

/-- A pool: its cells and the addresses on the free list, which are distinct and
vacant. -/
structure Pool (β : Type*) where
  cells : List (Option β)
  free : List ℕ
  free_nodup : free.Nodup
  free_vacant : ∀ a ∈ free, cells[a]? = some none

namespace Pool

/-- The pool without cells. -/
def empty : Pool β where
  cells := []
  free := []
  free_nodup := List.nodup_nil
  free_vacant := by simp

/-- The value of a cell; `none` if the address is not live. -/
def get (p : Pool β) (a : ℕ) : Option β := p.cells[a]?.join

/-- Hands out a cell that holds `v`: the first of the free list, else a new
one. -/
def alloc (p : Pool β) (v : β) : ℕ × Pool β :=
  match h : p.free with
  | a :: rest =>
      (a, { cells := p.cells.set a (some v)
            free := rest
            free_nodup := by
              have := p.free_nodup
              rw [h] at this
              exact this.of_cons
            free_vacant := by
              intro b hb
              have hnd := p.free_nodup
              rw [h, List.nodup_cons] at hnd
              have hne : a ≠ b := fun e => hnd.1 (e ▸ hb)
              rw [List.getElem?_set_ne hne]
              exact p.free_vacant b (by rw [h]; exact List.mem_cons_of_mem a hb) })
  | [] =>
      (p.cells.length, { cells := p.cells ++ [some v]
                         free := []
                         free_nodup := List.nodup_nil
                         free_vacant := by simp })

/-- Overwrites a live cell. -/
def put (p : Pool β) (a : ℕ) (v : β) : Option (Pool β) :=
  if h : (p.get a).isSome then
    some { cells := p.cells.set a (some v)
           free := p.free
           free_nodup := p.free_nodup
           free_vacant := by
             intro b hb
             have hv := p.free_vacant b hb
             have hne : a ≠ b := by
               rintro rfl
               simp [get, hv] at h
             rw [List.getElem?_set_ne hne]
             exact hv }
  else none

/-- Returns a live cell to the front of the free list. -/
def release (p : Pool β) (a : ℕ) : Option (Pool β) :=
  if h : (p.get a).isSome then
    some { cells := p.cells.set a none
           free := a :: p.free
           free_nodup := by
             refine List.nodup_cons.mpr ⟨fun ha => ?_, p.free_nodup⟩
             simp [get, p.free_vacant a ha] at h
           free_vacant := by
             intro b hb
             have hlt : a < p.cells.length := by
               by_contra hge
               simp [get, List.getElem?_eq_none (not_lt.mp hge)] at h
             rcases eq_or_ne a b with rfl | hne
             · simp [hlt]
             · rw [List.getElem?_set_ne hne]
               rcases List.mem_cons.mp hb with rfl | hb'
               · exact absurd rfl hne
               · exact p.free_vacant b hb' }
  else none

/-! ### The operations as updates of one cell -/

@[simp] lemma get_empty (a : ℕ) : (empty : Pool β).get a = none := by
  simp [empty, get]

/-- A live address is one of the cells. -/
lemma lt_length_of_get {p : Pool β} {a : ℕ} {v : β} (h : p.get a = some v) :
    a < p.cells.length := by
  by_contra hge
  simp [get, List.getElem?_eq_none (not_lt.mp hge)] at h

/-- The address handed out was not live. -/
private lemma get_alloc_fst (p : Pool β) (v : β) : p.get (p.alloc v).1 = none := by
  rw [alloc]
  split
  · next a rest h =>
      have := p.free_vacant a (by rw [h]; exact List.mem_cons_self)
      simp [get, this]
  · simp [get]

private lemma get_alloc_snd (p : Pool β) (v : β) :
    (p.alloc v).2.get = Function.update p.get (p.alloc v).1 (some v) := by
  funext b
  rw [alloc]
  split
  · next a rest h =>
      have hv := p.free_vacant a (by rw [h]; exact List.mem_cons_self)
      obtain ⟨hlt, -⟩ := List.getElem?_eq_some_iff.mp hv
      rcases eq_or_ne a b with rfl | hne
      · simp [get, hlt]
      · simp [get, List.getElem?_set_ne hne, Function.update_of_ne hne.symm]
  · rcases lt_trichotomy b p.cells.length with hb | rfl | hb
    · simp [get, List.getElem?_append_left hb, Function.update_of_ne hb.ne]
    · simp [get]
    · have h₁ : (p.cells ++ [some v])[b]? = none :=
        List.getElem?_eq_none (by rw [List.length_append, List.length_singleton]; omega)
      have h₂ : p.cells[b]? = none := List.getElem?_eq_none hb.le
      simp [get, h₁, h₂, Function.update_of_ne hb.ne']

/-- **Allocation** takes a cell that was not live and changes that cell. -/
lemma get_alloc (p : Pool β) (v : β) : ∃ a p', p.alloc v = (a, p') ∧ p.get a = none
    ∧ p'.get = Function.update p.get a (some v) :=
  ⟨_, _, rfl, get_alloc_fst p v, get_alloc_snd p v⟩

/-- **Overwriting** succeeds on a live cell and changes that cell. -/
lemma get_put {p : Pool β} {a : ℕ} {u : β} (h : p.get a = some u) (v : β) :
    ∃ p', p.put a v = some p' ∧ p'.get = Function.update p.get a (some v) := by
  have hs : (p.get a).isSome := by rw [h]; rfl
  refine ⟨_, by rw [put, dif_pos hs], ?_⟩
  funext b
  rcases eq_or_ne a b with rfl | hne
  · simp [get, lt_length_of_get h]
  · simp [get, List.getElem?_set_ne hne, Function.update_of_ne hne.symm]

/-- **Releasing** succeeds on a live cell and vacates that cell. -/
lemma get_release {p : Pool β} {a : ℕ} {u : β} (h : p.get a = some u) :
    ∃ p', p.release a = some p' ∧ p'.get = Function.update p.get a none := by
  have hs : (p.get a).isSome := by rw [h]; rfl
  refine ⟨_, by rw [release, dif_pos hs], ?_⟩
  funext b
  rcases eq_or_ne a b with rfl | hne
  · simp [get, lt_length_of_get h]
  · simp [get, List.getElem?_set_ne hne, Function.update_of_ne hne.symm]

/-- Distinct live addresses are no more than the cells. -/
lemma length_le_of_live {p : Pool β} {l : List ℕ} (hnd : l.Nodup)
    (hl : ∀ a ∈ l, p.get a ≠ none) : l.length ≤ p.cells.length := by
  have hsub : l ⊆ List.range p.cells.length := by
    intro a ha
    obtain ⟨v, hv⟩ := Option.ne_none_iff_exists'.mp (hl a ha)
    exact List.mem_range.mpr (lt_length_of_get hv)
  simpa using (hnd.subperm hsub).length_le

end Pool

end Furious
