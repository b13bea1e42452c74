import Furious.BTree.Dictionary

/-!
B-trees that index a pool.

The data structures of the runtime keep their records in a pool and find them through
a B-tree whose values are pointers to them. No two keys share a record.

* `Indexed`: which record each key has;
* `Indexed.get`, `Indexed.insert`, `Indexed.put`: **the operations**;
* `Indexed.iterInit`: the iterator, which meets each record once.
-/

namespace Furious

variable {β : Type} {t : BTree ℕ} {pool : Pool β} {r : ℕ → Option β} {b p : ℕ}

/-- The record of the key `b` is `r b`. -/
structure Indexed (t : BTree ℕ) (pool : Pool β) (r : ℕ → Option β) : Prop where
  map : ∃ M : KeyMap ℕ, Shows t M ∧ (∀ b, r b = (M.lookup b).bind pool.get)
    ∧ (∀ b p, M.lookup b = some p → pool.get p ≠ none)
    ∧ ∀ b b' p, M.lookup b = some p → M.lookup b' = some p → b = b'

namespace Indexed

lemma init : Indexed BTree.init (Pool.empty : Pool β) fun _ => none := by
  refine ⟨∅, Shows.init, fun b => rfl, fun b p h => ?_, fun b b' p h => ?_⟩
  · rw [Finmap.lookup_empty] at h
    cases h
  · rw [Finmap.lookup_empty] at h
    cases h

/-- **Lookup** finds a pointer to the record, if there is one. -/
lemma get (h : Indexed t pool r) (b : ℕ) : (r b = none ∧ t.get b = some none)
    ∨ ∃ p x, r b = some x ∧ t.get b = some (some p) ∧ pool.get p = some x := by
  obtain ⟨M, hshows, hr, hlive, -⟩ := h.map
  rw [hr, hshows.get]
  cases hp : M.lookup b with
  | none => exact Or.inl ⟨rfl, rfl⟩
  | some p =>
      obtain ⟨x, hx⟩ := Option.ne_none_iff_exists'.mp (hlive b p hp)
      exact Or.inr ⟨p, x, hx, rfl, hx⟩

/-- **A record is overwritten.** -/
theorem put (h : Indexed t pool r) (hp : t.get b = some (some p)) (y : β) :
    ∃ pool', pool.put p y = some pool' ∧ Indexed t pool' (Function.update r b (some y)) := by
  obtain ⟨M, hshows, hr, hlive, hinj⟩ := h.map
  rw [hshows.get] at hp
  have hb : M.lookup b = some p := Option.some.inj hp
  obtain ⟨x, hx⟩ := Option.ne_none_iff_exists'.mp (hlive b p hb)
  obtain ⟨pool', hput, hget⟩ := Pool.get_put hx y
  refine ⟨pool', hput, M, hshows, fun b' => ?_, fun b' p' hp' => ?_, hinj⟩
  · rw [hget]
    by_cases hbb : b' = b
    · rw [hbb, Function.update_self, hb, Option.bind_some, Function.update_self]
    · rw [Function.update_of_ne hbb, hr]
      cases hp' : M.lookup b' with
      | none => rfl
      | some p' =>
          have hpp : p' ≠ p := fun e => hbb (hinj b' b p (e ▸ hp') hb)
          rw [Option.bind_some, Option.bind_some, Function.update_of_ne hpp]
  · rw [hget]
    by_cases hpp : p' = p
    · rw [hpp, Function.update_self]
      exact Option.some_ne_none y
    · rw [Function.update_of_ne hpp]
      exact hlive b' p' hp'

/-- **A record is added.** -/
theorem insert (h : Indexed t pool r) (hb : r b = none) (x : β) :
    ∃ p pool' t' ins, pool.alloc x = (p, pool') ∧ t.insert b p = some (t', ins)
      ∧ t'.get b = some (some p) ∧ pool'.get p = some x
      ∧ Indexed t' pool' (Function.update r b (some x)) := by
  obtain ⟨M, hshows, hr, hlive, hinj⟩ := h.map
  obtain ⟨p, pool', halloc, hvac, hget⟩ := pool.get_alloc x
  have hmem : b ∉ M := by
    intro hb'
    obtain ⟨q, hq⟩ := Finmap.mem_iff.mp hb'
    rw [hr, hq, Option.bind_some] at hb
    exact hlive b q hq hb
  obtain ⟨t', ins, hins, -, -, hshows'⟩ := hshows.insert hmem p
  have hfresh : ∀ b' p', M.lookup b' = some p' → p' ≠ p := by
    rintro b' p' hp' rfl
    exact hlive b' p' hp' hvac
  have hother : ∀ b', b' ≠ b → (M.insert b p).lookup b' = M.lookup b' := fun b' hbb =>
    Finmap.lookup_insert_of_ne _ hbb
  refine ⟨p, pool', t', ins, halloc, hins, ?_, ?_, M.insert b p, hshows', fun b' => ?_,
    fun b' p' hp' => ?_, fun b₁ b₂ p' h₁ h₂ => ?_⟩
  · rw [hshows'.get, Finmap.lookup_insert]
  · rw [hget, Function.update_self]
  · rw [hget]
    by_cases hbb : b' = b
    · rw [hbb, Function.update_self, Finmap.lookup_insert, Option.bind_some, Function.update_self]
    · rw [Function.update_of_ne hbb, hother b' hbb, hr]
      cases hp' : M.lookup b' with
      | none => rfl
      | some p' => rw [Option.bind_some, Option.bind_some, Function.update_of_ne (hfresh b' p' hp')]
  · rw [hget]
    by_cases hpp : p' = p
    · rw [hpp, Function.update_self]
      exact Option.some_ne_none x
    · rw [Function.update_of_ne hpp]
      refine hlive b' p' ?_
      by_cases hbb : b' = b
      · rw [hbb, Finmap.lookup_insert] at hp'
        exact absurd (Option.some.inj hp').symm hpp
      · rwa [hother b' hbb] at hp'
  · by_cases h₁b : b₁ = b
    · by_cases h₂b : b₂ = b
      · rw [h₁b, h₂b]
      · rw [h₁b, Finmap.lookup_insert] at h₁
        rw [hother b₂ h₂b] at h₂
        exact absurd (Option.some.inj h₁).symm (hfresh b₂ p' h₂)
    · by_cases h₂b : b₂ = b
      · rw [h₂b, Finmap.lookup_insert] at h₂
        rw [hother b₁ h₁b] at h₁
        exact absurd (Option.some.inj h₂).symm (hfresh b₁ p' h₁)
      · rw [hother b₁ h₁b] at h₁
        rw [hother b₂ h₂b] at h₂
        exact hinj b₁ b₂ p' h₁ h₂

/-- The entries `l` of the index are the keys that have a record, each of them once. -/
structure Entries (t : BTree ℕ) (r : ℕ → Option β) (l : List (ℕ × ℕ)) : Prop where
  nodup : (l.map Prod.fst).Nodup
  pointer : ∀ e ∈ l, t.get e.1 = some (some e.2)
  keys : ∀ b, b ∈ l.map Prod.fst ↔ r b ≠ none
  size : t.size = l.length % 2 ^ 32

/-- **The iterator.** -/
theorem iterInit (h : Indexed t pool r) :
    ∃ l iter, Entries t r l ∧ t.iterInit = some iter ∧ iter.Remains t.nodes l := by
  obtain ⟨M, hshows, hr, hlive, -⟩ := h.map
  obtain ⟨l, iter, hl, hinit, hrem⟩ := hshows.iterInit
  have hpointer : ∀ e ∈ l, t.get e.1 = some (some e.2) := by
    rintro ⟨b, p⟩ he
    rw [hshows.get, (hl.mem b p).mp he]
  refine ⟨l, iter, ⟨?_, hpointer, fun b => ?_, by rw [hshows.size, hl.card]⟩, hinit, hrem⟩
  · exact List.pairwise_map.mpr (hl.sorted.imp fun hlt => ne_of_lt hlt)
  · rw [hr, List.mem_map]
    constructor
    · rintro ⟨⟨b, p⟩, he, rfl⟩
      have hp := (hl.mem b p).mp he
      rw [hp, Option.bind_some]
      exact hlive b p hp
    · intro hne
      cases hp : M.lookup b with
      | none => rw [hp] at hne; exact absurd rfl hne
      | some p => exact ⟨(b, p), (hl.mem b p).mpr hp, rfl⟩

/-- Entries with keys below a bound are no more than the bound. -/
lemma Entries.length_le {l : List (ℕ × ℕ)} (h : Entries t r l) {n : ℕ} (hlt : ∀ b, r b ≠ none → b < n) :
    l.length ≤ n := by
  have hsub : l.map Prod.fst ⊆ List.range n := fun b hb =>
    List.mem_range.mpr (hlt b ((h.keys b).mp hb))
  have hle := (h.nodup.subperm hsub).length_le
  rwa [List.length_map, List.length_range] at hle

end Indexed

end Furious
