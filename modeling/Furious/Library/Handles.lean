import Furious.Library.Pool
import Furious.Library.Loops

/-!
Keys of records in a pool.

The records of a program are in a pool, and some keys lead to them: the handle of a key is the address of its record. No
two keys have one record, and so what is done to the record of a key leaves those of all other keys alone.

* `Handles`: such keys, `record`: the record of a key;
* `Handles.alloc`, `Handles.put`, `Handles.release`: **each operation changes the record of one key**;
* `Handles.putAll`, `Handles.releaseAll`: the same for the records of some keys, one after the other.
-/

namespace Furious

variable {K : Type*} {β : Type} {pool pool' : Pool β} {handle : K → Option ℕ} {k k' : K} {p : ℕ} {x y : β}

/-- Every handle leads to a record, and no two keys have one record. -/
structure Handles (pool : Pool β) (handle : K → Option ℕ) : Prop where
  live : ∀ k p, handle k = some p → pool.get p ≠ none
  inj : ∀ k k' p, handle k = some p → handle k' = some p → k = k'

/-- The record of a key. -/
def record (pool : Pool β) (handle : K → Option ℕ) (k : K) : Option β := (handle k).bind pool.get

lemma record_of_handle (hk : handle k = some p) : record pool handle k = pool.get p := by
  rw [record, hk, Option.bind_some]

lemma record_of_none (hk : handle k = none) : record pool handle k = none := by
  rw [record, hk, Option.bind_none]

namespace Handles

lemma empty : Handles (Pool.empty : Pool β) fun _ : K => none :=
  ⟨fun k p h => (by cases h), fun k k' p h => (by cases h)⟩

/-- A key with a handle has a record. -/
lemma get (h : Handles pool handle) (hk : handle k = some p) :
    ∃ x, pool.get p = some x ∧ record pool handle k = some x := by
  obtain ⟨x, hx⟩ := Option.ne_none_iff_exists'.mp (h.live k p hk)
  exact ⟨x, hx, (record_of_handle hk).trans hx⟩

variable [DecidableEq K]

/-- **A new record**, for a key that has none. -/
theorem alloc (h : Handles pool handle) (k : K) (x : β) : ∃ p pool', pool.alloc x = (p, pool')
    ∧ Handles pool' (Function.update handle k (some p))
    ∧ record pool' (Function.update handle k (some p)) = Function.update (record pool handle) k (some x) := by
  obtain ⟨p, pool', halloc, hvacant, hget⟩ := pool.get_alloc x
  have hne : ∀ k' q, handle k' = some q → q ≠ p := by
    rintro k' q hq rfl
    exact h.live k' q hq hvacant
  refine ⟨p, pool', halloc, ⟨fun k' q hq => ?_, fun k₁ k₂ q h₁ h₂ => ?_⟩, funext fun k' => ?_⟩
  · rw [hget]
    by_cases hqp : q = p
    · rw [hqp, Function.update_self]
      exact Option.some_ne_none x
    · rw [Function.update_of_ne hqp]
      by_cases hk : k' = k
      · rw [hk, Function.update_self] at hq
        exact absurd (Option.some.inj hq).symm hqp
      · rw [Function.update_of_ne hk] at hq
        exact h.live k' q hq
  · by_cases hk₁ : k₁ = k
    · by_cases hk₂ : k₂ = k
      · rw [hk₁, hk₂]
      · rw [hk₁, Function.update_self] at h₁
        rw [Function.update_of_ne hk₂] at h₂
        exact absurd (Option.some.inj h₁).symm (hne k₂ q h₂)
    · rw [Function.update_of_ne hk₁] at h₁
      by_cases hk₂ : k₂ = k
      · rw [hk₂, Function.update_self] at h₂
        exact absurd (Option.some.inj h₂).symm (hne k₁ q h₁)
      · rw [Function.update_of_ne hk₂] at h₂
        exact h.inj k₁ k₂ q h₁ h₂
  · by_cases hk : k' = k
    · rw [record, hk, Function.update_self, Function.update_self, Option.bind_some, hget, Function.update_self]
    · rw [record, Function.update_of_ne hk, Function.update_of_ne hk, record]
      cases hq : handle k' with
      | none => rfl
      | some q => rw [Option.bind_some, Option.bind_some, hget, Function.update_of_ne (hne k' q hq)]

/-- **A record is overwritten.** -/
theorem put (h : Handles pool handle) (hk : handle k = some p) (y : β) : ∃ pool', pool.put p y = some pool'
    ∧ Handles pool' handle ∧ record pool' handle = Function.update (record pool handle) k (some y) := by
  obtain ⟨x, hx, -⟩ := h.get hk
  obtain ⟨pool', hput, hget⟩ := Pool.get_put hx y
  refine ⟨pool', hput, ⟨fun k' q hq => ?_, h.inj⟩, funext fun k' => ?_⟩
  · rw [hget]
    by_cases hqp : q = p
    · rw [hqp, Function.update_self]
      exact Option.some_ne_none y
    · rw [Function.update_of_ne hqp]
      exact h.live k' q hq
  · by_cases hkk : k' = k
    · rw [record, hkk, hk, Function.update_self, Option.bind_some, hget, Function.update_self]
    · rw [Function.update_of_ne hkk, record, record]
      cases hq : handle k' with
      | none => rfl
      | some q =>
          have hqp : q ≠ p := by
            rintro rfl
            exact hkk (h.inj k' k q hq hk)
          rw [Option.bind_some, Option.bind_some, hget, Function.update_of_ne hqp]

/-- **A record is released**, and the key forgotten. -/
theorem release (h : Handles pool handle) (hk : handle k = some p) : ∃ pool', pool.release p = some pool'
    ∧ Handles pool' (Function.update handle k none)
    ∧ record pool' (Function.update handle k none) = Function.update (record pool handle) k none := by
  obtain ⟨x, hx, -⟩ := h.get hk
  obtain ⟨pool', hrelease, hget⟩ := Pool.get_release hx
  have hother : ∀ k' q, Function.update handle k none k' = some q → handle k' = some q ∧ pool'.get q = pool.get q := by
    intro k' q hq
    by_cases hkk : k' = k
    · rw [hkk, Function.update_self] at hq
      cases hq
    · rw [Function.update_of_ne hkk] at hq
      have hqp : q ≠ p := by
        rintro rfl
        exact hkk (h.inj k' k q hq hk)
      exact ⟨hq, by rw [hget, Function.update_of_ne hqp]⟩
  refine ⟨pool', hrelease, ⟨fun k' q hq => ?_, fun k₁ k₂ q h₁ h₂ => ?_⟩, funext fun k' => ?_⟩
  · rw [(hother k' q hq).2]
    exact h.live k' q (hother k' q hq).1
  · exact h.inj k₁ k₂ q (hother k₁ q h₁).1 (hother k₂ q h₂).1
  · by_cases hkk : k' = k
    · rw [hkk, Function.update_self, record_of_none (Function.update_self _ _ _)]
    · rw [Function.update_of_ne hkk, record]
      cases hq : Function.update handle k none k' with
      | none =>
          rw [Function.update_of_ne hkk] at hq
          rw [record_of_none hq, Option.bind_none]
      | some q =>
          obtain ⟨hq', hsame⟩ := hother k' q hq
          rw [record_of_handle hq', Option.bind_some, hsame]

/-! ### Some keys, one after the other -/

variable {l : List (K × ℕ)}

omit [DecidableEq K] in
lemma mem_append_of_ne {keys : List K} (h : k ≠ k') : k ∈ keys ++ [k'] ↔ k ∈ keys := by
  rw [List.mem_append, List.mem_singleton, or_iff_left h]

/-- **The records of some keys are overwritten.** -/
theorem putAll (h : Handles pool handle) (body : Pool β → ℕ → Option (Pool β)) (g : β → β)
    (hl : ∀ e ∈ l, handle e.1 = some e.2) (hnd : (l.map Prod.fst).Nodup)
    (hbody : ∀ e ∈ l, ∀ (pool' : Pool β) (x : β), record pool handle e.1 = some x → pool'.get e.2 = some x →
      body pool' e.2 = pool'.put e.2 (g x)) :
    ∃ pool', l.foldlM (fun pool e => body pool e.2) pool = some pool'
      ∧ Handles pool' handle ∧ ∀ k, record pool' handle k
        = if k ∈ l.map Prod.fst then (record pool handle k).map g else record pool handle k := by
  refine foldlM_spec (fun done (pool' : Pool β) => Handles pool' handle ∧ ∀ k, record pool' handle k
    = if k ∈ done.map Prod.fst then (record pool handle k).map g else record pool handle k) l
    ⟨h, fun k => (if_neg List.not_mem_nil).symm⟩ fun done e rest pool' hdone ⟨h', hrec⟩ => ?_
  have he : e ∈ l := hdone ▸ by simp
  have hnew : e.1 ∉ done.map Prod.fst := by
    rw [hdone, List.map_append, List.nodup_append] at hnd
    exact fun hin => hnd.2.2 e.1 hin e.1 (List.mem_map_of_mem List.mem_cons_self) rfl
  obtain ⟨x, hx, hxrec⟩ := h'.get (hl e he)
  rw [hrec, if_neg hnew] at hxrec
  obtain ⟨pool'', hput, h'', hrec''⟩ := h'.put (hl e he) (g x)
  refine ⟨pool'', (hbody e he pool' x hxrec hx).trans hput, h'', fun k => ?_⟩
  rw [hrec'', List.map_append, List.map_singleton]
  by_cases hk : k = e.1
  · rw [hk, Function.update_self, if_pos (by simp), hxrec, Option.map_some]
  · rw [Function.update_of_ne hk, hrec]
    exact if_congr (mem_append_of_ne hk).symm rfl rfl

/-- **The records of some keys are released**, and the keys forgotten. -/
theorem releaseAll (h : Handles pool handle) (handle' : K → Option ℕ) (body : Pool β → ℕ → Option (Pool β))
    (hl : ∀ e ∈ l, handle e.1 = some e.2) (hnd : (l.map Prod.fst).Nodup)
    (hbody : ∀ e ∈ l, ∀ (pool' : Pool β) (x : β), record pool handle e.1 = some x → pool'.get e.2 = some x →
      body pool' e.2 = pool'.release e.2)
    (hhandle : ∀ k, handle' k = if k ∈ l.map Prod.fst then none else handle k) :
    ∃ pool', l.foldlM (fun pool e => body pool e.2) pool = some pool'
      ∧ Handles pool' handle' ∧ ∀ k, record pool' handle' k
        = if k ∈ l.map Prod.fst then none else record pool handle k := by
  obtain ⟨pool', hrun, hall⟩ := foldlM_spec (fun done (pool' : Pool β) => ∀ handle' : K → Option ℕ,
      (∀ k, handle' k = if k ∈ done.map Prod.fst then none else handle k) → Handles pool' handle'
      ∧ ∀ k, record pool' handle' k = if k ∈ done.map Prod.fst then none else record pool handle k)
    (f := fun (pool : Pool β) (e : K × ℕ) => body pool e.2) l (s := pool)
    (fun handle' hhandle => by
      obtain rfl : handle' = handle := funext fun k => by rw [hhandle, List.map_nil, if_neg List.not_mem_nil]
      exact ⟨h, fun k => (if_neg List.not_mem_nil).symm⟩)
    (fun done e rest pool' hdone hall => by
      have he : e ∈ l := hdone ▸ by simp
      have hnew : e.1 ∉ done.map Prod.fst := by
        rw [hdone, List.map_append, List.nodup_append] at hnd
        exact fun hin => hnd.2.2 e.1 hin e.1 (List.mem_map_of_mem List.mem_cons_self) rfl
      obtain ⟨h', hrec⟩ := hall (fun k => if k ∈ done.map Prod.fst then none else handle k) fun k => rfl
      have hhandle : (if e.1 ∈ done.map Prod.fst then none else handle e.1) = some e.2 := by
        rw [if_neg hnew, hl e he]
      obtain ⟨x, hx, hxrec⟩ := h'.get hhandle
      rw [hrec, if_neg hnew] at hxrec
      obtain ⟨pool'', hrelease, h'', hrec''⟩ := h'.release hhandle
      refine ⟨pool'', (hbody e he pool' x hxrec hx).trans hrelease, fun handle'' hhandle'' => ?_⟩
      obtain rfl : handle'' = Function.update (fun k => if k ∈ done.map Prod.fst then none else handle k) e.1 none :=
        funext fun k => by
          rw [hhandle'', List.map_append, List.map_singleton]
          by_cases hk : k = e.1
          · rw [hk, Function.update_self, if_pos (by simp)]
          · rw [Function.update_of_ne hk]
            exact if_congr (mem_append_of_ne hk) rfl rfl
      refine ⟨h'', fun k => ?_⟩
      rw [hrec'', List.map_append, List.map_singleton]
      by_cases hk : k = e.1
      · rw [hk, Function.update_self, if_pos (by simp)]
      · rw [Function.update_of_ne hk, hrec]
        exact if_congr (mem_append_of_ne hk).symm rfl rfl)
  exact ⟨pool', hrun, hall handle' hhandle⟩

end Handles

end Furious
