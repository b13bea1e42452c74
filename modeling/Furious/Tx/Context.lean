import Furious.Tx.Txpool

/-!
The garbage list of a thread context.

* `CtxHeld`: the list that the memory of a context holds, as pairs of an entry
  and its block;
* `addEntry_spec`, `removeEntry_spec`: an entry joins in front, an entry leaves.
-/

namespace Furious

/-- The links of the entries of a context. -/
def Ctx.links (ctx : Ctx) (e : ℕ) : Option (Option ℕ × Option ℕ) :=
  (ctx.palloc.get e).map fun g => (g.next, g.prev)

/-- The memory of `ctx` holds the list `l` of entries and their blocks. -/
structure CtxHeld (ctx : Ctx) (l : List (ℕ × ℕ)) : Prop where
  first : ctx.first = (l.map Prod.fst).head?
  linked : DLinked ctx.links (l.map Prod.fst)
  nodup : (l.map Prod.fst).Nodup
  block : ∀ e b, (e, b) ∈ l → ∃ g, ctx.palloc.get e = some g ∧ g.block = b

lemma ctxHeld_init : CtxHeld Ctx.init [] where
  first := rfl
  linked := DLinked.nil _
  nodup := List.nodup_nil
  block := by simp

/-- An entry is live. -/
lemma CtxHeld.live {ctx : Ctx} {l : List (ℕ × ℕ)} (h : CtxHeld ctx l) {e : ℕ}
    (he : e ∈ l.map Prod.fst) : ∃ g, ctx.palloc.get e = some g := by
  obtain ⟨⟨e', b⟩, hmem, rfl⟩ := List.mem_map.mp he
  obtain ⟨g, hg, -⟩ := h.block e' b hmem
  exact ⟨g, hg⟩

/-- The number of entries is bounded by the size of the memory. -/
lemma CtxHeld.length_le {ctx : Ctx} {l : List (ℕ × ℕ)} (h : CtxHeld ctx l) :
    l.length ≤ ctx.palloc.cells.length := by
  have := Pool.length_le_of_live h.nodup (p := ctx.palloc) fun e he => by
    obtain ⟨g, hg⟩ := h.live he
    rw [hg]
    simp
  simpa using this

/-- The links of an entry, and its block, at its place in the list. -/
lemma CtxHeld.entry {ctx : Ctx} {l₁ l₂ : List (ℕ × ℕ)} {e b : ℕ}
    (h : CtxHeld ctx (l₁ ++ (e, b) :: l₂)) :
    ctx.palloc.get e
      = some ⟨b, (l₂.map Prod.fst).head?, (l₁.map Prod.fst).getLast?⟩ := by
  obtain ⟨g, hg, hb⟩ := h.block e b (by simp)
  have hl := h.linked (l₁.map Prod.fst) e (l₂.map Prod.fst) (by simp)
  rw [Ctx.links, hg, Option.map_some, Option.some_inj, Prod.mk.injEq] at hl
  rw [hg, ← hb, ← hl.1, ← hl.2]

/-- A list is empty if there is no first entry. -/
lemma CtxHeld.first_eq_none {ctx : Ctx} {l : List (ℕ × ℕ)} (h : CtxHeld ctx l) : ctx.first = none ↔ l = [] := by
  rw [h.first, List.head?_eq_none_iff, List.map_eq_nil_iff]

/-- What an assignment of `p_next` changes. -/
lemma setNext_spec (palloc : Pool Garbage) {entry : Option ℕ}
    (h : ∀ e, entry = some e → palloc.get e ≠ none) (next : Option ℕ) :
    ∃ palloc', setNext palloc entry next = some palloc' ∧ ∀ k, palloc'.get k =
      (palloc.get k).map fun g => if entry = some k then { g with next := next } else g := by
  cases entry with
  | none => exact ⟨palloc, rfl, by simp⟩
  | some e =>
      obtain ⟨g, hg⟩ := Option.ne_none_iff_exists'.mp (h e rfl)
      obtain ⟨palloc', hput, hget⟩ := Pool.get_put hg { g with next := next }
      refine ⟨palloc', by simp [setNext, hg, hput], fun k => ?_⟩
      rcases eq_or_ne e k with rfl | hk
      · simp [hget, hg]
      · simp [hget, Function.update_of_ne hk.symm, hk]

/-- What an assignment of `p_prev` changes. -/
lemma setPrev_spec (palloc : Pool Garbage) {entry : Option ℕ}
    (h : ∀ e, entry = some e → palloc.get e ≠ none) (prev : Option ℕ) :
    ∃ palloc', setPrev palloc entry prev = some palloc' ∧ ∀ k, palloc'.get k =
      (palloc.get k).map fun g => if entry = some k then { g with prev := prev } else g := by
  cases entry with
  | none => exact ⟨palloc, rfl, by simp⟩
  | some e =>
      obtain ⟨g, hg⟩ := Option.ne_none_iff_exists'.mp (h e rfl)
      obtain ⟨palloc', hput, hget⟩ := Pool.get_put hg { g with prev := prev }
      refine ⟨palloc', by simp [setPrev, hg, hput], fun k => ?_⟩
      rcases eq_or_ne e k with rfl | hk
      · simp [hget, hg]
      · simp [hget, Function.update_of_ne hk.symm, hk]

/-- **An entry joins in front.** -/
theorem addEntry_spec {ctx : Ctx} {l : List (ℕ × ℕ)} (h : CtxHeld ctx l) (block : ℕ) :
    ∃ ctx' e, ctx.addEntry block = some ctx' ∧ CtxHeld ctx' ((e, block) :: l) := by
  obtain ⟨new, q, hentry, hvac, hq⟩ := ctx.palloc.get_alloc ⟨block, ctx.first, none⟩
  have hne : ∀ k ∈ l.map Prod.fst, k ≠ new := by
    intro k hk e
    obtain ⟨g, hg⟩ := h.live hk
    rw [e, hvac] at hg
    exact absurd hg (by simp)
  have hfirst : ∀ e, ctx.first = some e → e ∈ l.map Prod.fst := by
    intro e he
    rw [h.first] at he
    exact List.mem_of_head? he
  obtain ⟨palloc, hset, hget⟩ := setPrev_spec q
    (fun e he => by
      obtain ⟨g, hg⟩ := h.live (hfirst e he)
      rw [hq, Function.update_of_ne (hne e (hfirst e he)), hg]
      simp) (some new)
  have hnew : palloc.get new = some ⟨block, ctx.first, none⟩ := by
    rw [hget, hq, Function.update_self, Option.map_some,
      if_neg fun e => hne new (hfirst new e) rfl]
  have hold : ∀ k ∈ l.map Prod.fst, palloc.get k = (ctx.palloc.get k).map fun g =>
      if ctx.first = some k then { g with prev := some new } else g := by
    intro k hk
    rw [hget, hq, Function.update_of_ne (hne k hk)]
  refine ⟨⟨palloc, some new⟩, new, ?_, rfl, ?_, ?_, ?_⟩
  · simp only [Ctx.addEntry, hentry, hset, Option.bind_eq_bind, Option.bind_some]
  · refine h.linked.pushFront ?_ h.nodup fun k nx pv hk hl => ?_
    · rw [Ctx.links, hnew, Option.map_some, h.first]
    · obtain ⟨g, hg⟩ := h.live hk
      rw [Ctx.links, hg] at hl
      obtain ⟨rfl, rfl⟩ : g.next = nx ∧ g.prev = pv := by simpa using hl
      rw [Ctx.links, hold k hk, hg, h.first, Option.map_some, Option.map_some]
      split <;> rfl
  · rw [List.map_cons, List.nodup_cons]
    exact ⟨fun hmem => hne new hmem rfl, h.nodup⟩
  · intro e b heb
    rcases List.mem_cons.mp heb with heq | hmem
    · obtain ⟨rfl, rfl⟩ := Prod.mk.inj heq
      exact ⟨_, hnew, rfl⟩
    · obtain ⟨g, hg, hb⟩ := h.block e b hmem
      refine ⟨_, by rw [hold e (List.mem_map_of_mem hmem), hg, Option.map_some], ?_⟩
      split <;> exact hb

/-- **An entry leaves**, wherever it stands. -/
theorem removeEntry_spec {ctx : Ctx} {l₁ l₂ : List (ℕ × ℕ)} {e b : ℕ}
    (h : CtxHeld ctx (l₁ ++ (e, b) :: l₂)) :
    ∃ ctx', ctx.removeEntry e = some ctx' ∧ CtxHeld ctx' (l₁ ++ l₂) := by
  have hentry := h.entry
  have hnd := h.nodup
  rw [List.map_append, List.map_cons] at hnd
  have hmem : ∀ k, k ∈ l₁.map Prod.fst ++ l₂.map Prod.fst →
      k ≠ e ∧ ∃ g, ctx.palloc.get k = some g := by
    intro k hk
    refine ⟨?_, h.live (by simp at hk ⊢; tauto)⟩
    rintro rfl
    rw [List.nodup_middle, List.nodup_cons] at hnd
    exact hnd.1 hk
  have hprev : ∀ k, (l₁.map Prod.fst).getLast? = some k → k ∈ l₁.map Prod.fst ++ l₂.map Prod.fst :=
    fun k hk => List.mem_append_left _ (List.mem_of_getLast? hk)
  have hnext : ∀ k, (l₂.map Prod.fst).head? = some k → k ∈ l₁.map Prod.fst ++ l₂.map Prod.fst :=
    fun k hk => List.mem_append_right _ (List.mem_of_head? hk)
  obtain ⟨p₁, hp₁, hget₁⟩ := setNext_spec ctx.palloc
    (fun k hk => by
      obtain ⟨-, g, hg⟩ := hmem k (hprev k hk)
      simp [hg]) (l₂.map Prod.fst).head?
  obtain ⟨p₂, hp₂, hget₂⟩ := setPrev_spec p₁
    (fun k hk => by
      obtain ⟨-, g, hg⟩ := hmem k (hnext k hk)
      simp [hget₁, hg]) (l₁.map Prod.fst).getLast?
  have hlive : ∃ g, p₂.get e = some g := by simp [hget₂, hget₁, hentry]
  obtain ⟨g, hg⟩ := hlive
  obtain ⟨p₃, hp₃, hget₃⟩ := Pool.get_release hg
  have hfirst : (if ctx.first = some e then (l₂.map Prod.fst).head? else ctx.first)
      = ((l₁ ++ l₂).map Prod.fst).head? := by
    rw [h.first]
    cases l₁ with
    | nil => simp
    | cons c l₁ =>
        have hce : c.1 ≠ e := (hmem c.1 (by simp)).1
        simp [hce]
  have hold : ∀ k ∈ l₁.map Prod.fst ++ l₂.map Prod.fst, p₃.get k = (ctx.palloc.get k).map fun g =>
      ⟨g.block, if (l₁.map Prod.fst).getLast? = some k then (l₂.map Prod.fst).head? else g.next,
        if (l₂.map Prod.fst).head? = some k then (l₁.map Prod.fst).getLast? else g.prev⟩ := by
    intro k hk
    rw [hget₃, Function.update_of_ne (hmem k hk).1, hget₂, hget₁, Option.map_map]
    refine congrArg (Option.map · _) (funext fun g => ?_)
    simp only [Function.comp_apply]
    split <;> split <;> rfl
  refine ⟨⟨p₃, ((l₁ ++ l₂).map Prod.fst).head?⟩, ?_, rfl, ?_, ?_, ?_⟩
  · simp only [Ctx.removeEntry, hentry, hp₁, hp₂, hp₃, Option.bind_eq_bind, Option.bind_some,
      hfirst]
  · rw [List.map_append]
    have hlinked := h.linked
    rw [List.map_append, List.map_cons] at hlinked
    refine hlinked.unlink hnd fun k nx pv hk hl => ?_
    obtain ⟨g, hg⟩ := (hmem k hk).2
    rw [Ctx.links, hg] at hl
    obtain ⟨rfl, rfl⟩ : g.next = nx ∧ g.prev = pv := by simpa using hl
    rw [Ctx.links, hold k hk, hg]
    rfl
  · rw [List.map_append]
    exact hnd.sublist (List.Sublist.append_left (List.sublist_cons_self _ _) _)
  · intro k c hkc
    obtain ⟨g, hg, hb⟩ := h.block k c (by simp at hkc ⊢; tauto)
    have hk : k ∈ l₁.map Prod.fst ++ l₂.map Prod.fst := by
      rw [← List.map_append]
      exact List.mem_map_of_mem hkc
    have hget := hold k hk
    rw [hg, Option.map_some] at hget
    exact ⟨_, hget, hb⟩

end Furious
