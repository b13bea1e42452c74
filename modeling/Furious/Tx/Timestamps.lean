import Furious.Tx.Trail

/-!
The timestamps of the version chains along a run.

* `Txpool.chain`: the blocks of a chain, as a walk finds them;
* `chains_decrease`: **they are in order**, in every run in which no writer accesses a
  reference whose root is gone, and the root only gets newer;
* `not_chains_decrease`: a writer that accesses such a reference puts them out of order.
-/

namespace Furious

variable {α : Type}

/-- The blocks from one on. -/
def Txpool.chain (p : Txpool α) : ℕ → Option ℕ → Option (List Block)
  | _, none => some []
  | 0, some _ => none
  | fuel + 1, some a => do
      let b ← p.blockPalloc.get a
      let bs ← p.chain fuel b.nextVersion
      some (b :: bs)

/-- A walk along a chain that the memory holds. -/
lemma Held.chain {p : Txpool α} {vs : List (Ver α)} : ∀ {fuel}, Held p.mem vs none → vs.length ≤ fuel →
    ∃ bs, p.chain fuel (startOf vs none) = some bs ∧ bs.map Block.ts = vs.map Ver.ts := by
  induction vs with
  | nil =>
      intro fuel _ _
      cases fuel <;> exact ⟨[], rfl, rfl⟩
  | cons v vs ih =>
      intro fuel h hlen
      obtain ⟨fuel, rfl⟩ : ∃ f, fuel = f + 1 := ⟨fuel - 1, by simp at hlen; omega⟩
      obtain ⟨bs, hbs, hts⟩ := ih h.2.2 (by simpa using hlen)
      refine ⟨v.block (startOf vs none) :: bs, ?_, by rw [List.map_cons, hts]; rfl⟩
      rw [startOf, Txpool.chain, h.block, Option.bind_eq_bind, Option.bind_some]
      change ((p.chain fuel (startOf vs none)).bind fun bs => some (v.block (startOf vs none) :: bs)) = _
      rw [hbs, Option.bind_some]

namespace Tx

/-- The timestamps decrease along the versions, down to that of the root, and none is above
`top`. -/
structure InOrder (top : ℕ) (root : Block) (versions : List Block) : Prop where
  decreasing : versions.Pairwise fun u v => v.ts < u.ts
  newer : ∀ v ∈ versions, root.ts < v.ts
  le : ∀ v ∈ root :: versions, v.ts ≤ top

/-- The chain of a live reference is found, in order. -/
lemma TrailInv.chain {x : Trail α} {own : ℕ ⊕ ℕ → List (Ver α)} {garbage : ℕ → List (ℕ × ℕ)}
    (h : TrailInv x own garbage) {r : ℕ} {root : Ver α} {vs : List (Ver α)} (ho : own (.inl r) = root :: vs) :
    ∃ b bs, x.state.pool.chain x.state.pool.fuel (some root.addr) = some (b :: bs) ∧ b.ts = root.ts
      ∧ InOrder x.writer b bs := by
  have hheld := h.heap.mem.held (.inl r)
  have hnd := h.heap.mem.nodup (.inl r)
  rw [ho] at hheld hnd
  obtain ⟨l, hl, hts⟩ := hheld.chain (hheld.length_le_fuel hnd)
  obtain ⟨b, bs, rfl, hb, hbs⟩ := List.map_eq_cons_iff.mp hts
  have hstamps : (chainOf root vs).stamps = bs.map Block.ts ++ [b.ts] := by
    rw [hb, hbs, Chain.stamps, chainOf, List.map_map]
    rfl
  have hranked := h.ranked r root vs ho
  have hdec := hranked.decreasing
  rw [hstamps] at hdec
  obtain ⟨hdec, -, hroot⟩ := List.pairwise_append.mp hdec
  refine ⟨b, bs, hl, hb, List.pairwise_map.mp hdec, fun v hv => ?_, fun v hv => hranked.le v.ts ?_⟩
  · exact hroot v.ts (List.mem_map_of_mem hv) b.ts (List.mem_singleton_self _)
  · rw [hstamps, List.mem_append, List.mem_singleton]
    rcases List.mem_cons.mp hv with rfl | hv
    · exact Or.inr rfl
    · exact Or.inl (List.mem_map_of_mem hv)

/-- **Version chains are in order** after every run in which no writer accesses a reference whose root
is gone: from the newest version to the root the timestamps decrease, none is above the version of
the writer that began last, and further calls do not make the root older. -/
theorem chains_decrease {x y : Trail α} (h : Relation.ReflTransGen (Trail.Call Trail.Live) Trail.init x)
    (h' : Relation.ReflTransGen (Trail.Call Trail.Live) x y) {r main : ℕ} (hmain : x.state.refs r = some main) :
    (x.released r = false → ∃ root versions,
      x.state.pool.chain x.state.pool.fuel (some main) = some (root :: versions)
        ∧ InOrder x.writer root versions)
    ∧ (y.released r = false → y.state.refs r = some main ∧ ∃ root root',
      x.state.pool.blockPalloc.get main = some root ∧ y.state.pool.blockPalloc.get main = some root'
        ∧ root.ts ≤ root'.ts) := by
  obtain ⟨own, garbage, hinv, -⟩ := trailInv_init.run (fun _ _ hok => hok) h
  obtain ⟨own', garbage', hinv', hages, -⟩ := hinv.run (fun _ _ hok => hok) h'
  have hlive : own (.inl r) ≠ [] → ∃ root vs, own (.inl r) = root :: vs ∧ root.addr = main := by
    intro hne
    obtain ⟨root, vs, ho⟩ := List.exists_cons_of_ne_nil hne
    exact ⟨root, vs, ho, Option.some.inj ((hinv.heap.root r root vs ho).symm.trans hmain)⟩
  refine ⟨fun hr => ?_, fun hr => ?_⟩
  · obtain ⟨root, vs, ho, rfl⟩ := hlive fun hnil => by
      rcases (hinv.live r).mp hnil with hnone | hrel
      · rw [hmain] at hnone
        cases hnone
      · rw [hr] at hrel
        cases hrel
    obtain ⟨b, bs, hchain, -, horder⟩ := hinv.chain ho
    exact ⟨b, bs, hchain, horder⟩
  · have hne : own (.inl r) ≠ [] := fun hnil => by
      rcases (hinv.live r).mp hnil with hnone | hrel
      · rw [hmain] at hnone
        cases hnone
      · rw [Trail.released_mono h' hrel] at hr
        cases hr
    obtain ⟨root, vs, ho, rfl⟩ := hlive hne
    rcases hages r root vs ho with hrel | ⟨root', vs', ho', haddr, hts⟩
    · rw [hr] at hrel
      cases hrel
    · have hheld := hinv.heap.mem.held (.inl r)
      have hheld' := hinv'.heap.mem.held (.inl r)
      rw [ho] at hheld
      rw [ho'] at hheld'
      refine ⟨?_, root.block (startOf vs none), root'.block (startOf vs' none), hheld.block, ?_, hts⟩
      · rw [← haddr]
        exact hinv'.heap.root r root' vs' ho'
      · rw [← haddr]
        exact hheld'.block

/-- Two versions over the root, which a reader keeps from being folded, and the root after the
reader. -/
theorem chains_decrease_under_reader :
    ∃ (x y : Trail ℕ) (root root' : Block) (versions : List Block),
      x.state.pool.chain x.state.pool.fuel (some 0) = some (root :: versions)
        ∧ versions.map Block.ts = [4, 3] ∧ InOrder x.writer root versions
        ∧ y.state.pool.blockPalloc.get 0 = some root' ∧ root'.ts = 4
        ∧ ∀ b, x.state.pool.blockPalloc.get 0 = some b → b.ts ≤ root'.ts := by
  obtain ⟨x, y, hx, hy, hxy⟩ := Trail.exists_of_calls Trail.Live [.begin 1 .readWrite, .alloc 1 0 7, .commit 1,
    .begin 2 .readOnly, .begin 3 .readWrite, .write 3 0 0 (· + 1), .commit 3, .begin 4 .readWrite,
    .write 4 0 0 (· + 1)] [.commit 4, .commit 2, .begin 5 .readWrite, .read 5 0 0 false]
    (f := fun x y : Trail ℕ => ((x.state.refs 0, x.released 0, y.released 0),
      (x.state.pool.chain x.state.pool.fuel (some 0)).map (List.map Block.ts),
      (y.state.pool.blockPalloc.get 0).map Block.ts))
    (v := ((some 0, false, false), some [1, 4, 3], some 4)) (by decide +kernel)
  obtain ⟨hflags, hmaps⟩ := Prod.mk.inj hxy
  obtain ⟨hrefs, hflags⟩ := Prod.mk.inj hflags
  obtain ⟨hrx, hry⟩ := Prod.mk.inj hflags
  obtain ⟨hchain, hget⟩ := Prod.mk.inj hmaps
  obtain ⟨hx', hy'⟩ := chains_decrease hx hy hrefs
  obtain ⟨root, versions, hch, horder⟩ := hx' hrx
  obtain ⟨-, root₀, root', hroot, hroot', hle⟩ := hy' hry
  rw [hch, Option.map_some, List.map_cons, Option.some.injEq, List.cons.injEq] at hchain
  rw [hroot', Option.map_some, Option.some.injEq] at hget
  refine ⟨x, y, root, root', versions, hch, hchain.2, horder, hroot', hget, fun b hb => ?_⟩
  obtain rfl := Option.some.inj (hb.symm.trans hroot)
  exact hle

/-- **Access after release puts a chain out of order**: the block of the released root of the reference 0 has
become a version of the reference 1 when the writer 6 writes through both. -/
theorem not_chains_decrease : ∃ x : Trail ℕ, Relation.ReflTransGen (Trail.Call fun _ _ => True) Trail.init x
    ∧ x.state.refs 1 = some 2 ∧ x.released 1 = false
    ∧ (x.state.pool.chain x.state.pool.fuel (some 2)).map (List.map Block.ts) = some [1, 6, 5, 6]
    ∧ ∀ root versions, x.state.pool.chain x.state.pool.fuel (some 2) = some (root :: versions) →
      ¬ InOrder x.writer root versions := by
  obtain ⟨x, -, hx, -, hf⟩ := Trail.exists_of_calls (fun _ _ => True) [.begin 1 .readWrite, .alloc 1 0 7,
    .alloc 1 1 8, .commit 1, .begin 2 .readWrite, .free 2 0 0, .commit 2, .gc 0 false, .begin 3 .readWrite,
    .commit 3, .gc 0 false, .begin 4 .readOnly, .begin 5 .readWrite, .write 5 0 1 (· + 1), .commit 5,
    .begin 6 .readWrite, .write 6 0 1 (· + 1), .write 6 0 0 (· + 1)] []
    (f := fun x _ : Trail ℕ => (x.state.refs 1, x.released 1,
      (x.state.pool.chain x.state.pool.fuel (some 2)).map (List.map Block.ts)))
    (v := (some 2, false, some [1, 6, 5, 6])) (by decide +kernel)
  obtain ⟨hrefs, hf⟩ := Prod.mk.inj hf
  obtain ⟨hrel, hchain⟩ := Prod.mk.inj hf
  refine ⟨x, hx, hrefs, hrel, hchain, fun root versions hch horder => ?_⟩
  rw [hch, Option.map_some, List.map_cons, Option.some.injEq, List.cons.injEq] at hchain
  have hdec : (versions.map Block.ts).Pairwise fun m n => n < m := List.pairwise_map.mpr horder.decreasing
  rw [hchain.2] at hdec
  exact absurd hdec (by decide)

end Tx

end Furious
