import Furious.Tx.Access
import Furious.Tx.System

/-!
All of the memory of a state.

The blocks that are reachable belong to owners: each reference owns its chain,
and each folded version that waits in a garbage list owns itself. The memory of
a state holds all of them in disjoint cells.

* `MemHeld`: lists of versions of many owners in one memory;
* `HeapHeld`, `Listed`: the memory of a state, and what the garbage lists name;
* `storeVer`, `HeapHeld.stored`: **a store through a data pointer**;
* `HeapHeld.op`: **an operation on one reference leaves the others alone**;
* `Owned`: all that is allocated has an owner.
-/

namespace Furious

variable {α ι : Type}

/-! ### Owners -/

/-- The memory `m` holds the versions of every owner, in disjoint cells. -/
structure MemHeld (m : ℕ ⊕ ℕ → Option (Block ⊕ α)) (own : ι → List (Ver α)) : Prop where
  held : ∀ i, Held m (own i) none
  nodup : ∀ i, (cellsOf (own i)).Nodup
  separated : Separated m fun i => footprint (own i)

lemma footprint_update [DecidableEq ι] (own : ι → List (Ver α)) (i : ι) (vs : List (Ver α)) :
    (fun j => footprint (Function.update own i vs j))
      = Function.update (fun j => footprint (own j)) i (footprint vs) :=
  Function.comp_update footprint own i vs

lemma Held.footprint_live {m : ℕ ⊕ ℕ → Option (Block ⊕ α)} {vs : List (Ver α)} {next : Option ℕ}
    (h : Held m vs next) : ∀ k ∈ footprint vs, m k ≠ none := fun _ hk => h.live hk

namespace MemHeld

variable [DecidableEq ι] {m m' : ℕ ⊕ ℕ → Option (Block ⊕ α)} {own : ι → List (Ver α)} {i : ι}
  {kept ret : List (Ver α)}

/-- A step of one owner. -/
theorem update (h : MemHeld m own) (hf : Frame m m' (footprint (own i)) (footprint kept))
    (hheld : Held m' kept none) (hnd : (cellsOf kept).Nodup) :
    MemHeld m' (Function.update own i kept) where
  held j := by
    rcases eq_or_ne j i with rfl | hj
    · rwa [Function.update_self]
    · rw [Function.update_of_ne hj]
      exact (h.held j).congr fun k hk => h.separated.eq_of_ne hf hj hk
  nodup j := by
    rcases eq_or_ne j i with rfl | hj
    · rwa [Function.update_self]
    · rw [Function.update_of_ne hj]
      exact h.nodup j
  separated := by
    rw [footprint_update]
    exact h.separated.update hf hheld.footprint_live

/-- A step of one owner that hands some versions to an owner without any. -/
theorem move (h : MemHeld m own) (hf : Frame m m' (footprint (own i)) (footprint (kept ++ ret)))
    (hkept : Held m' kept none) (hret : Held m' ret none) (hnd : (cellsOf (kept ++ ret)).Nodup)
    {j : ι} (hij : i ≠ j) (hj : own j = []) :
    MemHeld m' (Function.update (Function.update own i kept) j ret) := by
  rw [cellsOf_append, List.nodup_append] at hnd
  obtain ⟨hndk, hndr, hdisj⟩ := hnd
  have hlive : ∀ k ∈ footprint (kept ++ ret), m' k ≠ none := by
    intro k hk
    rw [footprint_append] at hk
    exact hk.elim (hkept.footprint_live k) (hret.footprint_live k)
  have hempty : footprint (own j) = ∅ := by
    rw [hj]
    ext k
    simp
  -- first the whole step belongs to `i`, then `ret` changes hands
  have hsep := (h.separated.update hf hlive).move (j := j) (A := footprint kept)
    (B := footprint ret) hij
    (by rw [Function.update_self]; exact footprint_append kept ret)
    (fun k hk hk' => hdisj k hk k hk' rfl) (by rw [Function.update_of_ne hij.symm, hempty])
  rw [Function.update_idem] at hsep
  refine ⟨fun l => ?_, fun l => ?_, ?_⟩
  · rcases eq_or_ne l j with rfl | hl
    · rwa [Function.update_self]
    · rw [Function.update_of_ne hl]
      rcases eq_or_ne l i with rfl | hli
      · rwa [Function.update_self]
      · rw [Function.update_of_ne hli]
        exact (h.held l).congr fun k hk => h.separated.eq_of_ne hf hli hk
  · rcases eq_or_ne l j with rfl | hl
    · rwa [Function.update_self]
    · rw [Function.update_of_ne hl]
      rcases eq_or_ne l i with rfl | hli
      · rwa [Function.update_self]
      · rw [Function.update_of_ne hli]
        exact h.nodup l
  · rw [footprint_update, footprint_update]
    exact hsep

/-- A block has one owner, and one place in its list. -/
lemma addr_unique (h : MemHeld m own) {j : ι} {v w : Ver α} (hv : v ∈ own i) (hw : w ∈ own j)
    (he : v.addr = w.addr) : i = j := by
  by_contra hij
  refine h.separated.disjoint i j hij _ (addr_mem_cellsOf hv) ?_
  rw [he]
  exact addr_mem_cellsOf hw

end MemHeld

/-- The root of a chain and its other versions have different blocks. -/
lemma addr_ne_root {root v : Ver α} {vs : List (Ver α)} (h : (cellsOf (root :: vs)).Nodup)
    (hv : v ∈ vs) : v.addr ≠ root.addr := by
  intro e
  rw [cellsOf_cons, List.nodup_append] at h
  exact h.2.2 (.inl root.addr) (Ver.mem_cells.mpr (Or.inl rfl)) (.inl v.addr)
    (addr_mem_cellsOf hv) (by rw [e])

/-! ### Owners of all cells -/

/-- Every cell in use is one of an owner. -/
def Owned (m : ℕ ⊕ ℕ → Option (Block ⊕ α)) (own : ι → List (Ver α)) : Prop :=
  ∀ k, m k ≠ none → ∃ i, k ∈ footprint (own i)

/-- A step of one owner. -/
lemma Owned.update [DecidableEq ι] {m m' : ℕ ⊕ ℕ → Option (Block ⊕ α)} {own : ι → List (Ver α)} {i : ι}
    {kept : List (Ver α)} (h : Owned m own) (hf : Frame m m' (footprint (own i)) (footprint kept)) :
    Owned m' (Function.update own i kept) := by
  intro k hk
  by_cases hkept : k ∈ footprint kept
  · exact ⟨i, by rwa [Function.update_self]⟩
  · have hi : k ∉ footprint (own i) := fun hi => hk (hf.dropped k hi hkept)
    rw [hf.same k hi hkept] at hk
    obtain ⟨j, hj⟩ := h k hk
    have hne : j ≠ i := by
      rintro rfl
      exact hi hj
    exact ⟨j, by rwa [Function.update_of_ne hne]⟩

/-! ### Stores through a data pointer -/

/-- A version after the store of `x` in the data block `d`. -/
def storeVer (d : ℕ) (x : α) (v : Ver α) : Ver α :=
  { v with data := v.data.map fun dx => if dx.1 = d then (d, x) else dx }

section

variable {d : ℕ} {x : α} {vs : List (Ver α)} {next : Option ℕ}

lemma storeVer_addrs (d : ℕ) (x : α) (v : Ver α) :
    (storeVer d x v).data.map Prod.fst = v.data.map Prod.fst := by
  rw [storeVer, Option.map_map]
  refine congrArg (Option.map · v.data) (funext fun dx => ?_)
  rw [Function.comp_apply]
  split
  · next h => exact h.symm
  · rfl

lemma cells_storeVer (d : ℕ) (x : α) (v : Ver α) : (storeVer d x v).cells = v.cells := by
  have h := congrArg (fun o : Option ℕ => (o.map (Sum.inr (α := ℕ))).toList) (storeVer_addrs d x v)
  simp only [Option.map_map] at h
  exact congrArg (List.cons (Sum.inl v.addr)) h

lemma cellsOf_store (d : ℕ) (x : α) (vs : List (Ver α)) : cellsOf (vs.map (storeVer d x)) = cellsOf vs := by
  rw [cellsOf, cellsOf, List.flatMap_map]
  exact congrArg (vs.flatMap ·) (funext (cells_storeVer d x))

lemma startOf_store (vs : List (Ver α)) (next : Option ℕ) :
    startOf (vs.map (storeVer d x)) next = startOf vs next := by
  cases vs <;> rfl

/-- **A store** into a data block changes the contents of the versions that have it. -/
lemma Held.stored {p : Txpool α} {dp : Pool α} (h : Held p.mem vs next)
    (hget : dp.get = Function.update p.dataPalloc.get d (some x)) :
    Held (⟨dp, p.blockPalloc⟩ : Txpool α).mem (vs.map (storeVer d x)) next := by
  have hmem := mem_of_data hget
  induction vs with
  | nil => trivial
  | cons v vs ih =>
      obtain ⟨hb, hd, hvs⟩ := h
      refine ⟨?_, fun d' x' hx => ?_, ih hvs⟩
      · rw [hmem, Function.update_of_ne Sum.inl_ne_inr, startOf_store, Ver.block, storeVer_addrs]
        exact hb
      · obtain ⟨⟨d₀, x₀⟩, h₀, heq⟩ := Option.map_eq_some_iff.mp hx
        split at heq
        · obtain ⟨rfl, rfl⟩ := Prod.mk.inj heq
          rw [hmem, Function.update_self]
          rfl
        · next hne =>
            obtain ⟨rfl, rfl⟩ := Prod.mk.inj heq
            rw [hmem, Function.update_of_ne (fun hin => hne (Sum.inr.inj hin))]
            exact hd _ _ h₀

lemma content_storeVer (d : ℕ) (x : α) (v : Ver α) :
    (storeVer d x v).content.1 = v.content.1
      ∧ ((storeVer d x v).content.2 = none ↔ v.content.2 = none) := by
  refine ⟨rfl, ?_⟩
  simp only [Ver.content_snd, storeVer, Option.map_eq_none_iff]

lemma newest_store (root : Ver α) (vs : List (Ver α)) :
    (chainOf (storeVer d x root) (vs.map (storeVer d x))).newest.1 = (chainOf root vs).newest.1
      ∧ ((chainOf (storeVer d x root) (vs.map (storeVer d x))).newest.2 = none
        ↔ (chainOf root vs).newest.2 = none) := by
  rw [newest_chainOf, newest_chainOf]
  cases vs with
  | nil => exact content_storeVer d x root
  | cons v vs => exact content_storeVer d x v

lemma stamps_store (root : Ver α) (vs : List (Ver α)) :
    (chainOf (storeVer d x root) (vs.map (storeVer d x))).stamps = (chainOf root vs).stamps := by
  simp only [Chain.stamps, chainOf, List.map_map]
  rfl

end

/-! ### The memory of a state -/

namespace Tx

/-- The memory of `s` holds the chain `own (.inl r)` of every reference `r`, and the
folded version `own (.inr a)` of every retired block `a`; the contexts hold the
lists `garbage`. -/
structure HeapHeld (s : State α) (own : ℕ ⊕ ℕ → List (Ver α)) (garbage : ℕ → List (ℕ × ℕ)) :
    Prop where
  mem : MemHeld s.pool.mem own
  root : ∀ r root vs, own (.inl r) = root :: vs → s.refs r = some root.addr
  retired : ∀ a y ys, own (.inr a) = y :: ys → ys = [] ∧ y.addr = a
  ctx : ∀ c, CtxHeld (s.ctxs c) (garbage c)

/-- The block is retired, or the root of a freed reference. -/
def IsGarbage (own : ℕ ⊕ ℕ → List (Ver α)) (b : ℕ) : Prop :=
  (∃ y, own (.inr b) = [y])
    ∨ ∃ r root vs, own (.inl r) = root :: vs ∧ root.addr = b ∧ (chainOf root vs).newest.2 = none

/-- Every entry names a retired block or the root of a freed reference, and no
block is named twice. -/
structure Listed (own : ℕ ⊕ ℕ → List (Ver α)) (garbage : ℕ → List (ℕ × ℕ)) : Prop where
  block : ∀ c e b, (e, b) ∈ garbage c → IsGarbage own b
  once : ∀ c c' e e' b, (e, b) ∈ garbage c → (e', b) ∈ garbage c' → c = c' ∧ e = e'

variable {s : State α} {own own' : ℕ ⊕ ℕ → List (Ver α)} {garbage : ℕ → List (ℕ × ℕ)}
  {m : ℕ ⊕ ℕ → Option (Block ⊕ α)}

lemma heapHeld_init : HeapHeld (State.init : State α) (fun _ => []) fun _ => [] where
  mem := by
    refine ⟨fun _ => trivial, fun _ => List.nodup_nil, ?_⟩
    have : (fun _ : ℕ ⊕ ℕ => footprint ([] : List (Ver α))) = fun _ => ∅ := by
      funext i
      ext k
      simp
    rw [this]
    exact Separated.empty _
  root := by simp
  retired := by simp
  ctx _ := ctxHeld_init

lemma listed_init : Listed (fun _ => [] : ℕ ⊕ ℕ → List (Ver α)) fun _ => [] where
  block := by simp
  once := by simp

/-- A retired block is alone and has its owner's address. -/
lemma HeapHeld.addr_eq (h : HeapHeld s own garbage) {a : ℕ} {y : Ver α}
    (hy : y ∈ own (.inr a)) : own (.inr a) = [y] ∧ y.addr = a := by
  cases ho : own (.inr a) with
  | nil => simp [ho] at hy
  | cons z zs =>
      obtain ⟨rfl, hz⟩ := h.retired a z zs ho
      obtain rfl : y = z := by simpa [ho] using hy
      exact ⟨rfl, hz⟩

/-- The address of a version of a chain belongs to no retired block. -/
lemma HeapHeld.inr_eq_nil (h : HeapHeld s own garbage) {r : ℕ} {v : Ver α}
    (hv : v ∈ own (.inl r)) : own (.inr v.addr) = [] := by
  cases ho : own (.inr v.addr) with
  | nil => rfl
  | cons y ys =>
      obtain ⟨-, hy⟩ := h.retired _ y ys ho
      have := h.mem.addr_unique hv (j := .inr v.addr) (w := y) (by simp [ho]) hy.symm
      exact absurd this (by simp)

/-- A state with another pool and context. -/
lemma HeapHeld.setPool (h : HeapHeld s own garbage) {p : Txpool α} {c : ℕ} {ctx : Ctx}
    {l : List (ℕ × ℕ)} (hmem : MemHeld p.mem own') (hctx : CtxHeld ctx l)
    (hroot : ∀ r root vs, own' (.inl r) = root :: vs →
      ∃ root₀ vs₀, own (.inl r) = root₀ :: vs₀ ∧ root₀.addr = root.addr)
    (hret : ∀ a y ys, own' (.inr a) = y :: ys → ys = [] ∧ y.addr = a) :
    HeapHeld (s.setPool p c ctx) own' (Function.update garbage c l) where
  mem := hmem
  root r root vs ho := by
    obtain ⟨root₀, vs₀, ho', haddr⟩ := hroot r root vs ho
    rw [← haddr]
    exact h.root r root₀ vs₀ ho'
  retired := hret
  ctx c' := by
    rcases eq_or_ne c' c with rfl | hc
    · simpa [State.setPool] using hctx
    · simpa [State.setPool, Function.update_of_ne hc] using h.ctx c'

/-- How an operation on the reference `r` changes the owners: it keeps the versions
`kept`, and those of `ret` are retired. -/
structure Moved (own own' : ℕ ⊕ ℕ → List (Ver α)) (r : ℕ) (kept ret : List (Ver α)) : Prop where
  self : own' (.inl r) = kept
  other : ∀ q, q ≠ r → own' (.inl q) = own (.inl q)
  same : ∀ b, b ∉ ret.map Ver.addr → own' (.inr b) = own (.inr b)
  ret : ∀ y ∈ ret, own' (.inr y.addr) = [y]

/-- The cells of a block that has become a retired one had the reference for an owner. -/
lemma Moved.owned {r : ℕ} {root : Ver α} {vs kept ret : List (Ver α)} {m' : ℕ ⊕ ℕ → Option (Block ⊕ α)}
    (h : HeapHeld s own garbage) (ho : own (.inl r) = root :: vs) (hm : Moved own own' r kept ret)
    (hret : ∀ y ∈ ret, y ∈ vs) (hf : Frame s.pool.mem m' (footprint (root :: vs)) (footprint (kept ++ ret)))
    (howned : Owned s.pool.mem own) : Owned m' own' := by
  intro k hk
  by_cases hkept : k ∈ footprint (kept ++ ret)
  · rw [footprint_append] at hkept
    rcases hkept with hkept | hin
    · exact ⟨.inl r, by rwa [hm.self]⟩
    · obtain ⟨y, hy, hky⟩ := List.mem_flatMap.mp hin
      refine ⟨.inr y.addr, ?_⟩
      rw [hm.ret y hy]
      exact List.mem_flatMap.mpr ⟨y, List.mem_singleton_self y, hky⟩
  · have hr : k ∉ footprint (root :: vs) := fun hr => hk (hf.dropped k hr hkept)
    rw [hf.same k hr hkept] at hk
    obtain ⟨i, hi⟩ := howned k hk
    cases i with
    | inl q =>
        have hqr : q ≠ r := by
          rintro rfl
          rw [ho] at hi
          exact hr hi
        exact ⟨.inl q, by rwa [hm.other q hqr]⟩
    | inr a =>
        have ha : a ∉ ret.map Ver.addr := by
          intro hmem
          obtain ⟨y, hy, rfl⟩ := List.mem_map.mp hmem
          have hyo : y ∈ own (.inl r) := by
            rw [ho]
            exact List.mem_cons_of_mem _ (hret y hy)
          rw [h.inr_eq_nil hyo] at hi
          exact absurd hi (by simp)
        exact ⟨.inr a, by rwa [hm.same a ha]⟩

/-- **An operation on one reference leaves the others alone.** The versions it
folds become retired blocks. -/
theorem HeapHeld.op (h : HeapHeld s own garbage) {r c : ℕ} {root : Ver α} {vs : List (Ver α)}
    {p : Txpool α} {ctx : Ctx} {kept ret : List (Ver α)} {new : List (ℕ × ℕ)}
    (ho : own (.inl r) = root :: vs)
    (hop : OpResult s.pool (garbage c) root vs p ctx kept ret new)
    (hkept : ∀ root' vs', kept = root' :: vs' → root'.addr = root.addr) :
    ∃ own', HeapHeld (s.setPool p c ctx) own' (Function.update garbage c (new ++ garbage c))
      ∧ Moved own own' r kept ret := by
  have hframe := hop.frame
  rw [← ho] at hframe
  have hrootcond : ∀ q root' vs', (if q = r then kept else own (.inl q)) = root' :: vs' →
      ∃ root₀ vs₀, own (.inl q) = root₀ :: vs₀ ∧ root₀.addr = root'.addr := by
    intro q root' vs' hq
    split at hq
    · next hqr =>
        subst hqr
        exact ⟨root, vs, ho, (hkept root' vs' hq).symm⟩
    · exact ⟨root', vs', hq, rfl⟩
  obtain hret | ⟨y, hret⟩ : ret = [] ∨ ∃ y, ret = [y] := by
    have := hop.length_ret
    rcases ret with _ | ⟨y, _ | ⟨z, ret⟩⟩
    · exact Or.inl rfl
    · exact Or.inr ⟨y, rfl⟩
    · simp at this
  · subst hret
    have hnd := hop.nodup
    rw [List.append_nil] at hframe hnd
    have hval : ∀ q, Function.update own (.inl r) kept (.inl q)
        = if q = r then kept else own (.inl q) := by
      intro q
      split
      · next hq => rw [hq, Function.update_self]
      · next hq => rw [Function.update_of_ne (by simpa using hq)]
    refine ⟨Function.update own (.inl r) kept,
      h.setPool (h.mem.update hframe hop.held hnd) hop.ctx (fun q root' vs' hq => ?_)
        (fun a y ys ha => ?_), ⟨by simp, fun q hq => by simp [hq], by simp, by simp⟩⟩
    · exact hrootcond q root' vs' (by rw [← hval, hq])
    · rw [Function.update_of_ne (by simp)] at ha
      exact h.retired a y ys ha
  · subst hret
    have hy : y ∈ own (.inl r) := by
      rw [ho]
      exact List.mem_cons_of_mem _ (hop.mem_ret y (by simp))
    have hyo := h.inr_eq_nil hy
    have hinl : ∀ q, Function.update (Function.update own (.inl r) kept) (.inr y.addr) [y] (.inl q)
        = if q = r then kept else own (.inl q) := by
      intro q
      rw [Function.update_of_ne (by simp)]
      split
      · next hq => rw [hq, Function.update_self]
      · next hq => rw [Function.update_of_ne (by simpa using hq)]
    have hinr : ∀ b, b ≠ y.addr →
        Function.update (Function.update own (.inl r) kept) (.inr y.addr) [y] (.inr b)
          = own (.inr b) := by
      intro b hb
      rw [Function.update_of_ne (by simpa using hb), Function.update_of_ne (by simp)]
    refine ⟨Function.update (Function.update own (.inl r) kept) (.inr y.addr) [y],
      h.setPool (h.mem.move hframe hop.held (hop.held_ret y (by simp)) hop.nodup (by simp) hyo)
        hop.ctx (fun q root' vs' hq => ?_) (fun a z zs ha => ?_),
      ⟨by simp, fun q hq => by simp [hq], fun b hb => hinr b (by simpa using hb), by simp⟩⟩
    · exact hrootcond q root' vs' (by rw [← hinl, hq])
    · rcases eq_or_ne a y.addr with rfl | hne
      · rw [Function.update_self] at ha
        obtain ⟨rfl, rfl⟩ : y = z ∧ [] = zs := by simpa using ha
        exact ⟨rfl, rfl⟩
      · rw [hinr a hne] at ha
        exact h.retired a z zs ha

/-- A reference without a chain gets one. -/
lemma HeapHeld.alloc (h : HeapHeld s own garbage) {r : ℕ} (ho : own (.inl r) = []) {p : Txpool α}
    {root : Ver α} {vs : List (Ver α)} (hheld : Held p.mem (root :: vs) none)
    (hnd : (cellsOf (root :: vs)).Nodup) (hf : Frame s.pool.mem p.mem ∅ (footprint (root :: vs))) :
    HeapHeld { s with pool := p, refs := Function.update s.refs r (some root.addr) }
      (Function.update own (.inl r) (root :: vs)) garbage where
  mem := by
    have hempty : footprint (own (.inl r)) = ∅ := by
      rw [ho]
      ext k
      simp
    rw [← hempty] at hf
    exact h.mem.update hf hheld hnd
  root q root' vs' hq := by
    rcases eq_or_ne q r with rfl | hqr
    · obtain ⟨rfl, -⟩ : root = root' ∧ vs = vs' := by simpa using hq
      exact Function.update_self ..
    · rw [Function.update_of_ne (by simpa using hqr)] at hq
      change Function.update s.refs r (some root.addr) q = _
      rw [Function.update_of_ne hqr]
      exact h.root q root' vs' hq
  retired b y ys hb := by
    rw [Function.update_of_ne (by simp)] at hb
    exact h.retired b y ys hb
  ctx := h.ctx

/-- A store through a data pointer, whoever has the block. -/
theorem HeapHeld.stored (h : HeapHeld s own garbage) {d : ℕ} {x : α} {dp : Pool α}
    (hget : dp.get = Function.update s.pool.dataPalloc.get d (some x)) :
    HeapHeld { s with pool := { s.pool with dataPalloc := dp } } (fun i => (own i).map (storeVer d x))
      garbage where
  mem := by
    have hheld := fun i => (h.mem.held i).stored hget
    refine ⟨hheld, fun i => ?_, fun i k hk => (hheld i).live hk, fun i j hij k hk hk' => ?_⟩
    · rw [cellsOf_store]
      exact h.mem.nodup i
    · rw [mem_footprint, cellsOf_store] at hk hk'
      exact h.mem.separated.disjoint i j hij k hk hk'
  root r root vs ho := by
    obtain ⟨root', vs', ho', rfl, -⟩ := List.map_eq_cons_iff.mp ho
    exact h.root r root' vs' ho'
  retired a y ys ho := by
    obtain ⟨y', ys', ho', rfl, rfl⟩ := List.map_eq_cons_iff.mp ho
    obtain ⟨rfl, haddr⟩ := h.retired a y' ys' ho'
    exact ⟨rfl, haddr⟩
  ctx := h.ctx

/-! ### Garbage lists -/

/-- A garbage list loses entries, or gets entries for blocks that no list names. -/
lemma Listed.change (hl : Listed own garbage) {c : ℕ} {l : List (ℕ × ℕ)} (new : List (ℕ × ℕ))
    (hsub : ∀ x ∈ l, x ∈ new ∨ x ∈ garbage c)
    (hblock : ∀ c' e b, (e, b) ∈ Function.update garbage c l c' → IsGarbage own' b)
    (hnew : ∀ e b, (e, b) ∈ new → ∀ c' e', (e', b) ∉ garbage c')
    (hnd : (new.map Prod.snd).Nodup) : Listed own' (Function.update garbage c l) where
  block := hblock
  once c₁ c₂ e₁ e₂ b h₁ h₂ := by
    have hcases : ∀ c' e, (e, b) ∈ Function.update garbage c l c' →
        (c' = c ∧ (e, b) ∈ new) ∨ (e, b) ∈ garbage c' := by
      intro c' e hmem
      rcases eq_or_ne c' c with rfl | hc
      · rw [Function.update_self] at hmem
        exact (hsub _ hmem).imp_left (⟨rfl, ·⟩)
      · rw [Function.update_of_ne hc] at hmem
        exact Or.inr hmem
    rcases hcases c₁ e₁ h₁ with ⟨rfl, hn₁⟩ | hg₁ <;> rcases hcases c₂ e₂ h₂ with ⟨rfl, hn₂⟩ | hg₂
    · exact ⟨rfl, congrArg Prod.fst (List.inj_on_of_nodup_map hnd hn₁ hn₂ rfl)⟩
    · exact absurd hg₂ (hnew e₁ b hn₁ c₂ e₂)
    · exact absurd hg₁ (hnew e₂ b hn₂ c₁ e₁)
    · exact hl.once c₁ c₂ e₁ e₂ b hg₁ hg₂

/-- No list names a version that is not a root. -/
lemma Listed.not_mem_version (hl : Listed own garbage) (h : HeapHeld s own garbage) {r : ℕ}
    {root v : Ver α} {vs : List (Ver α)} (ho : own (.inl r) = root :: vs) (hv : v ∈ vs) (c e : ℕ) :
    (e, v.addr) ∉ garbage c := by
  intro hmem
  have hvo : v ∈ own (.inl r) := by
    rw [ho]
    exact List.mem_cons_of_mem _ hv
  rcases hl.block c e _ hmem with ⟨y, hy⟩ | ⟨q, root', vs', hq, haddr, -⟩
  · simp [h.inr_eq_nil hvo] at hy
  · have hqr := h.mem.addr_unique (i := .inl q) (v := root') (by simp [hq]) hvo haddr
    obtain rfl : q = r := by simpa using hqr
    obtain ⟨rfl, rfl⟩ : root = root' ∧ vs = vs' := by simpa [ho] using hq
    have hnd := h.mem.nodup (.inl q)
    rw [ho] at hnd
    exact addr_ne_root hnd hv haddr.symm

/-- The entries that an operation adds name no block that is named already. -/
lemma Listed.new_fresh (hl : Listed own garbage) (h : HeapHeld s own garbage) {r c : ℕ}
    {root : Ver α} {vs : List (Ver α)} {p : Txpool α} {ctx : Ctx} {kept ret : List (Ver α)}
    {new : List (ℕ × ℕ)} (ho : own (.inl r) = root :: vs)
    (hop : OpResult s.pool (garbage c) root vs p ctx kept ret new) :
    (∀ e b, (e, b) ∈ new → ∀ c' e', (e', b) ∉ garbage c') ∧ (new.map Prod.snd).Nodup := by
  refine ⟨fun e b hmem c' e' => ?_, ?_⟩
  · have hb : b ∈ ret.map Ver.addr := by
      rw [← hop.listed]
      exact List.mem_map_of_mem (f := Prod.snd) hmem
    obtain ⟨y, hy, rfl⟩ := List.mem_map.mp hb
    exact hl.not_mem_version h ho (hop.mem_ret y hy) c' e'
  · have := hop.length_ret
    rw [hop.listed]
    rcases ret with _ | ⟨y, _ | ⟨z, ret⟩⟩
    · exact List.nodup_nil
    · exact List.nodup_singleton _
    · simp at this

/-- What was garbage stays so if the reference is kept, and loses no tombstone. -/
lemma IsGarbage.moved {r : ℕ} {root : Ver α} {vs kept ret : List (Ver α)}
    (ho : own (.inl r) = root :: vs) (hm : Moved own own' r kept ret) {b : ℕ} (hb : IsGarbage own b)
    (hkept : root.addr = b → (chainOf root vs).newest.2 = none → ∃ root' vs', kept = root' :: vs'
      ∧ root'.addr = b ∧ (chainOf root' vs').newest.2 = none) : IsGarbage own' b := by
  by_cases hret : b ∈ ret.map Ver.addr
  · obtain ⟨y, hy, rfl⟩ := List.mem_map.mp hret
    exact Or.inl ⟨y, hm.ret y hy⟩
  · rcases hb with ⟨y, hy⟩ | ⟨q, root', vs', hq, haddr, hnew⟩
    · exact Or.inl ⟨y, (hm.same b hret).trans hy⟩
    · rcases eq_or_ne q r with rfl | hqr
      · obtain ⟨rfl, rfl⟩ : root = root' ∧ vs = vs' := by simpa [ho] using hq
        obtain ⟨root'', vs'', hk, haddr', hnew'⟩ := hkept haddr hnew
        exact Or.inr ⟨q, root'', vs'', hm.self.trans hk, haddr', hnew'⟩
      · exact Or.inr ⟨q, root', vs', (hm.other q hqr).trans hq, haddr, hnew⟩

/-- An operation that keeps the root adds its folded version to the list. -/
lemma Listed.op (hl : Listed own garbage) (h : HeapHeld s own garbage) {r c : ℕ}
    {root root' : Ver α} {vs vs' : List (Ver α)} {p : Txpool α} {ctx : Ctx} {ret : List (Ver α)}
    {new : List (ℕ × ℕ)} (ho : own (.inl r) = root :: vs)
    (hop : OpResult s.pool (garbage c) root vs p ctx (root' :: vs') ret new)
    (hm : Moved own own' r (root' :: vs') ret) (haddr : root'.addr = root.addr)
    (hnone : (chainOf root vs).newest.2 = none → (chainOf root' vs').newest.2 = none) :
    Listed own' (Function.update garbage c (new ++ garbage c)) := by
  obtain ⟨hnew, hnd⟩ := hl.new_fresh h ho hop
  refine hl.change new (fun x hx => List.mem_append.mp hx) (fun c' e b hmem => ?_) hnew hnd
  have hold : ∀ {c'}, (e, b) ∈ garbage c' → IsGarbage own' b := fun hg =>
    (hl.block _ e b hg).moved ho hm fun hb hn => ⟨root', vs', rfl, haddr.trans hb, hnone hn⟩
  rcases eq_or_ne c' c with rfl | hc
  · rw [Function.update_self, List.mem_append] at hmem
    rcases hmem with hmem | hmem
    · have hb : b ∈ ret.map Ver.addr := by
        rw [← hop.listed]
        exact List.mem_map_of_mem (f := Prod.snd) hmem
      obtain ⟨y, hy, rfl⟩ := List.mem_map.mp hb
      exact Or.inl ⟨y, hm.ret y hy⟩
    · exact hold hmem
  · rw [Function.update_of_ne hc] at hmem
    exact hold hmem

/-- The root of a reference with contents is not named. -/
lemma Listed.not_mem_root (hl : Listed own garbage) (h : HeapHeld s own garbage) {r : ℕ} {root : Ver α}
    {vs : List (Ver α)} (ho : own (.inl r) = root :: vs) (hp : (chainOf root vs).newest.2 ≠ none)
    (c e : ℕ) : (e, root.addr) ∉ garbage c := by
  have hroot : root ∈ own (.inl r) := by
    rw [ho]
    exact List.mem_cons_self
  intro hmem
  rcases hl.block c e _ hmem with ⟨y, hy⟩ | ⟨q, root', vs', hq, haddr, hn⟩
  · rw [h.inr_eq_nil hroot] at hy
    cases hy
  · have hqr := h.mem.addr_unique (i := .inl q) (v := root') (by simp [hq]) hroot haddr
    obtain rfl : q = r := by simpa using hqr
    obtain ⟨rfl, rfl⟩ : root = root' ∧ vs = vs' := by simpa [ho] using hq
    exact hp hn

/-- A free adds an entry for the root, which then holds nothing. -/
lemma Listed.free (hl : Listed own garbage) (h : HeapHeld s own garbage) {r c : ℕ}
    {root root' : Ver α} {vs vs' : List (Ver α)} {p : Txpool α} {ctx : Ctx} {ret : List (Ver α)}
    {new : List (ℕ × ℕ)} (ho : own (.inl r) = root :: vs)
    (hop : OpResult s.pool (garbage c) root vs p ctx (root' :: vs') ret new)
    (hm : Moved own own' r (root' :: vs') ret) (haddr : root'.addr = root.addr)
    (hp : (chainOf root vs).newest.2 ≠ none) (hnone : (chainOf root' vs').newest.2 = none) (e : ℕ) :
    Listed own' (Function.update garbage c ((e, root.addr) :: (new ++ garbage c))) := by
  obtain ⟨hfresh, hndn⟩ := hl.new_fresh h ho hop
  have hlisted := hl.op h ho hop hm haddr fun _ => hnone
  have hnd := h.mem.nodup (.inl r)
  rw [ho] at hnd
  refine hl.change ((e, root.addr) :: new) (fun x hx => ?_) (fun c' e' b hmem => ?_)
    (fun e' b hmem c' e'' => ?_) ?_
  · rw [List.mem_cons, List.mem_append] at hx
    rw [List.mem_cons, or_assoc]
    exact hx
  · have hthis : IsGarbage own' root.addr := Or.inr ⟨r, root', vs', hm.self, haddr, hnone⟩
    have hold := hlisted.block c' e' b
    rcases eq_or_ne c' c with rfl | hc
    · rw [Function.update_self, List.mem_cons] at hmem
      rw [Function.update_self] at hold
      rcases hmem with heq | hmem
      · obtain ⟨rfl, rfl⟩ := Prod.mk.inj heq
        exact hthis
      · exact hold hmem
    · rw [Function.update_of_ne hc] at hmem hold
      exact hold hmem
  · rcases List.mem_cons.mp hmem with heq | hmem
    · obtain ⟨rfl, rfl⟩ := Prod.mk.inj heq
      exact hl.not_mem_root h ho hp c' e''
    · exact hfresh e' b hmem c' e''
  · rw [List.map_cons, List.nodup_cons]
    refine ⟨fun hmem => ?_, hndn⟩
    rw [hop.listed] at hmem
    obtain ⟨y, hy, hya⟩ := List.mem_map.mp hmem
    exact addr_ne_root hnd (hop.mem_ret y hy) hya

lemma Listed.stored (hl : Listed own garbage) (d : ℕ) (x : α) :
    Listed (fun i => (own i).map (storeVer d x)) garbage where
  block c e b hmem := by
    rcases hl.block c e b hmem with ⟨y, hy⟩ | ⟨r, root, vs, hr, haddr, hnone⟩
    · exact Or.inl ⟨storeVer d x y, congrArg (List.map (storeVer d x)) hy⟩
    · exact Or.inr ⟨r, storeVer d x root, vs.map (storeVer d x), congrArg (List.map (storeVer d x)) hr,
        haddr, (newest_store root vs).2.mpr hnone⟩
  once := hl.once

end Tx

end Furious
