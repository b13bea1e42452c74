import Furious.Tx.Heap

/-!
Collection of a thread context.

The collector goes along the garbage list of a context. An entry goes together with its block, or
both stay; a version that is folded on the way gets an entry in front, where the collector has
already been.

* `Collected`, `Swept`: what becomes of the chains of the references and of the retired blocks;
* `Verdict`: what the collector decides about a block;
* `gc_entry_spec`: **one entry**, and `gcLoop_spec`: **the loop over the entries**;
* `ctx_gc_lists`: **a collection of a context**, with the list it leaves and the flag it returns.
-/

namespace Furious

variable {α : Type}

namespace Tx

variable {s : State α} {own own' : ℕ ⊕ ℕ → List (Ver α)} {garbage : ℕ → List (ℕ × ℕ)}
  {m m' : ℕ ⊕ ℕ → Option (Block ⊕ α)}

/-! ### What a collection changes -/

/-- What a collection with the cut-off `orv` of the listed blocks `bs` does to the
owners: the chains of listed roots go, or are collected. -/
structure Collected (orv : ℕ) (force : Bool) (bs : List ℕ) (own own' : ℕ ⊕ ℕ → List (Ver α)) :
    Prop where
  empty : ∀ r, own (.inl r) = [] → own' (.inl r) = []
  other : ∀ r root vs, own (.inl r) = root :: vs → root.addr ∉ bs → own' (.inl r) = root :: vs
  gone : ∀ r root vs, own (.inl r) = root :: vs → root.addr ∈ bs →
    force = true ∨ (chainOf root vs).Collectable orv → own' (.inl r) = []
  kept : ∀ r root vs, own (.inl r) = root :: vs → root.addr ∈ bs →
    ¬ (force = true ∨ (chainOf root vs).Collectable orv) →
    ∃ root' vs', own' (.inl r) = root' :: vs' ∧ root'.addr = root.addr
      ∧ chainOf root' vs' = (chainOf root vs).gc orv

variable {c e b orv : ℕ} {force : Bool} {pre post : List (ℕ × ℕ)}

/-- A collection that meets no root changes none. -/
lemma Collected.of_eq (h : ∀ r, own' (.inl r) = own (.inl r))
    (hb : ∀ r root vs, own (.inl r) = root :: vs → root.addr ≠ b) :
    Collected orv force [b] own own' where
  empty r ho := (h r).trans ho
  other r _ _ ho _ := (h r).trans ho
  gone r root vs ho hmem := absurd (List.mem_singleton.mp hmem) (hb r root vs ho)
  kept r root vs ho hmem := absurd (List.mem_singleton.mp hmem) (hb r root vs ho)

/-- A collection that meets the root of `r`. -/
lemma Collected.of_moved {r : ℕ} {root : Ver α} {vs kept ret : List (Ver α)}
    (h : MemHeld m own) (ho : own (.inl r) = root :: vs) (hm : Moved own own' r kept ret)
    (hgone : force = true ∨ (chainOf root vs).Collectable orv → kept = [])
    (hkept : ¬ (force = true ∨ (chainOf root vs).Collectable orv) →
      ∃ root' vs', kept = root' :: vs' ∧ root'.addr = root.addr
        ∧ chainOf root' vs' = (chainOf root vs).gc orv) :
    Collected orv force [root.addr] own own' := by
  have huniq : ∀ q root' vs', own (.inl q) = root' :: vs' → root'.addr ∈ [root.addr] →
      q = r ∧ root' = root ∧ vs' = vs := by
    intro q root' vs' hq hmem
    have hqr := h.addr_unique (i := .inl q) (v := root') (j := .inl r) (w := root) (by simp [hq])
      (by simp [ho]) (List.mem_singleton.mp hmem)
    obtain rfl : q = r := by simpa using hqr
    obtain ⟨rfl, rfl⟩ : root = root' ∧ vs = vs' := by simpa [ho] using hq
    exact ⟨rfl, rfl, rfl⟩
  refine ⟨fun q hq => ?_, fun q root' vs' hq hmem => ?_, fun q root' vs' hq hmem hc => ?_,
    fun q root' vs' hq hmem hc => ?_⟩
  · have hqr : q ≠ r := by
      rintro rfl
      simp [ho] at hq
    exact (hm.other q hqr).trans hq
  · have hqr : q ≠ r := by
      rintro rfl
      obtain ⟨rfl, rfl⟩ : root = root' ∧ vs = vs' := by simpa [ho] using hq
      exact hmem (List.mem_singleton_self _)
    exact (hm.other q hqr).trans hq
  · obtain ⟨rfl, rfl, rfl⟩ := huniq q root' vs' hq hmem
    exact hm.self.trans (hgone hc)
  · obtain ⟨rfl, rfl, rfl⟩ := huniq q root' vs' hq hmem
    obtain ⟨root'', vs'', hk, hrest⟩ := hkept hc
    exact ⟨root'', vs'', hm.self.trans hk, hrest⟩

/-- One collection after another, of different blocks. -/
lemma Collected.trans {own'' : ℕ ⊕ ℕ → List (Ver α)} {bs : List ℕ}
    (h : Collected orv force [b] own own') (h' : Collected orv force bs own' own'') (hb : b ∉ bs) :
    Collected orv force (b :: bs) own own'' := by
  refine ⟨fun r ho => h'.empty r (h.empty r ho), fun r root vs ho hmem => ?_,
    fun r root vs ho hmem hc => ?_, fun r root vs ho hmem hc => ?_⟩
  · rw [List.mem_cons, not_or] at hmem
    exact h'.other r root vs (h.other r root vs ho (by simp [hmem.1])) hmem.2
  · by_cases hrb : root.addr = b
    · exact h'.empty r (h.gone r root vs ho (by simp [hrb]) hc)
    · exact h'.gone r root vs (h.other r root vs ho (by simp [hrb]))
        ((List.mem_cons.mp hmem).resolve_left hrb) hc
  · by_cases hrb : root.addr = b
    · obtain ⟨root', vs', ho', haddr, hchain⟩ := h.kept r root vs ho (by simp [hrb]) hc
      have hnot : root'.addr ∉ bs := by rwa [haddr, hrb]
      exact ⟨root', vs', h'.other r root' vs' ho' hnot, haddr, hchain⟩
    · exact h'.kept r root vs (h.other r root vs ho (by simp [hrb]))
        ((List.mem_cons.mp hmem).resolve_left hrb) hc

/-- What it does to the retired blocks: the listed ones go, or stay as they are, and the versions
that are folded into listed roots join them. -/
structure Swept (orv : ℕ) (force : Bool) (bs : List ℕ) (m m' : ℕ ⊕ ℕ → Option (Block ⊕ α))
    (own own' : ℕ ⊕ ℕ → List (Ver α)) : Prop where
  gone : ∀ a y, own (.inr a) = [y] → a ∈ bs → force = true ∨ (chainOf y []).Collectable orv →
    own' (.inr a) = []
  kept : ∀ a y, own (.inr a) = [y] → ¬ (a ∈ bs ∧ (force = true ∨ (chainOf y []).Collectable orv)) →
    own' (.inr a) = [y]
  new : ∀ a y, own' (.inr a) = [y] → own (.inr a) = [y] ∨ ∃ r root vs, own (.inl r) = root :: vs
    ∧ root.addr ∈ bs ∧ force = false ∧ y ∈ folded orv vs ∧ y.addr = a
  owned : Owned m own → Owned m' own'

/-- Nothing happens to a retired block that is kept. -/
lemma Swept.of_eq {y : Ver α} (ho : own (.inr b) = [y])
    (hno : ¬ (force = true ∨ (chainOf y []).Collectable orv)) : Swept orv force [b] m m own own where
  gone a z ha hmem hgone := by
    obtain rfl := List.mem_singleton.mp hmem
    obtain rfl : y = z := by simpa [ho] using ha
    exact absurd hgone hno
  kept _ _ ha _ := ha
  new _ _ ha := Or.inl ha
  owned h := h

/-- A retired block is released. -/
lemma Swept.of_released (hf : Frame m m' (footprint (own (.inr b))) ∅) {y : Ver α} (ho : own (.inr b) = [y])
    (hgone : force = true ∨ (chainOf y []).Collectable orv) :
    Swept orv force [b] m m' own (Function.update own (.inr b) []) where
  gone a z ha hmem _ := by
    obtain rfl := List.mem_singleton.mp hmem
    exact Function.update_self ..
  kept a z ha hno := by
    have hab : a ≠ b := by
      rintro rfl
      obtain rfl : y = z := by simpa [ho] using ha
      exact hno ⟨List.mem_singleton_self a, hgone⟩
    rwa [Function.update_of_ne (by simpa using hab)]
  new a z ha := by
    rcases eq_or_ne a b with rfl | hab
    · rw [Function.update_self] at ha
      cases ha
    · exact Or.inl (by rwa [Function.update_of_ne (by simpa using hab)] at ha)
  owned h := h.update (by
    have hempty : footprint ([] : List (Ver α)) = ∅ := by
      ext k
      simp
    rwa [hempty])

/-- The collection meets the root of `r`. -/
lemma Swept.of_moved (h : HeapHeld s own garbage) {r : ℕ} {root : Ver α} {vs kept ret : List (Ver α)}
    (ho : own (.inl r) = root :: vs) (hm : Moved own own' r kept ret)
    (hret : ∀ y ∈ ret, force = false ∧ y ∈ folded orv vs)
    (hf : Frame s.pool.mem m' (footprint (root :: vs)) (footprint (kept ++ ret))) :
    Swept orv force [root.addr] s.pool.mem m' own own' where
  gone a y ha hmem _ := by
    obtain rfl := List.mem_singleton.mp hmem
    rw [h.inr_eq_nil (r := r) (by simp [ho])] at ha
    cases ha
  kept a y ha _ := by
    refine (hm.same a fun hmem => ?_).trans ha
    obtain ⟨z, hz, rfl⟩ := List.mem_map.mp hmem
    have hzo : z ∈ own (.inl r) := by
      rw [ho]
      exact List.mem_cons_of_mem _ ((folded_sublist orv vs).subset (hret z hz).2)
    rw [h.inr_eq_nil hzo] at ha
    cases ha
  new a y ha := by
    by_cases hmem : a ∈ ret.map Ver.addr
    · obtain ⟨z, hz, rfl⟩ := List.mem_map.mp hmem
      obtain rfl : z = y := by simpa [hm.ret z hz] using ha
      exact Or.inr ⟨r, root, vs, ho, List.mem_singleton_self _, (hret z hz).1, (hret z hz).2, rfl⟩
    · exact Or.inl ((hm.same a hmem).symm.trans ha)
  owned := hm.owned h ho (fun y hy => (folded_sublist orv vs).subset (hret y hy).2) hf

/-- A chain with a root that is not among the blocks has been there before. -/
lemma Collected.back (h : HeapHeld s own garbage) {s' : State α} {garbage' : ℕ → List (ℕ × ℕ)}
    (h' : HeapHeld s' own' garbage') (hrefs : s'.refs = s.refs) {bs : List ℕ}
    (hc : Collected orv force bs own own') {r : ℕ} {root : Ver α} {vs : List (Ver α)}
    (ho : own' (.inl r) = root :: vs) (hb : root.addr ∉ bs) : own (.inl r) = root :: vs := by
  cases ho₀ : own (.inl r) with
  | nil =>
      rw [hc.empty r ho₀] at ho
      cases ho
  | cons root₀ vs₀ =>
      have haddr : root₀.addr = root.addr := by
        have h₀ := h.root r root₀ vs₀ ho₀
        rw [← hrefs, h'.root r root vs ho] at h₀
        exact (Option.some.inj h₀).symm
      have hother := hc.other r root₀ vs₀ ho₀ (haddr ▸ hb)
      exact hother.symm.trans ho

/-- One collection after another, of different blocks. -/
lemma Swept.trans (h : HeapHeld s own garbage) {s' : State α} {garbage' : ℕ → List (ℕ × ℕ)}
    (h' : HeapHeld s' own' garbage') (hrefs : s'.refs = s.refs) {m'' : ℕ ⊕ ℕ → Option (Block ⊕ α)}
    {own'' : ℕ ⊕ ℕ → List (Ver α)} {bs : List ℕ} (hc : Collected orv force [b] own own')
    (hs : Swept orv force [b] m m' own own') (hs' : Swept orv force bs m' m'' own' own'')
    (hret : ∀ a y ys, own'' (.inr a) = y :: ys → ys = []) (hb : b ∉ bs) :
    Swept orv force (b :: bs) m m'' own own'' := by
  have hnew : ∀ a y, own'' (.inr a) = [y] → own (.inr a) = [y] ∧ own' (.inr a) = [y]
      ∨ ∃ r root vs, own (.inl r) = root :: vs ∧ root.addr ∈ b :: bs ∧ force = false ∧ y ∈ folded orv vs
        ∧ y.addr = a := by
    intro a y ha
    rcases hs'.new a y ha with ha' | ⟨r, root, vs, ho, hmem, hrest⟩
    · rcases hs.new a y ha' with ha₀ | ⟨r, root, vs, ho, hmem, hrest⟩
      · exact Or.inl ⟨ha₀, ha'⟩
      · exact Or.inr ⟨r, root, vs, ho, List.mem_cons.mpr (Or.inl (List.mem_singleton.mp hmem)), hrest⟩
    · have hne : root.addr ∉ [b] := fun hbr => hb (List.mem_singleton.mp hbr ▸ hmem)
      exact Or.inr ⟨r, root, vs, hc.back h h' hrefs ho hne, List.mem_cons_of_mem b hmem, hrest⟩
  refine ⟨fun a y ha hmem hgone => ?_, fun a y ha hno => ?_, fun a y ha => ?_, fun hown =>
    hs'.owned (hs.owned hown)⟩
  · rcases eq_or_ne a b with rfl | hab
    · have hnil := hs.gone a y ha (List.mem_singleton_self a) hgone
      cases hz : own'' (.inr a) with
      | nil => rfl
      | cons z zs =>
          obtain rfl := hret a z zs hz
          -- the block would have two owners
          rcases hnew a z hz with ⟨-, ha'⟩ | ⟨r, root, vs, ho, -, -, hy, haddr⟩
          · rw [hnil] at ha'
            cases ha'
          · have hzo : z ∈ own (.inl r) := by
              rw [ho]
              exact List.mem_cons_of_mem _ ((folded_sublist orv vs).subset hy)
            have := h.inr_eq_nil hzo
            rw [haddr, ha] at this
            cases this
    · have ha' := hs.kept a y ha fun hc => hab (List.mem_singleton.mp hc.1)
      exact hs'.gone a y ha' ((List.mem_cons.mp hmem).resolve_left hab) hgone
  · refine hs'.kept a y (hs.kept a y ha fun hc => hno ⟨?_, hc.2⟩) fun hc => hno ⟨?_, hc.2⟩
    · exact List.mem_cons.mpr (Or.inl (List.mem_singleton.mp hc.1))
    · exact List.mem_cons_of_mem b hc.1
  · exact (hnew a y ha).imp_left And.left

/-- What the collector decides about the block `b`: whether it goes, and the blocks `added` of the
versions that are folded into it. -/
structure Verdict (own : ℕ ⊕ ℕ → List (Ver α)) (orv : ℕ) (force : Bool) (b : ℕ) (gced : Bool)
    (added : List ℕ) : Prop where
  gced_iff : ∀ i root vs, own i = root :: vs → root.addr = b →
    (gced = true ↔ force = true ∨ (chainOf root vs).Collectable orv)
  added_eq : ∀ i root vs, own i = root :: vs → root.addr = b →
    added = if force = true then [] else (folded orv vs).map Ver.addr

/-- The owner of the block decides. -/
lemma Verdict.of_owner (h : MemHeld m own) {i : ℕ ⊕ ℕ} {root : Ver α} {vs : List (Ver α)}
    (ho : own i = root :: vs) {gced : Bool} {added : List ℕ}
    (hgced : gced = true ↔ force = true ∨ (chainOf root vs).Collectable orv)
    (hadded : added = if force = true then [] else (folded orv vs).map Ver.addr) :
    Verdict own orv force root.addr gced added := by
  have huniq : ∀ j root' vs', own j = root' :: vs' → root'.addr = root.addr → root' = root ∧ vs' = vs := by
    intro j root' vs' hj haddr
    obtain rfl := h.addr_unique (i := j) (j := i) (v := root') (w := root) (by simp [hj]) (by simp [ho]) haddr
    exact List.cons.inj (hj.symm.trans ho)
  refine ⟨fun j root' vs' hj haddr => ?_, fun j root' vs' hj haddr => ?_⟩
  · obtain ⟨rfl, rfl⟩ := huniq j root' vs' hj haddr
    exact hgced
  · obtain ⟨rfl, rfl⟩ := huniq j root' vs' hj haddr
    exact hadded

/-- There is one verdict about a block. -/
lemma Verdict.unique {i : ℕ ⊕ ℕ} {root : Ver α} {vs : List (Ver α)} (ho : own i = root :: vs)
    {gced gced' : Bool} {added added' : List ℕ} (h : Verdict own orv force root.addr gced added)
    (h' : Verdict own orv force root.addr gced' added') : gced = gced' ∧ added = added' := by
  refine ⟨Bool.eq_iff_iff.mpr ?_, ?_⟩
  · rw [h.gced_iff i root vs ho rfl, h'.gced_iff i root vs ho rfl]
  · rw [h.added_eq i root vs ho rfl, h'.added_eq i root vs ho rfl]

/-! ### One entry -/

/-- Without the entry of `b`, the lists have no further entries. -/
lemma mem_garbage_of_mem_rest (hg : garbage c = pre ++ (e, b) :: post) {c' : ℕ} {x : ℕ × ℕ}
    (h : x ∈ Function.update garbage c (pre ++ post) c') : x ∈ garbage c' := by
  rcases eq_or_ne c' c with rfl | hc
  · rw [Function.update_self] at h
    rw [hg]
    exact (List.Sublist.append_left (List.sublist_cons_self _ _) _).subset h
  · rwa [Function.update_of_ne hc] at h

/-- The entry of a block is the only one. -/
lemma Listed.not_mem_rest (hl : Listed own garbage) (h : HeapHeld s own garbage)
    (hg : garbage c = pre ++ (e, b) :: post) {c' e' : ℕ}
    (hmem : (e', b) ∈ Function.update garbage c (pre ++ post) c') : False := by
  have hnd := (h.ctx c).nodup
  rw [hg, List.map_append, List.map_cons, List.nodup_middle, List.nodup_cons] at hnd
  have hself : (e, b) ∈ garbage c := by simp [hg]
  obtain ⟨rfl, rfl⟩ := hl.once c' c e' e b (mem_garbage_of_mem_rest hg hmem) hself
  rw [Function.update_self] at hmem
  refine hnd.1 ?_
  rw [← List.map_append]
  exact List.mem_map_of_mem (f := Prod.fst) hmem

/-- A retired block is released, and its entry with it. -/
lemma release_retired (h : HeapHeld s own garbage) (hl : Listed own garbage)
    (hg : garbage c = pre ++ (e, b) :: post) {y : Ver α} (ho : own (.inr b) = [y]) {p : Txpool α}
    (hf : Frame s.pool.mem p.mem (footprint [y]) ∅)
    (hgone : force = true ∨ (chainOf y []).Collectable orv) :
    ∃ own' ctx', (s.ctxs c).removeEntry e = some ctx'
      ∧ HeapHeld (s.setPool p c ctx') own' (Function.update garbage c (pre ++ post))
      ∧ Listed own' (Function.update garbage c (pre ++ post))
      ∧ Collected orv force [b] own own' ∧ Swept orv force [b] s.pool.mem p.mem own own' := by
  have hctx := h.ctx c
  rw [hg] at hctx
  obtain ⟨ctx', hremove, hctx'⟩ := removeEntry_spec hctx
  obtain ⟨-, haddr⟩ := h.addr_eq (a := b) (y := y) (by simp [ho])
  have hempty : footprint ([] : List (Ver α)) = ∅ := by ext k; simp
  rw [← ho] at hf
  have hswept := Swept.of_released hf ho hgone
  rw [← hempty] at hf
  have hinl : ∀ r, Function.update own (.inr b) [] (.inl r) = own (.inl r) := fun r =>
    Function.update_of_ne (by simp) _ _
  refine ⟨Function.update own (.inr b) [], ctx', hremove,
    h.setPool (h.mem.update hf trivial (by simp)) hctx' (fun r root vs hr => ?_)
      (fun a z zs ha => ?_), ?_, Collected.of_eq hinl fun r root vs hr hb => ?_, hswept⟩
  · exact ⟨root, vs, by rw [← hinl, hr], rfl⟩
  · rcases eq_or_ne a b with rfl | hab
    · simp at ha
    · rw [Function.update_of_ne (by simpa using hab)] at ha
      exact h.retired a z zs ha
  · refine hl.change [] (fun x hx => Or.inr ?_) (fun c' e' b' hmem => ?_) (by simp)
      List.nodup_nil
    · rw [hg]
      exact (List.Sublist.append_left (List.sublist_cons_self _ _) _).subset hx
    · have hb' : b' ≠ b := by
        rintro rfl
        exact hl.not_mem_rest h hg hmem
      rcases hl.block c' e' b' (mem_garbage_of_mem_rest hg hmem) with ⟨z, hz⟩ | ⟨r, root, vs, hr, hrest⟩
      · exact Or.inl ⟨z, by rw [Function.update_of_ne (by simpa using hb'), hz]⟩
      · exact Or.inr ⟨r, root, vs, by rw [hinl, hr], hrest⟩
  · have := h.mem.addr_unique (i := .inl r) (j := .inr b) (v := root) (w := y) (by simp [hr])
      (by simp [ho]) (hb.trans haddr.symm)
    exact absurd this (by simp)

/-- The root of a freed reference is released, and its entry with it. -/
lemma release_root (h : HeapHeld s own garbage) (hl : Listed own garbage)
    (hg : garbage c = pre ++ (e, b) :: post) {r : ℕ} {root : Ver α} {vs : List (Ver α)}
    (ho : own (.inl r) = root :: vs) (haddr : root.addr = b) {p : Txpool α} {ctx : Ctx}
    {ret : List (Ver α)} {new : List (ℕ × ℕ)}
    (hop : OpResult s.pool (garbage c) root vs p ctx [] ret new)
    (hret : ∀ y ∈ ret, force = false ∧ y ∈ folded orv vs)
    (hgone : force = true ∨ (chainOf root vs).Collectable orv) :
    ∃ own' ctx', ctx.removeEntry e = some ctx'
      ∧ HeapHeld (s.setPool p c ctx') own' (Function.update garbage c ((new ++ pre) ++ post))
      ∧ Listed own' (Function.update garbage c ((new ++ pre) ++ post))
      ∧ Collected orv force [b] own own' ∧ Swept orv force [b] s.pool.mem p.mem own own' := by
  obtain ⟨own', hheap, hm⟩ := h.op (c := c) ho hop (by simp)
  obtain ⟨hnew, hnd⟩ := hl.new_fresh h ho hop
  have hctx := hop.ctx
  rw [hg, ← List.append_assoc] at hctx
  obtain ⟨ctx', hremove, hctx'⟩ := removeEntry_spec hctx
  refine ⟨own', ctx', hremove, ?_, ?_, ?_, ?_⟩
  · have := hheap.setPool (p := p) (c := c) hheap.mem hctx'
      (fun q root' vs' hq => ⟨root', vs', hq, rfl⟩) hheap.retired
    simpa [State.setPool] using this
  · refine hl.change new (fun x hx => ?_) (fun c' e' b' hmem => ?_) hnew hnd
    · simp only [List.mem_append] at hx
      rw [hg, List.mem_append, List.mem_cons]
      tauto
    · have hcases : (∃ y ∈ ret, y.addr = b') ∨ (e', b') ∈ Function.update garbage c (pre ++ post) c' := by
        rcases eq_or_ne c' c with rfl | hc
        · rw [Function.update_self, List.append_assoc, List.mem_append] at hmem
          rw [Function.update_self]
          refine hmem.imp_left fun hin => ?_
          have hb : b' ∈ ret.map Ver.addr := by
            rw [← hop.listed]
            exact List.mem_map_of_mem (f := Prod.snd) hin
          exact List.mem_map.mp hb
        · rw [Function.update_of_ne hc] at hmem ⊢
          exact Or.inr hmem
      rcases hcases with ⟨y, hy, rfl⟩ | hrest
      · exact Or.inl ⟨y, hm.ret y hy⟩
      · have hne : b' ≠ b := by
          rintro rfl
          exact hl.not_mem_rest h hg hrest
        refine (hl.block c' e' b' (mem_garbage_of_mem_rest hg hrest)).moved ho hm fun hb => ?_
        exact absurd (hb.symm.trans haddr) hne
  · rw [← haddr]
    exact Collected.of_moved h.mem ho hm (fun _ => rfl) fun hno => absurd hgone hno
  · rw [← haddr]
    exact Swept.of_moved h ho hm hret hop.frame

/-- **One entry**: its block stays, perhaps with a shorter chain, or goes together
with the entry. The entries `new` are for the versions that are folded. -/
theorem gc_entry_spec (h : HeapHeld s own garbage) (hl : Listed own garbage)
    (hg : garbage c = pre ++ (e, b) :: post)
    (hsafe : force = false → ∀ r root vs, own (.inl r) = root :: vs → root.addr = b →
      (chainOf root vs).GcSafe orv) :
    ∃ p ctx gced own' ctx' new l, s.pool.gc (s.ctxs c) orv b force = some (p, ctx, gced)
      ∧ CtxHeld ctx ((new ++ pre) ++ (e, b) :: post)
      ∧ (if gced = true then ctx.removeEntry e else some ctx) = some ctx'
      ∧ l = new ++ pre ++ (if gced = true then [] else [(e, b)]) ++ post
      ∧ HeapHeld (s.setPool p c ctx') own' (Function.update garbage c l)
      ∧ Listed own' (Function.update garbage c l)
      ∧ Collected orv force [b] own own' ∧ Swept orv force [b] s.pool.mem p.mem own own'
      ∧ Verdict own orv force b gced (new.map Prod.snd) := by
  have hctx := h.ctx c
  rw [hg] at hctx
  rcases hl.block c e b (by simp [hg]) with ⟨y, ho⟩ | ⟨r, root, vs, ho, haddr, hnone⟩
  · obtain ⟨-, haddr⟩ := h.addr_eq (a := b) (y := y) (by simp [ho])
    have hheld := h.mem.held (.inr b)
    have hnd := h.mem.nodup (.inr b)
    rw [ho] at hheld hnd
    have hverdict : ∀ gced, (gced = true ↔ force = true ∨ (chainOf y []).Collectable orv) →
        Verdict own orv force b gced [] := by
      intro gced hgced
      rw [← haddr]
      exact Verdict.of_owner h.mem ho hgced (by simp [folded])
    cases hforce : force with
    | true =>
        subst hforce
        obtain ⟨p, hgc, hf⟩ := gcForce_spec (s.ctxs c) orv hheld hnd
        obtain ⟨own', ctx', hremove, hheap, hlisted, hcoll, hswept⟩ :=
          release_retired h hl hg ho hf (Or.inl rfl)
        rw [haddr] at hgc
        exact ⟨p, s.ctxs c, true, own', ctx', [], _, hgc, hctx, hremove, by simp, hheap, hlisted, hcoll,
          hswept, hverdict true (by simp)⟩
    | false =>
        subst hforce
        have hcoll_iff : (chainOf y []).Collectable orv ↔ y.data = none ∧ y.ts < orv := by
          rw [Chain.collectable_iff, newest_chainOf]
          exact and_congr Option.map_eq_none_iff Iff.rfl
        rcases gc_single_spec (s.ctxs c) orv hheld with ⟨hno, hgc⟩ | ⟨hyes, p, hgc, hf⟩
        · rw [haddr] at hgc
          have hupd : Function.update garbage c (pre ++ (e, b) :: post) = garbage := by
            rw [← hg, Function.update_eq_self]
          have hs : s.setPool s.pool c (s.ctxs c) = s := by simp [State.setPool]
          have hstay : ¬ (false = true ∨ (chainOf y []).Collectable orv) := by
            rw [hcoll_iff]
            simpa using hno
          refine ⟨s.pool, s.ctxs c, false, own, s.ctxs c, [], pre ++ (e, b) :: post, hgc, hctx, rfl,
            by simp, ?_, ?_, Collected.of_eq (fun _ => rfl) fun r root vs hr hb => ?_, Swept.of_eq ho hstay,
            hverdict false (by simpa using hstay)⟩
          · rwa [hupd, hs]
          · rwa [hupd]
          · have := h.mem.addr_unique (i := .inl r) (j := .inr b) (v := root) (w := y)
              (by simp [hr]) (by simp [ho]) (hb.trans haddr.symm)
            exact absurd this (by simp)
        · have hgone := Or.inr (a := false = true) (hcoll_iff.mpr hyes)
          obtain ⟨own', ctx', hremove, hheap, hlisted, hcoll, hswept⟩ := release_retired h hl hg ho hf hgone
          rw [haddr] at hgc
          exact ⟨p, s.ctxs c, true, own', ctx', [], _, hgc, hctx, hremove, by simp, hheap, hlisted, hcoll,
            hswept, hverdict true (iff_of_true rfl hgone)⟩
  · have hheld := h.mem.held (.inl r)
    have hnd := h.mem.nodup (.inl r)
    rw [ho] at hheld hnd
    cases hforce : force with
    | true =>
        subst hforce
        obtain ⟨p, hgc, hf⟩ := gcForce_spec (s.ctxs c) orv hheld hnd
        have hempty : footprint ([] : List (Ver α)) = ∅ := by ext k; simp
        have hop : OpResult s.pool (garbage c) root vs p (s.ctxs c) [] [] [] :=
          ⟨h.ctx c, rfl, trivial, by simp, by simp, by simpa [hempty] using hf, by simp, by simp⟩
        obtain ⟨own', ctx', hremove, hheap, hlisted, hcoll, hswept⟩ :=
          release_root h hl hg ho haddr hop (by simp) (Or.inl rfl)
        rw [haddr] at hgc
        exact ⟨p, s.ctxs c, true, own', ctx', [], _, hgc, hctx, hremove, by simp, hheap, hlisted, hcoll,
          hswept, haddr ▸ Verdict.of_owner h.mem ho (by simp) (by simp)⟩
    | false =>
        subst hforce
        obtain ⟨p, ctx, gced, kept, ret, new, hgc, hres, hret⟩ :=
          gc_spec hheld hnd (h.ctx c) (hsafe rfl r root vs ho haddr)
        have hop := hres.toOpResult
        have hctx' := hop.ctx
        rw [hg, ← List.append_assoc] at hctx'
        rw [haddr] at hgc
        have hfolded : ∀ y ∈ ret, false = false ∧ y ∈ folded orv vs := fun y hy => ⟨rfl, hret ▸ hy⟩
        have hverdict : Verdict own orv false b gced (new.map Prod.snd) := by
          rw [← haddr]
          refine Verdict.of_owner h.mem ho ?_ ?_
          · rw [hres.gced_iff]
            simp
          · rw [hop.listed, hret, if_neg Bool.false_ne_true]
        cases hgced : gced with
        | true =>
            obtain rfl := hres.kept_nil hgced
            obtain ⟨own', ctx', hremove, hheap, hlisted, hcoll, hswept⟩ :=
              release_root h hl hg ho haddr hop hfolded (Or.inr (hres.gced_iff.mp hgced))
            exact ⟨p, ctx, true, own', ctx', new, _, hgced ▸ hgc, hctx', hremove, by simp, hheap, hlisted,
              hcoll, hswept, hgced ▸ hverdict⟩
        | false =>
            obtain ⟨root', vs', rfl, haddr', hchain⟩ := hres.kept_cons hgced
            obtain ⟨own', hheap, hm⟩ := h.op (c := c) ho hop (by
              intro root'' vs'' hk
              obtain ⟨rfl, -⟩ := List.cons.inj hk
              exact haddr')
            have hlisted := hl.op h ho hop hm haddr' (by
              rw [hchain, Chain.newest_gc]
              exact fun hn => hn)
            have hnot : ¬ (false = true ∨ (chainOf root vs).Collectable orv) := by
              rw [← hres.gced_iff, hgced]
              simp
            refine ⟨p, ctx, false, own', ctx, new, new ++ garbage c, hgced ▸ hgc, hctx', rfl,
              by simp [hg], hheap, hlisted, ?_, ?_, hgced ▸ hverdict⟩
            · rw [← haddr]
              exact Collected.of_moved h.mem ho hm (fun hc => absurd hc hnot) fun _ =>
                ⟨root', vs', rfl, haddr', hchain⟩
            · rw [← haddr]
              exact Swept.of_moved h ho hm hfolded hop.frame

/-! ### The loop -/

/-- The collector decides about every listed block. -/
lemma Listed.exists_verdict (hl : Listed own garbage) (h : HeapHeld s own garbage) (orv : ℕ) (force : Bool)
    (hmem : (e, b) ∈ garbage c) : ∃ keep added, Verdict own orv force b (!keep) added := by
  classical
  have hall : ∀ {i : ℕ ⊕ ℕ} {root : Ver α} {vs : List (Ver α)}, own i = root :: vs →
      ∃ keep added, Verdict own orv force root.addr (!keep) added := fun {_ root vs} ho =>
    ⟨!decide (force = true ∨ (chainOf root vs).Collectable orv), _, Verdict.of_owner h.mem ho (by simp) rfl⟩
  rcases hl.block c e b hmem with ⟨y, ho⟩ | ⟨r, root, vs, ho, rfl, -⟩
  · obtain ⟨-, rfl⟩ := h.addr_eq (a := b) (y := y) (by simp [ho])
    exact hall ho
  · exact hall ho

/-- The verdict about a listed block. -/
lemma Listed.verdict_unique (hl : Listed own garbage) (h : HeapHeld s own garbage) (hmem : (e, b) ∈ garbage c)
    {gced gced' : Bool} {added added' : List ℕ} (hv : Verdict own orv force b gced added)
    (hv' : Verdict own orv force b gced' added') : gced = gced' ∧ added = added' := by
  rcases hl.block c e b hmem with ⟨y, ho⟩ | ⟨r, root, vs, ho, rfl, -⟩
  · obtain ⟨-, rfl⟩ := h.addr_eq (a := b) (y := y) (by simp [ho])
    exact hv.unique ho hv'
  · exact hv.unique ho hv'

/-- What the owners of listed blocks hold after the collection of others, they held before. -/
lemma Listed.back (hl : Listed own garbage) (h : HeapHeld s own garbage) {s' : State α}
    {garbage' : ℕ → List (ℕ × ℕ)} (h' : HeapHeld s' own' garbage') (hrefs : s'.refs = s.refs) {bs : List ℕ}
    (hc : Collected orv force bs own own') (hs : Swept orv force bs m m' own own') {e' b' : ℕ}
    (hmem : (e', b') ∈ garbage c) (hb : b' ∉ bs) {i : ℕ ⊕ ℕ} {root : Ver α} {vs : List (Ver α)}
    (ho : own' i = root :: vs) (haddr : root.addr = b') : own i = root :: vs := by
  cases i with
  | inl r => exact hc.back h h' hrefs ho (haddr ▸ hb)
  | inr a =>
      obtain ⟨rfl, -⟩ := h'.retired a root vs ho
      rcases hs.new a root ho with ha | ⟨r, root', vs, hr, -, -, hy, -⟩
      · exact ha
      · subst haddr
        exact absurd hmem (hl.not_mem_version h hr ((folded_sublist orv vs).subset hy) c e')

/-- **The loop over the entries** of a context, when the collector keeps the blocks `b` with `keeps b`,
and the blocks `folds b` are folded into `b`. -/
theorem gcLoop_spec {keeps : ℕ → Bool} {folds : ℕ → List ℕ} : ∀ {post pre : List (ℕ × ℕ)} {fuel : ℕ} {f : Bool}
    {s : State α} {own : ℕ ⊕ ℕ → List (Ver α)} {garbage : ℕ → List (ℕ × ℕ)}, HeapHeld s own garbage →
    Listed own garbage → garbage c = pre ++ post → post.length ≤ fuel →
    (force = false → ∀ b ∈ post.map Prod.snd, ∀ r root vs, own (.inl r) = root :: vs →
      root.addr = b → (chainOf root vs).GcSafe orv) →
    (∀ b ∈ post.map Prod.snd, Verdict own orv force b (!keeps b) (folds b)) →
    ∃ p ctx own' added l, Ctx.gcLoop orv force fuel (post.map Prod.fst).head? s.pool (s.ctxs c) f
        = some (p, ctx, f && post.all fun x => !keeps x.2)
      ∧ l = added ++ pre ++ post.filter (fun x => keeps x.2)
      ∧ added.map Prod.snd = (post.map Prod.snd).reverse.flatMap folds
      ∧ HeapHeld (s.setPool p c ctx) own' (Function.update garbage c l)
      ∧ Listed own' (Function.update garbage c l)
      ∧ Collected orv force (post.map Prod.snd) own own'
      ∧ Swept orv force (post.map Prod.snd) s.pool.mem p.mem own own' := by
  intro post
  induction post with
  | nil =>
      intro pre fuel flag s own garbage h hl hg _ _ _
      have hs : s.setPool s.pool c (s.ctxs c) = s := by simp [State.setPool]
      have hupd : Function.update garbage c pre = garbage := by
        rw [← List.append_nil pre, ← hg, Function.update_eq_self]
      refine ⟨s.pool, s.ctxs c, own, [], pre, by cases fuel <;> simp [Ctx.gcLoop], by simp, rfl, ?_, ?_,
        ⟨fun _ ho => ho, fun _ _ _ ho _ => ho, by simp, by simp⟩,
        ⟨by simp, fun _ _ ha _ => ha, fun _ _ ha => Or.inl ha, fun ho => ho⟩⟩
      · rwa [hs, hupd]
      · rwa [hupd]
  | cons x post ih =>
      intro pre fuel flag s own garbage h hl hg hlen hsafe hv
      obtain ⟨e, b⟩ := x
      obtain ⟨fuel, rfl⟩ : ∃ f, fuel = f + 1 := ⟨fuel - 1, by simp at hlen; omega⟩
      obtain ⟨p, ctx, gced, own₁, ctx', new, l₁, hgc, hctx, hremove, hl₁, hheap, hlisted, hcoll, hswept,
        hverdict⟩ := gc_entry_spec h hl hg fun hf r root vs ho hb => hsafe hf b (by simp) r root vs ho hb
      obtain ⟨hgced, hnew⟩ := hl.verdict_unique h (c := c) (e := e) (by simp [hg]) hverdict (hv b (by simp))
      have hctx₀ := h.ctx c
      rw [hg] at hctx₀
      have hpost : b ∉ post.map Prod.snd := by
        intro hmem
        obtain ⟨⟨e', b'⟩, hin, hb⟩ := List.mem_map.mp hmem
        obtain rfl : b' = b := hb
        have hrest : (e', b') ∈ Function.update garbage c (pre ++ post) c := by
          rw [Function.update_self]
          exact List.mem_append_right _ hin
        exact hl.not_mem_rest h hg hrest
      -- the blocks still to come have not been touched
      have hback : ∀ b' ∈ post.map Prod.snd, ∀ i root vs, own₁ i = root :: vs → root.addr = b' →
          own i = root :: vs := by
        intro b' hb' i root vs ho haddr
        obtain ⟨⟨e', b''⟩, hin, rfl⟩ := List.mem_map.mp hb'
        have hmem : (e', b'') ∈ garbage c := by
          rw [hg]
          exact List.mem_append_right _ (List.mem_cons_of_mem _ hin)
        refine hl.back h hheap rfl hcoll hswept hmem (fun hbb => hpost ?_) ho haddr
        exact List.mem_singleton.mp hbb ▸ hb'
      obtain ⟨p', ctx'', own', added, l, hloop, hl', hadded, hheap', hlisted', hcoll', hswept'⟩ :=
        ih (f := if gced = true then flag else false) hheap hlisted (by rw [Function.update_self, hl₁])
          (by simpa using hlen)
          (fun hf b' hb' r root vs ho haddr =>
            hsafe hf b' (List.mem_cons_of_mem _ hb') r root vs (hback b' hb' _ root vs ho haddr) haddr)
          fun b' hb' => by
            have hb := hv b' (List.mem_cons_of_mem _ hb')
            exact ⟨fun i root vs ho haddr => hb.gced_iff i root vs (hback b' hb' i root vs ho haddr) haddr,
              fun i root vs ho haddr => hb.added_eq i root vs (hback b' hb' i root vs ho haddr) haddr⟩
      refine ⟨p', ctx'', own', added ++ new, l, ?_, ?_, ?_, by simpa [State.setPool] using hheap',
        by simpa using hlisted', hcoll.trans hcoll' hpost,
        hswept.trans h hheap rfl hcoll hswept' (fun a y ys ha => (hheap'.retired a y ys ha).1) hpost⟩
      · simp only [State.setPool, Function.update_self] at hloop
        simp only [List.map_cons, List.head?_cons, Ctx.gcLoop, hctx₀.entry, hgc, hctx.entry,
          Option.bind_eq_bind, Option.bind_some, List.all_cons, ← hgced]
        cases hg' : gced with
        | true =>
            simp only [hg', if_true, Bool.true_and] at hremove hloop ⊢
            rw [hremove, Option.bind_some, hloop]
        | false =>
            simp only [hg', Bool.false_eq_true, if_false, Option.some_inj, Bool.false_and,
              Bool.and_false] at hremove hloop ⊢
            rw [hremove, hloop]
      · rw [hl', hgced]
        cases hk : keeps b <;> simp [hk]
      · rw [List.map_append, hadded, hnew, List.map_cons, List.reverse_cons, List.flatMap_append]
        simp

/-- **Collection of a context**: it leaves the entries of the blocks that are kept, behind those of
the versions it has folded, and tells whether no block is kept. -/
theorem ctx_gc_lists (h : HeapHeld s own garbage) (hl : Listed own garbage) (c orv : ℕ) (force : Bool)
    (hsafe : force = false → ∀ b ∈ (garbage c).map Prod.snd, ∀ r root vs,
      own (.inl r) = root :: vs → root.addr = b → (chainOf root vs).GcSafe orv)
    {keeps : ℕ → Bool} {folds : ℕ → List ℕ}
    (hv : ∀ b ∈ (garbage c).map Prod.snd, Verdict own orv force b (!keeps b) (folds b)) :
    ∃ p ctx own' added l, (s.ctxs c).gc s.pool orv force
        = some (p, ctx, (garbage c).all fun x => !keeps x.2)
      ∧ l = added ++ (garbage c).filter (fun x => keeps x.2)
      ∧ added.map Prod.snd = ((garbage c).map Prod.snd).reverse.flatMap folds
      ∧ HeapHeld (s.setPool p c ctx) own' (Function.update garbage c l)
      ∧ Listed own' (Function.update garbage c l)
      ∧ Collected orv force ((garbage c).map Prod.snd) own own'
      ∧ Swept orv force ((garbage c).map Prod.snd) s.pool.mem p.mem own own' := by
  rw [Ctx.gc, (h.ctx c).first]
  obtain ⟨p, ctx, own', added, l, hloop, hl', hrest⟩ := gcLoop_spec (f := true) h hl
    (List.nil_append (garbage c)).symm
    ((h.ctx c).length_le.trans (Nat.le_succ _)) hsafe hv
  rw [Bool.true_and] at hloop
  rw [List.append_nil] at hl'
  exact ⟨p, ctx, own', added, l, hloop, hl', hrest⟩

/-- What is left of a garbage list: the entries of the blocks that are kept, and entries for the
versions that are folded. -/
structure Relisted (orv : ℕ) (force : Bool) (own : ℕ ⊕ ℕ → List (Ver α)) (l l' : List (ℕ × ℕ)) : Prop where
  kept : ∀ e b, (e, b) ∈ l → ∀ i root vs, own i = root :: vs → root.addr = b →
    ¬ (force = true ∨ (chainOf root vs).Collectable orv) → (e, b) ∈ l'
  added : force = false → ∀ b ∈ l.map Prod.snd, ∀ i root vs, own i = root :: vs → root.addr = b →
    ∀ y ∈ folded orv vs, ∃ e, (e, y.addr) ∈ l'
  mem : ∀ e b, (e, b) ∈ l' → (e, b) ∈ l ∨ force = false ∧ ∃ b' ∈ l.map Prod.snd, ∃ i root vs,
    own i = root :: vs ∧ root.addr = b' ∧ b ∈ (folded orv vs).map Ver.addr

lemma Listed.relisted (hl : Listed own garbage) (h : HeapHeld s own garbage) {added : List (ℕ × ℕ)}
    {keeps : ℕ → Bool} {folds : ℕ → List ℕ}
    (hv : ∀ b ∈ (garbage c).map Prod.snd, Verdict own orv force b (!keeps b) (folds b))
    (hadded : added.map Prod.snd = ((garbage c).map Prod.snd).reverse.flatMap folds) :
    Relisted orv force own (garbage c) (added ++ (garbage c).filter fun x => keeps x.2) where
  kept e b hmem i root vs ho haddr hno := by
    have hb : b ∈ (garbage c).map Prod.snd := List.mem_map_of_mem (f := Prod.snd) hmem
    have hkeep : keeps b = true := by
      rw [← (hv b hb).gced_iff i root vs ho haddr] at hno
      simpa using hno
    exact List.mem_append_right _ (List.mem_filter.mpr ⟨hmem, hkeep⟩)
  added hforce b hb i root vs ho haddr y hy := by
    have hfolds := (hv b hb).added_eq i root vs ho haddr
    rw [if_neg (by simp [hforce])] at hfolds
    have hin : y.addr ∈ added.map Prod.snd := by
      rw [hadded, List.mem_flatMap]
      exact ⟨b, List.mem_reverse.mpr hb, hfolds ▸ List.mem_map_of_mem hy⟩
    obtain ⟨⟨e, b'⟩, hmem, rfl⟩ := List.mem_map.mp hin
    exact ⟨e, List.mem_append_left _ hmem⟩
  mem e b hmem := by
    rcases List.mem_append.mp hmem with hmem | hmem
    · have hin : b ∈ added.map Prod.snd := List.mem_map_of_mem (f := Prod.snd) hmem
      rw [hadded, List.mem_flatMap] at hin
      obtain ⟨b', hb', hin⟩ := hin
      rw [List.mem_reverse] at hb'
      obtain ⟨i, root, vs, ho, haddr⟩ : ∃ i root vs, own i = root :: vs ∧ root.addr = b' := by
        obtain ⟨⟨e', b''⟩, hin', rfl⟩ := List.mem_map.mp hb'
        rcases hl.block c e' b'' hin' with ⟨y, ho⟩ | ⟨r, root, vs, ho, haddr, -⟩
        · exact ⟨_, y, [], ho, (h.addr_eq (a := b'') (y := y) (by simp [ho])).2⟩
        · exact ⟨_, root, vs, ho, haddr⟩
      rw [(hv b' hb').added_eq i root vs ho haddr] at hin
      cases hforce : force with
      | true =>
          rw [if_pos hforce] at hin
          cases hin
      | false =>
          rw [if_neg (by simp [hforce])] at hin
          exact Or.inr ⟨rfl, b', hb', i, root, vs, ho, haddr, hin⟩
    · exact Or.inl (List.mem_filter.mp hmem).1

/-- What it does to the owners and to the list. -/
theorem ctx_gc_spec (h : HeapHeld s own garbage) (hl : Listed own garbage) (c orv : ℕ) (force : Bool)
    (hsafe : force = false → ∀ b ∈ (garbage c).map Prod.snd, ∀ r root vs,
      own (.inl r) = root :: vs → root.addr = b → (chainOf root vs).GcSafe orv) :
    ∃ p ctx all own' l, (s.ctxs c).gc s.pool orv force = some (p, ctx, all)
      ∧ HeapHeld (s.setPool p c ctx) own' (Function.update garbage c l)
      ∧ Listed own' (Function.update garbage c l)
      ∧ Collected orv force ((garbage c).map Prod.snd) own own'
      ∧ Swept orv force ((garbage c).map Prod.snd) s.pool.mem p.mem own own'
      ∧ Relisted orv force own (garbage c) l := by
  have hex : ∀ b, ∃ keep added, b ∈ (garbage c).map Prod.snd → Verdict own orv force b (!keep) added := by
    intro b
    by_cases hb : b ∈ (garbage c).map Prod.snd
    · obtain ⟨⟨e, b'⟩, hin, rfl⟩ := List.mem_map.mp hb
      obtain ⟨keep, added, hv⟩ := hl.exists_verdict h orv force hin
      exact ⟨keep, added, fun _ => hv⟩
    · exact ⟨false, [], fun hc => absurd hc hb⟩
  choose keeps folds hv using hex
  obtain ⟨p, ctx, own', added, l, hgc, rfl, hadded, hheap, hlisted, hcoll, hswept⟩ :=
    ctx_gc_lists h hl c orv force hsafe hv
  exact ⟨p, ctx, _, own', _, hgc, hheap, hlisted, hcoll, hswept, hl.relisted h hv hadded⟩

end Tx

end Furious
