import Furious.Tx.Txpool
import Furious.Tx.Chain
import Furious.Library.Footprint

/-!
Version chains in memory.

The two pools are read as one memory, whose cells are version blocks and data
blocks. A chain in memory is a list of versions with their addresses, the root
first; forgetting the addresses gives the chain of the specification.

* `Txpool.mem`: the memory, and the operations of the pools as updates of it;
* `Ver`, `Held`, `cellsOf`: the list of versions a memory holds, and its cells;
* `findVersion_spec`, `freeVersions_spec`: the two walks along a chain;
* `cutVersions_spec`: the first part of the collector, against `Chain.cut`.
-/

namespace Furious

variable {α : Type}

/-! ### The two pools as one memory -/

/-- The memory of a transactional pool: a left address is that of a version
block, a right one that of a data block. -/
def Txpool.mem (p : Txpool α) : ℕ ⊕ ℕ → Option (Block ⊕ α)
  | .inl a => (p.blockPalloc.get a).map .inl
  | .inr d => (p.dataPalloc.get d).map .inr

lemma mem_inl_iff {p : Txpool α} {a : ℕ} {b : Block} :
    p.mem (.inl a) = some (.inl b) ↔ p.blockPalloc.get a = some b := by
  simp [Txpool.mem]

lemma mem_inr_iff {p : Txpool α} {d : ℕ} {x : α} :
    p.mem (.inr d) = some (.inr x) ↔ p.dataPalloc.get d = some x := by
  simp [Txpool.mem]

/-- A change of one version block. -/
lemma mem_of_block {p : Txpool α} {q : Pool Block} {a : ℕ} {b : Option Block}
    (h : q.get = Function.update p.blockPalloc.get a b) :
    (⟨p.dataPalloc, q⟩ : Txpool α).mem = Function.update p.mem (.inl a) (b.map .inl) := by
  funext k
  cases k with
  | inl k =>
      rcases eq_or_ne k a with rfl | hk
      · simp [Txpool.mem, h]
      · simp [Txpool.mem, h, Function.update_of_ne hk]
  | inr d => simp [Txpool.mem]

/-- A change of one data block. -/
lemma mem_of_data {p : Txpool α} {q : Pool α} {d : ℕ} {x : Option α}
    (h : q.get = Function.update p.dataPalloc.get d x) :
    (⟨q, p.blockPalloc⟩ : Txpool α).mem = Function.update p.mem (.inr d) (x.map .inr) := by
  funext k
  cases k with
  | inl a => simp [Txpool.mem]
  | inr k =>
      rcases eq_or_ne k d with rfl | hk
      · simp [Txpool.mem, h]
      · simp [Txpool.mem, h, Function.update_of_ne hk]

/-! ### Versions with their addresses -/

/-- A version in memory: the address of its block, its timestamp, and the address
and contents of its data. -/
structure Ver (α : Type) where
  addr : ℕ
  ts : ℕ
  data : Option (ℕ × α)

namespace Ver

/-- The version without its addresses. -/
def content (v : Ver α) : ℕ × Option α := (v.ts, v.data.map Prod.snd)

@[simp] lemma content_fst (v : Ver α) : v.content.1 = v.ts := rfl

@[simp] lemma content_snd (v : Ver α) : v.content.2 = v.data.map Prod.snd := rfl

/-- The block of the version, with its link. -/
def block (v : Ver α) (next : Option ℕ) : Block := ⟨v.ts, v.data.map Prod.fst, next⟩

/-- The cells of the version. -/
def cells (v : Ver α) : List (ℕ ⊕ ℕ) :=
  .inl v.addr :: (v.data.map fun d => Sum.inr d.1).toList

lemma mem_cells {v : Ver α} {k : ℕ ⊕ ℕ} :
    k ∈ v.cells ↔ k = .inl v.addr ∨ ∃ d x, v.data = some (d, x) ∧ k = .inr d := by
  rcases h : v.data with _ | ⟨d, x⟩ <;> simp [cells, h]

@[simp] lemma mem_cells_none {a ts : ℕ} {k : ℕ ⊕ ℕ} :
    k ∈ (⟨a, ts, none⟩ : Ver α).cells ↔ k = .inl a := by
  simp [cells]

@[simp] lemma mem_cells_some {a ts d : ℕ} {x : α} {k : ℕ ⊕ ℕ} :
    k ∈ (⟨a, ts, some (d, x)⟩ : Ver α).cells ↔ k = .inl a ∨ k = .inr d := by
  simp [cells]

end Ver

/-- The cells of a list of versions. -/
def cellsOf (vs : List (Ver α)) : List (ℕ ⊕ ℕ) := vs.flatMap Ver.cells

@[simp] lemma cellsOf_nil : cellsOf ([] : List (Ver α)) = [] := rfl

@[simp] lemma cellsOf_cons (v : Ver α) (vs : List (Ver α)) :
    cellsOf (v :: vs) = v.cells ++ cellsOf vs := rfl

@[simp] lemma cellsOf_append (vs ws : List (Ver α)) :
    cellsOf (vs ++ ws) = cellsOf vs ++ cellsOf ws := List.flatMap_append

lemma addr_mem_cellsOf {vs : List (Ver α)} {v : Ver α} (h : v ∈ vs) :
    Sum.inl v.addr ∈ cellsOf vs :=
  List.mem_flatMap.mpr ⟨v, h, Ver.mem_cells.mpr (Or.inl rfl)⟩

/-- The address of the first version, or where the list continues. -/
def startOf (vs : List (Ver α)) (next : Option ℕ) : Option ℕ :=
  match vs with
  | [] => next
  | v :: _ => some v.addr

/-- The memory `m` holds the versions `vs`, each linked to the one after it and
the last one to `next`. -/
def Held (m : ℕ ⊕ ℕ → Option (Block ⊕ α)) : List (Ver α) → Option ℕ → Prop
  | [], _ => True
  | v :: vs, next =>
      m (.inl v.addr) = some (.inl (v.block (startOf vs next)))
        ∧ (∀ d x, v.data = some (d, x) → m (.inr d) = some (.inr x))
        ∧ Held m vs next

variable {m m' : ℕ ⊕ ℕ → Option (Block ⊕ α)}

/-- What is held depends on the cells only. -/
lemma Held.congr {vs : List (Ver α)} {next : Option ℕ} (h : Held m vs next)
    (hm : ∀ k ∈ cellsOf vs, m' k = m k) : Held m' vs next := by
  induction vs with
  | nil => trivial
  | cons v vs ih =>
      obtain ⟨hb, hd, hvs⟩ := h
      have hv : ∀ k ∈ v.cells, m' k = m k := fun k hk =>
        hm k (by rw [cellsOf_cons]; exact List.mem_append_left _ hk)
      refine ⟨?_, fun d x hdx => ?_, ih hvs fun k hk => hm k ?_⟩
      · rw [hv _ (Ver.mem_cells.mpr (Or.inl rfl)), hb]
      · rw [hv _ (Ver.mem_cells.mpr (Or.inr ⟨d, x, hdx, rfl⟩)), hd d x hdx]
      · rw [cellsOf_cons]
        exact List.mem_append_right _ hk

/-- The cells of what is held are live. -/
lemma Held.live {vs : List (Ver α)} {next : Option ℕ} (h : Held m vs next) {k : ℕ ⊕ ℕ}
    (hk : k ∈ cellsOf vs) : m k ≠ none := by
  induction vs with
  | nil => simp at hk
  | cons v vs ih =>
      obtain ⟨hb, hd, hvs⟩ := h
      rw [cellsOf_cons, List.mem_append] at hk
      rcases hk with hk | hk
      · rcases Ver.mem_cells.mp hk with rfl | ⟨d, x, hdx, rfl⟩
        · rw [hb]; simp
        · rw [hd d x hdx]; simp
      · exact ih hvs hk

lemma startOf_append (vs ws : List (Ver α)) (next : Option ℕ) :
    startOf (vs ++ ws) next = startOf vs (startOf ws next) := by
  cases vs <;> rfl

/-- A chain held in two pieces. -/
lemma held_append (vs : List (Ver α)) {ws : List (Ver α)} {next : Option ℕ} :
    Held m (vs ++ ws) next ↔ Held m vs (startOf ws next) ∧ Held m ws next := by
  induction vs with
  | nil => simp [Held]
  | cons v vs ih =>
      rw [List.cons_append, Held, Held, ih, startOf_append]
      tauto

/-- The block of a held version. -/
lemma Held.block {p : Txpool α} {v : Ver α} {vs : List (Ver α)} {next : Option ℕ}
    (h : Held p.mem (v :: vs) next) :
    p.blockPalloc.get v.addr = some (v.block (startOf vs next)) :=
  mem_inl_iff.mp h.1

/-- The data of a held version. -/
lemma Held.data {p : Txpool α} {v : Ver α} {vs : List (Ver α)} {next : Option ℕ}
    (h : Held p.mem (v :: vs) next) {d : ℕ} {x : α} (hd : v.data = some (d, x)) :
    p.dataPalloc.get d = some x :=
  mem_inr_iff.mp (h.2.1 d x hd)

/-- The addresses of the blocks are among the cells. -/
lemma map_addr_sublist (vs : List (Ver α)) :
    (vs.map fun v => (Sum.inl v.addr : ℕ ⊕ ℕ)).Sublist (cellsOf vs) := by
  induction vs with
  | nil => exact List.Sublist.refl _
  | cons v vs ih =>
      rw [cellsOf_cons, List.map_cons, Ver.cells, List.cons_append]
      exact (ih.trans (List.sublist_append_right _ _)).cons_cons _

/-- A held chain is no longer than a walk may be. -/
lemma Held.length_le_fuel {p : Txpool α} {vs : List (Ver α)} {next : Option ℕ}
    (h : Held p.mem vs next) (hnd : (cellsOf vs).Nodup) : vs.length ≤ p.fuel := by
  have hnd' : (vs.map fun v => v.addr).Nodup := by
    have := hnd.sublist (map_addr_sublist vs)
    exact List.Nodup.of_map Sum.inl (by rwa [List.map_map])
  have hle := Pool.length_le_of_live hnd' (p := p.blockPalloc) fun a ha => by
    obtain ⟨v, hv, rfl⟩ := List.mem_map.mp ha
    have := h.live (addr_mem_cellsOf hv)
    simpa [Txpool.mem] using this
  rw [List.length_map] at hle
  exact hle.trans (Nat.le_succ _)

/-! ### Walks -/

/-- The walk to the first version that is not newer than `version`. -/
lemma findVersion_spec {p : Txpool α} (version : ℕ) {vs : List (Ver α)} :
    ∀ {fuel}, Held p.mem vs none → vs.length ≤ fuel →
    p.findVersion version fuel (startOf vs none)
      = some ((vs.find? fun v => v.ts ≤ version).map Ver.addr) := by
  induction vs with
  | nil => intro fuel _ _; cases fuel <;> rfl
  | cons v vs ih =>
      intro fuel h hlen
      obtain ⟨fuel, rfl⟩ : ∃ f, fuel = f + 1 := ⟨fuel - 1, by simp at hlen; omega⟩
      have ih' := ih h.2.2 (by simpa using hlen)
      rw [startOf, Txpool.findVersion, h.block, Option.bind_eq_bind, Option.bind_some]
      by_cases hts : v.ts ≤ version
      · simp [Ver.block, hts]
      · simp [Ver.block, hts, ih', not_le.mp hts]

/-- The set of cells of a list of versions. -/
def footprint (vs : List (Ver α)) : Set (ℕ ⊕ ℕ) := {k | k ∈ cellsOf vs}

@[simp] lemma mem_footprint {vs : List (Ver α)} {k : ℕ ⊕ ℕ} :
    k ∈ footprint vs ↔ k ∈ cellsOf vs := Iff.rfl

lemma footprint_append (vs ws : List (Ver α)) :
    footprint (vs ++ ws) = footprint vs ∪ footprint ws := by
  ext k
  simp

/-- The walk that releases a chain vacates its cells. -/
lemma freeVersions_spec {vs : List (Ver α)} : ∀ {fuel} {p : Txpool α}, Held p.mem vs none →
    (cellsOf vs).Nodup → vs.length ≤ fuel →
    ∃ p', Txpool.freeVersions fuel (startOf vs none) p = some p'
      ∧ Vacates p.mem p'.mem (footprint vs) := by
  induction vs with
  | nil =>
      intro fuel p _ _ _
      have hempty : footprint ([] : List (Ver α)) = ∅ := by ext k; simp
      rw [hempty]
      cases fuel <;> exact ⟨p, rfl, Vacates.empty _⟩
  | cons v vs ih =>
      intro fuel p h hnd hlen
      obtain ⟨fuel, rfl⟩ : ∃ f, fuel = f + 1 := ⟨fuel - 1, by simp at hlen; omega⟩
      rw [cellsOf_cons, List.nodup_append] at hnd
      obtain ⟨-, hndvs, hdisj⟩ := hnd
      -- the block and the data of the first version go
      obtain ⟨p₁, hp₁, hvac₁⟩ : ∃ p₁ : Txpool α,
          Txpool.freeVersions (fuel + 1) (startOf (v :: vs) none) p
            = Txpool.freeVersions fuel (startOf vs none) p₁
          ∧ Vacates p.mem p₁.mem (footprint [v]) := by
        obtain ⟨bp, hbp, hbget⟩ := Pool.get_release h.block
        have hb := Vacates.single p.mem (.inl v.addr)
        rw [startOf, Txpool.freeVersions, h.block]
        cases hd : v.data with
        | none =>
            have hfp : footprint [v] = {.inl v.addr} := by
              ext k
              simp [Ver.mem_cells, hd]
            refine ⟨⟨p.dataPalloc, bp⟩, by simp [Ver.block, hd, hbp], ?_⟩
            rw [mem_of_block hbget, hfp]
            exact hb
        | some dx =>
            obtain ⟨d, x⟩ := dx
            obtain ⟨dp, hdp, hdget⟩ := Pool.get_release (h.data hd)
            have hfp : footprint [v] = {.inl v.addr} ∪ {.inr d} := by
              ext k
              simp [Ver.mem_cells, hd, or_comm]
            have hmem := mem_of_data (p := ⟨p.dataPalloc, bp⟩) hdget
            refine ⟨⟨dp, bp⟩, by simp [Ver.block, hd, hbp, hdp], ?_⟩
            rw [hmem, mem_of_block hbget, hfp]
            exact hb.trans (Vacates.single _ _)
      have h₁ : Held p₁.mem vs none := h.2.2.congr fun k hk =>
        hvac₁.same k fun hk' => hdisj k (by simpa using hk') k hk rfl
      obtain ⟨p', hp', hvac'⟩ := ih h₁ hndvs (by simpa using hlen)
      refine ⟨p', hp₁.trans hp', ?_⟩
      rw [← List.singleton_append, footprint_append]
      exact hvac₁.trans hvac'

/-! ### The first part of the collector -/

/-- Cutting a list at its first old version. -/
lemma cut_append {orv : ℕ} {us ws : List (ℕ × Option α)} {u : ℕ × Option α}
    (hus : ∀ w ∈ us, ¬ w.1 ≤ orv) (hu : u.1 ≤ orv) :
    Chain.cut orv (us ++ u :: ws) = us ++ [u] := by
  induction us with
  | nil => simp [Chain.cut, hu]
  | cons w us ih =>
      rw [List.cons_append, Chain.cut, if_neg (hus w List.mem_cons_self),
        ih fun w' hw' => hus w' (List.mem_cons_of_mem _ hw'), List.cons_append]

/-- A list without old versions is not cut. -/
lemma cut_eq_self {orv : ℕ} {us : List (ℕ × Option α)} (hus : ∀ w ∈ us, ¬ w.1 ≤ orv) :
    Chain.cut orv us = us := by
  induction us with
  | nil => rfl
  | cons w us ih =>
      rw [Chain.cut, if_neg (hus w List.mem_cons_self),
        ih fun w' hw' => hus w' (List.mem_cons_of_mem _ hw')]

/-- **Cutting.** The versions behind the first old one are released; the root and
the versions kept stay where they are. -/
theorem cutVersions_spec {p : Txpool α} {root : Ver α} {vs : List (Ver α)} (orv : ℕ)
    (h : Held p.mem (root :: vs) none) (hnd : (cellsOf (root :: vs)).Nodup) :
    ∃ p' kept dropped, p.cutVersions orv root.addr = some p' ∧ vs = kept ++ dropped
      ∧ kept.map Ver.content = Chain.cut orv (vs.map Ver.content)
      ∧ Held p'.mem (root :: kept) none
      ∧ Frame p.mem p'.mem (footprint (root :: vs)) (footprint (root :: kept)) := by
  have hvs := h.2.2
  have hlen : vs.length ≤ p.fuel := by
    have := h.length_le_fuel hnd
    simp at this
    omega
  have hcut : ∀ q, p.findVersion orv p.fuel (startOf vs none) = some q →
      p.cutVersions orv root.addr = q.elim (some p) (fun c => do
        let b ← p.blockPalloc.get c
        let blockPalloc ← p.blockPalloc.put c { b with nextVersion := none }
        Txpool.freeVersions p.fuel b.nextVersion { p with blockPalloc := blockPalloc }) := by
    intro q hq
    rw [Txpool.cutVersions, h.block, Option.bind_eq_bind, Option.bind_some]
    simp only [Ver.block, hq]
    cases q <;> rfl
  rw [hcut _ (findVersion_spec orv hvs hlen)]
  cases hfind : vs.find? fun v => decide (v.ts ≤ orv) with
  | none =>
      have hnone : ∀ w ∈ vs.map Ver.content, ¬ w.1 ≤ orv := by
        intro w hw
        obtain ⟨v, hv, rfl⟩ := List.mem_map.mp hw
        simpa using List.find?_eq_none.mp hfind v hv
      exact ⟨p, vs, [], rfl, by simp, (cut_eq_self hnone).symm, h, Frame.refl _ _⟩
  | some c =>
      obtain ⟨hc, as, bs, rfl, has⟩ := List.find?_eq_some_iff_append.mp hfind
      have hc' : c.ts ≤ orv := by simpa using hc
      -- the chain in three pieces: up to `c`, `c`, behind `c`
      obtain ⟨hfront, hcbs⟩ := (held_append (root :: as)).mp h
      have hnd' : (cellsOf (root :: as) ++ (c.cells ++ cellsOf bs)).Nodup := by
        simpa [List.append_assoc] using hnd
      obtain ⟨-, hndcb, hdisj⟩ := List.nodup_append.mp hnd'
      obtain ⟨-, hndbs, hdisj'⟩ := List.nodup_append.mp hndcb
      obtain ⟨bp, hput, hget⟩ := Pool.get_put hcbs.block
        { c.block (startOf bs none) with nextVersion := none }
      have hmem₁ := mem_of_block hget
      set p₁ : Txpool α := ⟨p.dataPalloc, bp⟩ with hp₁
      have hcc : Sum.inl c.addr ∈ c.cells := Ver.mem_cells.mpr (Or.inl rfl)
      have hbs₁ : Held p₁.mem bs none := hcbs.2.2.congr fun k hk => by
        rw [hmem₁, Function.update_of_ne]
        rintro rfl
        exact hdisj' _ hcc _ hk rfl
      have hlenbs : bs.length ≤ p.fuel := by
        simp at hlen
        omega
      obtain ⟨p', hfree, hvac⟩ := freeVersions_spec hbs₁ hndbs hlenbs
      have hmem : ∀ k, k ∉ cellsOf bs →
          p'.mem k = Function.update p.mem (.inl c.addr) (some (.inl (c.block none))) k := by
        intro k hk
        rw [hvac.same k hk, hmem₁]
        rfl
      refine ⟨p', as ++ [c], bs, ?_, by simp, ?_, ?_, ?_⟩
      · simp only [Option.map_some, Option.elim_some, hcbs.block, hput, Option.bind_eq_bind, Option.bind_some]
        exact hfree
      · rw [List.map_append, List.map_append, List.map_cons, List.map_cons, List.map_nil]
        refine (cut_append (fun w hw => ?_) hc').symm
        obtain ⟨v, hv, rfl⟩ := List.mem_map.mp hw
        simpa using has v hv
      · rw [← List.cons_append, held_append]
        refine ⟨hfront.congr fun k hk => ?_, ?_, ?_, trivial⟩
        · rw [hmem k fun hkb => hdisj k hk k (List.mem_append_right _ hkb) rfl,
            Function.update_of_ne]
          rintro rfl
          exact hdisj _ hk _ (List.mem_append_left _ hcc) rfl
        · rw [hmem _ fun hkb => hdisj' _ hcc _ hkb rfl, Function.update_self]
          rfl
        · intro d x hd
          have hdc : Sum.inr d ∈ c.cells := Ver.mem_cells.mpr (Or.inr ⟨d, x, hd, rfl⟩)
          rw [hmem _ fun hkb => hdisj' _ hdc _ hkb rfl, Function.update_of_ne (by simp),
            hcbs.2.1 d x hd]
      · -- one block is overwritten, then the last piece is dropped
        have hfp : ∀ ws : List (Ver α), footprint (root :: (as ++ c :: ws))
            = footprint ws ∪ footprint (root :: (as ++ [c])) := by
          intro ws
          ext k
          simp
          tauto
        have hf₁ : Frame p.mem p₁.mem (footprint (root :: (as ++ c :: bs)))
            (footprint (root :: (as ++ c :: bs))) := by
          rw [hmem₁]
          exact Frame.write (by simp [hcc]) _
        have hf₂ := hvac.frame.extend (footprint (root :: (as ++ [c])))
        rw [Set.empty_union, ← hfp] at hf₂
        exact hf₁.trans hf₂

end Furious
