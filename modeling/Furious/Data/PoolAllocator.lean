import Mathlib.Tactic
import Mathlib.Order.CompletePartialOrder

/-!
The layout of a pool.

A pool cuts pages of memory into blocks of equal size. The first block of a page is
its header; freed blocks go to the front of a list and are handed out first.

* `Address`: a page and an offset in it;
* `PoolAlloc`: `fdb_pool_alloc_t` with `PoolAlloc.init`, `PoolAlloc.alloc` and
  `PoolAlloc.free`;
* `PoolAlloc.Hands`: which addresses are handed out, `Hands.init`, `Hands.alloc` and
  `Hands.free`;
* `Hands.apart`: **blocks that are handed out do not overlap**.
-/

namespace Furious

/-- A place in memory: a page and an offset in it. Different pages have no byte in common. -/
structure Address where
  page : ℕ
  offset : ℕ
deriving DecidableEq, Repr

/-- The address some bytes further on. -/
def Address.add (a : Address) (n : ℕ) : Address := ⟨a.page, a.offset + n⟩

/-- The `n` bytes from `a` on. -/
def Address.bytes (a : Address) (n : ℕ) : Set Address :=
  {b | b.page = a.page ∧ a.offset ≤ b.offset ∧ b.offset < a.offset + n}

/-- `FDB_MIN_ALIGNMENT`. -/
abbrev minAlignment : ℕ := 16

/-- The size of `fdb_pool_alloc_header_t`. -/
abbrev headerSize : ℕ := 8

/-- `fdb_pool_alloc_t`: sizes in bytes, the number of pages, the place behind the last block
of the last page, and the freed blocks. -/
structure PoolAlloc where
  blockSize : ℕ
  pageSize : ℕ
  growOffset : ℕ
  nextFree : ℕ
  pages : ℕ
  freed : List Address
deriving DecidableEq, Repr

namespace PoolAlloc

/-- `fdb_pool_alloc_init`. -/
def init (alignment blockSize pageSize : ℕ) : PoolAlloc :=
  let alignment := if alignment > minAlignment then alignment else minAlignment
  let blockSize := if headerSize > blockSize then headerSize else blockSize
  let minGrowth := if headerSize ≤ blockSize then blockSize else headerSize
  { blockSize := blockSize
    pageSize := pageSize
    growOffset := (minGrowth + alignment - 1) / alignment * alignment
    nextFree := 0
    pages := 0
    freed := [] }

/-- The assertion of `fdb_pool_alloc_init`. -/
def Configured (p : PoolAlloc) : Prop := p.growOffset + p.blockSize ≤ p.pageSize

instance (p : PoolAlloc) : Decidable p.Configured := inferInstanceAs (Decidable (_ ≤ _))

/-- `fdb_pool_alloc_alloc`. -/
def alloc (p : PoolAlloc) : Address × PoolAlloc :=
  match p.freed with
  | a :: freed => (a, { p with freed := freed })
  | [] =>
      let p := if p.pages = 0 then { p with pages := 1, nextFree := p.growOffset } else p
      if p.nextFree + p.blockSize ≤ p.pageSize then
        (⟨p.pages - 1, p.nextFree⟩, { p with nextFree := p.nextFree + p.growOffset })
      else (⟨p.pages, p.growOffset⟩,
        { p with pages := p.pages + 1, nextFree := p.growOffset + p.growOffset })

/-- `fdb_pool_alloc_free`. -/
def free (p : PoolAlloc) (a : Address) : PoolAlloc := { p with freed := a :: p.freed }

/-- Blocks lie behind the header of their page, in steps of `growOffset`. -/
structure Block (p : PoolAlloc) (a : Address) : Prop where
  page : a.page < p.pages
  header : p.growOffset ≤ a.offset
  inside : a.offset + p.blockSize ≤ p.pageSize
  aligned : p.growOffset ∣ a.offset
  last : a.page + 1 = p.pages → a.offset < p.nextFree

/-- The addresses `live` are handed out. -/
structure Hands (p : PoolAlloc) (live : Set Address) : Prop where
  configured : p.Configured
  header : headerSize ≤ p.blockSize
  le : p.blockSize ≤ p.growOffset
  block : ∀ a, a ∈ live ∨ a ∈ p.freed → p.Block a
  next : p.pages ≠ 0 → p.growOffset ∣ p.nextFree ∧ p.growOffset ≤ p.nextFree
  nodup : p.freed.Nodup
  vacant : ∀ a ∈ p.freed, a ∉ live

/-- What matters for the place of a block. -/
lemma Block.congr {p q : PoolAlloc} {a : Address} (h : p.Block a) (hb : q.blockSize = p.blockSize)
    (hs : q.pageSize = p.pageSize) (hg : q.growOffset = p.growOffset) (hp : p.pages ≤ q.pages)
    (hl : a.page + 1 = q.pages → a.offset < q.nextFree) : q.Block a where
  page := lt_of_lt_of_le h.page hp
  header := hg ▸ h.header
  inside := by
    rw [hb, hs]
    exact h.inside
  aligned := hg ▸ h.aligned
  last := hl

/-- Blocks of one page do not overlap. -/
lemma Block.apart {p : PoolAlloc} {a b : Address} (ha : p.Block a) (hb : p.Block b)
    (hle : p.blockSize ≤ p.growOffset) (hab : a ≠ b) (hpage : a.page = b.page) :
    a.offset + p.blockSize ≤ b.offset ∨ b.offset + p.blockSize ≤ a.offset := by
  obtain ⟨i, hi⟩ := ha.aligned
  obtain ⟨j, hj⟩ := hb.aligned
  rcases lt_trichotomy i j with hlt | rfl | hlt
  · have := Nat.mul_le_mul_left p.growOffset (Nat.succ_le_of_lt hlt)
    rw [Nat.mul_succ] at this
    omega
  · obtain ⟨pa, oa⟩ := a
    obtain ⟨pb, ob⟩ := b
    exact absurd (by rw [Address.mk.injEq]; exact ⟨hpage, hi.trans hj.symm⟩) hab
  · have := Nat.mul_le_mul_left p.growOffset (Nat.succ_le_of_lt hlt)
    rw [Nat.mul_succ] at this
    omega

/-- A block has room for a link of the free list. -/
lemma headerSize_le (n : ℕ) : headerSize ≤ if headerSize > n then headerSize else n := by
  split
  · exact le_rfl
  · next h => exact not_lt.mp h

/-- A block is not smaller than it should be. -/
lemma le_blockSize (n : ℕ) : n ≤ if headerSize > n then headerSize else n := by
  split
  · next h => exact h.le
  · exact le_rfl

/-- Rounding up to a multiple. -/
lemma le_roundUp (n : ℕ) {a : ℕ} (h : 0 < a) : n ≤ (n + a - 1) / a * a := by
  have h₁ := Nat.div_add_mod (n + a - 1) a
  have h₂ := Nat.mod_lt (n + a - 1) h
  have h₃ := Nat.mul_comm ((n + a - 1) / a) a
  omega

namespace Hands

variable {p : PoolAlloc} {live : Set Address} {a b : Address}

/-- A new pool, if its pages have room for the header and a block. -/
lemma init {alignment blockSize pageSize : ℕ}
    (h : (PoolAlloc.init alignment blockSize pageSize).Configured) :
    (PoolAlloc.init alignment blockSize pageSize).Hands ∅ where
  configured := h
  header := headerSize_le blockSize
  le := by
    have hpos : 0 < if alignment > minAlignment then alignment else minAlignment := by
      split
      · next h => exact Nat.zero_lt_of_lt h
      · decide
    simp only [PoolAlloc.init, if_pos (headerSize_le blockSize)]
    exact le_roundUp _ hpos
  block a ha := by
    rcases ha with ha | ha
    · exact absurd ha (Set.notMem_empty a)
    · cases ha
  next hp := absurd rfl hp
  nodup := List.nodup_nil
  vacant a ha := by cases ha

/-- **Blocks that are handed out do not overlap.** -/
theorem apart (h : p.Hands live) (ha : a ∈ live) (hb : b ∈ live) (hab : a ≠ b) :
    Disjoint (a.bytes p.blockSize) (b.bytes p.blockSize) := by
  rw [Set.disjoint_left]
  rintro c ⟨hca, hla, hua⟩ ⟨hcb, hlb, hub⟩
  have hoff := (h.block a (Or.inl ha)).apart (h.block b (Or.inl hb)) h.le hab (hca.symm.trans hcb)
  omega

/-- **Allocation** hands out a block that was not handed out. -/
theorem alloc (h : p.Hands live) : ∃ a q, p.alloc = (a, q) ∧ a ∉ live ∧ q.Hands (insert a live)
    ∧ q.blockSize = p.blockSize ∧ q.growOffset = p.growOffset ∧ q.pageSize = p.pageSize := by
  obtain ⟨blockSize, pageSize, growOffset, nextFree, pages, freed⟩ := p
  have hconf : growOffset + blockSize ≤ pageSize := h.configured
  have hhead : headerSize ≤ blockSize := h.header
  have hle : blockSize ≤ growOffset := h.le
  have hgrow : 0 < growOffset := lt_of_lt_of_le (by decide : 0 < headerSize) (hhead.trans hle)
  cases freed with
  | cons a freed =>
      have hnd := List.nodup_cons.mp h.nodup
      refine ⟨a, _, rfl, h.vacant a List.mem_cons_self, ⟨hconf, hhead, hle, fun b hb => ?_, h.next,
        hnd.2, fun b hb hlive => ?_⟩, rfl, rfl, rfl⟩
      · have hb' : PoolAlloc.Block ⟨blockSize, pageSize, growOffset, nextFree, pages, a :: freed⟩ b := by
          rcases hb with (rfl | hb) | hb
          · exact h.block b (Or.inr List.mem_cons_self)
          · exact h.block b (Or.inl hb)
          · exact h.block b (Or.inr (List.mem_cons_of_mem _ hb))
        exact hb'.congr rfl rfl rfl le_rfl hb'.last
      · rcases hlive with rfl | hlive
        · exact hnd.1 hb
        · exact h.vacant b (List.mem_cons_of_mem _ hb) hlive
  | nil =>
      have hold : ∀ b ∈ live, PoolAlloc.Block ⟨blockSize, pageSize, growOffset, nextFree, pages, []⟩ b :=
        fun b hb => h.block b (Or.inl hb)
      -- the state after the first page has been made
      obtain ⟨nextFree₁, pages₁, hfirst, hpos, hnext, hold₁⟩ : ∃ nextFree₁ pages₁,
          (if pages = 0 then (⟨blockSize, pageSize, growOffset, growOffset, 1, []⟩ : PoolAlloc)
            else ⟨blockSize, pageSize, growOffset, nextFree, pages, []⟩)
              = ⟨blockSize, pageSize, growOffset, nextFree₁, pages₁, []⟩
          ∧ 0 < pages₁ ∧ (growOffset ∣ nextFree₁ ∧ growOffset ≤ nextFree₁)
          ∧ ∀ b ∈ live, PoolAlloc.Block ⟨blockSize, pageSize, growOffset, nextFree₁, pages₁, []⟩ b := by
        by_cases hp : pages = 0
        · refine ⟨growOffset, 1, if_pos hp, Nat.one_pos, ⟨dvd_rfl, le_rfl⟩, fun b hb => ?_⟩
          have hpage : b.page < pages := (hold b hb).page
          omega
        · exact ⟨nextFree, pages, if_neg hp, Nat.pos_of_ne_zero hp, h.next hp, hold⟩
      have halloc : (⟨blockSize, pageSize, growOffset, nextFree, pages, []⟩ : PoolAlloc).alloc
          = if nextFree₁ + blockSize ≤ pageSize then
              (⟨pages₁ - 1, nextFree₁⟩,
                ⟨blockSize, pageSize, growOffset, nextFree₁ + growOffset, pages₁, []⟩)
            else (⟨pages₁, growOffset⟩,
                ⟨blockSize, pageSize, growOffset, growOffset + growOffset, pages₁ + 1, []⟩) := by
        simp only [PoolAlloc.alloc, hfirst]
      by_cases hroom : nextFree₁ + blockSize ≤ pageSize
      · -- behind the last block of the last page
        rw [if_pos hroom] at halloc
        refine ⟨_, _, halloc, fun hmem => ?_, ⟨hconf, hhead, hle, fun b hb => ?_, fun _ => ?_,
          List.nodup_nil, fun b hb => (by cases hb)⟩, rfl, rfl, rfl⟩
        · have hlast := (hold₁ _ hmem).last (Nat.sub_add_cancel hpos)
          exact lt_irrefl _ hlast
        · rcases hb with (rfl | hb) | hb
          · have hlt : nextFree₁ < nextFree₁ + growOffset := by omega
            exact ⟨Nat.sub_lt hpos Nat.one_pos, hnext.2, hroom, hnext.1, fun _ => hlt⟩
          · refine (hold₁ b hb).congr rfl rfl rfl le_rfl fun hl => ?_
            have hlast : b.offset < nextFree₁ := (hold₁ b hb).last hl
            exact lt_of_lt_of_le hlast (Nat.le_add_right _ _)
          · cases hb
        · exact ⟨Nat.dvd_add hnext.1 dvd_rfl, le_trans hnext.2 (Nat.le_add_right _ _)⟩
      · -- the first block of a new page
        rw [if_neg hroom] at halloc
        refine ⟨_, _, halloc, fun hmem => ?_, ⟨hconf, hhead, hle, fun b hb => ?_, fun _ => ?_,
          List.nodup_nil, fun b hb => (by cases hb)⟩, rfl, rfl, rfl⟩
        · exact lt_irrefl _ (hold₁ _ hmem).page
        · rcases hb with (rfl | hb) | hb
          · have hlt : growOffset < growOffset + growOffset := by omega
            exact ⟨Nat.lt_succ_self _, le_rfl, hconf, dvd_rfl, fun _ => hlt⟩
          · refine (hold₁ b hb).congr rfl rfl rfl (Nat.le_succ _) fun hl => ?_
            have hpage : b.page < pages₁ := (hold₁ b hb).page
            have hl' : b.page + 1 = pages₁ + 1 := hl
            omega
          · cases hb
        · exact ⟨Nat.dvd_add dvd_rfl dvd_rfl, Nat.le_add_right _ _⟩

/-- **Freeing.** -/
theorem free (h : p.Hands live) (ha : a ∈ live) : (p.free a).Hands (live \ {a}) where
  configured := h.configured
  header := h.header
  le := h.le
  block b hb := by
    have hb' : p.Block b := by
      rcases hb with hb | hb
      · exact h.block b (Or.inl hb.1)
      · rcases List.mem_cons.mp hb with rfl | hb
        · exact h.block b (Or.inl ha)
        · exact h.block b (Or.inr hb)
    exact hb'.congr rfl rfl rfl le_rfl hb'.last
  next := h.next
  nodup := List.nodup_cons.mpr ⟨fun hmem => h.vacant a hmem ha, h.nodup⟩
  vacant b hb hlive := by
    rcases List.mem_cons.mp hb with rfl | hb
    · exact hlive.2 rfl
    · exact h.vacant b hb hlive.1

end Hands

end PoolAlloc

end Furious
