import Furious.Data.PoolAllocator
import Furious.Library.Memory

/-!
Pools in memory.

The pool allocator with addresses: it gets chunks of memory from its parent and links the
blocks that have been freed through these blocks, which their users may have written to.

* `MemPool`: `fdb_pool_alloc_t` with `MemPool.init`, `MemPool.alloc` and `MemPool.free`;
* `PoolState`, `PoolStep`, `PoolRun`: runs in which the blocks that are handed out are written
  to;
* `Represents`: the layout that a pool in memory has, `Represents.alloc`, `Represents.free`,
  `Represents.write`: **its operations are those of the layout**;
* `PoolState.Safe`: what a user expects, and `pool_alloc_safe`: **it holds in every run**.

A failing `assert` is a fault; the statistics, the hint and the mutex are left out.
-/

namespace Furious

/-- `fdb_pool_alloc_t`. -/
structure MemPool where
  firstChunk : ℕ
  lastChunk : ℕ
  firstFree : ℕ
  alignment : ℕ
  blockSize : ℕ
  pageSize : ℕ
  nextFree : ℕ
  growOffset : ℕ
  lostBytes : ℕ
deriving DecidableEq, Repr

/-- The alignment of a pool: not less than the smallest one. -/
def poolAlignment (alignment : ℕ) : ℕ := if alignment > minAlignment then alignment else minAlignment

namespace MemPool

/-- A 32 bit number that is taken for a signed one and extended to 64 bits. -/
def signExtend (n : ℕ) : ℕ := if n < 2 ^ 31 then n else n + (2 ^ 64 - 2 ^ 32)

/-- `fdb_pool_alloc_init`. -/
def init (alignment blockSize pageSize : ℕ) : Option MemPool :=
  let alignment := signExtend (poolAlignment alignment)
  let blockSize := if headerSize > blockSize then headerSize else blockSize
  let minGrowth := if headerSize ≤ blockSize then blockSize else headerSize
  let growOffset := (minGrowth + alignment + (2 ^ 64 - 1)) % 2 ^ 64 / alignment * alignment % 2 ^ 64
  -- a remainder by zero
  if growOffset = 0 then none
  else if (growOffset + blockSize) % 2 ^ 64 ≤ pageSize then
    some { firstChunk := 0
           lastChunk := 0
           firstFree := 0
           alignment := alignment
           blockSize := blockSize
           pageSize := pageSize
           nextFree := 0
           growOffset := growOffset
           lostBytes := (pageSize % growOffset + growOffset) % 2 ^ 64 }
  else none

/-- `fdb_pool_alloc_alloc`: the block, and the pool, the memory and what the parent has left. The
parent answers with the chunks `parent`, one after the other. -/
def alloc (p : MemPool) (m : Mem) (parent : List ℕ) (alignment size : ℕ) :
    Option (ℕ × MemPool × Mem × List ℕ) :=
  if p.alignment = poolAlignment alignment ∧ p.blockSize = size then
    if p.firstFree ≠ 0 then
      some (p.firstFree, { p with firstFree := loadWord m p.firstFree }, m, parent)
    else do
      let (p, m, parent) ←
        if p.firstChunk = 0 then
          match parent with
          | [] => none
          | chunk :: parent => some ({ p with
              firstChunk := chunk
              nextFree := p.growOffset
              lastChunk := chunk }, storeWord m chunk 0, parent)
        else some (p, m, parent)
      if (p.nextFree + p.blockSize) % 2 ^ 64 ≤ p.pageSize then
        some ((p.lastChunk + p.nextFree) % 2 ^ 64,
          { p with nextFree := (p.nextFree + p.growOffset) % 2 ^ 64 }, m, parent)
      else
        match parent with
        | [] => none
        | chunk :: parent =>
            some ((chunk + p.growOffset) % 2 ^ 64, { p with
              lastChunk := chunk
              nextFree := (p.growOffset + p.growOffset) % 2 ^ 64 },
              storeWord (storeWord m p.lastChunk chunk) chunk 0, parent)
  else none

/-- `fdb_pool_alloc_free`. -/
def free (p : MemPool) (m : Mem) (ptr : ℕ) : MemPool × Mem :=
  ({ p with firstFree := ptr }, storeWord m ptr p.firstFree)

end MemPool

/-- **What an allocation does**, if there is room for a block in each chunk. -/
lemma MemPool.alloc_cases {p q : MemPool} {m m' : Mem} {parent parent' : List ℕ} {alignment size ret : ℕ}
    (hconf : p.growOffset + p.blockSize ≤ p.pageSize) (hsmall : p.pageSize < 2 ^ 32)
    (h : p.alloc m parent alignment size = some (ret, q, m', parent')) :
    (p.firstFree ≠ 0 ∧ p.firstFree = ret ∧ { p with firstFree := loadWord m p.firstFree } = q ∧ m = m'
      ∧ parent = parent')
    ∨ (∃ chunk, p.firstFree = 0 ∧ p.firstChunk = 0 ∧ parent = chunk :: parent'
      ∧ (chunk + p.growOffset) % 2 ^ 64 = ret
      ∧ { p with
          firstChunk := chunk
          lastChunk := chunk
          nextFree := (p.growOffset + p.growOffset) % 2 ^ 64 } = q
      ∧ storeWord m chunk 0 = m')
    ∨ (p.firstFree = 0 ∧ p.firstChunk ≠ 0 ∧ (p.nextFree + p.blockSize) % 2 ^ 64 ≤ p.pageSize
      ∧ (p.lastChunk + p.nextFree) % 2 ^ 64 = ret
      ∧ { p with nextFree := (p.nextFree + p.growOffset) % 2 ^ 64 } = q ∧ m = m' ∧ parent = parent')
    ∨ (∃ chunk, p.firstFree = 0 ∧ p.firstChunk ≠ 0 ∧ ¬ (p.nextFree + p.blockSize) % 2 ^ 64 ≤ p.pageSize
      ∧ parent = chunk :: parent' ∧ (chunk + p.growOffset) % 2 ^ 64 = ret
      ∧ { p with
          lastChunk := chunk
          nextFree := (p.growOffset + p.growOffset) % 2 ^ 64 } = q
      ∧ storeWord (storeWord m p.lastChunk chunk) chunk 0 = m') := by
  rw [alloc] at h
  obtain ⟨-, h⟩ := Option.ite_none_right_eq_some.mp h
  by_cases hfree : p.firstFree = 0
  · rw [if_neg (not_not.mpr hfree)] at h
    by_cases hchunk : p.firstChunk = 0
    · rw [if_pos hchunk] at h
      cases parent with
      | nil => cases h
      | cons chunk parent =>
          have hroom : (p.growOffset + p.blockSize) % 2 ^ 64 ≤ p.pageSize := by
            rw [Nat.mod_eq_of_lt (by omega)]
            exact hconf
          simp only [Option.bind_eq_bind, Option.bind_some, if_pos hroom, Option.some.injEq,
            Prod.mk.injEq] at h
          obtain ⟨hret, hq, hm, rfl⟩ := h
          exact Or.inr (Or.inl ⟨chunk, hfree, hchunk, rfl, hret, hq, hm⟩)
    · rw [if_neg hchunk] at h
      by_cases hroom : (p.nextFree + p.blockSize) % 2 ^ 64 ≤ p.pageSize
      · simp only [Option.bind_eq_bind, Option.bind_some, if_pos hroom, Option.some.injEq,
          Prod.mk.injEq] at h
        obtain ⟨hret, hq, hm, hp⟩ := h
        exact Or.inr (Or.inr (Or.inl ⟨hfree, hchunk, hroom, hret, hq, hm, hp⟩))
      · simp only [Option.bind_eq_bind, Option.bind_some, if_neg hroom] at h
        cases parent with
        | nil => cases h
        | cons chunk parent =>
            simp only [Option.some.injEq, Prod.mk.injEq] at h
            obtain ⟨hret, hq, hm, rfl⟩ := h
            exact Or.inr (Or.inr (Or.inr ⟨chunk, hfree, hchunk, hroom, rfl, hret, hq, hm⟩))
  · rw [if_pos hfree] at h
    simp only [Option.some.injEq, Prod.mk.injEq] at h
    obtain ⟨hret, hq, hm, hp⟩ := h
    exact Or.inl ⟨hfree, hret, hq, hm, hp⟩

/-! ### Runs -/

/-- A pool with the memory, the chunks it holds, those that the parent will give it, and the
blocks that are handed out. -/
structure PoolState where
  pool : MemPool
  mem : Mem
  held : List ℕ
  parent : List ℕ
  live : List ℕ

/-- A step of a run: an allocation, the release of a block that is handed out, or writes that leave
the chunks alone except for such blocks. -/
inductive PoolStep : PoolState → PoolState → Prop
  | alloc {s : PoolState} {alignment size ret : ℕ} {p : MemPool} {m : Mem} {taken parent : List ℕ}
      (hal : alignment < 2 ^ 32) (hparent : s.parent = taken ++ parent)
      (h : s.pool.alloc s.mem s.parent alignment size = some (ret, p, m, parent)) :
      PoolStep s ⟨p, m, s.held ++ taken, parent, ret :: s.live⟩
  | free {s : PoolState} {a : ℕ} (ha : a ∈ s.live) :
      PoolStep s { s with
        pool := (s.pool.free s.mem a).1
        mem := (s.pool.free s.mem a).2
        live := s.live.erase a }
  | write {s : PoolState} {m : Mem}
      (h : ∀ chunk ∈ s.held, ∀ b ∈ bytes chunk s.pool.pageSize,
        (∀ a ∈ s.live, b ∉ bytes a s.pool.blockSize) → m b = s.mem b) :
      PoolStep s { s with mem := m }

/-- The states that a pool reaches with the chunks `chunks` of its parent. -/
inductive PoolRun (alignment blockSize pageSize : ℕ) (chunks : List ℕ) : PoolState → Prop
  | init {p : MemPool} (h : MemPool.init alignment blockSize pageSize = some p) (m : Mem) :
      PoolRun alignment blockSize pageSize chunks ⟨p, m, [], chunks, []⟩
  | step {s s' : PoolState} (h : PoolRun alignment blockSize pageSize chunks s) (hs : PoolStep s s') :
      PoolRun alignment blockSize pageSize chunks s'

/-- What the user of a pool expects. -/
structure PoolState.Safe (s : PoolState) (alignment : ℕ) : Prop where
  apart : s.live.Pairwise fun a b => Disjoint (bytes a s.pool.blockSize) (bytes b s.pool.blockSize)
  inside : ∀ a ∈ s.live, ∃ c ∈ s.held, c + headerSize ≤ a ∧ a + s.pool.blockSize ≤ c + s.pool.pageSize
  aligned : ∀ a ∈ s.live, alignment ∣ a
  fresh : ∀ al size ret p m parent, al < 2 ^ 32 →
    s.pool.alloc s.mem s.parent al size = some (ret, p, m, parent) → ret ∉ s.live

/-! ### The layout of a pool in memory -/

/-- The address of a place of the layout. -/
def place (held : List ℕ) (a : Address) : ℕ := held.getD a.page 0 + a.offset

/-- The pool has the layout `p`, with the chunks `held` as its pages. -/
structure Represents (c : MemPool) (m : Mem) (held : List ℕ) (alignment : ℕ) (p : PoolAlloc) : Prop where
  blockSize : c.blockSize = p.blockSize
  pageSize : c.pageSize = p.pageSize
  growOffset : c.growOffset = p.growOffset
  dvd : alignment ∣ p.growOffset
  small : p.pageSize < 2 ^ 32
  pages : p.pages = held.length
  first : c.firstChunk = 0 ↔ held = []
  last : c.lastChunk = held.getD (held.length - 1) 0
  nextFree : c.nextFree = p.nextFree
  next_le : p.nextFree ≤ p.pageSize + p.growOffset
  threaded : Threaded m c.firstFree (p.freed.map (place held))
  regions : Regions held alignment p.pageSize

namespace Represents

variable {c : MemPool} {m : Mem} {held parent : List ℕ} {alignment : ℕ} {p : PoolAlloc}
  {a b : Address} {live : Set Address}

/-- More chunks do not move a block. -/
lemma place_append (h : a.page < held.length) (taken : List ℕ) :
    place (held ++ taken) a = place held a := by
  rw [place, place, List.getD_eq_getElem?_getD, List.getD_eq_getElem?_getD, List.getElem?_append_left h]

lemma place_last (held : List ℕ) (chunk n : ℕ) : place (held ++ [chunk]) ⟨held.length, n⟩ = chunk + n := by
  simp [place, List.getD_eq_getElem?_getD]

/-- A block lies in its chunk, behind the header. -/
lemma block_inside (h : Represents c m held alignment p) (hc : headerSize ≤ p.growOffset) (ha : p.Block a) :
    ∃ chunk ∈ held, alignment ∣ chunk ∧ chunk + headerSize ≤ place held a
      ∧ place held a + p.blockSize ≤ chunk + p.pageSize ∧ held[a.page]? = some chunk
      ∧ chunk + p.pageSize ≤ 2 ^ 64 := by
  have hlt : a.page < held.length := h.pages ▸ ha.page
  have hmem : held[a.page] ∈ held := List.getElem_mem hlt
  have hplace : place held a = held[a.page] + a.offset := by
    rw [place, List.getD_eq_getElem?_getD, List.getElem?_eq_getElem hlt, Option.getD_some]
  have hin := ha.inside
  have hge := ha.header
  refine ⟨held[a.page], hmem, h.regions.aligned _ hmem, ?_, ?_, List.getElem?_eq_getElem hlt,
    h.regions.le _ hmem⟩
  · rw [hplace]
    omega
  · rw [hplace]
    omega

/-- The address of a block is a multiple of the alignment. -/
lemma place_dvd (h : Represents c m held alignment p) (hc : headerSize ≤ p.growOffset) (ha : p.Block a) :
    alignment ∣ place held a := by
  obtain ⟨chunk, -, hdvd, -, -, hget, -⟩ := h.block_inside hc ha
  rw [place, List.getD_eq_getElem?_getD, hget, Option.getD_some]
  exact Nat.dvd_add hdvd (h.dvd.trans ha.aligned)

/-- **Different blocks are apart** in memory. -/
theorem place_apart (h : Represents c m held alignment p) (hle : p.blockSize ≤ p.growOffset)
    (hc : headerSize ≤ p.growOffset) (ha : p.Block a) (hb : p.Block b) (hab : a ≠ b) :
    Disjoint (bytes (place held a) p.blockSize) (bytes (place held b) p.blockSize) := by
  by_cases hpage : a.page = b.page
  · have hoff := ha.apart hb hle hab hpage
    rw [place, place, hpage]
    rcases hoff with hoff | hoff
    · exact disjoint_bytes (by omega)
    · exact (disjoint_bytes (by omega)).symm
  · obtain ⟨ca, -, -, hal, hau, hageta, -⟩ := h.block_inside hc ha
    obtain ⟨cb, -, -, hbl, hbu, hbgetb, -⟩ := h.block_inside hc hb
    obtain ⟨hla, hca⟩ := List.getElem?_eq_some_iff.mp hageta
    obtain ⟨hlb, hcb⟩ := List.getElem?_eq_some_iff.mp hbgetb
    have hchunks : Disjoint (bytes ca p.pageSize) (bytes cb p.pageSize) := by
      have hpw := List.pairwise_iff_getElem.mp h.regions.apart
      rcases Nat.lt_or_gt_of_ne hpage with hlt | hlt
      · exact hca ▸ hcb ▸ hpw _ _ hla hlb hlt
      · exact hca ▸ hcb ▸ (hpw _ _ hlb hla hlt).symm
    exact hchunks.mono (bytes_subset (by omega) hau) (bytes_subset (by omega) hbu)

/-- **Allocation** is that of the layout. -/
theorem alloc (h : Represents c m held alignment p) (hp : p.Hands live)
    (hreg : Regions (held ++ parent) alignment p.pageSize) {al size ret : ℕ} {c' : MemPool} {m' : Mem}
    {parent' : List ℕ} (halloc : c.alloc m parent al size = some (ret, c', m', parent')) :
    ∃ taken, parent = taken ++ parent' ∧ Represents c' m' (held ++ taken) alignment p.alloc.2
      ∧ ret = place (held ++ taken) p.alloc.1 ∧ c'.alignment = c.alignment := by
  have hconf : p.growOffset + p.blockSize ≤ p.pageSize := hp.configured
  have hhead : 8 ≤ p.blockSize := hp.header
  have hle := hp.le
  have hsmall := h.small
  have hfits : c.growOffset + c.blockSize ≤ c.pageSize ∧ c.pageSize < 2 ^ 32 := by
    rw [h.growOffset, h.blockSize, h.pageSize]
    exact ⟨hconf, hsmall⟩
  obtain ⟨blockSize, pageSize, growOffset, nextFree, pages, freed⟩ := p
  -- a chunk that is taken now
  have hchunk : ∀ chunk rest, parent = chunk :: rest → Regions (held ++ [chunk]) alignment pageSize
      ∧ chunk ≠ 0 ∧ chunk + pageSize ≤ 2 ^ 64 := by
    rintro chunk rest rfl
    have hmem : chunk ∈ held ++ chunk :: rest := List.mem_append_right _ List.mem_cons_self
    have happ : held ++ chunk :: rest = held ++ [chunk] ++ rest := by rw [List.append_assoc]; rfl
    exact ⟨(happ ▸ hreg).of_sublist (List.sublist_append_left _ _),
      Nat.pos_iff_ne_zero.mp (hreg.pos _ hmem), hreg.le _ hmem⟩
  rcases MemPool.alloc_cases hfits.1 hfits.2 halloc with ⟨hn, rfl, rfl, rfl, rfl⟩
      | ⟨chunk, hn, hfirst, rfl, rfl, rfl, rfl⟩ | ⟨hn, hfirst, hroom, rfl, rfl, rfl, rfl⟩
      | ⟨chunk, hn, hfirst, hroom, rfl, rfl, rfl, rfl⟩
  · -- the first of the freed blocks
    cases freed with
    | nil => exact absurd h.threaded hn
    | cons a freed =>
        obtain ⟨hhd, -, hrest⟩ := h.threaded
        refine ⟨[], rfl, ?_, by rw [List.append_nil]; exact hhd, rfl⟩
        rw [List.append_nil]
        exact ⟨h.blockSize, h.pageSize, h.growOffset, h.dvd, h.small, h.pages, h.first, h.last, h.nextFree,
          h.next_le, hhd ▸ hrest, h.regions⟩
  all_goals
    obtain rfl : freed = [] := by
      cases freed with
      | nil => rfl
      | cons a freed =>
          obtain ⟨hhd, hne, -⟩ := h.threaded
          exact absurd (hhd.symm.trans hn) hne
  · -- the first chunk
    obtain rfl := h.first.mp hfirst
    obtain ⟨hregions, hne, hbound⟩ := hchunk _ _ rfl
    have hpages : pages = 0 := h.pages
    have halloc' : PoolAlloc.alloc ⟨blockSize, pageSize, growOffset, nextFree, pages, []⟩
        = (⟨0, growOffset⟩, ⟨blockSize, pageSize, growOffset, growOffset + growOffset, 1, []⟩) := by
      simp only [PoolAlloc.alloc, hpages, if_true]
      rw [if_pos hconf]
    rw [halloc']
    have hg := h.growOffset
    dsimp only at hg hbound hconf hhead hsmall hle ⊢
    refine ⟨[chunk], rfl, ⟨h.blockSize, h.pageSize, h.growOffset, h.dvd, h.small, rfl,
      iff_of_false hne (by simp), rfl, ?_, ?_, hn, hregions⟩, ?_, rfl⟩
    · show (c.growOffset + c.growOffset) % 2 ^ 64 = growOffset + growOffset
      rw [hg]
      exact Nat.mod_eq_of_lt (by omega)
    · show growOffset + growOffset ≤ pageSize + growOffset
      omega
    · show (chunk + c.growOffset) % 2 ^ 64 = place ([] ++ [chunk]) ⟨0, growOffset⟩
      rw [hg, Nat.mod_eq_of_lt (by omega)]
      rfl
  · -- behind the last block of the last chunk
    have hheld : held ≠ [] := fun hnil => hfirst (h.first.mpr hnil)
    have hlen : 0 < held.length := List.length_pos_iff.mpr hheld
    have hpages : pages = held.length := h.pages
    have hnext : nextFree ≤ pageSize + growOffset := h.next_le
    have hnf : c.nextFree = nextFree := h.nextFree
    have hg : c.growOffset = growOffset := h.growOffset
    dsimp only at hconf hhead hsmall hle
    rw [hnf, h.blockSize, h.pageSize] at hroom
    dsimp only at hroom
    rw [Nat.mod_eq_of_lt (show nextFree + blockSize < 2 ^ 64 by omega)] at hroom
    have halloc' : PoolAlloc.alloc ⟨blockSize, pageSize, growOffset, nextFree, pages, []⟩
        = (⟨pages - 1, nextFree⟩, ⟨blockSize, pageSize, growOffset, nextFree + growOffset, pages, []⟩) := by
      simp only [PoolAlloc.alloc, if_neg (show ¬ pages = 0 by omega)]
      rw [if_pos hroom]
    have hbound : held.getD (held.length - 1) 0 + pageSize ≤ 2 ^ 64 := by
      refine h.regions.le _ ?_
      rw [List.getD_eq_getElem?_getD, List.getElem?_eq_getElem (by omega), Option.getD_some]
      exact List.getElem_mem _
    rw [halloc']
    refine ⟨[], rfl, ?_, ?_, rfl⟩
    · rw [List.append_nil]
      refine ⟨h.blockSize, h.pageSize, h.growOffset, h.dvd, h.small, h.pages, h.first, h.last, ?_, ?_, hn,
        h.regions⟩
      · show (c.nextFree + c.growOffset) % 2 ^ 64 = nextFree + growOffset
        rw [hnf, hg]
        exact Nat.mod_eq_of_lt (by omega)
      · show nextFree + growOffset ≤ pageSize + growOffset
        omega
    · rw [List.append_nil, hnf, h.last, place, hpages]
      exact Nat.mod_eq_of_lt (by omega)
  · -- the first block of a new chunk
    obtain ⟨hregions, hne, hbound⟩ := hchunk _ _ rfl
    have hheld : held ≠ [] := fun hnil => hfirst (h.first.mpr hnil)
    have hlen : 0 < held.length := List.length_pos_iff.mpr hheld
    have hpages : pages = held.length := h.pages
    have hnext : nextFree ≤ pageSize + growOffset := h.next_le
    have hnf : c.nextFree = nextFree := h.nextFree
    have hg : c.growOffset = growOffset := h.growOffset
    dsimp only at hconf hhead hsmall hle
    rw [hnf, h.blockSize, h.pageSize] at hroom
    dsimp only at hroom
    rw [Nat.mod_eq_of_lt (show nextFree + blockSize < 2 ^ 64 by omega)] at hroom
    have halloc' : PoolAlloc.alloc ⟨blockSize, pageSize, growOffset, nextFree, pages, []⟩
        = (⟨pages, growOffset⟩,
          ⟨blockSize, pageSize, growOffset, growOffset + growOffset, pages + 1, []⟩) := by
      simp only [PoolAlloc.alloc, if_neg (show ¬ pages = 0 by omega)]
      rw [if_neg hroom]
    rw [halloc']
    refine ⟨[chunk], rfl, ⟨h.blockSize, h.pageSize, h.growOffset, h.dvd, h.small, ?_, ?_, ?_, ?_, ?_, hn,
      hregions⟩, ?_, rfl⟩
    · rw [List.length_append, List.length_singleton, hpages]
    · exact iff_of_false hfirst (by simp)
    · show chunk = (held ++ [chunk]).getD ((held ++ [chunk]).length - 1) 0
      simp [List.getD_eq_getElem?_getD]
    · show (c.growOffset + c.growOffset) % 2 ^ 64 = growOffset + growOffset
      rw [hg]
      exact Nat.mod_eq_of_lt (by omega)
    · show growOffset + growOffset ≤ pageSize + growOffset
      omega
    · show (chunk + c.growOffset) % 2 ^ 64 = place (held ++ [chunk]) ⟨pages, growOffset⟩
      rw [hpages, place_last, hg]
      exact Nat.mod_eq_of_lt (by omega)

/-- **Releasing a block** is that of the layout. -/
theorem free (h : Represents c m held alignment p) (hp : p.Hands live) (ha : a ∈ live) :
    Represents (c.free m (place held a)).1 (c.free m (place held a)).2 held alignment (p.free a) := by
  have hc : headerSize ≤ p.growOffset := hp.header.trans hp.le
  have hblock := hp.block a (Or.inl ha)
  obtain ⟨chunk, hmem, -, hlow, hup, -, hle⟩ := h.block_inside hc hblock
  have hpos := h.regions.pos chunk hmem
  have hhead : c.firstFree < 2 ^ 64 := by
    cases hfreed : p.freed with
    | nil =>
        have hzero : c.firstFree = 0 := by
          have hthreaded := h.threaded
          rw [hfreed] at hthreaded
          exact hthreaded
        rw [hzero]
        decide
    | cons b freed =>
        have hthreaded := h.threaded
        rw [hfreed] at hthreaded
        obtain ⟨chunkb, -, -, -, hupb, -, hleb⟩ :=
          h.block_inside hc (hp.block b (Or.inr (hfreed ▸ List.mem_cons_self)))
        have hheader : 8 ≤ p.blockSize := hp.header
        rw [hthreaded.1]
        omega
  refine ⟨h.blockSize, h.pageSize, h.growOffset, h.dvd, h.small, h.pages, h.first, h.last, h.nextFree,
    h.next_le, ?_, h.regions⟩
  refine h.threaded.push (by omega) hhead fun q hq => ?_
  obtain ⟨b, hb, rfl⟩ := List.mem_map.mp hq
  have hab : b ≠ a := fun e => hp.vacant b hb (e ▸ ha)
  exact (h.place_apart hp.le hc (hp.block b (Or.inr hb)) hblock hab).mono
    (bytes_subset le_rfl (Nat.add_le_add_left hp.header _)) (bytes_subset le_rfl (Nat.add_le_add_left hp.header _))

/-- **Writes to blocks that are handed out** leave the layout alone. -/
theorem write (h : Represents c m held alignment p) (hp : p.Hands live) {m' : Mem}
    (hm : ∀ chunk ∈ held, ∀ b ∈ bytes chunk p.pageSize,
      (∀ a ∈ live, b ∉ bytes (place held a) p.blockSize) → m' b = m b) :
    Represents c m' held alignment p := by
  have hc : headerSize ≤ p.growOffset := hp.header.trans hp.le
  refine ⟨h.blockSize, h.pageSize, h.growOffset, h.dvd, h.small, h.pages, h.first, h.last, h.nextFree,
    h.next_le, h.threaded.congr fun q hq b hb => ?_, h.regions⟩
  obtain ⟨a, ha, rfl⟩ := List.mem_map.mp hq
  have hblock := hp.block a (Or.inr ha)
  obtain ⟨chunk, hmem, -, hlow, hup, -, -⟩ := h.block_inside hc hblock
  have hin : b ∈ bytes (place held a) p.blockSize :=
    bytes_subset le_rfl (Nat.add_le_add_left hp.header _) hb
  refine hm chunk hmem b (bytes_subset (by omega) hup hin) fun a' ha' hba' => ?_
  have hne : a ≠ a' := fun e => hp.vacant a ha (e ▸ ha')
  exact Set.disjoint_left.mp
    (h.place_apart hp.le hc hblock (hp.block a' (Or.inl ha')) hne) hin hba'

end Represents

/-! ### The invariant -/

/-- The pool has a layout with these blocks handed out; or its alignment does not fit into 32 bits, and
then no allocation meets the assertion. -/
def PoolInv (s : PoolState) (alignment : ℕ) : Prop :=
  (s.live = [] ∧ 2 ^ 32 ≤ s.pool.alignment)
  ∨ ∃ (p : PoolAlloc) (blocks : List Address), Represents s.pool s.mem s.held alignment p
    ∧ p.Hands {a | a ∈ blocks} ∧ blocks.Nodup ∧ s.live = blocks.map (place s.held)
    ∧ Regions (s.held ++ s.parent) alignment p.pageSize

lemma poolAlignment_lt {n : ℕ} (h : n < 2 ^ 32) : poolAlignment n < 2 ^ 32 := by
  rw [poolAlignment]
  split
  · exact h
  · decide

/-- An alignment that does not fit is never the one asked for. -/
lemma MemPool.alloc_unfit {p : MemPool} (h : 2 ^ 32 ≤ p.alignment) {m : Mem} {parent : List ℕ}
    {alignment size : ℕ} (hal : alignment < 2 ^ 32) : p.alloc m parent alignment size = none := by
  have hlt := poolAlignment_lt hal
  rw [alloc, if_neg]
  rintro ⟨heq, -⟩
  omega

namespace PoolInv

variable {s s' : PoolState} {alignment : ℕ}

/-- The addresses of blocks are distinct. -/
lemma place_injOn {c : MemPool} {m : Mem} {held : List ℕ} {p : PoolAlloc} {live : Set Address}
    (h : Represents c m held alignment p) (hp : p.Hands live) {a b : Address} (ha : a ∈ live)
    (hb : b ∈ live) (heq : place held a = place held b) : a = b := by
  by_contra hne
  have hdisj := h.place_apart hp.le (hp.header.trans hp.le) (hp.block a (Or.inl ha))
    (hp.block b (Or.inl hb)) hne
  have hpos : 0 < p.blockSize := lt_of_lt_of_le (by decide) hp.header
  have hmem : place held a ∈ bytes (place held a) p.blockSize := mem_bytes.mpr (by omega)
  exact Set.disjoint_left.mp hdisj hmem (heq ▸ hmem)

lemma erase_map {α β : Type*} [DecidableEq α] [DecidableEq β] {f : α → β} {l : List α} {a : α}
    (h : ∀ b ∈ l, f b = f a → b = a) : (l.map f).erase (f a) = (l.erase a).map f := by
  induction l with
  | nil => rfl
  | cons b l ih =>
      by_cases hb : b = a
      · rw [hb, List.map_cons, List.erase_cons_head, List.erase_cons_head]
      · have hf : f b ≠ f a := fun e => hb (h b List.mem_cons_self e)
        rw [List.map_cons, List.erase_cons_tail (by simpa using hf), List.erase_cons_tail (by simpa using hb),
          List.map_cons, ih fun c hc => h c (List.mem_cons_of_mem _ hc)]

/-- **A step keeps the invariant.** -/
theorem step (h : PoolInv s alignment) (hs : PoolStep s s') : PoolInv s' alignment := by
  rcases h with ⟨hlive, hunfit⟩ | ⟨p, blocks, hrep, hands, hnd, hlive, hreg⟩
  · cases hs with
    | alloc hal _ halloc =>
        rw [MemPool.alloc_unfit hunfit hal] at halloc
        cases halloc
    | free ha =>
        rw [hlive] at ha
        cases ha
    | write _ => exact Or.inl ⟨hlive, hunfit⟩
  · cases hs with
    | @alloc al size ret c' m' taken parent' hal hparent halloc =>
        obtain ⟨a, q, hq, hnew, hands', hb, hg, hp⟩ := hands.alloc
        obtain ⟨taken', hparent', hrep', hret, -⟩ := hrep.alloc hands hreg halloc
        obtain rfl : taken' = taken := List.append_cancel_right (hparent'.symm.trans hparent)
        rw [hq] at hrep' hret
        have hold : ∀ b ∈ blocks, place (s.held ++ taken') b = place s.held b := fun b hb =>
          Represents.place_append (hrep.pages ▸ (hands.block b (Or.inl hb)).page) taken'
        refine Or.inr ⟨q, a :: blocks, hrep', ?_, List.nodup_cons.mpr ⟨hnew, hnd⟩, ?_, ?_⟩
        · have hset : {b | b ∈ a :: blocks} = insert a {b | b ∈ blocks} := by
            ext b
            simp
          rw [hset]
          exact hands'
        · rw [List.map_cons, hret, hlive]
          exact congrArg _ (List.map_congr_left fun b hb => (hold b hb).symm)
        · rw [List.append_assoc, ← hparent, hp]
          exact hreg
    | @free a ha =>
        rw [hlive] at ha
        obtain ⟨b, hb, rfl⟩ := List.mem_map.mp ha
        refine Or.inr ⟨p.free b, blocks.erase b, hrep.free hands hb, ?_, hnd.erase b, ?_, hreg⟩
        · have hset : {a | a ∈ blocks.erase b} = {a | a ∈ blocks} \ {b} := by
            ext a
            rw [Set.mem_ofPred_eq, hnd.mem_erase_iff]
            exact and_comm
          rw [hset]
          exact hands.free hb
        · show s.live.erase (place s.held b) = _
          rw [hlive]
          exact erase_map fun a ha heq => place_injOn hrep hands ha hb heq
    | write hw =>
        refine Or.inr ⟨p, blocks, hrep.write hands fun chunk hchunk b hb hout => ?_, hands, hnd, hlive, hreg⟩
        refine hw chunk hchunk b (hrep.pageSize ▸ hb) fun a ha => ?_
        rw [hlive] at ha
        obtain ⟨a', ha', rfl⟩ := List.mem_map.mp ha
        rw [hrep.blockSize]
        exact hout a' ha'

/-- **What a user expects** follows. -/
theorem safe (h : PoolInv s alignment) : s.Safe alignment := by
  rcases h with ⟨hlive, hunfit⟩ | ⟨p, blocks, hrep, hands, hnd, hlive, hreg⟩
  · refine ⟨by rw [hlive]; exact List.Pairwise.nil, fun a ha => ?_, fun a ha => ?_,
      fun al size ret q m parent hal halloc => ?_⟩
    · rw [hlive] at ha
      cases ha
    · rw [hlive] at ha
      cases ha
    · rw [MemPool.alloc_unfit hunfit hal] at halloc
      cases halloc
  · have hc : headerSize ≤ p.growOffset := hands.header.trans hands.le
    have hblock : ∀ a ∈ blocks, p.Block a := fun a ha => hands.block a (Or.inl ha)
    refine ⟨?_, fun q hq => ?_, fun q hq => ?_, fun al size ret q m parent' hal halloc hmem => ?_⟩
    · rw [hlive, List.pairwise_map, hrep.blockSize]
      exact List.Pairwise.imp_of_mem (fun ha hb hne =>
        hrep.place_apart hands.le hc (hblock _ ha) (hblock _ hb) hne) hnd
    · rw [hlive] at hq
      obtain ⟨a, ha, rfl⟩ := List.mem_map.mp hq
      obtain ⟨chunk, hchunk, -, hlow, hup, -, -⟩ := hrep.block_inside hc (hblock a ha)
      rw [hrep.blockSize, hrep.pageSize]
      exact ⟨chunk, hchunk, hlow, hup⟩
    · rw [hlive] at hq
      obtain ⟨a, ha, rfl⟩ := List.mem_map.mp hq
      exact hrep.place_dvd hc (hblock a ha)
    · obtain ⟨a, q', hq', hnew, hands', -⟩ := hands.alloc
      obtain ⟨taken, -, hrep', hret, -⟩ := hrep.alloc hands hreg halloc
      rw [hlive] at hmem
      obtain ⟨b, hb, hbret⟩ := List.mem_map.mp hmem
      rw [hq'] at hrep' hret
      have hbold : place (s.held ++ taken) b = place s.held b :=
        Represents.place_append (hrep.pages ▸ (hblock b hb).page) taken
      have heq : b = a := place_injOn hrep' hands' (Set.mem_insert_of_mem a hb) (Set.mem_insert a _)
        (hbold.trans (hbret.trans hret))
      exact hnew (heq ▸ hb)

/-- A new pool. -/
lemma init {al blockSize pageSize : ℕ} {chunks : List ℕ} (hal : al < 2 ^ 32) (hb : blockSize < 2 ^ 32)
    (hp : pageSize < 2 ^ 32) (hreg : Regions chunks (poolAlignment al) pageSize) {p : MemPool}
    (h : MemPool.init al blockSize pageSize = some p) (m : Mem) :
    PoolInv ⟨p, m, [], chunks, []⟩ (poolAlignment al) := by
  have hlt := poolAlignment_lt hal
  have hpos : 0 < poolAlignment al := by
    rw [poolAlignment]
    split
    · next h => exact Nat.zero_lt_of_lt h
    · decide
  rw [MemPool.init] at h
  obtain ⟨-, h⟩ := Option.ite_none_left_eq_some.mp h
  obtain ⟨hconf, h⟩ := Option.ite_none_right_eq_some.mp h
  obtain rfl := Option.some.inj h
  by_cases hsmall : poolAlignment al < 2 ^ 31
  · right
    -- nothing overflows, so that the sizes are those of the layout
    have hsign : MemPool.signExtend (poolAlignment al) = poolAlignment al := if_pos hsmall
    have hgrowth : ∀ n : ℕ, n < 2 ^ 32 →
        (n + poolAlignment al + (2 ^ 64 - 1)) % 2 ^ 64 / poolAlignment al * poolAlignment al % 2 ^ 64
          = (n + poolAlignment al - 1) / poolAlignment al * poolAlignment al
        ∧ (n + poolAlignment al - 1) / poolAlignment al * poolAlignment al < 2 ^ 33 := by
      intro n hn
      have hmod : (n + poolAlignment al + (2 ^ 64 - 1)) % 2 ^ 64 = n + poolAlignment al - 1 := by omega
      have hle := Nat.div_mul_le_self (n + poolAlignment al - 1) (poolAlignment al)
      rw [hmod]
      exact ⟨Nat.mod_eq_of_lt (by omega), by omega⟩
    have hblock : (if headerSize > blockSize then headerSize else blockSize) < 2 ^ 32 := by
      split
      · decide
      · exact hb
    rw [if_pos (PoolAlloc.headerSize_le blockSize), hsign] at hconf ⊢
    obtain ⟨hgrow, hgrowlt⟩ := hgrowth _ hblock
    rw [hgrow] at hconf ⊢
    rw [Nat.mod_eq_of_lt (by omega)] at hconf
    have hconf' : (PoolAlloc.init al blockSize pageSize).Configured := by
      rw [PoolAlloc.Configured]
      simp only [PoolAlloc.init, if_pos (PoolAlloc.headerSize_le blockSize)]
      exact hconf
    have hinit : (PoolAlloc.init al blockSize pageSize).growOffset
        = ((if headerSize > blockSize then headerSize else blockSize) + poolAlignment al - 1)
          / poolAlignment al * poolAlignment al := by
      simp only [PoolAlloc.init, if_pos (PoolAlloc.headerSize_le blockSize)]
      rfl
    refine ⟨PoolAlloc.init al blockSize pageSize, [], ⟨rfl, rfl, hinit.symm, ?_, hp, rfl,
      iff_of_true rfl rfl, rfl, rfl, Nat.zero_le _, rfl, ⟨?_, ?_, ?_, List.Pairwise.nil⟩⟩, ?_,
      List.nodup_nil, rfl, hreg⟩
    · rw [hinit]
      exact Dvd.intro_left _ rfl
    · exact fun c hc => by cases hc
    · exact fun c hc => by cases hc
    · exact fun c hc => by cases hc
    · have hset : {a : Address | a ∈ []} = (∅ : Set Address) := by
        ext a
        simp
      rw [hset]
      exact PoolAlloc.Hands.init hconf'
  · refine Or.inl ⟨rfl, ?_⟩
    show 2 ^ 32 ≤ MemPool.signExtend (poolAlignment al)
    rw [MemPool.signExtend, if_neg hsmall]
    omega

end PoolInv

/-- **Pools are safe.** Whatever is allocated, released and written, with a parent that gives regions
of the size and with the alignment that are asked for, apart from each other: the blocks that are
handed out are apart from each other, each lies in a chunk behind its header, each has the
alignment of the pool, and no block is handed out twice. -/
theorem pool_alloc_safe {alignment blockSize pageSize : ℕ} (hal : alignment < 2 ^ 32)
    (hb : blockSize < 2 ^ 32) (hp : pageSize < 2 ^ 32) {chunks : List ℕ}
    (hreg : Regions chunks (poolAlignment alignment) pageSize) {s : PoolState}
    (hr : PoolRun alignment blockSize pageSize chunks s) : s.Safe (poolAlignment alignment) := by
  have hinv : PoolInv s (poolAlignment alignment) := by
    induction hr with
    | init h m => exact PoolInv.init hal hb hp hreg h m
    | step _ hs ih => exact ih.step hs
  exact hinv.safe

/-- The calls of a script: an allocation, or the release of a block. -/
inductive PoolCall where
  | alloc (alignment size : ℕ)
  | free (a : ℕ)

/-- A call, if it is a step. -/
def PoolState.call (s : PoolState) : PoolCall → Option PoolState
  | .alloc alignment size => do
      let (ret, p, m, parent) ← s.pool.alloc s.mem s.parent alignment size
      let taken := s.parent.take (s.parent.length - parent.length)
      if alignment < 2 ^ 32 ∧ s.parent = taken ++ parent then
        some ⟨p, m, s.held ++ taken, parent, ret :: s.live⟩
      else none
  | .free a =>
      if a ∈ s.live then
        some { s with
          pool := (s.pool.free s.mem a).1
          mem := (s.pool.free s.mem a).2
          live := s.live.erase a }
      else none

lemma PoolState.call_step {s s' : PoolState} {c : PoolCall} (h : s.call c = some s') : PoolStep s s' := by
  cases c with
  | alloc al size =>
      obtain ⟨⟨ret, p, m, parent⟩, halloc, h⟩ := Option.bind_eq_some_iff.mp h
      obtain ⟨⟨hal, hparent⟩, h⟩ := Option.ite_none_right_eq_some.mp h
      exact Option.some.inj h ▸ .alloc hal hparent halloc
  | free a =>
      obtain ⟨ha, h⟩ := Option.ite_none_right_eq_some.mp h
      exact Option.some.inj h ▸ .free ha

/-- **A script is a run.** -/
lemma PoolRun.script {alignment blockSize pageSize : ℕ} {chunks : List ℕ} {calls : List PoolCall}
    {s s' : PoolState} (h : PoolRun alignment blockSize pageSize chunks s)
    (hcalls : calls.foldlM PoolState.call s = some s') : PoolRun alignment blockSize pageSize chunks s' := by
  induction calls generalizing s with
  | nil => exact Option.some.inj hcalls ▸ h
  | cons c calls ih =>
      rw [List.foldlM_cons] at hcalls
      obtain ⟨s₁, hcall, hcalls⟩ := Option.bind_eq_some_iff.mp hcalls
      exact ih (h.step (PoolState.call_step hcall)) hcalls

/-- A new pool with two chunks to come that have room for two blocks each. -/
def twoChunks : PoolState := ⟨⟨0, 0, 0, 64, 64, 192, 0, 64, 64⟩, fun _ => 0, [], [0x10000, 0x20000], []⟩

lemma init_twoChunks : MemPool.init 64 64 192 = some twoChunks.pool := by decide

lemma regions_twoChunks : Regions [0x10000, 0x20000] (poolAlignment 64) 192 :=
  ⟨by decide, by decide, by decide, List.pairwise_pair.mpr (disjoint_bytes (by decide))⟩

/-- Three blocks of which one is handed out again, and the last one is in the second chunk. -/
def threeBlocks : List PoolCall := [.alloc 64 64, .alloc 64 64, .free 0x10040, .alloc 64 64, .alloc 64 64]

lemma twoChunks_threeBlocks : (threeBlocks.foldlM PoolState.call twoChunks).map (fun s => (s.held, s.live))
    = some ([0x10000, 0x20000], [0x20040, 0x10040, 0x10080]) := by
  decide +kernel

/-- Both chunks are in use, and a block has been handed out again. -/
theorem pool_alloc_safe_one : ∃ s, PoolRun 64 64 192 [0x10000, 0x20000] s
    ∧ s.live = [0x20040, 0x10040, 0x10080] ∧ s.Safe 64 := by
  obtain ⟨s, hs, hlive⟩ := Option.map_eq_some_iff.mp twoChunks_threeBlocks
  have hrun : PoolRun 64 64 192 [0x10000, 0x20000] s := (PoolRun.init init_twoChunks fun _ => 0).script hs
  exact ⟨s, hrun, (Prod.mk.inj hlive).2, pool_alloc_safe (by decide) (by decide) (by decide) regions_twoChunks hrun⟩

end Furious
