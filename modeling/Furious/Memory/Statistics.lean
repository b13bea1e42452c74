import Furious.Library.Traces
import Furious.Memory.PageAllocator
import Furious.Memory.PoolMemory
import Furious.Memory.StackFlush

/-!
Memory statistics.

The allocators count the bytes that they have got from their parent and those that are in use.
An allocation counts on some of its paths only, while each release counts.

* `MemStats`: `fdb_mem_stats_t`, with a mark that a counter has gone below zero;
* `PoolCount`, `PageCount`, `StackCount`: allocators with their counters, and their steps;
* `PoolCount.Accounted`, `PageCount.Accounted`, `StackCount.Accounted`: the counters are right;
* `pool_accounted_iff`, `page_accounted_iff`, `stack_accounted`: when they are in each state of a
  history;
* `statistics_accounted`: **the three of them**.
-/

namespace Furious

/-! ### Counters -/

/-- `fdb_mem_stats_t`; `wrapped` says that a counter has gone below zero. -/
structure MemStats where
  allocated : ℕ
  lost : ℕ
  used : ℕ
  wrapped : Bool
deriving DecidableEq, Repr

/-- `+=` on a counter of 64 bits. -/
def add64 (a b : ℕ) : ℕ := (a + b) % 2 ^ 64

/-- `-=` on a counter of 64 bits. -/
def sub64 (a b : ℕ) : ℕ := (a + (2 ^ 64 - b % 2 ^ 64)) % 2 ^ 64

namespace MemStats

/-- After a `memset`. -/
def zero : MemStats := ⟨0, 0, 0, false⟩

/-- `m_allocated += n`. -/
def allocate (st : MemStats) (n : ℕ) : MemStats := { st with allocated := add64 st.allocated n }

/-- `m_lost += n`. -/
def lose (st : MemStats) (n : ℕ) : MemStats := { st with lost := add64 st.lost n }

/-- `m_used += n`. -/
def use (st : MemStats) (n : ℕ) : MemStats := { st with used := add64 st.used n }

/-- `m_allocated -= n`. -/
def deallocate (st : MemStats) (n : ℕ) : MemStats :=
  { st with
    allocated := sub64 st.allocated n
    wrapped := st.wrapped || decide (st.allocated < n) }

/-- `m_used -= n`. -/
def unuse (st : MemStats) (n : ℕ) : MemStats :=
  { st with
    used := sub64 st.used n
    wrapped := st.wrapped || decide (st.used < n) }

end MemStats

/-! ### Pools -/

namespace MemPool

/-- The counters in `fdb_pool_alloc_alloc`. -/
def allocStats (p : MemPool) (st : MemStats) : MemStats :=
  if p.firstFree ≠ 0 then st
  else
    let (nextFree, st) :=
      if p.firstChunk = 0 then (p.growOffset, (st.allocate p.pageSize).lose p.lostBytes)
      else (p.nextFree, st)
    if (nextFree + p.blockSize) % 2 ^ 64 ≤ p.pageSize then st
    else ((st.allocate (sub64 p.pageSize p.growOffset)).use p.growOffset).lose p.lostBytes

/-- The counters in `fdb_pool_alloc_free`. -/
def freeStats (p : MemPool) (st : MemStats) : MemStats := st.unuse p.growOffset

end MemPool

/-- A pool with its counters. -/
structure PoolCount where
  state : PoolState
  stats : MemStats

namespace PoolCount

/-- The beginning of a history. -/
def Init (alignment blockSize pageSize : ℕ) (chunks : List ℕ) (s : PoolCount) : Prop :=
  ∃ p m, MemPool.init alignment blockSize pageSize = some p ∧ s = ⟨⟨p, m, [], chunks, []⟩, MemStats.zero⟩

/-- A step, by what it does to the live blocks. -/
inductive Step : PoolCount → PoolCount → Prop
  | alloc {s : PoolCount} {t : PoolState} (h : PoolStep s.state t)
      (hlive : s.state.live.length < t.live.length) : Step s ⟨t, s.state.pool.allocStats s.stats⟩
  | free {s : PoolCount} {t : PoolState} (h : PoolStep s.state t)
      (hlive : t.live.length < s.state.live.length) : Step s ⟨t, s.state.pool.freeStats s.stats⟩
  | write {s : PoolCount} {t : PoolState} (h : PoolStep s.state t)
      (hlive : t.live.length = s.state.live.length) : Step s ⟨t, s.stats⟩

/-- What is used are the live blocks, and no counter has wrapped. -/
def Accounted (s : PoolCount) : Prop :=
  s.stats.used = s.state.live.length * s.state.pool.growOffset ∧ s.stats.wrapped = false

/-- The step is not an allocation. -/
def NoAlloc (s s' : PoolCount) : Prop := s'.state.live.length ≤ s.state.live.length

/-- Nothing has been allocated yet. -/
structure Unused (s : PoolCount) : Prop where
  live : s.state.live = []
  used : s.stats.used = 0
  wrapped : s.stats.wrapped = false
  firstFree : s.state.pool.firstFree = 0
  firstChunk : s.state.pool.firstChunk = 0
  grows : s.state.pool.growOffset ≠ 0
  room : (s.state.pool.growOffset + s.state.pool.blockSize) % 2 ^ 64 ≤ s.state.pool.pageSize

namespace Unused

variable {s s' : PoolCount}

/-- A new pool. -/
lemma init {alignment blockSize pageSize : ℕ} {chunks : List ℕ}
    (h : Init alignment blockSize pageSize chunks s) : s.Unused := by
  obtain ⟨p, m, hp, rfl⟩ := h
  rw [MemPool.init] at hp
  obtain ⟨hgrow, hp⟩ := Option.ite_none_left_eq_some.mp hp
  obtain ⟨hroom, hp⟩ := Option.ite_none_right_eq_some.mp hp
  obtain rfl := Option.some.inj hp
  exact ⟨rfl, rfl, rfl, rfl, rfl, hgrow, hroom⟩

lemma accounted (h : s.Unused) : s.Accounted := by
  refine ⟨?_, h.wrapped⟩
  rw [h.used, h.live, List.length_nil, Nat.zero_mul]

/-- No block can be released. -/
lemma not_free (h : s.Unused) {n : ℕ} : ¬ n < s.state.live.length := by
  rw [h.live]
  exact Nat.not_lt_zero n

/-- **The first allocation** does not count the block. -/
lemma allocStats_used (h : s.Unused) : (s.state.pool.allocStats s.stats).used = 0 := by
  rw [MemPool.allocStats, if_neg (not_not.mpr h.firstFree)]
  simp only [if_pos h.firstChunk, if_pos h.room]
  exact h.used

/-- **The first allocation** takes the first block of the first chunk. -/
lemma alloc_spec (h : s.Unused) {parent rest : List ℕ} {alignment size ret : ℕ} {p : MemPool} {m : Mem}
    (halloc : s.state.pool.alloc s.state.mem parent alignment size = some (ret, p, m, rest)) :
    p.growOffset = s.state.pool.growOffset := by
  rw [MemPool.alloc] at halloc
  obtain ⟨-, halloc⟩ := Option.ite_none_right_eq_some.mp halloc
  rw [if_neg (not_not.mpr h.firstFree), if_pos h.firstChunk] at halloc
  cases parent with
  | nil => cases halloc
  | cons chunk parent =>
      simp only [Option.bind_eq_bind, Option.bind_some, if_pos h.room, Option.some.injEq,
        Prod.mk.injEq] at halloc
      obtain ⟨-, rfl, -⟩ := halloc
      rfl

/-- Without an allocation nothing changes. -/
lemma step (h : s.Unused) (hs : Step s s') (hno : NoAlloc s s') : s'.Unused := by
  cases hs with
  | alloc _ hlive => exact absurd hno (Nat.not_le.mpr hlive)
  | free _ hlive => exact absurd hlive h.not_free
  | write hs hlive =>
      cases hs with
      | alloc _ _ _ => exact absurd hlive (Nat.succ_ne_self _)
      | free ha =>
          rw [h.live] at ha
          cases ha
      | write _ => exact ⟨h.live, h.used, h.wrapped, h.firstFree, h.firstChunk, h.grows, h.room⟩

/-- An allocation makes the counters wrong. -/
lemma noAlloc (h : s.Unused) (hs : Step s s') (hacc : s'.Accounted) : NoAlloc s s' := by
  cases hs with
  | alloc hs hlive =>
      have hused := hacc.1
      rw [h.allocStats_used] at hused
      cases hs with
      | alloc _ _ halloc =>
          rcases Nat.mul_eq_zero.mp hused.symm with hnone | hgrow
          · cases hnone
          · exact absurd ((h.alloc_spec halloc).symm.trans hgrow) h.grows
      | free ha =>
          rw [h.live] at ha
          cases ha
      | write _ => exact absurd hlive (lt_irrefl _)
  | free _ hlive => exact absurd hlive h.not_free
  | write _ hlive => exact hlive.le

end Unused

end PoolCount

/-- **A pool is accounted for** as long as nothing has been allocated. -/
theorem pool_accounted_iff {alignment blockSize pageSize : ℕ} {chunks : List ℕ} {l : List PoolCount}
    (h : Trace (PoolCount.Init alignment blockSize pageSize chunks) PoolCount.Step l) :
    (∀ s ∈ l, s.Accounted) ↔ EveryStep PoolCount.NoAlloc l :=
  h.always_iff (fun _ => PoolCount.Unused.init) (fun _ => PoolCount.Unused.accounted)
    (fun _ _ hs => hs.step) fun _ _ hs => hs.noAlloc

/-! ### Pages -/

/-- A page allocator, and whether its counter `m_used` has gone below zero. -/
structure PageCount where
  state : PageState
  wrapped : Bool

namespace PageState

/-- The total size of the live pages. -/
def total (s : PageState) : ℕ := (s.pages.map Prod.snd).sum

lemma total_eq (s : PageState) :
    s.total = s.smalls.length * s.alloc.ssize + s.larges.length * s.alloc.lsize := by
  have hsizes : ∀ (l : List ℕ) (n : ℕ), ((l.map fun a => (a, n)).map Prod.snd).sum = l.length * n :=
    fun l n => by
      rw [List.map_map, Function.comp_def, List.map_const', List.sum_replicate, smul_eq_mul]
  rw [total, pages, List.map_append, List.sum_append, hsizes, hsizes]

lemma length_pages (s : PageState) : s.pages.length = s.smalls.length + s.larges.length := by
  rw [pages, List.length_append, List.length_map, List.length_map]

end PageState

namespace PageInv

variable {s s' : PageState} {S L : List ℕ}

/-- The live pages are in the region. -/
lemma total_lt (h : PageInv s S L) : s.total < 2 ^ 32 := by
  have hsafe := h.safe
  have hle := sum_le_of_disjoint hsafe.apart hsafe.inside
  rw [h.fits.reserved] at hle
  exact lt_of_le_of_lt hle h.fits.region

/-- **What a step does** to the counter: a page that comes from the free list is not counted. -/
theorem counts (h : PageInv s S L) (hs : PageStep s s') :
    (s'.total = s.total + s.alloc.ssize ∧ s'.smalls.length = s.smalls.length + 1 ∧ s'.larges = s.larges
      ∧ s'.alloc.used = if s.alloc.snextfree ≠ 0 then s.alloc.used
          else (s.alloc.used + s.alloc.ssize) % 2 ^ 64)
    ∨ (s'.total = s.total + s.alloc.lsize ∧ s'.larges.length = s.larges.length + 1 ∧ s'.smalls = s.smalls
      ∧ s'.alloc.used = if s.alloc.lnextfree ≠ 0 then s.alloc.used
          else (s.alloc.used + s.alloc.lsize) % 2 ^ 64)
    ∨ (∃ n, s.total = s'.total + n ∧ s.pages.length = s'.pages.length + 1
      ∧ s'.smalls.length ≤ s.smalls.length ∧ s'.larges.length ≤ s.larges.length
      ∧ s'.alloc.used = (s.alloc.used + (2 ^ 64 - n)) % 2 ^ 64)
    ∨ (s'.total = s.total ∧ s'.smalls = s.smalls ∧ s'.larges = s.larges
      ∧ s'.alloc.used = s.alloc.used) := by
  simp only [PageState.total_eq, PageState.length_pages]
  cases hs with
  | small halloc =>
      refine Or.inl ?_
      rcases PageAlloc.alloc_cases halloc with ⟨-, hn, -, rfl⟩ | ⟨-, hn, -, -, rfl⟩ | ⟨-, hne, -⟩
          | ⟨-, hne, -⟩
      · rw [if_pos hn]
        exact ⟨by rw [List.length_cons]; ring, rfl, rfl, rfl⟩
      · rw [if_neg (not_not.mpr hn)]
        exact ⟨by rw [List.length_cons]; ring, rfl, rfl, rfl⟩
      · exact absurd rfl hne
      · exact absurd rfl hne
  | large hne halloc =>
      refine Or.inr (Or.inl ?_)
      rcases PageAlloc.alloc_cases halloc with ⟨heq, -⟩ | ⟨heq, -⟩ | ⟨-, -, hn, -, rfl⟩
          | ⟨-, -, hn, -, -, rfl⟩
      · exact absurd heq hne
      · exact absurd heq hne
      · rw [if_pos hn]
        exact ⟨by rw [List.length_cons]; ring, rfl, rfl, rfl⟩
      · rw [if_neg (not_not.mpr hn)]
        exact ⟨by rw [List.length_cons]; ring, rfl, rfl, rfl⟩
  | freeSmall ha hfree =>
      refine Or.inr (Or.inr (Or.inl ⟨s.alloc.ssize, ?_⟩))
      rw [(h.small _ (List.mem_append_left S ha)).free h.fits] at hfree
      obtain ⟨rfl, rfl⟩ := Prod.mk.inj (Option.some.inj hfree)
      have hlen := List.length_erase_add_one ha
      refine ⟨?_, by dsimp only; omega, by dsimp only; omega, le_rfl, rfl⟩
      rw [← hlen]
      ring
  | freeLarge ha hfree =>
      refine Or.inr (Or.inr (Or.inl ⟨s.alloc.lsize, ?_⟩))
      rw [(h.large _ (List.mem_append_left L ha)).free h.fits] at hfree
      obtain ⟨rfl, rfl⟩ := Prod.mk.inj (Option.some.inj hfree)
      have hlen := List.length_erase_add_one ha
      refine ⟨?_, by dsimp only; omega, le_rfl, by dsimp only; omega, rfl⟩
      rw [← hlen]
      ring
  | write _ => exact Or.inr (Or.inr (Or.inr ⟨rfl, rfl, rfl, rfl⟩))

end PageInv

namespace PageCount

/-- The beginning of a history. -/
def Init (data sregion ssmall slarge : ℕ) (s : PageCount) : Prop :=
  ∃ m, s = ⟨⟨PageAlloc.init data sregion ssmall slarge, m, [], []⟩, false⟩

/-- A step, by what it does to the live pages. -/
inductive Step : PageCount → PageCount → Prop
  | alloc {s : PageCount} {t : PageState} (h : PageStep s.state t)
      (hlive : s.state.pages.length ≤ t.pages.length) : Step s ⟨t, s.wrapped⟩
  | free {s : PageCount} {t : PageState} {page : ℕ × ℕ} (h : PageStep s.state t)
      (hlive : s.state.pages.Perm (page :: t.pages)) :
      Step s ⟨t, s.wrapped || decide (s.state.alloc.used < page.2)⟩

/-- What is used is the total size of the live pages, and the counter has not wrapped. -/
def Accounted (s : PageCount) : Prop := s.state.alloc.used = s.state.total ∧ s.wrapped = false

/-- No page is taken from a free list. -/
def NoReuse (s s' : PageCount) : Prop :=
  (s.state.smalls.length < s'.state.smalls.length → s.state.alloc.snextfree = 0)
  ∧ (s.state.larges.length < s'.state.larges.length → s.state.alloc.lnextfree = 0)

variable {s s' : PageCount}

/-- **A step keeps the counter right** if no page is taken from a free list, and only then. -/
theorem Accounted.step_iff {S L : List ℕ} (hinv : PageInv s.state S L) (h : s.Accounted)
    (hs : Step s s') : s'.Accounted ↔ NoReuse s s' := by
  obtain ⟨hused, hwrapped⟩ := h
  have hlt := hinv.total_lt
  have hheader := hinv.fits.header
  have hle := hinv.fits.le
  have hpages := PageState.length_pages s.state
  cases hs with
  | @alloc t hs hlive =>
      obtain ⟨S', L', hinv'⟩ := hinv.step hs
      have hlt' := hinv'.total_lt
      have hpages' := PageState.length_pages t
      simp only [Accounted, NoReuse, hwrapped, and_true]
      rcases hinv.counts hs with ⟨htotal, hsmall, hlarge, husedt⟩ | ⟨htotal, hlarge, hsmall, husedt⟩
          | ⟨n, -, hlen, -⟩ | ⟨htotal, hsmall, hlarge, husedt⟩
      · rw [husedt, hlarge, hsmall, htotal, hused]
        by_cases hn : s.state.alloc.snextfree = 0
        · rw [if_neg (not_not.mpr hn)]
          exact iff_of_true (Nat.mod_eq_of_lt (by omega)) ⟨fun _ => hn, fun hlt => absurd hlt (lt_irrefl _)⟩
        · rw [if_pos hn]
          exact iff_of_false (by omega) fun h => hn (h.1 (Nat.lt_succ_self _))
      · rw [husedt, hlarge, hsmall, htotal, hused]
        by_cases hn : s.state.alloc.lnextfree = 0
        · rw [if_neg (not_not.mpr hn)]
          exact iff_of_true (Nat.mod_eq_of_lt (by omega)) ⟨fun hlt => absurd hlt (lt_irrefl _), fun _ => hn⟩
        · rw [if_pos hn]
          exact iff_of_false (by omega) fun h => hn (h.2 (Nat.lt_succ_self _))
      · omega
      · rw [husedt, hlarge, hsmall, htotal]
        exact iff_of_true hused ⟨fun hlt => absurd hlt (lt_irrefl _), fun hlt => absurd hlt (lt_irrefl _)⟩
  | @free t page hs hperm =>
      have hpages' := PageState.length_pages t
      have hlen := hperm.length_eq
      have hsum : s.state.total = page.2 + t.total := (hperm.map Prod.snd).sum_eq
      rw [List.length_cons] at hlen
      rcases hinv.counts hs with ⟨-, hsmall, hlarge, -⟩ | ⟨-, hlarge, hsmall, -⟩
          | ⟨n, htotal, -, hsmall, hlarge, husedt⟩ | ⟨-, hsmall, hlarge, -⟩
      · rw [hlarge] at hpages'
        omega
      · rw [hsmall] at hpages'
        omega
      · refine iff_of_true ⟨?_, ?_⟩ ⟨fun hlt => absurd hlt (Nat.not_lt.mpr hsmall),
          fun hlt => absurd hlt (Nat.not_lt.mpr hlarge)⟩
        · show t.alloc.used = t.total
          rw [husedt]
          omega
        · show (s.wrapped || decide (s.state.alloc.used < page.2)) = false
          rw [hwrapped, Bool.false_or, decide_eq_false (show ¬ s.state.alloc.used < page.2 by omega)]
      · rw [hsmall, hlarge] at hpages'
        omega

lemma Step.pageStep (hs : Step s s') : PageStep s.state s'.state := by
  cases hs with
  | alloc h _ => exact h
  | free h _ => exact h

end PageCount

/-- **A page allocator is accounted for** as long as no page is taken from a free list. -/
theorem page_accounted_iff {data sregion ssmall slarge : ℕ} (hr : RegionFits data sregion ssmall slarge)
    (hpos : 0 < data) (hs : 8 ≤ ssmall) (hl : ssmall ≤ slarge) {l : List PageCount}
    (h : Trace (PageCount.Init data sregion ssmall slarge) PageCount.Step l) :
    (∀ s ∈ l, s.Accounted) ↔ EveryStep PageCount.NoReuse l := by
  refine h.always_iff (I := fun s => (∃ S L, PageInv s.state S L) ∧ s.Accounted) ?_ (fun s hs => hs.2) ?_ ?_
  · rintro s ⟨m, rfl⟩
    exact ⟨((PageRun.init m).inv hr hpos hs hl).1, rfl, rfl⟩
  · rintro s s' ⟨⟨S, L, hinv⟩, hacc⟩ hstep hno
    exact ⟨hinv.step hstep.pageStep, (hacc.step_iff hinv hstep).mpr hno⟩
  · rintro s s' ⟨⟨S, L, hinv⟩, hacc⟩ hstep hacc'
    exact (hacc.step_iff hinv hstep).mp hacc'

/-! ### Stacks -/

namespace StackAlloc

/-- The counters in `fdb_stack_alloc_alloc`. -/
def allocStats (c : StackAlloc) (m : Mem) (alignment size : ℕ) (st : MemStats) : MemStats :=
  let slack := c.slack alignment
  let (nextOffset, slack, st) :=
    if c.pageSize ≤ add32 (add32 c.nextOffset slack) size ∨ c.nextPage = 0 then
      -- the pages of data are counted in `m_used`
      (0, 0, (st.allocate c.pageSize).use 1)
    else (c.nextOffset, slack, st)
  let st :=
    if c.lastFrame = 0 ∨ Frame.nextFree m c.lastFrame = c.maxFrameOffset then st.allocate c.pageSize
    else st
  -- and so are the bytes
  let st := st.use (add32 slack size)
  if add32 nextOffset (add32 slack size) = c.pageSize then st.allocate c.pageSize else st

/-- The counters in `fdb_stack_alloc_pop`. -/
def popStats (c : StackAlloc) (m : Mem) (st : MemStats) : MemStats :=
  match c.dropFrame m with
  | none => st
  | some (c', m, freed) =>
      let st := if freed = [] then st else st.deallocate c.pageSize
      let popAddr := loadWord m (Frame.data c'.lastFrame (Frame.nextFree m c'.lastFrame) - 8)
      let (page, offset) := c.pageAddrDecode popAddr
      let st :=
        if c.nextPage ≠ page then (st.deallocate c.pageSize).unuse 1
        else st.unuse (sub32 c.nextOffset offset)
      st.unuse c.pageSize

/-- `fdb_stack_alloc_stats`: the number of bytes that it reports as used. -/
def reported (c : StackAlloc) (st : MemStats) : ℕ := (st.used * c.pageSize + c.nextOffset) % 2 ^ 64

section Pieces

variable {c c' : StackAlloc} {m m' : Mem} {parent rest : List ℕ} {alignment size slack addr : ℕ}

/-- The data page of an allocation is the current one or a new one. -/
lemma room_cases (h : c.room parent alignment size = some (c', slack, rest)) :
    ((c.pageSize ≤ add32 (add32 c.nextOffset (c.slack alignment)) size ∨ c.nextPage = 0)
      ∧ ∃ page, parent = page :: rest ∧ c' = { c with nextPage := page, nextOffset := 0 } ∧ slack = 0)
    ∨ (¬ (c.pageSize ≤ add32 (add32 c.nextOffset (c.slack alignment)) size ∨ c.nextPage = 0)
      ∧ parent = rest ∧ c' = c ∧ slack = c.slack alignment) := by
  rw [room] at h
  dsimp only at h
  split_ifs at h with hfull
  · cases parent with
    | nil => cases h
    | cons page parent =>
        rw [newPage] at h
        split_ifs at h
        · obtain ⟨rfl, rfl, rfl⟩ := h
          exact Or.inl ⟨hfull, page, rfl, rfl, rfl⟩
        · cases h
  · obtain ⟨rfl, rfl, rfl⟩ := h
    exact Or.inr ⟨hfull, rfl, rfl, rfl⟩

/-- The frame of a record is the last one or a new one. -/
lemma frame_cases (h : c.frame m parent = some (c', m', rest)) :
    ((c.lastFrame = 0 ∨ Frame.nextFree m c.lastFrame = c.maxFrameOffset)
      ∧ ∃ f, parent = f :: rest ∧ c' = { c with lastFrame := f })
    ∨ (¬ (c.lastFrame = 0 ∨ Frame.nextFree m c.lastFrame = c.maxFrameOffset)
      ∧ parent = rest ∧ c' = c) := by
  unfold frame at h
  by_cases hfull : c.lastFrame = 0 ∨ Frame.nextFree m c.lastFrame = c.maxFrameOffset
  · rw [if_pos hfull] at h
    cases parent with
    | nil => cases h
    | cons f parent =>
        obtain ⟨rfl, -, rfl⟩ := h
        exact Or.inl ⟨hfull, f, rfl, rfl⟩
  · rw [if_neg hfull] at h
    obtain ⟨rfl, -, rfl⟩ := h
    exact Or.inr ⟨hfull, rfl, rfl⟩

/-- A page that is not full is kept. -/
lemma turn_of_ne (h : c.turn parent = some (c', rest)) (hne : c.nextOffset ≠ c.pageSize) :
    parent = rest ∧ c = c' := by
  rw [turn, if_neg hne] at h
  obtain ⟨rfl, rfl⟩ := h
  exact ⟨rfl, rfl⟩

/-- An allocation, piece by piece. -/
lemma alloc_pieces (h : c.alloc m parent alignment size = some (addr, c', m', rest)) :
    ∃ c₁ slack parent₁ c₂ m₂ parent₂, c.room parent alignment size = some (c₁, slack, parent₁)
      ∧ c₁.frame m parent₁ = some (c₂, m₂, parent₂)
      ∧ { c₂ with nextOffset := add32 c₂.nextOffset (add32 slack size) }.turn parent₂ = some (c', rest) := by
  rw [alloc] at h
  obtain ⟨-, h⟩ := Option.ite_none_right_eq_some.mp h
  obtain ⟨⟨c₁, slack, parent₁⟩, hroom, h⟩ := Option.bind_eq_some_iff.mp h
  obtain ⟨-, h⟩ := Option.ite_none_right_eq_some.mp h
  obtain ⟨⟨c₂, m₂, parent₂⟩, hframe, h⟩ := Option.bind_eq_some_iff.mp h
  obtain ⟨-, h⟩ := Option.ite_none_right_eq_some.mp h
  obtain ⟨⟨c₃, parent₃⟩, hturn, h⟩ := Option.bind_eq_some_iff.mp h
  obtain ⟨-, h⟩ := Option.ite_none_right_eq_some.mp h
  obtain ⟨-, rfl, -, rfl⟩ := Prod.mk.injEq .. ▸ Option.some.inj h
  exact ⟨c₁, slack, parent₁, c₂, m₂, parent₂, hroom, hframe, hturn⟩

end Pieces

end StackAlloc

/-- A stack allocator with its counters. -/
structure StackCount where
  state : StackState
  stats : MemStats

namespace StackCount

/-- The beginning of a history. -/
def Init (pageSize : ℕ) (s : StackCount) : Prop :=
  ∃ m, s = ⟨⟨StackAlloc.init pageSize, m, [], []⟩, MemStats.zero⟩

/-- A step, by what it does to the live allocations. -/
inductive Step : StackCount → StackCount → Prop
  | alloc {s : StackCount} {t : StackState} {a : Allocation × Mem} (h : StackStep s.state t)
      (hlive : t.live = a :: s.state.live) :
      Step s ⟨t, s.state.alloc.allocStats s.state.mem a.1.alignment a.1.size s.stats⟩
  | pop {s : StackCount} {t : StackState} {a : Allocation × Mem} (h : StackStep s.state t)
      (hlive : s.state.live = a :: t.live) : Step s ⟨t, s.state.alloc.popStats s.state.mem s.stats⟩
  | write {s : StackCount} {t : StackState} (h : StackStep s.state t)
      (hlive : t.live.map Prod.fst = s.state.live.map Prod.fst) : Step s ⟨t, s.stats⟩

/-- What is reported as used lies between the bytes of the live allocations and what has been
allocated, and no counter has wrapped. -/
def Accounted (s : StackCount) : Prop :=
  (s.state.live.map fun a => a.1.size).sum ≤ s.state.alloc.reported s.stats
    ∧ s.state.alloc.reported s.stats ≤ s.stats.allocated ∧ s.stats.wrapped = false

/-- The step is not a pop, and not an allocation of a byte. -/
def NoBytes (s s' : StackCount) : Prop :=
  s.state.live.length ≤ s'.state.live.length
    ∧ ∀ a, s'.state.live = a :: s.state.live → a.1.size = 0

/-- The counters, when no byte has been handed out: each page that is held is counted, and so is the
first page of data. -/
structure Counted (k : ℕ) (held : List ℕ) (nextPage : ℕ) (st : MemStats) : Prop where
  allocated : st.allocated = held.length * 2 ^ k
  used_le : st.used ≤ 1
  used_held : st.used ≤ held.length
  unpaged : nextPage = 0 → st.used = 0
  wrapped : st.wrapped = false

namespace Counted

variable {k nextPage page : ℕ} {held rest : List ℕ} {st : MemStats}

/-- A new page. -/
lemma newFrame (h : Counted k held nextPage st) (hreg : Regions (held ++ page :: rest) (2 ^ k) (2 ^ k)) :
    Counted k (held ++ [page]) nextPage (st.allocate (2 ^ k)) := by
  have htotal := (hreg.fresh (Nat.two_pow_pos k)).2.total_lt
  have hlen : (held ++ [page]).length * 2 ^ k = held.length * 2 ^ k + 2 ^ k := by
    rw [List.length_append, List.length_singleton, Nat.add_mul, Nat.one_mul]
  refine ⟨?_, h.used_le, h.used_held.trans (by simp), h.unpaged, h.wrapped⟩
  rw [hlen] at htotal ⊢
  rw [MemStats.allocate, h.allocated]
  exact Nat.mod_eq_of_lt htotal

/-- The first page of data. -/
lemma newPage (h : Counted k held 0 st) (hreg : Regions (held ++ page :: rest) (2 ^ k) (2 ^ k)) :
    Counted k (held ++ [page]) page ((st.allocate (2 ^ k)).use 1) := by
  obtain ⟨hallocated, -, -, hunpaged, hwrapped⟩ := h.newFrame hreg
  have hone : ((st.allocate (2 ^ k)).use 1).used = 1 := by
    rw [MemStats.use, hunpaged rfl]
    rfl
  have hpos := hreg.pos page (List.mem_append_right _ List.mem_cons_self)
  have hlen : 1 ≤ (held ++ [page]).length := by simp
  exact ⟨hallocated, hone.le, hone.le.trans hlen, fun hzero => absurd hzero hpos.ne', hwrapped⟩

/-- No byte. -/
lemma use_zero (h : Counted k held nextPage st) : st.use 0 = st := by
  have hused : add64 st.used 0 = st.used := Nat.mod_eq_of_lt (lt_of_le_of_lt h.used_le (by decide))
  rw [MemStats.use, hused]

end Counted

/-- The allocator has handed out no byte. -/
structure Idle (k : ℕ) (s : StackCount) : Prop where
  inv : ∃ frames, StackInv k s.state frames
  empty : ∀ a ∈ s.state.live.map Prod.fst, a.size = 0
  offset : s.state.alloc.nextOffset = 0
  counted : Counted k s.state.held s.state.alloc.nextPage s.stats

namespace Idle

variable {k : ℕ} {s s' : StackCount}

/-- A new stack allocator. -/
lemma init (hl : 5 ≤ k) (hu : k ≤ 30) (h : Init (2 ^ k) s) : s.Idle k := by
  obtain ⟨m, rfl⟩ := h
  exact ⟨⟨[], StackInv.init hl hu m⟩, by simp, rfl, by simp [MemStats.zero], Nat.zero_le _, Nat.zero_le _,
    fun _ => rfl, rfl⟩

lemma accounted (h : s.Idle k) : s.Accounted := by
  obtain ⟨frames, hinv⟩ := h.inv
  have hsum : (s.state.live.map fun a => a.1.size).sum = 0 := by
    refine List.sum_eq_zero fun n hn => ?_
    obtain ⟨a, ha, rfl⟩ := List.mem_map.mp hn
    exact h.empty a.1 (List.mem_map_of_mem ha)
  have hle : s.stats.used * 2 ^ k ≤ s.state.held.length * 2 ^ k := Nat.mul_le_mul_right _ h.counted.used_held
  have hreported : s.state.alloc.reported s.stats = s.stats.used * 2 ^ k := by
    rw [StackAlloc.reported, hinv.configured.pageSize, h.offset, Nat.add_zero]
    exact Nat.mod_eq_of_lt (lt_of_le_of_lt hle hinv.regions.total_lt)
  refine ⟨hsum ▸ Nat.zero_le _, ?_, h.counted.wrapped⟩
  rw [hreported, h.counted.allocated]
  exact hle

/-- **An allocation without a byte.** -/
lemma alloc (h : s.Idle k) {alignment addr : ℕ} {c : StackAlloc} {m : Mem} {taken : List ℕ}
    (halign : alignment ≤ 2 ^ k) (hpow : ∃ j, alignment = 2 ^ j)
    (htaken : Regions (s.state.held ++ taken) (2 ^ k) (2 ^ k))
    (halloc : s.state.alloc.alloc s.state.mem taken alignment 0 = some (addr, c, m, [])) :
    c.nextOffset = 0 ∧ Counted k (s.state.held ++ taken) c.nextPage
      (s.state.alloc.allocStats s.state.mem alignment 0 s.stats) := by
  obtain ⟨frames, hinv⟩ := h.inv
  have hsize := hinv.configured.pageSize
  have hnotfull : ¬ 0 = s.state.alloc.pageSize := by
    rw [hsize]
    exact (Nat.two_pow_pos k).ne
  -- there is no slack, and the current page has room
  have hslack : s.state.alloc.slack alignment = 0 := by
    refine hinv.configured.slack_eq_zero hpow halign ?_
    rw [h.offset, Nat.add_zero]
    exact hinv.placed.current.elim (hinv.regions.aligned _) fun hnone => hnone.1 ▸ dvd_zero _
  have hoff : add32 s.state.alloc.nextOffset (add32 (s.state.alloc.slack alignment) 0) = 0 := by
    rw [hslack, h.offset]
    rfl
  have hfresh : (s.state.alloc.pageSize ≤ add32 (add32 s.state.alloc.nextOffset
      (s.state.alloc.slack alignment)) 0 ∨ s.state.alloc.nextPage = 0) → s.state.alloc.nextPage = 0 :=
    fun hor => hor.resolve_left fun hle => by
      rw [hslack, h.offset] at hle
      exact hnotfull (Nat.le_zero.mp hle).symm
  obtain ⟨c₁, slack, parent₁, c₂, m₂, parent₂, hroom, hframe, hturn⟩ := StackAlloc.alloc_pieces halloc
  have hnone : add32 0 (add32 0 0) = 0 := rfl
  rw [StackAlloc.allocStats]
  rcases StackAlloc.room_cases hroom with ⟨hfull, page, rfl, rfl, rfl⟩ | ⟨hfull, rfl, rfl, rfl⟩
  · have hcounted := h.counted
    rw [hfresh hfull] at hcounted
    have hpage := hcounted.newPage htaken
    rcases StackAlloc.frame_cases hframe with ⟨hframes, f, rfl, rfl⟩ | ⟨hframes, rfl, rfl⟩
    · obtain ⟨rfl, rfl⟩ := StackAlloc.turn_of_ne hturn hnotfull
      have hreg : Regions (s.state.held ++ [page] ++ f :: []) (2 ^ k) (2 ^ k) := by
        rw [List.append_assoc]
        exact htaken
      have hframe := hpage.newFrame hreg
      rw [List.append_assoc] at hframe
      simp only [if_pos hfull, if_pos (show _ ∨ _ from hframes)]
      rw [hnone, if_neg hnotfull, hsize]
      exact ⟨rfl, hframe.use_zero.symm ▸ hframe⟩
    · obtain ⟨rfl, rfl⟩ := StackAlloc.turn_of_ne hturn hnotfull
      simp only [if_pos hfull, if_neg (show ¬ (_ ∨ _) from hframes)]
      rw [hnone, if_neg hnotfull, hsize]
      exact ⟨rfl, hpage.use_zero.symm ▸ hpage⟩
  · rcases StackAlloc.frame_cases hframe with ⟨hframes, f, rfl, rfl⟩ | ⟨hframes, rfl, rfl⟩
    · obtain ⟨rfl, rfl⟩ := StackAlloc.turn_of_ne hturn (hoff.trans_ne hnotfull)
      have hframe := h.counted.newFrame htaken
      simp only [if_neg hfull, if_pos hframes]
      rw [hoff, if_neg hnotfull, hslack, hsize]
      exact ⟨rfl, hframe.use_zero.symm ▸ hframe⟩
    · obtain ⟨rfl, rfl⟩ := StackAlloc.turn_of_ne hturn (hoff.trans_ne hnotfull)
      simp only [if_neg hfull, if_neg hframes, List.append_nil]
      rw [hoff, if_neg hnotfull, hslack]
      exact ⟨rfl, h.counted.use_zero.symm ▸ h.counted⟩

/-- **Without a byte and without a pop** the counters stay right. -/
lemma step (h : s.Idle k) (hs : Step s s') (hno : NoBytes s s') : s'.Idle k := by
  obtain ⟨frames, hinv⟩ := h.inv
  have hsize := hinv.configured.pageSize
  cases hs with
  | alloc hs hlive =>
      have hinv' := hinv.step hs
      have hzero := hno.2 _ hlive
      cases hs with
      | alloc _ halign hpow htaken halloc =>
          obtain rfl := List.head_eq_of_cons_eq hlive
          obtain rfl := hzero
          rw [hsize] at halign htaken
          obtain ⟨hoff, hcounted⟩ := h.alloc halign hpow htaken halloc
          exact ⟨hinv', List.forall_mem_cons.mpr ⟨rfl, h.empty⟩, hoff, hcounted⟩
      | pop hlive' _ =>
          have hlen := congrArg List.length (hlive.trans (congrArg _ hlive'))
          simp only [List.length_cons] at hlen
          omega
      | write hlive' _ _ =>
          have hlen := congrArg List.length (hlive.trans (congrArg _ hlive'))
          simp at hlen
      | other _ => exact absurd hlive (List.cons_ne_self _ _).symm
  | pop _ hlive =>
      have hlen := hno.1
      rw [hlive] at hlen
      exact absurd hlen (Nat.not_succ_le_self _)
  | write hs hlive =>
      have hinv' := hinv.step hs
      cases hs with
      | alloc _ _ _ _ _ => exact absurd (congrArg List.length hlive) (by simp)
      | pop hlive' _ =>
          rw [hlive'] at hlive
          exact absurd (congrArg List.length hlive) (by simp)
      | write _ _ _ => exact ⟨hinv', hlive ▸ h.empty, h.offset, h.counted⟩
      | other _ => exact ⟨hinv', h.empty, h.offset, h.counted⟩

end Idle

end StackCount

/-- **A stack allocator is accounted for** as long as no byte is allocated and nothing is popped. -/
theorem stack_accounted {k : ℕ} (hl : 5 ≤ k) (hu : k ≤ 30) {l : List StackCount}
    (h : Trace (StackCount.Init (2 ^ k)) StackCount.Step l) (hno : EveryStep StackCount.NoBytes l) :
    ∀ s ∈ l, s.Accounted := fun s hs =>
  (h.always (I := StackCount.Idle k) (fun _ => StackCount.Idle.init hl hu) (fun _ _ h => h.step) hno s
    hs).accounted

/-! ### The three of them -/

/-- **When memory is accounted for.** A pool is in each state of a history if and only if nothing is
allocated in it; a page allocator if and only if no page is taken from a free list; a stack
allocator if no byte is allocated and nothing is popped. -/
theorem statistics_accounted {alignment blockSize poolPage : ℕ} {chunks : List ℕ} {lp : List PoolCount}
    (hpool : Trace (PoolCount.Init alignment blockSize poolPage chunks) PoolCount.Step lp)
    {data sregion ssmall slarge : ℕ} (hregion : RegionFits data sregion ssmall slarge) (hpos : 0 < data)
    (hs : 8 ≤ ssmall) (hl : ssmall ≤ slarge) {lg : List PageCount}
    (hpage : Trace (PageCount.Init data sregion ssmall slarge) PageCount.Step lg)
    {pageSize : ℕ} (hsize : ∃ k, 5 ≤ k ∧ k ≤ 30 ∧ pageSize = 2 ^ k) {ls : List StackCount}
    (hstack : Trace (StackCount.Init pageSize) StackCount.Step ls) :
    ((∀ s ∈ lp, s.Accounted) ↔ EveryStep PoolCount.NoAlloc lp)
    ∧ ((∀ s ∈ lg, s.Accounted) ↔ EveryStep PageCount.NoReuse lg)
    ∧ (EveryStep StackCount.NoBytes ls → ∀ s ∈ ls, s.Accounted) := by
  obtain ⟨k, hk, hk', rfl⟩ := hsize
  exact ⟨pool_accounted_iff hpool, page_accounted_iff hregion hpos hs hl hpage,
    stack_accounted hk hk' hstack⟩

section Histories

/-- A new pool. -/
def newPool : PoolCount :=
  ⟨⟨⟨0, 0, 0, 64, 64, 4096, 0, 64, 64⟩, fun _ => 0, [], [0x10000], []⟩, MemStats.zero⟩

/-- A pool with one block. -/
def oneBlock : PoolCount :=
  ⟨⟨⟨0x10000, 0x10000, 0, 64, 64, 4096, 128, 64, 64⟩, storeWord (fun _ => 0) 0x10000 0, [0x10000], [],
    [0x10040]⟩, ⟨4096, 64, 0, false⟩⟩

/-- A page allocator over 1 GiB: its pages of either size, their ends, the first free small page and what is
used. -/
def pagesOf (smalls larges : List ℕ) (stop ltop snextfree used : ℕ) (m : Mem) : PageCount :=
  ⟨⟨⟨0x7f0000000010, stop, ltop, snextfree, 0, 2 ^ 30, 4096, 524288, 2 ^ 30, used⟩, m, smalls, larges⟩, false⟩

/-- A new page allocator. -/
def newPages : PageCount := pagesOf [] [] 0x7f0000001000 0x7f003ff80000 0 0 fun _ => 0

/-- After a small page. -/
def smallPage : PageCount := pagesOf [0x7f0000001000] [] 0x7f0000002000 0x7f003ff80000 0 4096 fun _ => 0

/-- After a small page and a large one. -/
def bothPages : PageCount :=
  pagesOf [0x7f0000001000] [0x7f003ff80000] 0x7f0000002000 0x7f003ff00000 0 528384 fun _ => 0

/-- After the release of the small page. -/
def largePage : PageCount :=
  pagesOf [] [0x7f003ff80000] 0x7f0000002000 0x7f003ff00000 0x7f0000001000 524288
    (storeWord (fun _ => 0) 0x7f0000001000 0)

/-- A stack allocator. -/
def newStack : StackCount := ⟨⟨⟨32, 2 ^ 64 - 32, 0, 0, 0, 8⟩, fun _ => 0, [], []⟩, MemStats.zero⟩

lemma trace_newPool : Trace (PoolCount.Init 64 64 4096 [0x10000]) PoolCount.Step [newPool] :=
  Trace.start ⟨_, _, by decide, rfl⟩

lemma trace_onePage : Trace (PageCount.Init 0x7f0000000010 (2 ^ 30) 4096 524288) PageCount.Step
    [largePage, bothPages, smallPage, newPages] := by
  have hinit : Trace (PageCount.Init 0x7f0000000010 (2 ^ 30) 4096 524288) PageCount.Step [newPages] :=
    Trace.start ⟨fun _ => 0, rfl⟩
  have hsmall : PageStep newPages.state smallPage.state := PageStep.small (by decide)
  have hlarge : PageStep smallPage.state bothPages.state := PageStep.large (by decide) (by decide)
  have hfree : PageStep bothPages.state largePage.state := by
    refine PageStep.freeSmall (a := 0x7f0000001000) List.mem_cons_self ?_
    rw [PageAlloc.free, if_pos (by decide), if_pos (by decide)]
    rfl
  exact ((hinit.next (.alloc hsmall (by decide))).next (.alloc hlarge (by decide))).next
    (.free hfree (List.Perm.refl _))

lemma trace_newStack : Trace (StackCount.Init 32) StackCount.Step [newStack] := by
  have hinit : StackAlloc.init 32 = ⟨32, 2 ^ 64 - 32, 0, 0, 0, 8⟩ := by decide
  exact Trace.start ⟨fun _ => 0, by rw [newStack, hinit]⟩

/-- A new pool; a page of each size, of which the small one is released; and a stack allocator with an allocation
of size zero. -/
theorem statistics_accounted_one : newPool.Accounted ∧ bothPages.Accounted ∧ largePage.Accounted
    ∧ StackCount.Accounted ⟨oneAllocation 0x1000 0 0 [0x1000, 0x2000], ⟨64, 0, 1, false⟩⟩ := by
  have hfits : RegionFits 0x7f0000000010 (2 ^ 30) 4096 524288 := ⟨by decide, by decide, by decide⟩
  have hstep : StackStep newStack.state (oneAllocation 0x1000 0 0 [0x1000, 0x2000]) :=
    StackStep.alloc (show 0 ≤ 32 by decide) (show 16 ≤ 32 by decide) ⟨4, rfl⟩
      (regions_pages.of_sublist (by decide)) rfl
  have hstack := trace_newStack.next (StackCount.Step.alloc hstep rfl)
  obtain ⟨hpool, hpage, hidle⟩ := statistics_accounted trace_newPool hfits (by decide) (by decide)
    (by decide) trace_onePage ⟨5, by decide, by decide, rfl⟩ hstack
  have hreuse : EveryStep PageCount.NoReuse [largePage, bothPages, smallPage, newPages] := by
    refine everyStep_cons_cons.mpr ⟨⟨fun _ => rfl, fun _ => rfl⟩, everyStep_cons_cons.mpr
      ⟨⟨fun _ => rfl, fun _ => rfl⟩, everyStep_cons_cons.mpr ⟨⟨fun _ => rfl, fun _ => rfl⟩, everyStep_singleton _ _⟩⟩⟩
  refine ⟨hpool.mpr (everyStep_singleton _ _) _ List.mem_cons_self, hpage.mpr hreuse _ (by simp),
    hpage.mpr hreuse _ List.mem_cons_self, hidle ?_ _ List.mem_cons_self⟩
  · refine everyStep_cons_cons.mpr ⟨⟨Nat.zero_le _, fun a ha => ?_⟩, everyStep_singleton _ _⟩
    obtain rfl := List.head_eq_of_cons_eq ha
    rfl

/-- A block that is not counted; a page that is taken from the free list and is not counted; and eight
bytes that are counted as pages. -/
theorem statistics_not_accounted :
    (¬ ∀ l, Trace (PoolCount.Init 64 64 4096 [0x10000]) PoolCount.Step l → ∀ s ∈ l, s.Accounted)
    ∧ (¬ ∀ l, Trace (PageCount.Init 0x7f0000000010 (2 ^ 30) 4096 524288) PageCount.Step l →
        ∀ s ∈ l, s.Accounted)
    ∧ ¬ ∀ l, Trace (StackCount.Init 32) StackCount.Step l → ∀ s ∈ l, s.Accounted := by
  refine ⟨fun h => ?_, fun h => ?_, fun h => ?_⟩
  · have halloc : newPool.state.pool.alloc newPool.state.mem newPool.state.parent 64 64
        = some (0x10040, oneBlock.state.pool, oneBlock.state.mem, []) := rfl
    have hstep : PoolStep newPool.state oneBlock.state :=
      PoolStep.alloc (show 64 < 2 ^ 32 by decide) (show [0x10000] = [0x10000] ++ [] from rfl) halloc
    have hbad := h _ (trace_newPool.next (PoolCount.Step.alloc hstep Nat.zero_lt_one)) _ List.mem_cons_self
    exact absurd hbad.1 (by decide)
  · have hreuse : largePage.state.alloc.alloc largePage.state.mem largePage.state.alloc.ssize
        = some (0x7f0000001000, { largePage.state.alloc with snextfree := 0 }) := by
      have hlink : loadWord (storeWord (fun _ => 0) 0x7f0000001000 0) 0x7f0000001000 = 0 :=
        loadWord_storeWord (by norm_num)
      dsimp only [PageAlloc.alloc, largePage, pagesOf]
      rw [if_pos rfl, if_pos (by decide), if_pos (by decide), hlink]
    have hrun := trace_onePage.next (.alloc (.small hreuse) (by decide))
    have hbad := h _ hrun _ List.mem_cons_self
    exact absurd hbad.1 (by decide)
  · have hstep : StackStep newStack.state (oneAllocation 0x1000 8 8 [0x1000, 0x2000]) :=
      StackStep.alloc (show 8 ≤ 32 by decide) (show 16 ≤ 32 by decide) ⟨4, rfl⟩
        (regions_pages.of_sublist (by decide)) rfl
    have hbad := h _ (trace_newStack.next (StackCount.Step.alloc hstep rfl)) _ List.mem_cons_self
    exact absurd hbad.2.1 (by decide)

end Histories

end Furious
