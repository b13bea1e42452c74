import Furious.Memory.StackAllocator

/-!
Stack allocators are safe.

* `Grouped`: lists in which equal elements are next to each other;
* `Placed`: where the live allocations are in the data pages; `Placed.newPage`, `Placed.push`,
  `Placed.pop`: **what the operations do to them**;
* `StackInv`: the invariant, with the frames in memory; `StackInv.alloc`, `StackInv.pop`: **it is
  kept**;
* `stack_alloc_safe`: **every history is safe**, if the pages are large enough for a frame with a
  record and small enough for the arithmetic of 32 bits.
-/

namespace Furious

/-! ### Places in the data pages -/

/-- Equal elements are next to each other. -/
def Grouped : List ℕ → Prop
  | [] => True
  | a :: l => (a ∉ l ∨ l.head? = some a) ∧ Grouped l

/-- The page of an address. -/
def base (k addr : ℕ) : ℕ := addr / 2 ^ k * 2 ^ k

lemma base_add_mod (k addr : ℕ) : base k addr + addr % 2 ^ k = addr := Nat.div_add_mod' addr (2 ^ k)

lemma base_eq {k page addr : ℕ} (hdvd : 2 ^ k ∣ page) (hle : page ≤ addr) (hlt : addr < page + 2 ^ k) :
    base k addr = page := by
  obtain ⟨n, rfl⟩ := hdvd
  have hn : addr / 2 ^ k = n := by
    rw [Nat.div_eq_iff (Nat.two_pow_pos k)]
    rw [Nat.mul_comm] at hle hlt
    omega
  rw [base, hn, Nat.mul_comm]

/-- The live allocations `live`, the last one first, in the data pages; the next one comes at `offset`
in `page`. -/
structure Placed (k : ℕ) (held : List ℕ) (page offset : ℕ) (live : List Allocation) : Prop where
  current : page ∈ held ∨ page = 0 ∧ live = []
  offset_le : offset ≤ 2 ^ k
  page_mem : ∀ a ∈ live, base k a.addr ∈ held
  fits : ∀ a ∈ live, a.addr % 2 ^ k + a.size ≤ 2 ^ k
  aligned : ∀ a ∈ live, a.alignment ∣ a.addr
  below : live.Pairwise fun a b => base k a.addr = base k b.addr → b.addr + b.size ≤ a.addr
  top : ∀ a ∈ live, base k a.addr = page → a.addr + a.size ≤ page + offset
  grouped : Grouped (page :: live.map fun a => base k a.addr)

namespace Placed

variable {k page offset : ℕ} {held held' : List ℕ} {live : List Allocation} {a : Allocation}

/-- An allocation lies in its page. -/
lemma bytes_sub (h : Placed k held page offset live) (ha : a ∈ live) :
    bytes a.addr a.size ⊆ bytes (base k a.addr) (2 ^ k) := by
  have hfits := h.fits a ha
  have hbase := base_add_mod k a.addr
  exact bytes_subset (by omega) (by omega)

/-- **Live allocations are apart.** -/
theorem apart (h : Placed k held page offset live) (hreg : Regions held (2 ^ k) (2 ^ k)) :
    live.Pairwise fun a b => Disjoint (bytes a.addr a.size) (bytes b.addr b.size) := by
  refine h.below.imp_of_mem fun {a b} ha hb hbelow => ?_
  by_cases heq : base k a.addr = base k b.addr
  · exact (disjoint_bytes (hbelow heq)).symm
  · exact (hreg.disjoint (h.page_mem a ha) (h.page_mem b hb) heq).mono (h.bytes_sub ha) (h.bytes_sub hb)

/-- A page that is not held has no allocation. -/
lemma notMem_pages (h : Placed k held page offset live) {p : ℕ} (hp : p ∉ held) :
    p ∉ live.map fun a => base k a.addr := by
  intro hmem
  obtain ⟨a, ha, rfl⟩ := List.mem_map.mp hmem
  exact hp (h.page_mem a ha)

/-- More pages are held. -/
lemma mono (h : Placed k held page offset live) (hsub : held ⊆ held') : Placed k held' page offset live :=
  { h with
    current := h.current.imp_left (hsub ·)
    page_mem := fun a ha => hsub (h.page_mem a ha) }

/-- **A new data page.** -/
theorem newPage (h : Placed k held page offset live) {p : ℕ} (hp : p ∉ held) :
    Placed k (held ++ [p]) p 0 live :=
  { h with
    current := Or.inl (List.mem_append_right _ (List.mem_singleton_self p))
    offset_le := Nat.zero_le _
    page_mem := fun a ha => List.mem_append_left _ (h.page_mem a ha)
    top := fun a ha heq => absurd (h.page_mem a ha) (heq ▸ hp)
    grouped := ⟨Or.inl (h.notMem_pages hp), h.grouped.2⟩ }

/-- **An allocation** in the current page. -/
theorem push (h : Placed k held page offset live) (hpage : page ∈ held) (hdvd : 2 ^ k ∣ page) {o size al : ℕ}
    (ho : offset ≤ o) (hlt : o < 2 ^ k) (hsize : o + size ≤ 2 ^ k) (hal : al ∣ page + o) :
    Placed k held page (o + size) (⟨page + o, size, al⟩ :: live) := by
  have hbase : base k (page + o) = page := base_eq hdvd (by omega) (by omega)
  have hmod : (page + o) % 2 ^ k = o := by
    have := base_add_mod k (page + o)
    omega
  refine ⟨Or.inl hpage, hsize, ?_, ?_, ?_, ?_, ?_, ?_⟩
  · exact List.forall_mem_cons.mpr ⟨hbase.symm ▸ hpage, h.page_mem⟩
  · exact List.forall_mem_cons.mpr ⟨hmod.symm ▸ hsize, h.fits⟩
  · exact List.forall_mem_cons.mpr ⟨hal, h.aligned⟩
  · refine List.pairwise_cons.mpr ⟨fun b hb heq => ?_, h.below⟩
    exact (h.top b hb (heq.symm.trans hbase)).trans (Nat.add_le_add_left ho page)
  · refine List.forall_mem_cons.mpr ⟨fun _ => (Nat.add_assoc page o size).le, fun b hb heq => ?_⟩
    exact (h.top b hb heq).trans (by omega)
  · rw [List.map_cons]
    refine ⟨Or.inr (congrArg some hbase), ?_⟩
    rw [hbase]
    exact h.grouped

/-- **The last allocation is taken back**; its page becomes the current one, and another current page
is given back. -/
theorem pop (h : Placed k held page offset (a :: live)) :
    page ∈ held ∧ Placed k (held.diff (if page ≠ base k a.addr then [page] else [])) (base k a.addr)
      (a.addr % 2 ^ k) live := by
  have hpage : page ∈ held := h.current.resolve_right fun hn => List.cons_ne_nil a live hn.2
  -- a page that is given back has no allocation
  have hkeep : ∀ b ∈ a :: live, base k b.addr ∈ held.diff (if page ≠ base k a.addr then [page] else []) := by
    intro b hb
    refine List.mem_diff_of_mem (h.page_mem b hb) ?_
    by_cases heq : page = base k a.addr
    · rw [if_neg (not_not.mpr heq)]
      exact List.not_mem_nil
    · rw [if_pos heq, List.mem_singleton]
      rcases h.grouped.1 with hn | hhead
      · exact fun hbp => hn (hbp ▸ List.mem_map_of_mem hb)
      · exact absurd (Option.some.inj hhead).symm heq
  obtain ⟨hbelow, hrest⟩ := List.pairwise_cons.mp h.below
  refine ⟨hpage, Or.inl (hkeep a List.mem_cons_self), (Nat.mod_lt _ (Nat.two_pow_pos k)).le,
    fun b hb => hkeep b (List.mem_cons_of_mem a hb), fun b hb => h.fits b (List.mem_cons_of_mem a hb),
    fun b hb => h.aligned b (List.mem_cons_of_mem a hb), hrest, fun b hb heq => ?_, h.grouped.2⟩
  rw [base_add_mod]
  exact hbelow b hb heq.symm

end Placed

/-! ### The configuration -/

/-- An allocator with pages of `2 ^ k` bytes: a frame has room for a record, and three times the size
of a page is a number of 32 bits. -/
structure StackAlloc.Configured (c : StackAlloc) (k : ℕ) : Prop where
  pageSize : c.pageSize = 2 ^ k
  pageMask : c.pageMask = 2 ^ 64 - 1 - (2 ^ k - 1)
  maxFrameOffset : c.maxFrameOffset = 2 ^ k - 24
  lower : 5 ≤ k
  upper : k ≤ 30

/-- The high bits of an address. -/
lemma and_pageMask {k addr : ℕ} (hk : k ≤ 64) (haddr : addr < 2 ^ 64) :
    addr &&& (2 ^ 64 - 1 - (2 ^ k - 1)) = base k addr := by
  refine Nat.eq_of_testBit_eq fun i => ?_
  have hlow : 2 ^ k - 1 < 2 ^ 64 :=
    lt_of_lt_of_le (Nat.sub_one_lt (Nat.two_pow_pos k).ne') (Nat.pow_le_pow_right (by decide) hk)
  have hmask : 2 ^ 64 - 1 - (2 ^ k - 1) = 2 ^ 64 - (2 ^ k - 1 + 1) := by omega
  rw [base, Nat.testBit_and, Nat.testBit_mul_two_pow, Nat.testBit_div_two_pow, hmask,
    Nat.testBit_two_pow_sub_succ hlow, Nat.testBit_two_pow_sub_one]
  by_cases hik : k ≤ i
  · by_cases hi : i < 64
    · simp [hik, hi, Nat.not_lt.mpr hik]
    · have hbit : addr.testBit i = false :=
        Nat.testBit_lt_two_pow (lt_of_lt_of_le haddr (Nat.pow_le_pow_right (by decide) (by omega)))
      simp [hik, hi, hbit]
  · simp [hik, Nat.lt_of_not_le hik]

namespace StackAlloc.Configured

variable {c : StackAlloc} {k : ℕ}

/-- The size of a page. -/
lemma bounds (h : c.Configured k) : 32 ≤ 2 ^ k ∧ 2 ^ k ≤ 2 ^ 30 ∧ 8 ∣ 2 ^ k :=
  ⟨(Nat.pow_le_pow_right (by decide) h.lower : 2 ^ 5 ≤ 2 ^ k), Nat.pow_le_pow_right (by decide) h.upper,
    (pow_dvd_pow 2 (le_trans (by decide) h.lower) : 2 ^ 3 ∣ 2 ^ k)⟩

lemma offsetBits (h : c.Configured k) (addr : ℕ) : c.offsetBits addr = addr % 2 ^ k := by
  have hle : 2 ^ k ≤ 2 ^ 64 := Nat.pow_le_pow_right (by decide) (le_trans h.upper (by decide))
  have hpos := Nat.two_pow_pos k
  have hmask : 2 ^ 64 - 1 - c.pageMask = 2 ^ k - 1 := by
    rw [h.pageMask]
    omega
  rw [StackAlloc.offsetBits, hmask, Nat.and_two_pow_sub_one_eq_mod]

/-- **`fdb_stack_alloc_page_addr_decode`.** -/
theorem pageAddrDecode (h : c.Configured k) {addr : ℕ} (haddr : addr < 2 ^ 64) :
    c.pageAddrDecode addr = (base k addr, addr % 2 ^ k) := by
  have hlt : addr % 2 ^ k < 2 ^ 32 :=
    calc addr % 2 ^ k < 2 ^ k := Nat.mod_lt _ (Nat.two_pow_pos k)
      _ ≤ 2 ^ 32 := h.bounds.2.1.trans (by norm_num)
  rw [StackAlloc.pageAddrDecode, h.offsetBits, h.pageMask,
    and_pageMask (le_trans h.upper (by decide)) haddr, Nat.mod_eq_of_lt hlt]

/-- **`fdb_stack_alloc_init`.** -/
theorem init {k : ℕ} (hl : 5 ≤ k) (hu : k ≤ 30) : (StackAlloc.init (2 ^ k)).Configured k := by
  have h32 : 2 ^ 5 ≤ 2 ^ k := Nat.pow_le_pow_right (by decide) hl
  have h30 : 2 ^ k ≤ 2 ^ 30 := Nat.pow_le_pow_right (by decide) hu
  have hbit : pow2Bit (2 ^ k) = k + 1 := by
    have hfind : (List.range 32).find? (2 ^ k).testBit = some k := by
      rw [List.find?_range_eq_some]
      refine ⟨Nat.testBit_two_pow_self, List.mem_range.mpr (by omega), fun j hj => ?_⟩
      rw [Nat.testBit_two_pow, decide_eq_false (by omega), Bool.not_false]
    rw [pow2Bit, hfind]
    rfl
  refine ⟨rfl, ?_, ?_, hl, hu⟩
  · have hshift : sub32 (pow2Bit (2 ^ k)) 1 = k := by
      rw [hbit, sub32]
      omega
    rw [StackAlloc.init, hshift]
  · have hsub : 8 * ((2 ^ k + (2 ^ 64 - 24)) % 2 ^ 64) % 2 ^ 64 / 8 % 2 ^ 32 = 2 ^ k - 24 := by omega
    exact hsub

/-- The alignment that is used is not less than the smallest one, and a power of two as well. -/
lemma least_pow (h : c.Configured k) {alignment : ℕ} (hpow : ∃ j, alignment = 2 ^ j) (hal : alignment ≤ 2 ^ k) :
    ∃ i, (if alignment > minAlignment then alignment else minAlignment) = 2 ^ i ∧ alignment ∣ 2 ^ i
      ∧ 2 ^ i ≤ 2 ^ k := by
  obtain ⟨h32, -, -⟩ := h.bounds
  obtain ⟨j, rfl⟩ := hpow
  by_cases hj : 2 ^ j > minAlignment
  · exact ⟨j, if_pos hj, dvd_rfl, hal⟩
  · have hj4 : j ≤ 4 := (Nat.pow_le_pow_iff_right (by decide)).mp (Nat.not_lt.mp hj : 2 ^ j ≤ 2 ^ 4)
    exact ⟨4, if_neg hj, pow_dvd_pow 2 hj4, by omega⟩

/-- **The slack** leads to the next multiple of the alignment. -/
theorem slack_dvd (h : c.Configured k) (alignment : ℕ) (hpow : ∃ j, alignment = 2 ^ j)
    (hal : alignment ≤ 2 ^ k) : alignment ∣ c.nextPage + c.nextOffset + c.slack alignment
      ∧ c.slack alignment ≤ 2 ^ k := by
  obtain ⟨h32, h30, -⟩ := h.bounds
  obtain ⟨i, hi, hdvd, hle⟩ := h.least_pow hpow hal
  have hslack : c.slack alignment
      = if (c.nextPage + c.nextOffset) % 2 ^ i ≠ 0 then 2 ^ i - (c.nextPage + c.nextOffset) % 2 ^ i else 0 := by
    have hmod := Nat.mod_lt (c.nextPage + c.nextOffset) (Nat.two_pow_pos i)
    have hsub : sub32 (2 ^ i) ((c.nextPage + c.nextOffset) % 2 ^ i)
        = if (c.nextPage + c.nextOffset) % 2 ^ i ≠ 0 then 2 ^ i - (c.nextPage + c.nextOffset) % 2 ^ i
          else 2 ^ i := by
      rw [sub32]
      split_ifs <;> omega
    rw [StackAlloc.slack, hi, Nat.and_two_pow_sub_one_eq_mod, Nat.mod_eq_of_lt (a := _ % 2 ^ i) (by omega), hsub]
    split_ifs <;> rfl
  have hdm := Nat.div_add_mod (c.nextPage + c.nextOffset) (2 ^ i)
  rw [hslack]
  by_cases hzero : (c.nextPage + c.nextOffset) % 2 ^ i = 0
  · rw [if_neg (not_not.mpr hzero), Nat.add_zero]
    exact ⟨hdvd.trans (Nat.dvd_of_mod_eq_zero hzero), Nat.zero_le _⟩
  · have hmod := Nat.mod_lt (c.nextPage + c.nextOffset) (Nat.two_pow_pos i)
    rw [if_pos hzero]
    refine ⟨hdvd.trans ⟨(c.nextPage + c.nextOffset) / 2 ^ i + 1, ?_⟩, by omega⟩
    rw [Nat.mul_succ]
    omega

/-- There is no slack at the beginning of a page. -/
lemma slack_eq_zero (h : c.Configured k) {alignment : ℕ} (hpow : ∃ j, alignment = 2 ^ j)
    (hal : alignment ≤ 2 ^ k) (hstart : 2 ^ k ∣ c.nextPage + c.nextOffset) : c.slack alignment = 0 := by
  obtain ⟨i, hi, -, hle⟩ := h.least_pow hpow hal
  have hdvd : 2 ^ i ∣ c.nextPage + c.nextOffset :=
    (pow_dvd_pow 2 ((Nat.pow_le_pow_iff_right (by decide)).mp hle)).trans hstart
  rw [StackAlloc.slack, hi, Nat.and_two_pow_sub_one_eq_mod, Nat.mod_eq_zero_of_dvd hdvd]
  rfl

end StackAlloc.Configured

/-! ### The invariant -/

/-- The live allocations have their places in the data pages and their records in the frames, which
are other pages. -/
structure StackInv (k : ℕ) (s : StackState) (frames : List (ℕ × List ℕ)) : Prop where
  configured : s.alloc.Configured k
  regions : Regions s.held (2 ^ k) (2 ^ k)
  placed : Placed k s.held s.alloc.nextPage s.alloc.nextOffset (s.live.map Prod.fst)
  recorded : Recorded s.mem (2 ^ k) s.held s.alloc.lastFrame frames (s.live.map fun a => a.1.addr)
  apart : ∀ f ∈ frames.map Prod.fst, f ≠ s.alloc.nextPage ∧ ∀ a ∈ s.live, f ≠ base k a.1.addr
  kept : ∀ a ∈ s.live, ∀ b ∈ bytes a.1.addr a.1.size, s.mem b = a.2 b

namespace StackInv

variable {k : ℕ} {s : StackState} {frames : List (ℕ × List ℕ)} {parent : List ℕ} {alignment size : ℕ}

/-- The frames have no byte of a live allocation. -/
lemma notMem_frame (h : StackInv k s frames) {a : Allocation × Mem} (ha : a ∈ s.live) {b : ℕ}
    (hb : b ∈ bytes a.1.addr a.1.size) : ∀ e ∈ frames, b ∉ bytes e.1 (2 ^ k) := by
  intro e he
  have hmem : a.1 ∈ s.live.map Prod.fst := List.mem_map_of_mem ha
  have hne := (h.apart e.1 (List.mem_map_of_mem he)).2 a ha
  have hdisj := h.regions.disjoint (h.recorded.mem e he) (h.placed.page_mem a.1 hmem) hne
  exact Set.disjoint_right.mp hdisj (h.placed.bytes_sub hmem hb)

/-- The live allocations are apart. -/
lemma live_apart (h : StackInv k s frames) : s.live.Pairwise fun a b =>
    Disjoint (bytes a.1.addr a.1.size) (bytes b.1.addr b.1.size) := by
  have hpw := h.placed.apart h.regions
  rwa [List.pairwise_map] at hpw

/-- The frames are held, and so are the pages of the live allocations. -/
lemma holds_frame (h : StackInv k s frames) {e : ℕ × List ℕ} (he : e ∈ frames) {b : ℕ}
    (hb : b ∈ bytes e.1 (2 ^ k)) : s.Holds b :=
  ⟨e.1, h.recorded.mem e he, h.configured.pageSize.symm ▸ hb⟩

lemma holds_live (h : StackInv k s frames) {a : Allocation × Mem} (ha : a ∈ s.live) {b : ℕ}
    (hb : b ∈ bytes a.1.addr a.1.size) : s.Holds b := by
  have hmem : a.1 ∈ s.live.map Prod.fst := List.mem_map_of_mem ha
  exact ⟨_, h.placed.page_mem a.1 hmem, h.configured.pageSize.symm ▸ h.placed.bytes_sub hmem hb⟩

/-- **A new data page.** -/
theorem newPage (h : StackInv k s frames) {p : ℕ} {rest : List ℕ}
    (hreg : Regions (s.held ++ p :: rest) (2 ^ k) (2 ^ k)) :
    s.alloc.newPage (p :: rest) = some ({ s.alloc with nextPage := p, nextOffset := 0 }, rest)
      ∧ StackInv k { s with
          alloc := { s.alloc with nextPage := p, nextOffset := 0 }
          held := s.held ++ [p] } frames := by
  obtain ⟨hfresh, hreg'⟩ := hreg.fresh (Nat.two_pow_pos k)
  have hdvd : 2 ^ k ∣ p := hreg'.aligned p (List.mem_append_right _ (List.mem_singleton_self p))
  refine ⟨?_, ⟨h.configured.pageSize, h.configured.pageMask, h.configured.maxFrameOffset, h.configured.lower,
    h.configured.upper⟩, hreg', h.placed.newPage hfresh, ?_, fun f hf => ⟨?_, (h.apart f hf).2⟩, h.kept⟩
  · rw [StackAlloc.newPage, if_pos (h.configured.offsetBits p ▸ Nat.mod_eq_zero_of_dvd hdvd)]
  · exact { h.recorded with mem := fun e he => List.mem_append_left _ (h.recorded.mem e he) }
  · obtain ⟨e, he, rfl⟩ := List.mem_map.mp hf
    exact fun (heq : e.1 = p) => hfresh (heq ▸ h.recorded.mem e he)

/-- The data page of an allocation. -/
theorem room (h : StackInv k s frames) (hreg : Regions (s.held ++ parent) (2 ^ k) (2 ^ k))
    (hpow : ∃ j, alignment = 2 ^ j) (hal : alignment ≤ 2 ^ k) (hsize : size ≤ 2 ^ k) :
    parent = [] ∧ s.alloc.room parent alignment size = none
    ∨ ∃ c slack taken rest, parent = taken ++ rest ∧ taken.length ≤ 1
      ∧ s.alloc.room parent alignment size = some (c, slack, rest)
      ∧ StackInv k { s with alloc := c, held := s.held ++ taken } frames ∧ c.nextPage ≠ 0
      ∧ alignment ∣ c.nextPage + c.nextOffset + slack ∧ c.nextOffset + slack + size ≤ 2 ^ k
      ∧ c.nextOffset + slack < 2 ^ k := by
  obtain ⟨-, h30, -⟩ := h.configured.bounds
  obtain ⟨hdvd, hslack⟩ := h.configured.slack_dvd alignment hpow hal
  have hoff := h.placed.offset_le
  have hadd : add32 (add32 s.alloc.nextOffset (s.alloc.slack alignment)) size
      = s.alloc.nextOffset + s.alloc.slack alignment + size := by
    rw [add32, add32]
    omega
  rw [StackAlloc.room, hadd, h.configured.pageSize]
  by_cases hfull : 2 ^ k ≤ s.alloc.nextOffset + s.alloc.slack alignment + size ∨ s.alloc.nextPage = 0
  · rw [if_pos hfull]
    cases parent with
    | nil => exact Or.inl ⟨rfl, rfl⟩
    | cons p rest =>
        obtain ⟨hnew, hinv⟩ := h.newPage hreg
        have hp : p ∈ s.held ++ p :: rest := List.mem_append_right _ List.mem_cons_self
        obtain ⟨j, rfl⟩ := hpow
        have hpdvd : 2 ^ j ∣ p :=
          (pow_dvd_pow 2 ((Nat.pow_le_pow_iff_right (by decide)).mp hal)).trans (hreg.aligned p hp)
        refine Or.inr ⟨_, 0, [p], rest, rfl, le_rfl, ?_, hinv, (hreg.pos p hp).ne', hpdvd, ?_,
          Nat.two_pow_pos k⟩
        · rw [hnew]
          rfl
        · rwa [Nat.zero_add]
  · rw [if_neg hfull]
    push Not at hfull
    refine Or.inr ⟨s.alloc, _, [], parent, rfl, Nat.zero_le 1, rfl, ?_, hfull.2, hdvd, hfull.1.le, by omega⟩
    rw [List.append_nil]
    exact h

/-- The frame of an allocation. -/
theorem frame (h : StackInv k s frames) (hreg : Regions (s.held ++ parent) (2 ^ k) (2 ^ k)) :
    parent = [] ∧ s.alloc.frame s.mem parent = none
    ∨ ∃ c m taken rest frames', parent = taken ++ rest ∧ taken.length ≤ 1
      ∧ s.alloc.frame s.mem parent = some (c, m, rest)
      ∧ StackInv k { s with alloc := c, mem := m, held := s.held ++ taken } frames'
      ∧ c.nextPage = s.alloc.nextPage ∧ c.nextOffset = s.alloc.nextOffset
      ∧ ¬ (c.lastFrame = 0 ∨ Frame.nextFree m c.lastFrame = 2 ^ k - 24) := by
  obtain ⟨h32, h30, -⟩ := h.configured.bounds
  have hmax := h.configured.maxFrameOffset
  unfold StackAlloc.frame
  by_cases hfull : s.alloc.lastFrame = 0 ∨ Frame.nextFree s.mem s.alloc.lastFrame = s.alloc.maxFrameOffset
  · rw [if_pos hfull]
    rw [hmax] at hfull
    cases parent with
    | nil => exact Or.inl ⟨rfl, rfl⟩
    | cons f rest =>
        obtain ⟨hfresh, hreg'⟩ := hreg.fresh (Nat.two_pow_pos k)
        obtain ⟨hrec, hframe⟩ := h.recorded.newFrame hreg' hfull h32 h30 rfl
        have hf : f ∈ s.held ++ [f] := List.mem_append_right _ (List.mem_singleton_self f)
        have hpage : f ≠ s.alloc.nextPage := fun heq =>
          h.placed.current.elim (fun hmem => hfresh (heq ▸ hmem)) fun hzero =>
            (hreg'.pos f hf).ne' (heq.trans hzero.1)
        have hbase : ∀ a ∈ s.live, f ≠ base k a.1.addr := fun a ha heq =>
          hfresh (heq ▸ h.placed.page_mem a.1 (List.mem_map_of_mem ha))
        refine Or.inr ⟨_, _, [f], rest, (f, []) :: frames, rfl, le_rfl, rfl, ⟨⟨h.configured.pageSize,
          h.configured.pageMask, h.configured.maxFrameOffset, h.configured.lower, h.configured.upper⟩, hreg',
          h.placed.mono (List.subset_append_left _ _), hrec,
          List.forall_mem_cons.mpr ⟨⟨hpage, hbase⟩, h.apart⟩, fun a ha b hb => ?_⟩, rfl, rfl, ?_⟩
        · refine (hframe b (h.notMem_frame ha hb) ?_).trans (h.kept a ha b hb)
          have hmem : a.1 ∈ s.live.map Prod.fst := List.mem_map_of_mem ha
          have hdisj := hreg'.disjoint hf (List.mem_append_left [f] (h.placed.page_mem a.1 hmem)) (hbase a ha)
          exact Set.disjoint_right.mp hdisj (h.placed.bytes_sub hmem hb)
        · have hnext := hrec.linked.2.2.1.nextFree
          rintro (hzero | heq)
          · exact hrec.linked.2.1 hzero
          · rw [List.length_nil] at hnext
            exact absurd (hnext.symm.trans heq) (by omega)
  · rw [if_neg hfull]
    rw [hmax] at hfull
    refine Or.inr ⟨s.alloc, s.mem, [], parent, frames, rfl, Nat.zero_le 1, rfl, ?_, rfl, rfl, hfull⟩
    rw [List.append_nil]
    exact h

/-- The record of an allocation. -/
theorem push (h : StackInv k s frames) (hroom : ¬ (s.alloc.lastFrame = 0
      ∨ Frame.nextFree s.mem s.alloc.lastFrame = 2 ^ k - 24)) (hpage : s.alloc.nextPage ≠ 0) {slack : ℕ}
    (hal : alignment ∣ s.alloc.nextPage + s.alloc.nextOffset + slack)
    (hsize : s.alloc.nextOffset + slack + size ≤ 2 ^ k) (hlt : s.alloc.nextOffset + slack < 2 ^ k) :
    ∃ frames', StackInv k { s with
      alloc := { s.alloc with nextOffset := add32 s.alloc.nextOffset (add32 slack size) }
      mem := s.alloc.record s.mem (s.alloc.nextPage + s.alloc.nextOffset + slack)
      live := (⟨s.alloc.nextPage + s.alloc.nextOffset + slack, size, alignment⟩,
        s.alloc.record s.mem (s.alloc.nextPage + s.alloc.nextOffset + slack)) :: s.live } frames' := by
  obtain ⟨-, h30, h8⟩ := h.configured.bounds
  have hmem : s.alloc.nextPage ∈ s.held := h.placed.current.resolve_right fun hz => hpage hz.1
  have hdvd := h.regions.aligned _ hmem
  have hend := h.regions.le _ hmem
  have hadd : add32 s.alloc.nextOffset (add32 slack size) = s.alloc.nextOffset + slack + size := by
    rw [add32, add32]
    omega
  obtain ⟨frames', hrec, hmap, hframe⟩ := h.recorded.push h.regions hroom h8
    (by omega : s.alloc.nextPage + s.alloc.nextOffset + slack < 2 ^ 64) rfl
  have hbase : base k (s.alloc.nextPage + s.alloc.nextOffset + slack) = s.alloc.nextPage :=
    base_eq hdvd (by omega) (by omega)
  rw [Nat.add_assoc] at hal hbase
  rw [hadd, Nat.add_assoc s.alloc.nextPage]
  refine ⟨frames', ⟨h.configured.pageSize, h.configured.pageMask, h.configured.maxFrameOffset,
    h.configured.lower, h.configured.upper⟩, h.regions, ?_, ?_, fun f hf => ?_, ?_⟩
  · exact h.placed.push hmem hdvd (Nat.le_add_right _ slack) hlt hsize hal
  · exact Nat.add_assoc s.alloc.nextPage _ slack ▸ hrec
  · rw [hmap] at hf
    obtain ⟨hnext, hlive⟩ := h.apart f hf
    exact ⟨hnext, List.forall_mem_cons.mpr ⟨fun heq => hnext (heq.trans hbase), hlive⟩⟩
  · rw [Nat.add_assoc] at hframe
    exact List.forall_mem_cons.mpr ⟨fun b _ => rfl, fun a ha b hb =>
      (hframe b (h.notMem_frame ha hb)).trans (h.kept a ha b hb)⟩

/-- The next data page after one that has been filled up. -/
theorem turn (h : StackInv k s frames) (hreg : Regions (s.held ++ parent) (2 ^ k) (2 ^ k)) :
    parent = [] ∧ s.alloc.turn parent = none
    ∨ ∃ c taken rest, parent = taken ++ rest ∧ s.alloc.turn parent = some (c, rest)
      ∧ StackInv k { s with alloc := c, held := s.held ++ taken } frames := by
  rw [StackAlloc.turn]
  by_cases hfull : s.alloc.nextOffset = s.alloc.pageSize
  · rw [if_pos hfull]
    cases parent with
    | nil => exact Or.inl ⟨rfl, rfl⟩
    | cons p rest =>
        obtain ⟨hnew, hinv⟩ := h.newPage hreg
        exact Or.inr ⟨_, [p], rest, rfl, hnew, hinv⟩
  · rw [if_neg hfull]
    refine Or.inr ⟨s.alloc, [], parent, rfl, rfl, ?_⟩
    rw [List.append_nil]
    exact h

/-- **Allocation** fails for want of pages only. -/
theorem alloc (h : StackInv k s frames) (hreg : Regions (s.held ++ parent) (2 ^ k) (2 ^ k))
    (hpow : ∃ j, alignment = 2 ^ j) (hal : alignment ≤ 2 ^ k) (hsize : size ≤ 2 ^ k) :
    parent.length < 3 ∧ s.alloc.alloc s.mem parent alignment size = none
    ∨ ∃ addr c m taken rest frames', parent = taken ++ rest
      ∧ s.alloc.alloc s.mem parent alignment size = some (addr, c, m, rest)
      ∧ StackInv k ⟨c, m, s.held ++ taken, (⟨addr, size, alignment⟩, m) :: s.live⟩ frames' := by
  have hguard : size ≤ s.alloc.pageSize ∧ alignment ≤ s.alloc.pageSize := by
    rw [h.configured.pageSize]
    exact ⟨hsize, hal⟩
  rw [StackAlloc.alloc, if_pos hguard]
  -- the data page
  rcases h.room hreg hpow hal hsize with ⟨rfl, hnone⟩
      | ⟨c₁, slack, taken₁, rest₁, rfl, hlen₁, hroom, h₁, hpage₁, hdvd₁, hfits₁, hlt₁⟩
  · refine Or.inl ⟨by simp, ?_⟩
    rw [hnone]
    rfl
  rw [← List.append_assoc] at hreg
  obtain ⟨-, h30, -⟩ := h.configured.bounds
  have hsize₁ : c₁.pageSize = 2 ^ k := h₁.configured.pageSize
  have hadd : add32 (add32 c₁.nextOffset slack) size = c₁.nextOffset + slack + size := by
    rw [add32, add32]
    omega
  have hle₁ : add32 (add32 c₁.nextOffset slack) size ≤ c₁.pageSize := by rwa [hadd, hsize₁]
  -- the frame
  rcases h₁.frame hreg with ⟨rfl, hnone⟩
      | ⟨c₂, m₂, taken₂, rest₂, frames₂, rfl, hlen₂, hframe, h₂, hpage₂, hoff₂, hroom₂⟩
  · refine Or.inl ⟨by rw [List.append_nil]; omega, ?_⟩
    simp only [hroom, Option.bind_eq_bind, Option.bind_some, if_pos hle₁]
    rw [hnone]
    rfl
  rw [← List.append_assoc] at hreg
  have hpage : c₂.nextPage = c₁.nextPage := hpage₂
  have hoff : c₂.nextOffset = c₁.nextOffset := hoff₂
  rw [← hpage] at hpage₁ hdvd₁
  rw [← hoff] at hdvd₁ hfits₁ hlt₁
  have hsize₂ : c₂.pageSize = 2 ^ k := h₂.configured.pageSize
  -- the record
  obtain ⟨frames₃, h₃⟩ := h₂.push hroom₂ hpage₁ hdvd₁ hfits₁ hlt₁
  have hle₂ : add32 c₂.nextOffset (add32 slack size) ≤ c₂.pageSize := by
    rw [add32, add32]
    omega
  -- the next data page
  rcases h₃.turn hreg with ⟨rfl, hnone⟩ | ⟨c₄, taken₄, rest₄, rfl, hturn, h₄⟩
  · refine Or.inl ⟨by simp only [List.append_nil, List.length_append]; omega, ?_⟩
    simp only [hroom, hframe, Option.bind_eq_bind, Option.bind_some, if_pos hle₁, if_pos hle₂]
    rw [hnone]
    rfl
  have hcheck : c₄.offsetBits (c₂.nextPage + c₂.nextOffset + slack) < c₄.pageSize
      ∧ (c₂.nextPage + c₂.nextOffset + slack) % alignment = 0 := by
    have hconf : c₄.Configured k := h₄.configured
    rw [hconf.offsetBits, hconf.pageSize]
    exact ⟨Nat.mod_lt _ (Nat.two_pow_pos k), Nat.mod_eq_zero_of_dvd hdvd₁⟩
  refine Or.inr ⟨c₂.nextPage + c₂.nextOffset + slack, c₄, c₂.record m₂ (c₂.nextPage + c₂.nextOffset + slack),
    taken₁ ++ taken₂ ++ taken₄, rest₄, frames₃, ?_, ?_, ?_⟩
  · rw [List.append_assoc, List.append_assoc]
  · simp only [hroom, hframe, Option.bind_eq_bind, Option.bind_some, if_pos hle₁, if_pos hle₂, hturn,
      if_pos hcheck]
  · have hheld : s.held ++ (taken₁ ++ taken₂ ++ taken₄) = s.held ++ taken₁ ++ taken₂ ++ taken₄ := by
      simp only [List.append_assoc]
    rw [hheld]
    exact h₄

/-- An empty last frame is given back. -/
theorem dropFrame (h : StackInv k s frames) (hlive : s.live ≠ []) :
    ∃ c m freed frames', s.alloc.dropFrame s.mem = some (c, m, freed) ∧ freed.Nodup ∧ freed ⊆ s.held
      ∧ (∀ f ∈ freed, f ≠ c.nextPage)
      ∧ c.lastFrame ≠ 0 ∧ Frame.nextFree m c.lastFrame ≠ 0
      ∧ StackInv k { s with alloc := c, mem := m, held := s.held.diff freed } frames' := by
  have hhead : s.alloc.lastFrame ≠ 0 := fun hzero => by
    have hrecords := h.recorded.records
    rw [h.recorded.linked.head_eq_zero_iff.mp hzero] at hrecords
    exact hlive (List.map_eq_nil_iff.mp hrecords.symm)
  rw [StackAlloc.dropFrame, if_neg hhead]
  by_cases hempty : Frame.nextFree s.mem s.alloc.lastFrame = 0
  · obtain ⟨m, hm⟩ : ∃ m, Frame.setNextPage s.mem (Frame.previous s.mem s.alloc.lastFrame) 0 = m := ⟨_, rfl⟩
    obtain ⟨hprev, hnext, hmem, frames', hmap, hrec, hframe⟩ := h.recorded.drop h.regions
      (fun hnil => hlive (List.map_eq_nil_iff.mp hnil)) h.configured.bounds.1 hempty hhead hm
    obtain ⟨hpage, hbase⟩ := h.apart _ (hmap ▸ List.mem_cons_self)
    have hkeep : ∀ p ∈ s.held, p ≠ s.alloc.lastFrame → p ∈ s.held.diff [s.alloc.lastFrame] :=
      fun p hp hne => List.mem_diff_of_mem hp fun hin => hne (List.mem_singleton.mp hin)
    refine ⟨{ s.alloc with lastFrame := Frame.previous s.mem s.alloc.lastFrame },
      m, [s.alloc.lastFrame], frames', ?_, List.nodup_singleton _,
      List.cons_subset.mpr ⟨hmem, List.nil_subset _⟩, ?_, hprev, hnext,
      ⟨⟨h.configured.pageSize, h.configured.pageMask, h.configured.maxFrameOffset, h.configured.lower,
        h.configured.upper⟩, h.regions.of_sublist (List.diff_sublist _ _), ?_, ?_, ?_, fun a ha b hb => ?_⟩⟩
    · simp only [if_pos hempty, if_neg hprev, hm]
    · exact fun f hf => List.mem_singleton.mp hf ▸ hpage
    · refine { h.placed with
        current := h.placed.current.imp_left fun hp => hkeep _ hp hpage.symm
        page_mem := fun a ha => hkeep _ (h.placed.page_mem a ha) ?_ }
      obtain ⟨b, hb, rfl⟩ := List.mem_map.mp ha
      exact (hbase b hb).symm
    · exact hrec
    · exact fun f hf => h.apart f (hmap ▸ List.mem_cons_of_mem _ hf)
    · exact (hframe b (h.notMem_frame ha hb)).trans (h.kept a ha b hb)
  · refine ⟨s.alloc, s.mem, [], frames, if_neg hempty, List.nodup_nil, List.nil_subset _,
      fun f hf => absurd hf List.not_mem_nil, hhead, hempty, ?_⟩
    rw [List.diff_nil]
    exact h

/-- **A pop** of the last allocation. -/
theorem pop (h : StackInv k s frames) {a : Allocation × Mem} {live : List (Allocation × Mem)}
    (hlive : s.live = a :: live) : ∃ c m freed frames', s.alloc.pop s.mem a.1.addr = some (c, m, freed)
      ∧ freed.Nodup ∧ freed ⊆ s.held ∧ StackInv k ⟨c, m, s.held.diff freed, live⟩ frames' := by
  obtain ⟨c₁, m₁, freed₁, frames₁, hdrop, hnd₁, hsub₁, hne₁, hhead, hnext, h₁⟩ :=
    h.dropFrame (hlive ▸ List.cons_ne_nil a live)
  have hrec₁ := h₁.recorded
  have hplaced₁ := h₁.placed
  simp only [hlive, List.map_cons] at hrec₁ hplaced₁
  obtain ⟨m, hm⟩ : ∃ m, Frame.setNextFree m₁ c₁.lastFrame (sub32 (Frame.nextFree m₁ c₁.lastFrame) 8) = m :=
    ⟨_, rfl⟩
  obtain ⟨hload, frames', hrec, hmap, hframe⟩ := hrec₁.pop h₁.regions hnext hhead hm
  obtain ⟨hpage, hplaced⟩ := hplaced₁.pop
  have hmem : a.1.addr < 2 ^ 64 := by
    have hend := h₁.regions.le _ (hplaced₁.page_mem a.1 List.mem_cons_self)
    have hmod := Nat.mod_lt a.1.addr (Nat.two_pow_pos k)
    have hbase := base_add_mod k a.1.addr
    omega
  have hconf : c₁.Configured k := h₁.configured
  have hin : a ∈ s.live := hlive ▸ List.mem_cons_self
  obtain ⟨freed₂, hfreed₂⟩ : ∃ freed₂, (if c₁.nextPage ≠ base k a.1.addr then [c₁.nextPage] else []) = freed₂ :=
    ⟨_, rfl⟩
  have hsub₂ : ∀ p ∈ freed₂, p = c₁.nextPage := fun p hp => by
    rw [← hfreed₂] at hp
    split_ifs at hp
    · exact List.mem_singleton.mp hp
    · exact absurd hp List.not_mem_nil
  have hnd₂ : freed₂.Nodup := by
    rw [← hfreed₂]
    split_ifs
    · exact List.nodup_singleton _
    · exact List.nodup_nil
  rw [hfreed₂] at hplaced
  refine ⟨{ c₁ with nextPage := base k a.1.addr, nextOffset := a.1.addr % 2 ^ k }, m, freed₁ ++ freed₂,
    frames', ?_, ?_, ?_, ⟨⟨hconf.pageSize, hconf.pageMask, hconf.maxFrameOffset, hconf.lower, hconf.upper⟩,
    h.regions.of_sublist (List.diff_sublist _ _), ?_, ?_, ?_, ?_⟩⟩
  · simp only [StackAlloc.pop, hdrop, Option.bind_eq_bind, Option.bind_some, hload, hm,
      hconf.pageAddrDecode hmem, if_true, ← hfreed₂]
    split_ifs
    · rfl
    · rw [List.append_nil]
  · refine List.nodup_append.mpr ⟨hnd₁, hnd₂, fun f hf p hp => ?_⟩
    rw [hsub₂ p hp]
    exact hne₁ f hf
  · refine List.append_subset.mpr ⟨hsub₁, fun p hp => ?_⟩
    rw [hsub₂ p hp]
    exact (List.diff_subset _ _) hpage
  · rw [List.diff_append]
    exact hplaced
  · rw [List.diff_append]
    refine { hrec with mem := fun e he => List.mem_diff_of_mem (hrec.mem e he) fun hin => ?_ }
    exact (h₁.apart e.1 (hmap ▸ List.mem_map_of_mem he)).1 (hsub₂ _ hin)
  · intro f hf
    obtain ⟨-, hbase⟩ := h₁.apart f (hmap ▸ hf)
    exact ⟨hbase a hin, fun b hb => hbase b (hlive ▸ List.mem_cons_of_mem a hb)⟩
  · intro b hb i hi
    have hbin : b ∈ s.live := hlive ▸ List.mem_cons_of_mem a hb
    exact (hframe i (h₁.notMem_frame hbin hi)).trans (h₁.kept b hbin i hi)

/-- All of the live allocations can be popped. -/
lemma popAll (h : StackInv k s frames) :
    ∃ r, s.alloc.popAll s.mem (s.live.map fun a => a.1.addr) = some r := by
  obtain ⟨c, m, held, live⟩ := s
  induction live generalizing c m held frames with
  | nil => exact ⟨_, rfl⟩
  | cons a live ih =>
      obtain ⟨c', m', freed, frames', hpop, -, -, h'⟩ := h.pop rfl
      obtain ⟨r, hr⟩ := ih c' m' _ h'
      refine ⟨r, ?_⟩
      simp only [List.map_cons, StackAlloc.popAll, hpop, Option.bind_eq_bind, Option.bind_some]
      exact hr

/-- Writes that leave the frames and the live allocations alone. -/
lemma congr (h : StackInv k s frames) {m : Mem} {live : List (Allocation × Mem)}
    (hlive : live.map Prod.fst = s.live.map Prod.fst)
    (hframes : ∀ e ∈ frames, ∀ b ∈ bytes e.1 (2 ^ k), m b = s.mem b)
    (hkept : ∀ a ∈ live, ∀ b ∈ bytes a.1.addr a.1.size, m b = a.2 b) :
    StackInv k { s with mem := m, live := live } frames := by
  have haddr : (live.map fun a => a.1.addr) = s.live.map fun a => a.1.addr := by
    have hmap := congrArg (List.map Allocation.addr) hlive
    rwa [List.map_map, List.map_map] at hmap
  refine ⟨h.configured, h.regions, ?_, ?_, fun f hf => ⟨(h.apart f hf).1, fun a ha => ?_⟩, hkept⟩
  · exact hlive.symm ▸ h.placed
  · exact haddr.symm ▸ h.recorded.congr hframes
  · have hmem : a.1 ∈ s.live.map Prod.fst := hlive ▸ List.mem_map_of_mem ha
    obtain ⟨a', ha', heq⟩ := List.mem_map.mp hmem
    exact heq ▸ (h.apart f hf).2 a' ha'

/-- **The invariant is kept** by each step. -/
theorem step (h : StackInv k s frames) {s' : StackState} (hs : StackStep s s') :
    ∃ frames', StackInv k s' frames' := by
  have hsize := h.configured.pageSize
  cases hs with
  | alloc hsz halign hpow htaken hrun =>
      rw [hsize] at hsz halign htaken
      rcases h.alloc htaken hpow halign hsz with ⟨-, hnone⟩ | ⟨_, _, _, taken, _, frames', heq, hsome, h'⟩
      · rw [hnone] at hrun
        cases hrun
      · rw [hsome] at hrun
        cases hrun
        rw [List.append_nil] at heq
        exact ⟨frames', heq ▸ h'⟩
  | pop hlive hrun =>
      obtain ⟨c, m, freed, frames', hpop, -, -, h'⟩ := h.pop hlive
      rw [hpop] at hrun
      cases hrun
      exact ⟨frames', h'⟩
  | @write before after a data data' m hlive hdata hother =>
      have hin : (a, data) ∈ s.live := hlive ▸ List.mem_append_right before List.mem_cons_self
      refine ⟨frames, h.congr (by simp [hlive]) (fun e he b hb => ?_) fun c hc b hb => ?_⟩
      · exact hother b (h.holds_frame he hb) fun hba => h.notMem_frame hin hba e he hb
      · -- the other allocations are apart from the one that is written to
        rcases List.mem_append.mp hc with hc | hc
        · have hcin : c ∈ s.live := hlive ▸ List.mem_append_left _ hc
          have hpw := hlive ▸ h.live_apart
          have hdisj := (List.pairwise_append.mp hpw).2.2 c hc (a, data) List.mem_cons_self
          exact (hother b (h.holds_live hcin hb) (Set.disjoint_left.mp hdisj hb)).trans (h.kept c hcin b hb)
        · rcases List.mem_cons.mp hc with rfl | hc
          · exact hdata b hb
          · have hcin : c ∈ s.live := hlive ▸ List.mem_append_right _ (List.mem_cons_of_mem _ hc)
            have hpw := hlive ▸ h.live_apart
            have hdisj := (List.pairwise_cons.mp (List.pairwise_append.mp hpw).2.1).1 c hc
            exact (hother b (h.holds_live hcin hb) (Set.disjoint_right.mp hdisj hb)).trans
              (h.kept c hcin b hb)
  | other hother =>
      refine ⟨frames, h.congr rfl (fun e he b hb => hother b (h.holds_frame he hb)) fun c hc b hb => ?_⟩
      exact (hother b (h.holds_live hc hb)).trans (h.kept c hc b hb)

/-- The beginning. -/
lemma init (hl : 5 ≤ k) (hu : k ≤ 30) (m : Mem) : StackInv k ⟨StackAlloc.init (2 ^ k), m, [], []⟩ [] where
  configured := StackAlloc.Configured.init hl hu
  regions := ⟨by simp, by simp, by simp, List.Pairwise.nil⟩
  placed := ⟨Or.inr ⟨rfl, rfl⟩, Nat.zero_le _, by simp, by simp, by simp, List.Pairwise.nil, by simp,
    ⟨Or.inl List.not_mem_nil, trivial⟩⟩
  recorded := ⟨rfl, by simp, List.nodup_nil, by simp, rfl⟩
  apart := by simp
  kept := by simp

/-- **The invariant** is what the user expects. -/
theorem safe (h : StackInv k s frames) : s.Safe := by
  have hsize := h.configured.pageSize
  have hmem : ∀ a ∈ s.live, a.1 ∈ s.live.map Prod.fst := fun a ha => List.mem_map_of_mem ha
  refine ⟨h.live_apart, fun a ha => h.placed.aligned _ (hmem a ha),
    fun a ha => ⟨base k a.1.addr, h.placed.page_mem _ (hmem a ha), ?_⟩,
    ⟨frames, hsize.symm ▸ h.recorded.linked, h.recorded.records⟩, h.kept, h.popAll, fun a live hlive => ?_,
    fun alignment size parent hsz hal hpow hreg hlen => ?_⟩
  · have hbase := base_add_mod k a.1.addr
    have hmod := Nat.mod_lt a.1.addr (Nat.two_pow_pos k)
    have hfits := h.placed.fits _ (hmem a ha)
    rw [hsize]
    omega
  · obtain ⟨c, m, freed, -, hpop, hnd, hsub, -⟩ := h.pop hlive
    exact ⟨c, m, freed, hpop, hnd, hsub⟩
  · rw [hsize] at hsz hal hreg
    rcases h.alloc hreg hpow hal hsz with ⟨hlt, -⟩ | ⟨_, _, _, _, _, _, -, hsome, -⟩
    · omega
    · exact ⟨_, hsome⟩

end StackInv

/-- **In every history** the invariant holds. -/
theorem StackRun.exists_inv {k : ℕ} (hl : 5 ≤ k) (hu : k ≤ 30) {s : StackState} (hr : StackRun (2 ^ k) s) :
    ∃ frames, StackInv k s frames := by
  induction hr with
  | init m => exact ⟨[], StackInv.init hl hu m⟩
  | step _ hs ih =>
      obtain ⟨frames, hframes⟩ := ih
      exact hframes.step hs

/-- **Stack allocators are safe**, with pages of a power of two bytes, at least 32 and at most `2 ^ 30`:
in every history of allocations and pops the live allocations are apart from each other, aligned as
requested and in pages that are held; the frames list them in order; none of them is written to but by
its user; the last one can be popped, and so can all of them, one after the other. -/
theorem stack_alloc_safe {pageSize : ℕ} (h : ∃ k, 5 ≤ k ∧ k ≤ 30 ∧ pageSize = 2 ^ k) {s : StackState}
    (hr : StackRun pageSize s) : s.Safe := by
  obtain ⟨k, hl, hu, rfl⟩ := h
  obtain ⟨frames, hframes⟩ := hr.exists_inv hl hu
  exact hframes.safe

/-- With pages of 32 bytes a frame has one record: an allocation that fills its page up, one more, and
a pop. -/
theorem stack_alloc_safe_pop : ∃ s, StackRun 32 s ∧ s.live.map (fun a => a.1.addr) = [0x1000]
    ∧ s.Safe := by
  have hinit : StackAlloc.init 32 = ⟨32, 2 ^ 64 - 32, 0, 0, 0, 8⟩ := by decide
  let m₀ : Mem := Frame.setNextFree (Frame.setPrevious (fun _ => 0) 0x2000 0) 0x2000 0
  let m₁ : Mem := Frame.setNextFree (storeWord m₀ 0x2018 0x1000) 0x2000 8
  have hfirst : (⟨32, 2 ^ 64 - 32, 0, 0, 0, 8⟩ : StackAlloc).alloc (fun _ => 0) [0x1000, 0x2000, 0x3000] 16 32
      = some (0x1000, ⟨32, 2 ^ 64 - 32, 0x3000, 0, 0x2000, 8⟩, m₁, []) := rfl
  let m₂ : Mem := Frame.setNextPage (Frame.setNextFree (Frame.setPrevious m₁ 0x4000 0x2000) 0x4000 0)
    0x2000 0x4000
  let m₃ : Mem := Frame.setNextFree (storeWord m₂ 0x4018 0x3000) 0x4000 8
  have hsecond : (⟨32, 2 ^ 64 - 32, 0x3000, 0, 0x2000, 8⟩ : StackAlloc).alloc m₁ [0x4000] 32 8
      = some (0x3000, ⟨32, 2 ^ 64 - 32, 0x3000, 8, 0x4000, 8⟩, m₃, []) := rfl
  have hrun₀ : StackRun 32 ⟨⟨32, 2 ^ 64 - 32, 0, 0, 0, 8⟩, fun _ => 0, [], []⟩ :=
    hinit ▸ (StackRun.init fun _ => 0 : StackRun 32 _)
  have hpages : Regions [0x1000, 0x2000, 0x3000, 0x4000] 32 32 := by
    refine ⟨by decide, by decide, by decide, ?_⟩
    simp only [List.pairwise_cons, List.forall_mem_cons]
    refine ⟨⟨?_, ?_, ?_, by simp⟩, ⟨?_, ?_, by simp⟩, ⟨?_, by simp⟩, by simp⟩
    all_goals exact disjoint_bytes (by decide)
  have hrun := (hrun₀.step (StackStep.alloc (by decide) (by decide) ⟨4, rfl⟩
    (hpages.of_sublist (by decide)) hfirst)).step (StackStep.alloc (by decide) (by decide) ⟨5, rfl⟩ hpages
    hsecond)
  have hsize : ∃ k, 5 ≤ k ∧ k ≤ 30 ∧ 32 = 2 ^ k := ⟨5, by decide, by decide, by decide⟩
  obtain ⟨c, m, freed, hpop, -⟩ := (stack_alloc_safe hsize hrun).gives _ _ rfl
  have hrun' := hrun.step (StackStep.pop rfl hpop)
  exact ⟨_, hrun', rfl, stack_alloc_safe hsize hrun'⟩

/-- With pages of 2 GiB the end of an allocation is not a number of 32 bits, and the allocation lies
outside of the pages. -/
theorem not_stack_alloc_safe : ¬ ∀ k, 5 ≤ k → k ≤ 31 → ∀ s, StackRun (2 ^ k) s → s.Safe := by
  intro h
  have hinit : StackAlloc.init (2 ^ 31) = ⟨2 ^ 31, 2 ^ 64 - 2 ^ 31, 0, 0, 0, 2 ^ 31 - 24⟩ := by decide
  let m₀ : Mem := Frame.setNextFree (Frame.setPrevious (fun _ => 0) 0x180000000 0) 0x180000000 0
  let m₁ : Mem := Frame.setNextFree (storeWord m₀ 0x180000018 0x80000000) 0x180000000 8
  have hfirst : (⟨2 ^ 31, 2 ^ 64 - 2 ^ 31, 0, 0, 0, 2 ^ 31 - 24⟩ : StackAlloc).alloc (fun _ => 0)
      [0x80000000, 0x180000000] 16 0x7ffffff0 = some (0x80000000,
        ⟨2 ^ 31, 2 ^ 64 - 2 ^ 31, 0x80000000, 0x7ffffff0, 0x180000000, 2 ^ 31 - 24⟩, m₁, []) := rfl
  let m₂ : Mem := Frame.setNextFree (storeWord m₁ 0x180000020 0x100000000) 0x180000000 16
  -- the allocation begins where its page ends, and the offset of the next one is 0
  have hsecond : (⟨2 ^ 31, 2 ^ 64 - 2 ^ 31, 0x80000000, 0x7ffffff0, 0x180000000, 2 ^ 31 - 24⟩ :
      StackAlloc).alloc m₁ [] 32 (2 ^ 31) = some (0x100000000,
        ⟨2 ^ 31, 2 ^ 64 - 2 ^ 31, 0x80000000, 0, 0x180000000, 2 ^ 31 - 24⟩, m₂, []) := rfl
  have hrun₀ : StackRun (2 ^ 31) ⟨⟨2 ^ 31, 2 ^ 64 - 2 ^ 31, 0, 0, 0, 2 ^ 31 - 24⟩, fun _ => 0, [], []⟩ :=
    hinit ▸ StackRun.init fun _ => 0
  have hpages : Regions [0x80000000, 0x180000000] (2 ^ 31) (2 ^ 31) :=
    ⟨by decide, by decide, by decide, List.pairwise_pair.mpr (disjoint_bytes (by decide))⟩
  have hrun := (hrun₀.step (StackStep.alloc (by decide) (by decide) ⟨4, rfl⟩ hpages hfirst)).step
    (StackStep.alloc (by decide) (by decide) ⟨5, rfl⟩ hpages hsecond)
  obtain ⟨page, hpage, hle, hlt, -⟩ := (h 31 (by decide) (by decide) _ hrun).inside _ List.mem_cons_self
  revert hle hlt
  revert page
  decide

end Furious
