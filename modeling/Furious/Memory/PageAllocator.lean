import Furious.Library.Memory

/-!
The page allocator.

A page allocator hands out pages of two sizes from one region: small pages from its bottom on,
large ones from its top on. Freed pages go to the front of a list of their size, whose links
are in the pages themselves.

* `PageAlloc`: `fdb_page_alloc_t` with `PageAlloc.init`, `PageAlloc.alloc` and `PageAlloc.free`;
* `PageState`, `PageStep`, `PageRun`: runs in which the pages that are handed out are written
  to;
* `PageInv`: the invariant, `PageInv.step`: **a step keeps it**;
* `PageState.Safe`: what a user expects, and `page_alloc_safe`: **when it holds**.

Addresses have 64 bits; a failing `assert` is a fault. The mutex is left out.
-/

namespace Furious

/-- `fdb_page_alloc_t`. -/
structure PageAlloc where
  data : ℕ
  stop : ℕ
  ltop : ℕ
  snextfree : ℕ
  lnextfree : ℕ
  sregion : ℕ
  ssize : ℕ
  lsize : ℕ
  allocated : ℕ
  used : ℕ
deriving DecidableEq, Repr

namespace PageAlloc

/-- The bytes that are reserved: `mem_alloc` takes a size of 32 bits. -/
def reserved (sregion : ℕ) : ℕ := sregion % 2 ^ 32

/-- `fdb_page_alloc_init`, with the region that `mem_alloc` has returned. -/
def init (data sregion ssmall slarge : ℕ) : PageAlloc :=
  let soffset := ssmall - data % ssmall
  let soffset := if soffset = ssmall then 0 else soffset
  let lbaseaddr := ((data + sregion) % 2 ^ 64 + (2 ^ 64 - slarge)) % 2 ^ 64
  let loffset := lbaseaddr % slarge
  { data := data
    stop := (data + soffset) % 2 ^ 64
    ltop := lbaseaddr - loffset
    snextfree := 0
    lnextfree := 0
    sregion := sregion
    ssize := ssmall
    lsize := slarge
    allocated := sregion
    used := 0 }

/-- `fdb_page_alloc_alloc`: the page and the allocator after it. -/
def alloc (p : PageAlloc) (m : Mem) (size : ℕ) : Option (ℕ × PageAlloc) :=
  if size = p.ssize then
    if p.snextfree ≠ 0 then
      let ret := p.snextfree
      if ret % p.ssize = 0 then some (ret, { p with snextfree := loadWord m ret }) else none
    else
      let ret := p.stop
      let p := { p with stop := (p.stop + p.ssize) % 2 ^ 64, used := (p.used + p.ssize) % 2 ^ 64 }
      if ret < p.ltop ∧ ret % p.ssize = 0 then some (ret, p) else none
  else if size = p.lsize then
    if p.lnextfree ≠ 0 then
      let ret := p.lnextfree
      if ret % p.lsize = 0 then some (ret, { p with lnextfree := loadWord m ret }) else none
    else
      let ret := p.ltop
      let p := { p with
        ltop := (p.ltop + (2 ^ 64 - p.lsize)) % 2 ^ 64
        used := (p.used + p.lsize) % 2 ^ 64 }
      if (p.stop + p.ssize) % 2 ^ 64 < ret ∧ ret % p.lsize = 0 then some (ret, p) else none
  else none

/-- `fdb_page_alloc_free`: the allocator and the memory after it. -/
def free (p : PageAlloc) (m : Mem) (ptr : ℕ) : Option (PageAlloc × Mem) :=
  if (p.data ≤ ptr ∧ ptr < p.stop)
      ∨ (ptr < (p.data + p.sregion) % 2 ^ 64 ∧ (p.ltop + p.lsize) % 2 ^ 64 ≤ ptr) then
    if p.data ≤ ptr ∧ ptr < p.stop then
      some ({ p with snextfree := ptr, used := (p.used + (2 ^ 64 - p.ssize)) % 2 ^ 64 },
        storeWord m ptr p.snextfree)
    else
      some ({ p with lnextfree := ptr, used := (p.used + (2 ^ 64 - p.lsize)) % 2 ^ 64 },
        storeWord m ptr p.lnextfree)
  else none

end PageAlloc

/-! ### Runs -/

/-- A page allocator with the memory, and the small and large pages that are handed out. -/
structure PageState where
  alloc : PageAlloc
  mem : Mem
  smalls : List ℕ
  larges : List ℕ

namespace PageState

/-- The pages that are handed out, with their sizes. -/
def pages (s : PageState) : List (ℕ × ℕ) :=
  s.smalls.map (fun a => (a, s.alloc.ssize)) ++ s.larges.map fun a => (a, s.alloc.lsize)

end PageState

/-- A step of a run: an allocation, the release of a page that is handed out, or writes that
leave the region alone except for such pages. -/
inductive PageStep : PageState → PageState → Prop
  | small {s : PageState} {ret : ℕ} {p : PageAlloc}
      (h : s.alloc.alloc s.mem s.alloc.ssize = some (ret, p)) :
      PageStep s { s with alloc := p, smalls := ret :: s.smalls }
  | large {s : PageState} {ret : ℕ} {p : PageAlloc} (hne : s.alloc.lsize ≠ s.alloc.ssize)
      (h : s.alloc.alloc s.mem s.alloc.lsize = some (ret, p)) :
      PageStep s { s with alloc := p, larges := ret :: s.larges }
  | freeSmall {s : PageState} {a : ℕ} {p : PageAlloc} {m : Mem} (ha : a ∈ s.smalls)
      (h : s.alloc.free s.mem a = some (p, m)) :
      PageStep s ⟨p, m, s.smalls.erase a, s.larges⟩
  | freeLarge {s : PageState} {a : ℕ} {p : PageAlloc} {m : Mem} (ha : a ∈ s.larges)
      (h : s.alloc.free s.mem a = some (p, m)) :
      PageStep s ⟨p, m, s.smalls, s.larges.erase a⟩
  | write {s : PageState} {m : Mem}
      (h : ∀ b ∈ bytes s.alloc.data (PageAlloc.reserved s.alloc.sregion),
        (∀ page ∈ s.pages, b ∉ bytes page.1 page.2) → m b = s.mem b) :
      PageStep s { s with mem := m }

/-- The states that a page allocator reaches. -/
inductive PageRun (data sregion ssmall slarge : ℕ) : PageState → Prop
  | init (m : Mem) : PageRun data sregion ssmall slarge
      ⟨PageAlloc.init data sregion ssmall slarge, m, [], []⟩
  | step {s s' : PageState} (h : PageRun data sregion ssmall slarge s) (hs : PageStep s s') :
      PageRun data sregion ssmall slarge s'

/-- What the user of a page allocator over the region of `data` expects. -/
structure PageState.Safe (s : PageState) (data sregion : ℕ) : Prop where
  aligned : ∀ page ∈ s.pages, page.2 ∣ page.1
  inside : ∀ page ∈ s.pages, bytes page.1 page.2 ⊆ bytes data (PageAlloc.reserved sregion)
  apart : s.pages.Pairwise fun page page' => Disjoint (bytes page.1 page.2) (bytes page'.1 page'.2)
  fresh : ∀ size ret p, s.alloc.alloc s.mem size = some (ret, p) → ∀ page ∈ s.pages, page.1 ≠ ret
  freeSmall : ∀ a ∈ s.smalls, ∃ p m, s.alloc.free s.mem a = some (p, m) ∧ p.snextfree = a
    ∧ loadWord m a = s.alloc.snextfree ∧ p.lnextfree = s.alloc.lnextfree
  freeLarge : ∀ a ∈ s.larges, ∃ p m, s.alloc.free s.mem a = some (p, m) ∧ p.lnextfree = a
    ∧ loadWord m a = s.alloc.lnextfree ∧ p.snextfree = s.alloc.snextfree

/-! ### The invariant -/

/-- A small page lies between the bottom of the region and the end of the small pages. -/
structure PageAlloc.Small (p : PageAlloc) (a : ℕ) : Prop where
  dvd : p.ssize ∣ a
  ge : p.data ≤ a
  le_stop : a + p.ssize ≤ p.stop
  le_ltop : a + p.ssize ≤ p.ltop + p.lsize

/-- A large page lies between the last of the large pages and the top of the region. -/
structure PageAlloc.Large (p : PageAlloc) (a : ℕ) : Prop where
  dvd : p.lsize ∣ a
  ge : p.ltop + p.lsize ≤ a
  le : a + p.lsize ≤ p.data + p.sregion
  stop_le : p.stop ≤ a

/-- The sizes and the region of an allocator for which nothing overflows. -/
structure PageAlloc.Fits (p : PageAlloc) : Prop where
  header : 8 ≤ p.ssize
  le : p.ssize ≤ p.lsize
  pos : 0 < p.data
  region : p.sregion < 2 ^ 32
  top : p.data + p.sregion + 2 * p.ssize ≤ 2 ^ 64
  stop_ge : p.data ≤ p.stop
  stop_lt : p.stop < p.data + p.sregion + p.ssize
  stop_dvd : p.ssize ∣ p.stop
  ltop_dvd : p.lsize ∣ p.ltop
  ltop_le : p.ltop + p.lsize ≤ p.data + p.sregion

/-- The free pages are `S` and `L`. -/
structure PageInv (s : PageState) (S L : List ℕ) : Prop where
  fits : s.alloc.Fits
  small : ∀ a ∈ s.smalls ++ S, s.alloc.Small a
  large : ∀ a ∈ s.larges ++ L, s.alloc.Large a
  nodupS : (s.smalls ++ S).Nodup
  nodupL : (s.larges ++ L).Nodup
  threadedS : Threaded s.mem s.alloc.snextfree S
  threadedL : Threaded s.mem s.alloc.lnextfree L

namespace PageAlloc

variable {p : PageAlloc} {a b : ℕ}

/-- Different multiples of a size are that size apart. -/
lemma disjoint_of_dvd {n : ℕ} (ha : n ∣ a) (hb : n ∣ b) (hne : a ≠ b) :
    Disjoint (bytes a n) (bytes b n) := by
  obtain ⟨i, rfl⟩ := ha
  obtain ⟨j, rfl⟩ := hb
  rcases lt_trichotomy i j with hlt | rfl | hlt
  · refine disjoint_bytes ?_
    rw [← Nat.mul_succ]
    exact Nat.mul_le_mul_left n hlt
  · exact absurd rfl hne
  · refine (disjoint_bytes ?_).symm
    rw [← Nat.mul_succ]
    exact Nat.mul_le_mul_left n hlt

lemma Small.disjoint (ha : p.Small a) (hb : p.Small b) (hne : a ≠ b) :
    Disjoint (bytes a p.ssize) (bytes b p.ssize) := disjoint_of_dvd ha.dvd hb.dvd hne

lemma Large.disjoint (ha : p.Large a) (hb : p.Large b) (hne : a ≠ b) :
    Disjoint (bytes a p.lsize) (bytes b p.lsize) := disjoint_of_dvd ha.dvd hb.dvd hne

/-- Small and large pages do not meet. -/
lemma Small.disjoint_large (ha : p.Small a) (hb : p.Large b) :
    Disjoint (bytes a p.ssize) (bytes b p.lsize) := disjoint_bytes (ha.le_stop.trans hb.stop_le)

/-- The header of a free page. -/
lemma bytes_header {n : ℕ} (h : 8 ≤ n) : bytes a 8 ⊆ bytes a n := bytes_subset le_rfl (by omega)

/-- **What an allocation does.** -/
lemma alloc_cases {m : Mem} {size ret : ℕ} {q : PageAlloc} (h : p.alloc m size = some (ret, q)) :
    (size = p.ssize ∧ p.snextfree ≠ 0 ∧ ret = p.snextfree ∧ q = { p with snextfree := loadWord m ret })
    ∨ (size = p.ssize ∧ p.snextfree = 0 ∧ ret = p.stop ∧ p.stop < p.ltop
      ∧ q = { p with stop := (p.stop + p.ssize) % 2 ^ 64, used := (p.used + p.ssize) % 2 ^ 64 })
    ∨ (size = p.lsize ∧ size ≠ p.ssize ∧ p.lnextfree ≠ 0 ∧ ret = p.lnextfree
      ∧ q = { p with lnextfree := loadWord m ret })
    ∨ (size = p.lsize ∧ size ≠ p.ssize ∧ p.lnextfree = 0 ∧ ret = p.ltop
      ∧ (p.stop + p.ssize) % 2 ^ 64 < ret
      ∧ q = { p with
          ltop := (p.ltop + (2 ^ 64 - p.lsize)) % 2 ^ 64
          used := (p.used + p.lsize) % 2 ^ 64 }) := by
  rw [alloc] at h
  by_cases hs : size = p.ssize
  · rw [if_pos hs] at h
    by_cases hn : p.snextfree ≠ 0
    · rw [if_pos hn] at h
      obtain ⟨-, heq⟩ := Option.ite_none_right_eq_some.mp h
      obtain ⟨rfl, rfl⟩ := Prod.mk.inj (Option.some.inj heq)
      exact Or.inl ⟨hs, hn, rfl, rfl⟩
    · rw [if_neg hn] at h
      obtain ⟨⟨hlt, -⟩, heq⟩ := Option.ite_none_right_eq_some.mp h
      obtain ⟨rfl, rfl⟩ := Prod.mk.inj (Option.some.inj heq)
      exact Or.inr (Or.inl ⟨hs, not_not.mp hn, rfl, hlt, rfl⟩)
  · rw [if_neg hs] at h
    obtain ⟨hl, h⟩ := Option.ite_none_right_eq_some.mp h
    by_cases hn : p.lnextfree ≠ 0
    · rw [if_pos hn] at h
      obtain ⟨-, heq⟩ := Option.ite_none_right_eq_some.mp h
      obtain ⟨rfl, rfl⟩ := Prod.mk.inj (Option.some.inj heq)
      exact Or.inr (Or.inr (Or.inl ⟨hl, hs, hn, rfl, rfl⟩))
    · rw [if_neg hn] at h
      obtain ⟨⟨hlt, -⟩, heq⟩ := Option.ite_none_right_eq_some.mp h
      obtain ⟨rfl, rfl⟩ := Prod.mk.inj (Option.some.inj heq)
      exact Or.inr (Or.inr (Or.inr ⟨hl, hs, not_not.mp hn, rfl, hlt, rfl⟩))

/-- The size of the reserved region. -/
lemma Fits.reserved (h : p.Fits) : PageAlloc.reserved p.sregion = p.sregion := Nat.mod_eq_of_lt h.region

/-- A new small page. -/
lemma Fits.stop_small (h : p.Fits) (hlt : p.stop < p.ltop) :
    (p.stop + p.ssize) % 2 ^ 64 = p.stop + p.ssize ∧ p.stop + p.ssize ≤ p.ltop + p.lsize := by
  have := h.le
  have := h.top
  have := h.ltop_le
  exact ⟨Nat.mod_eq_of_lt (by omega), by omega⟩

/-- A new large page. -/
lemma Fits.ltop_large (h : p.Fits) (hlt : (p.stop + p.ssize) % 2 ^ 64 < p.ltop) :
    p.stop + p.ssize < p.ltop ∧ (p.ltop + (2 ^ 64 - p.lsize)) % 2 ^ 64 = p.ltop - p.lsize
      ∧ p.lsize ≤ p.ltop := by
  have htop := h.top
  have hstop := h.stop_lt
  have hltop := h.ltop_le
  have hmod : (p.stop + p.ssize) % 2 ^ 64 = p.stop + p.ssize := Nat.mod_eq_of_lt (by omega)
  rw [hmod] at hlt
  have hle : p.lsize ≤ p.ltop := Nat.le_of_dvd (by omega) h.ltop_dvd
  have hpos : 0 < p.lsize := lt_of_lt_of_le (by decide) (h.header.trans h.le)
  exact ⟨hlt, by omega, hle⟩

/-- **What a release does** to a small page. -/
lemma Small.free (h : p.Fits) (ha : p.Small a) (m : Mem) : p.free m a = some
    ({ p with snextfree := a, used := (p.used + (2 ^ 64 - p.ssize)) % 2 ^ 64 },
      storeWord m a p.snextfree) := by
  have hlt : a < p.stop := by
    have := ha.le_stop
    have := h.header
    omega
  rw [PageAlloc.free, if_pos (Or.inl ⟨ha.ge, hlt⟩), if_pos ⟨ha.ge, hlt⟩]

/-- **What a release does** to a large page. -/
lemma Large.free (h : p.Fits) (ha : p.Large a) (m : Mem) : p.free m a = some
    ({ p with lnextfree := a, used := (p.used + (2 ^ 64 - p.lsize)) % 2 ^ 64 },
      storeWord m a p.lnextfree) := by
  have hle := ha.le
  have hge := ha.ge
  have hstop := ha.stop_le
  have htop := h.top
  have hheader := h.header
  have hsl := h.le
  have hnot : ¬ (p.data ≤ a ∧ a < p.stop) := by omega
  have hmod₁ : (p.data + p.sregion) % 2 ^ 64 = p.data + p.sregion := Nat.mod_eq_of_lt (by omega)
  have hmod₂ : (p.ltop + p.lsize) % 2 ^ 64 = p.ltop + p.lsize := Nat.mod_eq_of_lt (by omega)
  rw [PageAlloc.free, if_pos (Or.inr ⟨by rw [hmod₁]; omega, by rw [hmod₂]; exact hge⟩), if_neg hnot]

/-- Addresses of pages. -/
lemma Small.bounds (h : p.Fits) (ha : p.Small a) : a ≠ 0 ∧ a < 2 ^ 64 := by
  have := ha.le_stop
  have := ha.ge
  have := h.pos
  have := h.stop_lt
  have := h.top
  omega

lemma Large.bounds (h : p.Fits) (ha : p.Large a) : a ≠ 0 ∧ a < 2 ^ 64 := by
  have := ha.le
  have := ha.stop_le
  have := h.stop_ge
  have := h.pos
  have := h.top
  have := h.header
  have := h.le
  omega

end PageAlloc

namespace PageInv

variable {s s' : PageState} {S L : List ℕ}

/-- Writes that touch neither list. -/
lemma mem_congr (h : PageInv s S L) {m : Mem}
    (hS : ∀ a ∈ S, ∀ b ∈ bytes a 8, m b = s.mem b) (hL : ∀ a ∈ L, ∀ b ∈ bytes a 8, m b = s.mem b) :
    PageInv { s with mem := m } S L where
  fits := h.fits
  small := h.small
  large := h.large
  nodupS := h.nodupS
  nodupL := h.nodupL
  threadedS := h.threadedS.congr hS
  threadedL := h.threadedL.congr hL

/-- A free small page is handed out. -/
lemma takeSmall (h : PageInv s S L) (hn : s.alloc.snextfree ≠ 0) : ∃ S',
    PageInv { s with
      alloc := { s.alloc with snextfree := loadWord s.mem s.alloc.snextfree }
      smalls := s.alloc.snextfree :: s.smalls } S' L := by
  have hthreaded := h.threadedS
  cases S with
  | nil => exact absurd hthreaded hn
  | cons a S =>
      obtain ⟨hhead, -, hrest⟩ := hthreaded
      have hperm : (s.smalls ++ a :: S).Perm (a :: s.smalls ++ S) := List.perm_middle
      refine ⟨S, ⟨h.fits.header, h.fits.le, h.fits.pos, h.fits.region, h.fits.top, h.fits.stop_ge,
        h.fits.stop_lt, h.fits.stop_dvd, h.fits.ltop_dvd, h.fits.ltop_le⟩, fun b hb => ?_,
        fun b hb => ⟨(h.large b hb).1, (h.large b hb).2, (h.large b hb).3, (h.large b hb).4⟩,
        ?_, h.nodupL, by rw [hhead]; exact hrest, h.threadedL⟩
      · rw [hhead] at hb
        have hb' := h.small b (hperm.mem_iff.mpr hb)
        exact ⟨hb'.1, hb'.2, hb'.3, hb'.4⟩
      · rw [hhead]
        exact hperm.nodup_iff.mp h.nodupS

/-- A new small page. -/
lemma growSmall (h : PageInv s S L) (hlt : s.alloc.stop < s.alloc.ltop) :
    PageInv { s with
      alloc := { s.alloc with
        stop := (s.alloc.stop + s.alloc.ssize) % 2 ^ 64
        used := (s.alloc.used + s.alloc.ssize) % 2 ^ 64 }
      smalls := s.alloc.stop :: s.smalls } S L := by
  obtain ⟨hstop, hcross⟩ := h.fits.stop_small hlt
  have hfits := h.fits
  have hheader := hfits.header
  rw [hstop]
  refine ⟨⟨hfits.header, hfits.le, hfits.pos, hfits.region, hfits.top,
    le_trans hfits.stop_ge (Nat.le_add_right _ _), ?_, Nat.dvd_add hfits.stop_dvd dvd_rfl,
    hfits.ltop_dvd, hfits.ltop_le⟩, fun b hb => ?_, fun b hb => ?_, ?_, h.nodupL, h.threadedS, h.threadedL⟩
  · have hle := hfits.le
    have htop := hfits.ltop_le
    show s.alloc.stop + s.alloc.ssize < s.alloc.data + s.alloc.sregion + s.alloc.ssize
    omega
  · rcases List.mem_cons.mp hb with rfl | hb
    · exact ⟨hfits.stop_dvd, hfits.stop_ge, le_rfl, hcross⟩
    · have hb' := h.small b hb
      exact ⟨hb'.dvd, hb'.ge, le_trans hb'.le_stop (Nat.le_add_right _ _), hb'.le_ltop⟩
  · have hb' := h.large b hb
    exact ⟨hb'.dvd, hb'.ge, hb'.le, hcross.trans hb'.ge⟩
  · refine List.nodup_cons.mpr ⟨fun hmem => ?_, h.nodupS⟩
    have hle := (h.small _ hmem).le_stop
    omega

/-- A free large page is handed out. -/
lemma takeLarge (h : PageInv s S L) (hn : s.alloc.lnextfree ≠ 0) : ∃ L',
    PageInv { s with
      alloc := { s.alloc with lnextfree := loadWord s.mem s.alloc.lnextfree }
      larges := s.alloc.lnextfree :: s.larges } S L' := by
  have hthreaded := h.threadedL
  cases L with
  | nil => exact absurd hthreaded hn
  | cons a L =>
      obtain ⟨hhead, -, hrest⟩ := hthreaded
      have hperm : (s.larges ++ a :: L).Perm (a :: s.larges ++ L) := List.perm_middle
      refine ⟨L, ⟨h.fits.header, h.fits.le, h.fits.pos, h.fits.region, h.fits.top, h.fits.stop_ge,
        h.fits.stop_lt, h.fits.stop_dvd, h.fits.ltop_dvd, h.fits.ltop_le⟩,
        fun b hb => ⟨(h.small b hb).1, (h.small b hb).2, (h.small b hb).3, (h.small b hb).4⟩,
        fun b hb => ?_, h.nodupS, ?_, h.threadedS, by rw [hhead]; exact hrest⟩
      · rw [hhead] at hb
        have hb' := h.large b (hperm.mem_iff.mpr hb)
        exact ⟨hb'.1, hb'.2, hb'.3, hb'.4⟩
      · rw [hhead]
        exact hperm.nodup_iff.mp h.nodupL

/-- A new large page. -/
lemma growLarge (h : PageInv s S L)
    (hlt : (s.alloc.stop + s.alloc.ssize) % 2 ^ 64 < s.alloc.ltop) :
    PageInv { s with
      alloc := { s.alloc with
        ltop := (s.alloc.ltop + (2 ^ 64 - s.alloc.lsize)) % 2 ^ 64
        used := (s.alloc.used + s.alloc.lsize) % 2 ^ 64 }
      larges := s.alloc.ltop :: s.larges } S L := by
  obtain ⟨hcross, hltop, hle⟩ := h.fits.ltop_large hlt
  have hfits := h.fits
  have hheader := hfits.header
  have hsl := hfits.le
  rw [hltop]
  have hback : s.alloc.ltop - s.alloc.lsize + s.alloc.lsize = s.alloc.ltop := Nat.sub_add_cancel hle
  refine ⟨⟨hfits.header, hfits.le, hfits.pos, hfits.region, hfits.top, hfits.stop_ge, hfits.stop_lt,
    hfits.stop_dvd, Nat.dvd_sub hfits.ltop_dvd dvd_rfl, ?_⟩, fun b hb => ?_, fun b hb => ?_, h.nodupS, ?_,
    h.threadedS, h.threadedL⟩
  · have htop := hfits.ltop_le
    show s.alloc.ltop - s.alloc.lsize + s.alloc.lsize ≤ s.alloc.data + s.alloc.sregion
    omega
  · have hb' := h.small b hb
    have hstop := hb'.le_stop
    refine ⟨hb'.dvd, hb'.ge, hb'.le_stop, ?_⟩
    show b + s.alloc.ssize ≤ s.alloc.ltop - s.alloc.lsize + s.alloc.lsize
    omega
  · rcases List.mem_cons.mp hb with rfl | hb
    · exact ⟨hfits.ltop_dvd, hback.le, hfits.ltop_le, by
        show s.alloc.stop ≤ s.alloc.ltop
        omega⟩
    · have hb' := h.large b hb
      have hge := hb'.ge
      refine ⟨hb'.dvd, ?_, hb'.le, hb'.stop_le⟩
      show s.alloc.ltop - s.alloc.lsize + s.alloc.lsize ≤ b
      omega
  · refine List.nodup_cons.mpr ⟨fun hmem => ?_, h.nodupL⟩
    have hge := (h.large _ hmem).ge
    omega

/-- A list that is threaded through pages begins below the end of the address space. -/
lemma head_lt {m : Mem} {head : ℕ} {l : List ℕ} (h : Threaded m head l) (hl : ∀ a ∈ l, a < 2 ^ 64) :
    head < 2 ^ 64 := by
  cases l with
  | nil =>
      rw [show head = 0 from h]
      decide
  | cons a l => exact h.1 ▸ hl a List.mem_cons_self

/-- A small page is released. -/
lemma freeSmall (h : PageInv s S L) {a : ℕ} (ha : a ∈ s.smalls) :
    PageInv { s with
      alloc := { s.alloc with
        snextfree := a
        used := (s.alloc.used + (2 ^ 64 - s.alloc.ssize)) % 2 ^ 64 }
      mem := storeWord s.mem a s.alloc.snextfree
      smalls := s.smalls.erase a } (a :: S) L := by
  have hsmall := h.small a (List.mem_append_left S ha)
  have hperm : (s.smalls ++ S).Perm (s.smalls.erase a ++ a :: S) :=
    ((List.perm_cons_erase ha).append_right S).trans List.perm_middle.symm
  have hnd := hperm.nodup_iff.mp h.nodupS
  have hnotS : a ∉ S := fun hmem => (List.nodup_cons.mp (List.nodup_append.mp hnd).2.1).1 hmem
  have hlt : s.alloc.snextfree < 2 ^ 64 :=
    head_lt h.threadedS fun b hb => ((h.small b (List.mem_append_right _ hb)).bounds h.fits).2
  refine ⟨⟨h.fits.header, h.fits.le, h.fits.pos, h.fits.region, h.fits.top, h.fits.stop_ge,
    h.fits.stop_lt, h.fits.stop_dvd, h.fits.ltop_dvd, h.fits.ltop_le⟩, fun b hb => ?_,
    fun b hb => ⟨(h.large b hb).1, (h.large b hb).2, (h.large b hb).3, (h.large b hb).4⟩, hnd, h.nodupL,
    ?_, ?_⟩
  · have hb' := h.small b (hperm.mem_iff.mpr hb)
    exact ⟨hb'.1, hb'.2, hb'.3, hb'.4⟩
  · refine h.threadedS.push (hsmall.bounds h.fits).1 hlt fun b hb => ?_
    have hdisj := (h.small b (List.mem_append_right _ hb)).disjoint hsmall fun e => hnotS (e ▸ hb)
    exact hdisj.mono (PageAlloc.bytes_header h.fits.header) (PageAlloc.bytes_header h.fits.header)
  · refine h.threadedL.congr fun b hb c hc => storeWord_of_notMem fun hca => ?_
    have hdisj := hsmall.disjoint_large (h.large b (List.mem_append_right _ hb))
    exact Set.disjoint_left.mp hdisj (PageAlloc.bytes_header h.fits.header hca)
      (PageAlloc.bytes_header (h.fits.header.trans h.fits.le) hc)

/-- A large page is released. -/
lemma freeLarge (h : PageInv s S L) {a : ℕ} (ha : a ∈ s.larges) :
    PageInv { s with
      alloc := { s.alloc with
        lnextfree := a
        used := (s.alloc.used + (2 ^ 64 - s.alloc.lsize)) % 2 ^ 64 }
      mem := storeWord s.mem a s.alloc.lnextfree
      larges := s.larges.erase a } S (a :: L) := by
  have hlarge := h.large a (List.mem_append_left L ha)
  have hperm : (s.larges ++ L).Perm (s.larges.erase a ++ a :: L) :=
    ((List.perm_cons_erase ha).append_right L).trans List.perm_middle.symm
  have hnd := hperm.nodup_iff.mp h.nodupL
  have hnotL : a ∉ L := fun hmem => (List.nodup_cons.mp (List.nodup_append.mp hnd).2.1).1 hmem
  have hlt : s.alloc.lnextfree < 2 ^ 64 :=
    head_lt h.threadedL fun b hb => ((h.large b (List.mem_append_right _ hb)).bounds h.fits).2
  have hheader : 8 ≤ s.alloc.lsize := h.fits.header.trans h.fits.le
  refine ⟨⟨h.fits.header, h.fits.le, h.fits.pos, h.fits.region, h.fits.top, h.fits.stop_ge,
    h.fits.stop_lt, h.fits.stop_dvd, h.fits.ltop_dvd, h.fits.ltop_le⟩,
    fun b hb => ⟨(h.small b hb).1, (h.small b hb).2, (h.small b hb).3, (h.small b hb).4⟩, fun b hb => ?_,
    h.nodupS, hnd, ?_, ?_⟩
  · have hb' := h.large b (hperm.mem_iff.mpr hb)
    exact ⟨hb'.1, hb'.2, hb'.3, hb'.4⟩
  · refine h.threadedS.congr fun b hb c hc => storeWord_of_notMem fun hca => ?_
    have hdisj := (h.small b (List.mem_append_right _ hb)).disjoint_large hlarge
    exact Set.disjoint_left.mp hdisj (PageAlloc.bytes_header h.fits.header hc)
      (PageAlloc.bytes_header hheader hca)
  · refine h.threadedL.push (hlarge.bounds h.fits).1 hlt fun b hb => ?_
    have hdisj := (h.large b (List.mem_append_right _ hb)).disjoint hlarge fun e => hnotL (e ▸ hb)
    exact hdisj.mono (PageAlloc.bytes_header hheader) (PageAlloc.bytes_header hheader)

/-- The header of a free page is in the region, and in no page that is handed out. -/
lemma header_free (h : PageInv s S L) {a b : ℕ} (ha : a ∈ S ∨ a ∈ L) (hb : b ∈ bytes a 8) :
    b ∈ bytes s.alloc.data (PageAlloc.reserved s.alloc.sregion)
      ∧ ∀ page ∈ s.pages, b ∉ bytes page.1 page.2 := by
  have hfits := h.fits
  have hheader := hfits.header
  have hsl := hfits.le
  have htop := hfits.ltop_le
  rw [hfits.reserved]
  rcases ha with ha | ha
  · have hsmall := h.small a (List.mem_append_right _ ha)
    have hge := hsmall.ge
    have hle := hsmall.le_ltop
    have hin : b ∈ bytes a s.alloc.ssize := PageAlloc.bytes_header hheader hb
    refine ⟨bytes_subset hge (by omega) hin, fun page hpage hbp => ?_⟩
    rcases List.mem_append.mp hpage with hpage | hpage
    · obtain ⟨a', ha', rfl⟩ := List.mem_map.mp hpage
      have hne : a ≠ a' := fun e => (List.nodup_append.mp h.nodupS).2.2 a' ha' a' (e ▸ ha) rfl
      exact Set.disjoint_left.mp
        (hsmall.disjoint (h.small a' (List.mem_append_left _ ha')) hne) hin hbp
    · obtain ⟨a', ha', rfl⟩ := List.mem_map.mp hpage
      exact Set.disjoint_left.mp
        (hsmall.disjoint_large (h.large a' (List.mem_append_left _ ha'))) hin hbp
  · have hlarge := h.large a (List.mem_append_right _ ha)
    have hle := hlarge.le
    have hstop := hlarge.stop_le
    have hdata := hfits.stop_ge
    have hin : b ∈ bytes a s.alloc.lsize := PageAlloc.bytes_header (hheader.trans hsl) hb
    refine ⟨bytes_subset (by omega) hle hin, fun page hpage hbp => ?_⟩
    rcases List.mem_append.mp hpage with hpage | hpage
    · obtain ⟨a', ha', rfl⟩ := List.mem_map.mp hpage
      exact Set.disjoint_left.mp
        ((h.small a' (List.mem_append_left _ ha')).disjoint_large hlarge) hbp hin
    · obtain ⟨a', ha', rfl⟩ := List.mem_map.mp hpage
      have hne : a ≠ a' := fun e => (List.nodup_append.mp h.nodupL).2.2 a' ha' a' (e ▸ ha) rfl
      exact Set.disjoint_left.mp
        (hlarge.disjoint (h.large a' (List.mem_append_left _ ha')) hne) hin hbp

/-- **A step keeps the invariant.** -/
theorem step (h : PageInv s S L) (hs : PageStep s s') : ∃ S' L', PageInv s' S' L' := by
  cases hs with
  | small halloc =>
      rcases PageAlloc.alloc_cases halloc with ⟨-, hn, rfl, rfl⟩ | ⟨-, hn, rfl, hlt, rfl⟩
          | ⟨-, hne, -⟩ | ⟨-, hne, -⟩
      · obtain ⟨S', hS'⟩ := h.takeSmall hn
        exact ⟨S', L, hS'⟩
      · exact ⟨S, L, h.growSmall hlt⟩
      · exact absurd rfl hne
      · exact absurd rfl hne
  | large hne halloc =>
      rcases PageAlloc.alloc_cases halloc with ⟨heq, -⟩ | ⟨heq, -⟩ | ⟨-, -, hn, rfl, rfl⟩
          | ⟨-, -, hn, rfl, hlt, rfl⟩
      · exact absurd heq hne
      · exact absurd heq hne
      · obtain ⟨L', hL'⟩ := h.takeLarge hn
        exact ⟨S, L', hL'⟩
      · exact ⟨S, L, h.growLarge hlt⟩
  | @freeSmall a _ _ ha hfree =>
      rw [(h.small a (List.mem_append_left S ha)).free h.fits] at hfree
      obtain ⟨rfl, rfl⟩ := Prod.mk.inj (Option.some.inj hfree)
      exact ⟨a :: S, L, h.freeSmall ha⟩
  | @freeLarge a _ _ ha hfree =>
      rw [(h.large a (List.mem_append_left L ha)).free h.fits] at hfree
      obtain ⟨rfl, rfl⟩ := Prod.mk.inj (Option.some.inj hfree)
      exact ⟨S, a :: L, h.freeLarge ha⟩
  | write hw =>
      refine ⟨S, L, h.mem_congr (fun a ha b hb => ?_) fun a ha b hb => ?_⟩
      · obtain ⟨hin, hout⟩ := h.header_free (Or.inl ha) hb
        exact hw b hin hout
      · obtain ⟨hin, hout⟩ := h.header_free (Or.inr ha) hb
        exact hw b hin hout

/-- **What a user expects** follows. -/
theorem safe (h : PageInv s S L) : s.Safe s.alloc.data s.alloc.sregion := by
  have hfits := h.fits
  have hheader := hfits.header
  have hsl := hfits.le
  have htop := hfits.ltop_le
  have hdata := hfits.stop_ge
  have hsmall : ∀ a ∈ s.smalls, s.alloc.Small a := fun a ha => h.small a (List.mem_append_left S ha)
  have hlarge : ∀ a ∈ s.larges, s.alloc.Large a := fun a ha => h.large a (List.mem_append_left L ha)
  refine ⟨fun page hpage => ?_, fun page hpage => ?_, ?_, fun size ret p halloc page hpage => ?_,
    fun a ha => ?_, fun a ha => ?_⟩
  · rcases List.mem_append.mp hpage with hpage | hpage
    · obtain ⟨a, ha, rfl⟩ := List.mem_map.mp hpage
      exact (hsmall a ha).dvd
    · obtain ⟨a, ha, rfl⟩ := List.mem_map.mp hpage
      exact (hlarge a ha).dvd
  · rw [hfits.reserved]
    rcases List.mem_append.mp hpage with hpage | hpage
    · obtain ⟨a, ha, rfl⟩ := List.mem_map.mp hpage
      exact bytes_subset (hsmall a ha).ge ((hsmall a ha).le_ltop.trans htop)
    · obtain ⟨a, ha, rfl⟩ := List.mem_map.mp hpage
      exact bytes_subset (hdata.trans (hlarge a ha).stop_le) (hlarge a ha).le
  · rw [PageState.pages, List.pairwise_append, List.pairwise_map, List.pairwise_map]
    refine ⟨?_, ?_, fun page hpage page' hpage' => ?_⟩
    · exact List.Pairwise.imp_of_mem (fun ha hb hne => (hsmall _ ha).disjoint (hsmall _ hb) hne)
        (List.nodup_append.mp h.nodupS).1
    · exact List.Pairwise.imp_of_mem (fun ha hb hne => (hlarge _ ha).disjoint (hlarge _ hb) hne)
        (List.nodup_append.mp h.nodupL).1
    · obtain ⟨a, ha, rfl⟩ := List.mem_map.mp hpage
      obtain ⟨b, hb, rfl⟩ := List.mem_map.mp hpage'
      exact (hsmall a ha).disjoint_large (hlarge b hb)
  · -- the page that comes next is free, or it is behind all pages
    rintro rfl
    have hcases := PageAlloc.alloc_cases halloc
    have hfreeS : s.alloc.snextfree ≠ 0 → s.alloc.snextfree ∈ S := fun hn => by
      cases S with
      | nil => exact absurd h.threadedS hn
      | cons a S => exact h.threadedS.1 ▸ List.mem_cons_self
    have hfreeL : s.alloc.lnextfree ≠ 0 → s.alloc.lnextfree ∈ L := fun hn => by
      cases L with
      | nil => exact absurd h.threadedL hn
      | cons a L => exact h.threadedL.1 ▸ List.mem_cons_self
    rcases List.mem_append.mp hpage with hpage | hpage
    · obtain ⟨a, ha, rfl⟩ := List.mem_map.mp hpage
      have hstop := (hsmall a ha).le_stop
      rcases hcases with ⟨-, hn, heq, -⟩ | ⟨-, -, heq, -⟩ | ⟨-, -, hn, heq, -⟩ | ⟨-, -, -, heq, hlt, -⟩
      · change a = s.alloc.snextfree at heq
        exact (List.nodup_append.mp h.nodupS).2.2 a ha _ (hfreeS hn) heq
      · change a = s.alloc.stop at heq
        omega
      · have hle := (h.large _ (List.mem_append_right _ (hfreeL hn))).stop_le
        change a = s.alloc.lnextfree at heq
        omega
      · change a = s.alloc.ltop at heq
        have hlt' := (hfits.ltop_large (heq ▸ hlt)).1
        omega
    · obtain ⟨a, ha, rfl⟩ := List.mem_map.mp hpage
      have hstop := (hlarge a ha).stop_le
      have hge := (hlarge a ha).ge
      rcases hcases with ⟨-, hn, heq, -⟩ | ⟨-, -, heq, hlt, -⟩ | ⟨-, -, hn, heq, -⟩ | ⟨-, -, -, heq, -⟩
      · have hle := (h.small _ (List.mem_append_right _ (hfreeS hn))).le_stop
        change a = s.alloc.snextfree at heq
        omega
      · change a = s.alloc.stop at heq
        omega
      · change a = s.alloc.lnextfree at heq
        exact (List.nodup_append.mp h.nodupL).2.2 a ha _ (hfreeL hn) heq
      · change a = s.alloc.ltop at heq
        omega
  · have hlt : s.alloc.snextfree < 2 ^ 64 :=
      head_lt h.threadedS fun b hb => ((h.small b (List.mem_append_right _ hb)).bounds hfits).2
    exact ⟨_, _, (hsmall a ha).free hfits s.mem, rfl, loadWord_storeWord hlt, rfl⟩
  · have hlt : s.alloc.lnextfree < 2 ^ 64 :=
      head_lt h.threadedL fun b hb => ((h.large b (List.mem_append_right _ hb)).bounds hfits).2
    exact ⟨_, _, (hlarge a ha).free hfits s.mem, rfl, loadWord_storeWord hlt, rfl⟩

end PageInv

/-! ### The region -/

/-- The region stays the same. -/
lemma PageStep.region {s s' : PageState} (h : PageStep s s') :
    s'.alloc.data = s.alloc.data ∧ s'.alloc.sregion = s.alloc.sregion := by
  have halloc : ∀ size ret p, s.alloc.alloc s.mem size = some (ret, p) →
      p.data = s.alloc.data ∧ p.sregion = s.alloc.sregion := by
    intro size ret p hp
    rcases PageAlloc.alloc_cases hp with ⟨-, -, -, rfl⟩ | ⟨-, -, -, -, rfl⟩ | ⟨-, -, -, -, rfl⟩
        | ⟨-, -, -, -, -, rfl⟩ <;> exact ⟨rfl, rfl⟩
  have hfree : ∀ a p m, s.alloc.free s.mem a = some (p, m) →
      p.data = s.alloc.data ∧ p.sregion = s.alloc.sregion := by
    intro a p m hp
    rw [PageAlloc.free] at hp
    obtain ⟨-, hp⟩ := Option.ite_none_right_eq_some.mp hp
    split at hp
    · obtain ⟨rfl, -⟩ := Prod.mk.inj (Option.some.inj hp)
      exact ⟨rfl, rfl⟩
    · obtain ⟨rfl, -⟩ := Prod.mk.inj (Option.some.inj hp)
      exact ⟨rfl, rfl⟩
  cases h with
  | small hp => exact halloc _ _ _ hp
  | large _ hp => exact halloc _ _ _ hp
  | freeSmall _ hp => exact hfree _ _ _ hp
  | freeLarge _ hp => exact hfree _ _ _ hp
  | write _ => exact ⟨rfl, rfl⟩

/-- The region has less than 4 GiB, it ends behind the size of a large page, and its end is not at
the end of the address space. -/
structure RegionFits (data sregion ssmall slarge : ℕ) : Prop where
  region : sregion < 2 ^ 32
  large : slarge ≤ data + sregion
  top : data + sregion + 2 * ssmall ≤ 2 ^ 64

section Init

variable {data sregion ssmall slarge : ℕ}

/-- A new allocator. -/
lemma PageAlloc.fits_init (h : RegionFits data sregion ssmall slarge) (hpos : 0 < data)
    (hs : 8 ≤ ssmall) (hl : ssmall ≤ slarge) : (PageAlloc.init data sregion ssmall slarge).Fits := by
  have hregion := h.region
  have hlarge := h.large
  have htop := h.top
  have hmod : data % ssmall < ssmall := Nat.mod_lt _ (by omega)
  have hdm := Nat.div_add_mod data ssmall
  -- the bottom is rounded up to a multiple of the small size
  obtain ⟨stop, hstop, hge, hlt, hdvd⟩ : ∃ stop,
      (data + if ssmall - data % ssmall = ssmall then 0 else ssmall - data % ssmall) % 2 ^ 64 = stop
      ∧ data ≤ stop ∧ stop < data + ssmall ∧ ssmall ∣ stop := by
    by_cases hr : data % ssmall = 0
    · refine ⟨data, ?_, le_rfl, by omega, Nat.dvd_of_mod_eq_zero hr⟩
      rw [if_pos (by omega), Nat.add_zero, Nat.mod_eq_of_lt (by omega)]
    · refine ⟨data + (ssmall - data % ssmall), ?_, by omega, by omega, ⟨data / ssmall + 1, ?_⟩⟩
      · rw [if_neg (by omega), Nat.mod_eq_of_lt (by omega)]
      · rw [Nat.mul_succ]
        omega
  -- the top is rounded down to a multiple of the large size
  have hbase : ((data + sregion) % 2 ^ 64 + (2 ^ 64 - slarge)) % 2 ^ 64 = data + sregion - slarge := by
    have h₁ : (data + sregion) % 2 ^ 64 = data + sregion := Nat.mod_eq_of_lt (by omega)
    have h₂ : slarge ≤ 2 ^ 64 := by omega
    rw [h₁]
    omega
  have hltop : (PageAlloc.init data sregion ssmall slarge).ltop
      = data + sregion - slarge - (data + sregion - slarge) % slarge := by
    rw [← hbase]
    rfl
  have hstop' : (PageAlloc.init data sregion ssmall slarge).stop = stop := hstop
  refine ⟨hs, hl, hpos, hregion, htop, hstop'.symm ▸ hge, ?_, hstop'.symm ▸ hdvd, ?_, ?_⟩
  · rw [hstop']
    show stop < data + sregion + ssmall
    omega
  · rw [hltop]
    exact Nat.dvd_sub_mod _
  · rw [hltop]
    show data + sregion - slarge - (data + sregion - slarge) % slarge + slarge ≤ data + sregion
    omega

/-- **Runs keep the invariant.** -/
theorem PageRun.inv {s : PageState} (h : RegionFits data sregion ssmall slarge) (hpos : 0 < data)
    (hs : 8 ≤ ssmall) (hl : ssmall ≤ slarge) (hr : PageRun data sregion ssmall slarge s) :
    (∃ S L, PageInv s S L) ∧ s.alloc.data = data ∧ s.alloc.sregion = sregion := by
  induction hr with
  | init m =>
      refine ⟨⟨[], [], PageAlloc.fits_init h hpos hs hl, fun a ha => ?_, fun a ha => ?_, List.nodup_nil,
        List.nodup_nil, rfl, rfl⟩, rfl, rfl⟩
      · cases ha
      · cases ha
  | step _ hstep ih =>
      obtain ⟨⟨S, L, hinv⟩, hdata, hregion⟩ := ih
      refine ⟨hinv.step hstep, ?_⟩
      rw [← hdata, ← hregion]
      exact hstep.region

end Init

/-- **The page allocator is safe** over a region of less than 4 GiB that ends behind the size of a
large page and before the end of the address space: whatever is allocated, released and written,
the pages that are handed out are aligned, in the region and apart from each other, no page is
handed out twice and a page that is released comes to the front of the list of its size. -/
theorem page_alloc_safe {data sregion ssmall slarge : ℕ} (h : RegionFits data sregion ssmall slarge)
    (hpos : 0 < data) (hs : 8 ≤ ssmall) (hl : ssmall ≤ slarge) {s : PageState}
    (hr : PageRun data sregion ssmall slarge s) : s.Safe data sregion := by
  obtain ⟨⟨S, L, hinv⟩, hdata, hregion⟩ := hr.inv h hpos hs hl
  have hsafe := hinv.safe
  rwa [hdata, hregion] at hsafe

/-- The calls of a script: an allocation of either size, or the release of a page. -/
inductive PageCall where
  | small
  | large
  | free (a : ℕ)

/-- A call, if it is a step. -/
def PageState.call (s : PageState) : PageCall → Option PageState
  | .small => (s.alloc.alloc s.mem s.alloc.ssize).map fun r =>
      { s with alloc := r.2, smalls := r.1 :: s.smalls }
  | .large =>
      if s.alloc.lsize ≠ s.alloc.ssize then
        (s.alloc.alloc s.mem s.alloc.lsize).map fun r => { s with alloc := r.2, larges := r.1 :: s.larges }
      else none
  | .free a =>
      if a ∈ s.smalls then (s.alloc.free s.mem a).map fun r => ⟨r.1, r.2, s.smalls.erase a, s.larges⟩
      else if a ∈ s.larges then (s.alloc.free s.mem a).map fun r => ⟨r.1, r.2, s.smalls, s.larges.erase a⟩
      else none

lemma PageState.call_step {s s' : PageState} {c : PageCall} (h : s.call c = some s') : PageStep s s' := by
  cases c with
  | small =>
      obtain ⟨⟨ret, p⟩, halloc, rfl⟩ := Option.map_eq_some_iff.mp h
      exact .small halloc
  | large =>
      obtain ⟨hne, h⟩ := Option.ite_none_right_eq_some.mp h
      obtain ⟨⟨ret, p⟩, halloc, rfl⟩ := Option.map_eq_some_iff.mp h
      exact .large hne halloc
  | free a =>
      rw [PageState.call] at h
      split at h
      next ha =>
        obtain ⟨⟨p, m⟩, hfree, rfl⟩ := Option.map_eq_some_iff.mp h
        exact .freeSmall ha hfree
      next =>
        obtain ⟨ha, h⟩ := Option.ite_none_right_eq_some.mp h
        obtain ⟨⟨p, m⟩, hfree, rfl⟩ := Option.map_eq_some_iff.mp h
        exact .freeLarge ha hfree

/-- **A script is a run.** -/
lemma PageRun.script {data sregion ssmall slarge : ℕ} {calls : List PageCall} {s s' : PageState}
    (h : PageRun data sregion ssmall slarge s) (hcalls : calls.foldlM PageState.call s = some s') :
    PageRun data sregion ssmall slarge s' := by
  induction calls generalizing s with
  | nil => exact Option.some.inj hcalls ▸ h
  | cons c calls ih =>
      rw [List.foldlM_cons] at hcalls
      obtain ⟨s₁, hcall, hcalls⟩ := Option.bind_eq_some_iff.mp hcalls
      exact ih (h.step (PageState.call_step hcall)) hcalls

/-- A region of 1 GiB with two pages of each size, of which one is handed out again. -/
theorem page_alloc_safe_one : ∃ s, PageRun 0x7f0000000010 (2 ^ 30) 4096 524288 s
    ∧ s.smalls = [0x7f0000001000, 0x7f0000002000] ∧ s.larges = [0x7f003ff80000, 0x7f003ff00000]
    ∧ s.Safe 0x7f0000000010 (2 ^ 30) := by
  have hfits : RegionFits 0x7f0000000010 (2 ^ 30) 4096 524288 := ⟨by decide, by decide, by decide⟩
  obtain ⟨s, hs, hpages⟩ := Option.map_eq_some_iff.mp (show
    (([.small, .small, .large, .large, .free 0x7f0000001000, .free 0x7f003ff80000, .large, .small] :
      List PageCall).foldlM PageState.call ⟨PageAlloc.init 0x7f0000000010 (2 ^ 30) 4096 524288, fun _ => 0, [], []⟩).map
      (fun s => (s.smalls, s.larges)) = some ([0x7f0000001000, 0x7f0000002000], [0x7f003ff80000, 0x7f003ff00000])
    by decide +kernel)
  obtain ⟨hsmalls, hlarges⟩ := Prod.mk.inj hpages
  have hrun := (PageRun.init _).script hs
  exact ⟨s, hrun, hsmalls, hlarges, page_alloc_safe hfits (by decide) (by decide) (by decide) hrun⟩

/-- With a region of 4 GiB nothing is reserved, and a page lies outside of it. -/
theorem not_page_alloc_safe : ¬ ∀ data sregion ssmall slarge : ℕ, 0 < data → sregion < 2 ^ 64 →
    data + sregion + 2 * ssmall ≤ 2 ^ 64 → 8 ≤ ssmall → ssmall ≤ slarge → slarge < 2 ^ 32 →
    ∀ s, PageRun data sregion ssmall slarge s → s.Safe data sregion := by
  intro h
  have halloc : (PageAlloc.init 0x7f0000000010 (2 ^ 32) 4096 524288).alloc (fun _ => 0) 4096
      = some (0x7f0000001000,
        ⟨0x7f0000000010, 0x7f0000002000, 0x7f00fff80000, 0, 0, 2 ^ 32, 4096, 524288, 2 ^ 32, 4096⟩) := by
    decide
  have hinit : PageRun 0x7f0000000010 (2 ^ 32) 4096 524288
      ⟨PageAlloc.init 0x7f0000000010 (2 ^ 32) 4096 524288, fun _ => 0, [], []⟩ := PageRun.init _
  have hsafe := h 0x7f0000000010 (2 ^ 32) 4096 524288 (by decide) (by decide) (by decide) (by decide)
    (by decide) (by decide) _ (hinit.step (PageStep.small halloc))
  have hin := hsafe.inside (0x7f0000001000, 4096) List.mem_cons_self
  have hmem : 0x7f0000001000 ∈ bytes 0x7f0000000010 (PageAlloc.reserved (2 ^ 32)) :=
    hin (mem_bytes.mpr (by decide))
  exact absurd (mem_bytes.mp hmem).2 (by decide)

end Furious
