import Mathlib.Data.List.Destutter
import Furious.Memory.StackMemory

/-!
Flushing a stack allocator.

A flush looks for the data pages in the records of the frames, from the last frame on. Inside
a frame it counts its records down but does not read them: only the newest record of a
frame is looked at.

* `StackAlloc.flushLoop`, `StackAlloc.flushFrames`, `StackAlloc.flush`: `fdb_stack_alloc_flush`;
* `newest`: the newest records of the frames;
* `flushLoop_spin`, `enter_spec`: one frame, and all of them;
* `StackInv.flush`: **a flush ends, and returns the pages of the newest records and the frames**;
* `stack_flush_iff`: **when these are the pages that are held**.
-/

namespace Furious

namespace StackAlloc

/-- The loop `while(next_alloc != NULL)` and the return of the last page behind it: the pages that
are returned, and the records that are read. -/
def flushLoop (c : StackAlloc) (m : Mem) : ℕ → ℕ → ℕ → ℕ → ℕ → Option (List ℕ × List ℕ)
  | 0, _, _, nextAlloc, last => if nextAlloc = 0 then some ([last], []) else none
  | fuel + 1, fheader, nextOffset, nextAlloc, last =>
      if nextAlloc = 0 then some ([last], [])
      else do
        let page := (c.pageAddrDecode nextAlloc).1
        let freed := if page ≠ last then [last] else []
        let nextOffset := sub32 nextOffset 8
        let (pages, reads) ←
          if nextOffset = 0 then
            let fheader := Frame.previous m fheader
            if fheader ≠ 0 then do
              let nextOffset := sub32 (Frame.nextFree m fheader) 8
              let nextAlloc := loadWord m (Frame.data fheader nextOffset)
              let (pages, reads) ← flushLoop c m fuel fheader nextOffset nextAlloc page
              some (pages, nextAlloc :: reads)
            else flushLoop c m fuel fheader nextOffset 0 page
          else flushLoop c m fuel fheader nextOffset nextAlloc page
        some (freed ++ pages, reads)

/-- The loop over the frames, each of which is returned after its link has been read. -/
def flushFrames (m : Mem) : ℕ → ℕ → Option (List ℕ)
  | 0, fheader => if fheader = 0 then some [] else none
  | fuel + 1, fheader =>
      if fheader = 0 then some []
      else (flushFrames m fuel (Frame.previous m fheader)).map fun l => fheader :: l

/-- `fdb_stack_alloc_flush`: the records that are read, the pages that are returned, and the
allocator. -/
def flush (c : StackAlloc) (m : Mem) (fuel : ℕ) : Option (List ℕ × List ℕ × StackAlloc) := do
  let fheader := if c.lastFrame ≠ 0 ∧ Frame.nextFree m c.lastFrame = 0 then Frame.previous m c.lastFrame
    else c.lastFrame
  let (pages, reads) ←
    if fheader ≠ 0 then do
      let nextOffset := sub32 (Frame.nextFree m fheader) 8
      let nextAlloc := loadWord m (Frame.data fheader nextOffset)
      let (pages, reads) ← c.flushLoop m fuel fheader nextOffset nextAlloc (c.pageAddrDecode nextAlloc).1
      some (pages, nextAlloc :: reads)
    else some ([], [])
  let frames ← flushFrames m fuel c.lastFrame
  some (reads, pages ++ frames, { c with nextPage := 0, nextOffset := 0, lastFrame := 0 })

end StackAlloc

/-! ### Lists of pages -/

/-- In a grouped list nothing stands between two equal elements. -/
lemma Grouped.not_sublist {l : List ℕ} (h : Grouped l) {a b : ℕ} (hab : a ≠ b) :
    ¬ List.Sublist [a, b, a] l := by
  induction l with
  | nil => exact fun hs => by cases hs
  | cons x l ih =>
      intro hs
      rcases hs with _ | ⟨_, hs⟩ | ⟨_, hs⟩
      · exact ih h.2 ‹_›
      · have hmem : a ∈ l := hs.subset (by simp)
        have hhead := h.1.resolve_left (not_not.mpr hmem)
        cases l with
        | nil => cases hmem
        | cons y l =>
            obtain rfl : y = a := Option.some.inj hhead
            refine ih h.2 ?_
            rcases hs with _ | ⟨_, hs⟩ | ⟨_, hs⟩
            · exact List.Sublist.cons_cons _ ‹_›
            · exact absurd rfl hab

/-- The pages from which a list of them changes, when equal ones are next to each other. -/
lemma nodup_destutter' {l : List ℕ} : ∀ {x : ℕ}, (∀ a b, a ≠ b → ¬ List.Sublist [a, b, a] (x :: l)) →
    (l.destutter' (· ≠ ·) x).Nodup ∧ ∀ a, a ∈ l.destutter' (· ≠ ·) x ↔ a ∈ x :: l := by
  induction l with
  | nil => exact fun {x} _ => ⟨List.nodup_singleton x, fun a => Iff.rfl⟩
  | cons y l ih =>
      intro x h
      obtain ⟨hnd, hmem⟩ := ih (x := y) fun a b hab hs => h a b hab (hs.cons x)
      by_cases hxy : x = y
      · subst hxy
        rw [List.destutter'_cons_neg _ (not_not.mpr rfl)]
        exact ⟨hnd, fun a => by rw [hmem]; simp⟩
      · rw [List.destutter'_cons_pos _ hxy]
        refine ⟨List.nodup_cons.mpr ⟨fun hx => ?_, hnd⟩, fun a => by
          rw [List.mem_cons, hmem, List.mem_cons, List.mem_cons, List.mem_cons]⟩
        have hxl : x ∈ l := (List.mem_cons.mp ((hmem x).mp hx)).resolve_left hxy
        exact h x y hxy ((List.singleton_sublist.mpr hxl).cons_cons y |>.cons_cons x)

/-! ### The walk over the frames -/

/-- The newest records of the frames that have one. -/
def newest (frames : List (ℕ × List ℕ)) : List ℕ := frames.filterMap fun e => e.2.getLast?

/-- They are some of the records. -/
lemma newest_sublist (frames : List (ℕ × List ℕ)) :
    (newest frames).Sublist (frames.flatMap fun e => e.2.reverse) := by
  induction frames with
  | nil => exact List.Sublist.refl _
  | cons e l ih =>
      rw [newest, List.filterMap_cons, List.flatMap_cons]
      cases hlast : e.2.getLast? with
      | none => exact ih.trans (List.sublist_append_right _ _)
      | some a =>
          refine (show List.Sublist [a] e.2.reverse from ?_).append ih
          rw [List.singleton_sublist, List.mem_reverse]
          exact List.mem_of_getLast? hlast

namespace StackAlloc

variable {c : StackAlloc} {m : Mem}

/-- The loop from a frame on, when `last` is the page observed last. -/
def enter (c : StackAlloc) (m : Mem) (fuel fheader last : ℕ) : Option (List ℕ × List ℕ) :=
  if fheader ≠ 0 then
    let nextOffset := sub32 (Frame.nextFree m fheader) 8
    let nextAlloc := loadWord m (Frame.data fheader nextOffset)
    (c.flushLoop m fuel fheader nextOffset nextAlloc last).map fun r => (r.1, nextAlloc :: r.2)
  else c.flushLoop m fuel fheader 0 0 last

lemma flushLoop_zero (fuel fheader nextOffset last : ℕ) :
    c.flushLoop m fuel fheader nextOffset 0 last = some ([last], []) := by
  cases fuel <;> rfl

/-- One iteration. -/
lemma flushLoop_succ {a : ℕ} (ha : a ≠ 0) (fuel f o last : ℕ) :
    c.flushLoop m (fuel + 1) f o a last =
      (if sub32 o 8 = 0 then c.enter m fuel (Frame.previous m f) (c.pageAddrDecode a).1
        else c.flushLoop m fuel f (sub32 o 8) a (c.pageAddrDecode a).1).map fun r =>
          ((if (c.pageAddrDecode a).1 ≠ last then [last] else []) ++ r.1, r.2) := by
  rw [flushLoop, if_neg ha]
  by_cases ho : sub32 o 8 = 0
  · by_cases hf : Frame.previous m f = 0
    · simp only [ho, hf, if_true, enter, ne_eq, not_true_eq_false, if_false, flushLoop_zero,
        Option.bind_eq_bind, Option.bind_some, Option.map_some]
    · simp only [ho, if_true, enter, ne_eq, hf, not_false_eq_true]
      cases c.flushLoop m fuel (Frame.previous m f) (sub32 (Frame.nextFree m (Frame.previous m f)) 8)
        (loadWord m (Frame.data (Frame.previous m f) (sub32 (Frame.nextFree m (Frame.previous m f)) 8)))
        (c.pageAddrDecode a).1 <;> rfl
  · simp only [ho, if_false]
    cases c.flushLoop m fuel f (sub32 o 8) a (c.pageAddrDecode a).1 <;> rfl

/-- **Inside a frame** the offset is counted down, and nothing else happens. -/
lemma flushLoop_spin {a : ℕ} (ha : a ≠ 0) (f : ℕ) : ∀ (j : ℕ), 8 * (j + 1) < 2 ^ 32 → ∀ fuel last,
    c.flushLoop m (fuel + (j + 1)) f (8 * (j + 1)) a last =
      (c.enter m fuel (Frame.previous m f) (c.pageAddrDecode a).1).map fun r =>
        ((if (c.pageAddrDecode a).1 ≠ last then [last] else []) ++ r.1, r.2) := by
  intro j
  induction j with
  | zero =>
      intro _ fuel last
      rw [flushLoop_succ ha, if_pos (show sub32 (8 * (0 + 1)) 8 = 0 by decide)]
  | succ j ih =>
      intro hj fuel last
      have hsub : sub32 (8 * (j + 1 + 1)) 8 = 8 * (j + 1) := by
        rw [sub32]
        omega
      rw [← Nat.add_assoc fuel (j + 1) 1, flushLoop_succ ha, hsub,
        if_neg (show ¬ 8 * (j + 1) = 0 by omega), ih (by omega)]
      simp

/-- The offset of the newest record can be zero, and then the counter wraps around. -/
lemma flushLoop_frame {a : ℕ} (ha : a ≠ 0) (f : ℕ) {n : ℕ} (hn : 8 * n < 2 ^ 32) : ∃ k, ∀ fuel last,
    c.flushLoop m (fuel + k) f (8 * n) a last =
      (c.enter m fuel (Frame.previous m f) (c.pageAddrDecode a).1).map fun r =>
        ((if (c.pageAddrDecode a).1 ≠ last then [last] else []) ++ r.1, r.2) := by
  cases n with
  | zero =>
      refine ⟨2 ^ 29 - 1 + 1, fun fuel last => ?_⟩
      have hsub : sub32 (8 * 0) 8 = 8 * (2 ^ 29 - 2 + 1) := by
        rw [sub32]
        norm_num
      have hcount : fuel + (2 ^ 29 - 1 + 1) = fuel + (2 ^ 29 - 2 + 1) + 1 := by omega
      rw [hcount, flushLoop_succ ha, hsub,
        if_neg (show ¬ 8 * (2 ^ 29 - 2 + 1) = 0 by norm_num), flushLoop_spin ha f _ (by norm_num)]
      simp
  | succ n => exact ⟨n + 1, fun fuel last => flushLoop_spin ha f n hn fuel last⟩

/-- **All frames**: the newest record of each is read, and a page is returned when the next one is
another. -/
theorem enter_spec {k : ℕ} (hc : c.Configured k) {l : List (ℕ × List ℕ)} :
    ∀ {head : ℕ}, Frames m (2 ^ k) head l → (∀ e ∈ l, e.2 ≠ []) →
      (∀ e ∈ l, ∀ a ∈ e.2, a ≠ 0 ∧ a < 2 ^ 64) → ∃ n, ∀ fuel ≥ n, ∀ last,
        c.enter m fuel head last
          = some (((newest l).map (base k)).destutter' (· ≠ ·) last, newest l) := by
  induction l with
  | nil =>
      rintro head rfl - -
      exact ⟨0, fun fuel _ last => flushLoop_zero fuel 0 0 last⟩
  | cons e l ih =>
      rintro head ⟨rfl, hpos, hholds, hrest⟩ hne hval
      obtain ⟨n, hn⟩ := ih hrest (fun e' he => hne e' (List.mem_cons_of_mem _ he))
        fun e' he => hval e' (List.mem_cons_of_mem _ he)
      have hrec : e.2 ≠ [] := hne e List.mem_cons_self
      have hlen : 0 < e.2.length := List.length_pos_of_ne_nil hrec
      have hle := hholds.le
      have hsmall := hholds.small
      have hsub : sub32 (Frame.nextFree m e.1) 8 = 8 * (e.2.length - 1) := by
        rw [hholds.nextFree, sub32]
        omega
      have hlast : e.2.getLast? = some (loadWord m (Frame.data e.1 (8 * (e.2.length - 1)))) := by
        rw [List.getLast?_eq_getElem?]
        exact hholds.record _ (by omega)
      obtain ⟨a, ha⟩ : ∃ a, loadWord m (Frame.data e.1 (8 * (e.2.length - 1))) = a := ⟨_, rfl⟩
      rw [ha] at hlast
      obtain ⟨hane, halt⟩ := hval e List.mem_cons_self a (List.mem_of_getLast? hlast)
      obtain ⟨steps, hsteps⟩ := flushLoop_frame (c := c) (m := m) hane e.1
        (show 8 * (e.2.length - 1) < 2 ^ 32 by omega)
      have hnewest : newest (e :: l) = a :: newest l := by
        rw [newest, List.filterMap_cons, hlast]
        rfl
      refine ⟨n + steps, fun fuel hfuel last => ?_⟩
      obtain ⟨fuel, rfl⟩ := Nat.exists_eq_add_of_le' (show steps ≤ fuel by omega)
      rw [enter, if_pos hpos, hsub]
      simp only [ha]
      rw [hsteps, hn fuel (by omega), hc.pageAddrDecode halt, hnewest, List.map_cons]
      by_cases hpage : base k a = last
      · subst hpage
        rw [List.destutter'_cons_neg _ (not_not.mpr rfl)]
        simp
      · rw [List.destutter'_cons_pos _ (Ne.symm hpage)]
        simp [hpage]

/-- The frames themselves are returned one after the other. -/
lemma flushFrames_spec {size : ℕ} {l : List (ℕ × List ℕ)} : ∀ {head : ℕ}, Frames m size head l →
    ∀ fuel ≥ l.length, flushFrames m fuel head = some (l.map Prod.fst) := by
  induction l with
  | nil =>
      rintro head rfl fuel -
      cases fuel <;> rfl
  | cons e l ih =>
      rintro head ⟨rfl, hpos, -, hrest⟩ fuel hfuel
      cases fuel with
      | zero => cases hfuel
      | succ fuel =>
          rw [flushFrames, if_neg hpos, ih hrest fuel (Nat.le_of_succ_le_succ hfuel)]
          rfl

end StackAlloc

/-! ### The flush -/

/-- The frames that a memory has are determined by it. -/
lemma Frames.unique {m : Mem} {size : ℕ} {l : List (ℕ × List ℕ)} : ∀ {head : ℕ} {l' : List (ℕ × List ℕ)},
    Frames m size head l → Frames m size head l' → l = l' := by
  have hrecords : ∀ {f : ℕ} {r r' : List ℕ}, Frame.Holds m size f r → Frame.Holds m size f r' → r = r' := by
    intro f r r' h h'
    have hlen : r.length = r'.length := by
      have := h.nextFree.symm.trans h'.nextFree
      omega
    refine List.ext_getElem? fun i => ?_
    by_cases hi : i < r.length
    · rw [h.record i hi, h'.record i (hlen ▸ hi)]
    · rw [List.getElem?_eq_none (by omega), List.getElem?_eq_none (by omega)]
  induction l with
  | nil =>
      rintro head l' rfl h'
      cases l' with
      | nil => rfl
      | cons e l' => exact absurd h'.1.symm h'.2.1
  | cons e l ih =>
      rintro head l' ⟨rfl, hpos, hholds, hrest⟩ h'
      cases l' with
      | nil => exact absurd h' hpos
      | cons e' l' =>
          obtain ⟨f, r⟩ := e
          obtain ⟨f', r'⟩ := e'
          obtain ⟨hf, -, hholds', hrest'⟩ := h'
          obtain rfl : f = f' := hf
          obtain rfl : r = r' := hrecords hholds hholds'
          rw [ih hrest hrest']

/-- **What a flush should do**: it ends, it reads the addresses of live allocations only, and it
returns each page that is held once. -/
def StackState.Flushes (s : StackState) : Prop :=
  ∃ n, ∀ fuel ≥ n, ∃ reads released c, s.alloc.flush s.mem fuel = some (reads, released, c)
    ∧ (∀ a ∈ reads, a ∈ s.live.map fun a => a.1.addr) ∧ released.Perm s.held

/-- Every page that is held is a frame, or the newest record of a frame lies in it. -/
def StackState.Covered (s : StackState) : Prop :=
  ∃ frames, Frames s.mem s.alloc.pageSize s.alloc.lastFrame frames
    ∧ ∀ page ∈ s.held, page ∈ frames.map Prod.fst ∨ ∃ a ∈ newest frames, (s.alloc.pageAddrDecode a).1 = page

namespace StackInv

variable {k : ℕ} {s : StackState} {frames : List (ℕ × List ℕ)}

/-- The recorded addresses. -/
lemma record_mem (h : StackInv k s frames) {e : ℕ × List ℕ} (he : e ∈ frames) {a : ℕ} (ha : a ∈ e.2) :
    a ∈ s.live.map fun a => a.1.addr := by
  rw [← h.recorded.records]
  exact List.mem_flatMap.mpr ⟨e, he, List.mem_reverse.mpr ha⟩

/-- The page of a recorded address is held. -/
lemma base_mem (h : StackInv k s frames) {a : ℕ} (ha : a ∈ s.live.map fun a => a.1.addr) :
    base k a ∈ s.held ∧ base k a ∉ frames.map Prod.fst ∧ a ≠ 0 ∧ a < 2 ^ 64 := by
  obtain ⟨b, hb, rfl⟩ := List.mem_map.mp ha
  have hmem := h.placed.page_mem b.1 (List.mem_map_of_mem hb)
  have hpos := h.regions.pos _ hmem
  have hle := h.regions.le _ hmem
  have hmod := Nat.mod_lt b.1.addr (Nat.two_pow_pos k)
  have hbase := base_add_mod k b.1.addr
  exact ⟨hmem, fun hf => (h.apart _ hf).2 b hb rfl, by omega, by omega⟩

/-- **A flush** ends; it reads the newest records, and returns their pages, each once when they are
the same, and the frames. -/
theorem flush (h : StackInv k s frames) : ∃ n, ∀ fuel ≥ n, s.alloc.flush s.mem fuel
    = some (newest frames, ((newest frames).map (base k)).destutter (· ≠ ·) ++ frames.map Prod.fst,
      { s.alloc with nextPage := 0, nextOffset := 0, lastFrame := 0 }) := by
  have hval : ∀ e ∈ frames, ∀ a ∈ e.2, a ≠ 0 ∧ a < 2 ^ 64 := fun e he a ha =>
    (h.base_mem (h.record_mem he ha)).2.2
  -- the frames with records, and the first of them
  have hstart : ∃ l, newest l = newest frames ∧ (∀ e ∈ l, e ∈ frames) ∧ (∀ e ∈ l, e.2 ≠ [])
      ∧ Frames s.mem (2 ^ k)
        (if s.alloc.lastFrame ≠ 0 ∧ Frame.nextFree s.mem s.alloc.lastFrame = 0
          then Frame.previous s.mem s.alloc.lastFrame else s.alloc.lastFrame) l := by
    have hlinked := h.recorded.linked
    have h32 := h.configured.bounds.1
    cases frames with
    | nil =>
        have hzero : s.alloc.lastFrame = 0 := hlinked
        refine ⟨[], rfl, by simp, by simp, ?_⟩
        rw [hzero, if_neg (fun hn => hn.1 rfl)]
        rfl
    | cons e l =>
        obtain ⟨hhead, hpos, hholds, hrest⟩ := hlinked
        have hfull : ∀ e' ∈ l, e'.2 ≠ [] := by
          intro e' he' hnil
          have hfull := h.recorded.full e' he'
          rw [hnil, List.length_nil] at hfull
          omega
        have hnext := hholds.nextFree
        rw [hhead]
        by_cases hempty : e.2 = []
        · refine ⟨l, ?_, fun e' he' => List.mem_cons_of_mem e he', hfull, ?_⟩
          · rw [newest, newest, List.filterMap_cons, hempty]
            rfl
          · rw [hempty] at hnext
            rw [if_pos ⟨hpos, hnext⟩]
            exact hrest
        · refine ⟨e :: l, rfl, fun e' he' => he', List.forall_mem_cons.mpr ⟨hempty, hfull⟩, ?_⟩
          have hlen : 0 < e.2.length := List.length_pos_of_ne_nil hempty
          rw [if_neg (fun hn => by omega)]
          exact ⟨rfl, hpos, hholds, hrest⟩
  obtain ⟨l, hnewest, hsub, hne, hframes⟩ := hstart
  obtain ⟨n, hn⟩ := StackAlloc.enter_spec h.configured hframes hne fun e he => hval e (hsub e he)
  refine ⟨max n frames.length, fun fuel hfuel => ?_⟩
  have hloop := hn fuel (le_trans (le_max_left _ _) hfuel)
  have hlast := StackAlloc.flushFrames_spec h.recorded.linked fuel (le_trans (le_max_right _ _) hfuel)
  rw [← hnewest]
  unfold StackAlloc.flush
  revert hframes hloop
  generalize (if s.alloc.lastFrame ≠ 0 ∧ Frame.nextFree s.mem s.alloc.lastFrame = 0
    then Frame.previous s.mem s.alloc.lastFrame else s.alloc.lastFrame) = head
  intro hframes hloop
  cases l with
  | nil =>
      obtain rfl : head = 0 := hframes
      simp [hlast, newest]
  | cons e l =>
      obtain ⟨rfl, hpos, hholds, -⟩ := hframes
      have hlen : 0 < e.2.length := List.length_pos_of_ne_nil (hne e List.mem_cons_self)
      have hsmall := hholds.small
      have hle := hholds.le
      have hsubo : sub32 (Frame.nextFree s.mem e.1) 8 = 8 * (e.2.length - 1) := by
        rw [hholds.nextFree, sub32]
        omega
      have hget : e.2.getLast? = some (loadWord s.mem (Frame.data e.1 (8 * (e.2.length - 1)))) := by
        rw [List.getLast?_eq_getElem?]
        exact hholds.record _ (by omega)
      obtain ⟨a, ha⟩ : ∃ a, loadWord s.mem (Frame.data e.1 (8 * (e.2.length - 1))) = a := ⟨_, rfl⟩
      rw [ha] at hget
      have hcons : newest (e :: l) = a :: newest l := by
        rw [newest, List.filterMap_cons, hget]
        rfl
      have halt := (hval e (hsub e List.mem_cons_self) a (List.mem_of_getLast? hget)).2
      have henter := hloop (base k a)
      rw [StackAlloc.enter, if_pos hpos, hsubo] at henter
      simp only [ha] at henter
      obtain ⟨r, hr, hreq⟩ := Option.map_eq_some_iff.mp henter
      obtain ⟨hr₁, hr₂⟩ := Prod.mk.inj hreq
      simp only [ne_eq, hpos, not_false_eq_true, if_true, hsubo, ha, h.configured.pageAddrDecode halt, hr,
        Option.bind_eq_bind, Option.bind_some, hlast, hr₂, hr₁]
      rw [hcons, List.map_cons, List.destutter'_cons_neg _ (not_not.mpr rfl), List.destutter_cons']

/-- The pages that a flush returns are different ones that are held. -/
lemma released (h : StackInv k s frames) :
    (((newest frames).map (base k)).destutter (· ≠ ·) ++ frames.map Prod.fst).Nodup
      ∧ ∀ page, page ∈ ((newest frames).map (base k)).destutter (· ≠ ·) ++ frames.map Prod.fst ↔
        page ∈ s.held ∧ (page ∈ frames.map Prod.fst ∨ page ∈ (newest frames).map (base k)) := by
  have hnewest : ∀ a ∈ newest frames, a ∈ s.live.map fun a => a.1.addr := fun a ha => by
    rw [← h.recorded.records]
    exact (newest_sublist frames).subset ha
  have hgrouped : ∀ a b, a ≠ b → ¬ List.Sublist [a, b, a] ((newest frames).map (base k)) := by
    intro a b hab hs
    have hsub := (newest_sublist frames).map (base k)
    rw [h.recorded.records, List.map_map] at hsub
    have hg := h.placed.grouped.2
    rw [List.map_map] at hg
    exact Grouped.not_sublist hg hab (hs.trans hsub)
  have hdest : (((newest frames).map (base k)).destutter (· ≠ ·)).Nodup
      ∧ ∀ a, a ∈ ((newest frames).map (base k)).destutter (· ≠ ·) ↔ a ∈ (newest frames).map (base k) := by
    cases hl : (newest frames).map (base k) with
    | nil => exact ⟨List.nodup_nil, fun a => Iff.rfl⟩
    | cons x l =>
        rw [hl] at hgrouped
        rw [List.destutter_cons']
        exact nodup_destutter' hgrouped
  refine ⟨List.nodup_append.mpr ⟨hdest.1, h.recorded.nodup, ?_⟩, fun page => ?_⟩
  · rintro p hp q hq rfl
    obtain ⟨a, ha, rfl⟩ := List.mem_map.mp ((hdest.2 p).mp hp)
    exact (h.base_mem (hnewest a ha)).2.1 hq
  · rw [List.mem_append, hdest.2]
    constructor
    · rintro (hp | hp)
      · obtain ⟨a, ha, rfl⟩ := List.mem_map.mp hp
        exact ⟨(h.base_mem (hnewest a ha)).1, Or.inr hp⟩
      · obtain ⟨e, he, rfl⟩ := List.mem_map.mp hp
        exact ⟨h.recorded.mem e he, Or.inl hp⟩
    · rintro ⟨-, hp | hp⟩
      · exact Or.inr hp
      · exact Or.inl hp

/-- The condition, with the frames of the invariant. -/
lemma covered_iff (h : StackInv k s frames) : s.Covered ↔
    ∀ page ∈ s.held, page ∈ frames.map Prod.fst ∨ page ∈ (newest frames).map (base k) := by
  have hpage : ∀ a ∈ newest frames, (s.alloc.pageAddrDecode a).1 = base k a := fun a ha => by
    have hmem : a ∈ s.live.map fun a => a.1.addr := by
      rw [← h.recorded.records]
      exact (newest_sublist frames).subset ha
    rw [h.configured.pageAddrDecode (h.base_mem hmem).2.2.2]
  constructor
  · rintro ⟨frames', hframes', hcov⟩ page hp
    rw [h.configured.pageSize] at hframes'
    obtain rfl := Frames.unique h.recorded.linked hframes'
    refine (hcov page hp).imp_right ?_
    rintro ⟨a, ha, rfl⟩
    exact List.mem_map.mpr ⟨a, ha, (hpage a ha).symm⟩
  · intro hcov
    refine ⟨frames, h.configured.pageSize.symm ▸ h.recorded.linked, fun page hp => (hcov page hp).imp_right ?_⟩
    intro hmem
    obtain ⟨a, ha, rfl⟩ := List.mem_map.mp hmem
    exact ⟨a, ha, hpage a ha⟩

/-- **A flush does what it should** if and only if it finds all pages that are held. -/
theorem flushes_iff (h : StackInv k s frames) : s.Flushes ↔ s.Covered := by
  obtain ⟨n, hn⟩ := h.flush
  obtain ⟨hnd, hmem⟩ := h.released
  rw [h.covered_iff]
  constructor
  · rintro ⟨n', hn'⟩ page hp
    obtain ⟨reads, released, c, hflush, -, hperm⟩ := hn' (max n n') (le_max_right _ _)
    rw [hn (max n n') (le_max_left _ _)] at hflush
    obtain ⟨-, hrest⟩ := Prod.mk.inj (Option.some.inj hflush)
    obtain ⟨rfl, -⟩ := Prod.mk.inj hrest
    exact ((hmem page).mp (hperm.mem_iff.mpr hp)).2
  · intro hcov
    refine ⟨n, fun fuel hfuel => ⟨_, _, _, hn fuel hfuel, fun a ha => ?_, ?_⟩⟩
    · rw [← h.recorded.records]
      exact (newest_sublist frames).subset ha
    · refine (List.perm_ext_iff_of_nodup hnd (h.regions.nodup (Nat.two_pow_pos k))).mpr fun page => ?_
      rw [hmem]
      exact and_iff_left_of_imp (hcov page)

end StackInv

/-- **When a flush does what it should**: in every history of allocations and pops, just before a
flush, it does so if and only if each page that is held is a frame, or the page of the newest record of
a frame. -/
theorem stack_flush_iff {pageSize : ℕ} (h : ∃ k, 5 ≤ k ∧ k ≤ 30 ∧ pageSize = 2 ^ k) {s : StackState}
    (hr : StackRun pageSize s) : s.Flushes ↔ s.Covered := by
  obtain ⟨k, hl, hu, rfl⟩ := h
  obtain ⟨frames, hframes⟩ := hr.exists_inv hl hu
  exact hframes.flushes_iff

/-! ### One allocation -/

/-- A page of 32 bytes with an allocation of `size` bytes at its begin, when `next` has been taken for the
next one. -/
def oneAllocation (nextPage nextOffset size : ℕ) (held : List ℕ) : StackState where
  alloc := ⟨32, 2 ^ 64 - 32, nextPage, nextOffset, 0x2000, 8⟩
  mem := Frame.setNextFree (storeWord (Frame.setNextFree (Frame.setPrevious (fun _ => 0) 0x2000 0) 0x2000 0)
    0x2018 0x1000) 0x2000 8
  held := held
  live := [(⟨0x1000, size, 16⟩, Frame.setNextFree (storeWord (Frame.setNextFree
    (Frame.setPrevious (fun _ => 0) 0x2000 0) 0x2000 0) 0x2018 0x1000) 0x2000 8)]

/-- The frame with the record of the allocation. -/
lemma frames_oneAllocation (nextPage nextOffset size : ℕ) (held : List ℕ) :
    Frames (oneAllocation nextPage nextOffset size held).mem 32 0x2000 [(0x2000, [0x1000])] := by
  refine ⟨rfl, by decide, ⟨?_, fun i hi => ?_, by decide, by norm_num⟩, ?_⟩
  · change loadBytes (storeBytes _ 4 0x2010 8) 4 0x2010 = 8
    exact loadBytes_storeBytes (by norm_num)
  · obtain rfl : i = 0 := Nat.lt_one_iff.mp hi
    change some 0x1000 = some (loadBytes (storeBytes (storeWord _ 0x2018 0x1000) 4 0x2010 8) 8 0x2018)
    rw [loadBytes_storeBytes_of_disjoint (disjoint_bytes (by norm_num)).symm]
    exact congrArg some (loadWord_storeWord (by norm_num)).symm
  · change loadBytes (storeBytes (storeWord (storeBytes (storeWord _ 0x2008 0) 4 0x2010 0) 0x2018 0x1000) 4
      0x2010 8) 8 0x2008 = 0
    rw [loadBytes_storeBytes_of_disjoint (disjoint_bytes (by norm_num)), storeWord_eq,
      loadBytes_storeBytes_of_disjoint (disjoint_bytes (by norm_num)),
      loadBytes_storeBytes_of_disjoint (disjoint_bytes (by norm_num))]
    exact loadWord_storeWord (by norm_num)

lemma stackRun_init : StackRun 32 ⟨⟨32, 2 ^ 64 - 32, 0, 0, 0, 8⟩, fun _ => 0, [], []⟩ := by
  have hinit : StackAlloc.init 32 = ⟨32, 2 ^ 64 - 32, 0, 0, 0, 8⟩ := by decide
  exact hinit ▸ (StackRun.init fun _ => 0 : StackRun 32 _)

lemma regions_pages : Regions [0x1000, 0x2000, 0x3000, 0x4000, 0x5000] 32 32 := by
  refine ⟨by decide, by decide, by decide, ?_⟩
  have hle : [0x1000, 0x2000, 0x3000, 0x4000, 0x5000].Pairwise fun a b => a + 32 ≤ b := by decide
  exact hle.imp disjoint_bytes

/-- An allocation of eight bytes, with the pages that the parent gives for it. -/
def StackState.allocEight (s : StackState) (taken : List ℕ) : Option StackState := do
  let (addr, c, m, rest) ← s.alloc.alloc s.mem taken 16 8
  if rest = [] then some ⟨c, m, s.held ++ taken, (⟨addr, 8, 16⟩, m) :: s.live⟩ else none

/-- **Such allocations are a run**, if the pages are apart from each other. -/
lemma StackRun.allocEights {pages : List ℕ} (hreg : Regions pages 32 32) {takens : List (List ℕ)} {s s' : StackState}
    (h : StackRun 32 s) (hsub : (s.held ++ takens.flatten).Sublist pages)
    (hs : takens.foldlM StackState.allocEight s = some s') : StackRun 32 s' := by
  induction takens generalizing s with
  | nil => exact Option.some.inj hs ▸ h
  | cons taken takens ih =>
      rw [List.foldlM_cons] at hs
      obtain ⟨s₁, hstep, hs⟩ := Option.bind_eq_some_iff.mp hs
      obtain ⟨⟨addr, c, m, rest⟩, halloc, hstep⟩ := Option.bind_eq_some_iff.mp hstep
      obtain ⟨rfl, hstep⟩ := Option.ite_none_right_eq_some.mp hstep
      obtain rfl := Option.some.inj hstep
      rw [List.flatten_cons, ← List.append_assoc] at hsub
      obtain ⟨frames, hinv⟩ := StackRun.exists_inv (k := 5) (by decide) (by decide) h
      have hsize : s.alloc.pageSize = 32 := hinv.configured.pageSize
      have htaken : Regions (s.held ++ taken) 32 32 := hreg.of_sublist ((List.sublist_append_left _ _).trans hsub)
      refine ih (h.step (.alloc ?_ ?_ ⟨4, rfl⟩ ?_ halloc)) hsub hs
      · rw [hsize]
        decide
      · rw [hsize]
        decide
      · rwa [hsize]

/-- Three allocations of eight bytes, in two pages of data with three frames, and a flush. -/
theorem stack_flush_iff_eight : ∃ s, StackRun 32 s ∧ s.held = [0x1000, 0x2000, 0x3000, 0x4000, 0x5000]
    ∧ s.live.map (fun a => a.1.addr) = [0x4000, 0x1010, 0x1000] ∧ s.Flushes := by
  obtain ⟨s, hs, heq⟩ := Option.map_eq_some_iff.mp (show
    ([[0x1000, 0x2000], [0x3000], [0x4000, 0x5000]].foldlM StackState.allocEight
      ⟨⟨32, 2 ^ 64 - 32, 0, 0, 0, 8⟩, fun _ => 0, [], []⟩).map (fun s => (s.alloc, s.held,
        s.live.map (fun a => a.1.addr),
        decide (Frames s.mem 32 0x5000 [(0x5000, [0x4000]), (0x3000, [0x1010]), (0x2000, [0x1000])])))
      = some (⟨32, 2 ^ 64 - 32, 0x4000, 8, 0x5000, 8⟩, [0x1000, 0x2000, 0x3000, 0x4000, 0x5000],
        [0x4000, 0x1010, 0x1000], true) by decide +kernel)
  simp only [Prod.mk.injEq, decide_eq_true_eq] at heq
  obtain ⟨halloc, hheld, hlive, hframes⟩ := heq
  have hrun : StackRun 32 s := stackRun_init.allocEights regions_pages (List.Sublist.refl _) hs
  have hcovered : s.Covered := by
    rw [StackState.Covered, hheld, halloc]
    exact ⟨_, hframes, by decide⟩
  exact ⟨s, hrun, hheld, hlive, (stack_flush_iff ⟨5, by decide, by decide, rfl⟩ hrun).mpr hcovered⟩

/-- An allocation that fills its page up, and a flush: the next page is not returned. -/
theorem stack_flush_leaks : ¬ ∀ k, 5 ≤ k → k ≤ 30 → ∀ s, StackRun (2 ^ k) s → s.Flushes := by
  intro h
  have hstep : StackStep ⟨⟨32, 2 ^ 64 - 32, 0, 0, 0, 8⟩, fun _ => 0, [], []⟩
      (oneAllocation 0x3000 0 32 [0x1000, 0x2000, 0x3000]) :=
    StackStep.alloc (show 32 ≤ 32 by decide) (show 16 ≤ 32 by decide) ⟨4, rfl⟩
      (regions_pages.of_sublist (by decide)) rfl
  have hr := stackRun_init.step hstep
  obtain ⟨frames, hframes⟩ := StackRun.exists_inv (k := 5) (by decide) (by decide) hr
  obtain ⟨frames', hlinked, hcov⟩ := hframes.flushes_iff.mp (h 5 (by decide) (by decide) _ hr)
  obtain rfl := Frames.unique hlinked (frames_oneAllocation 0x3000 0 32 [0x1000, 0x2000, 0x3000])
  revert hcov
  decide

end Furious
