import Furious.Memory.PoolMemory

/-!
Flushing a pool.

The chunks of a pool are linked through their headers. A flush goes along these links and
returns the chunks to the parent, and leaves the pool as it was: its pointers are those into
the chunks that have been returned.

* `MemPool.flushLoop`, `PoolState.flush`: `fdb_pool_alloc_flush`, which is also what
  `fdb_pool_alloc_release` does;
* `PoolState.Linked`: the chunks that a pool holds are linked through their headers;
* `PoolLife`: runs with flushes, and what can be seen of them;
* `PoolState.Clean`: what the user of a pool and its parent expect at its end;
* `pool_flush_clean`: **a run is clean if no flush in it returns a chunk**.
-/

namespace Furious

/-! ### The flush -/

/-- The loop of `fdb_pool_alloc_flush`: the chunks that are returned, in this order. The link
of a chunk is read before it is returned. -/
def MemPool.flushLoop (m : Mem) : ℕ → ℕ → Option (List ℕ)
  | _, 0 => some []
  | 0, _ + 1 => none
  | fuel + 1, next + 1 => (flushLoop m fuel (loadWord m (next + 1))).map fun l => (next + 1) :: l

/-- `fdb_pool_alloc_flush`: the pool stays as it is, no chunk that is returned is held any
more, and no block is live. -/
def PoolState.flush (s : PoolState) (fuel : ℕ) : Option (List ℕ × PoolState) := do
  let released ← MemPool.flushLoop s.mem fuel s.pool.firstChunk
  some (released, { s with held := s.held.filter fun c => c ∉ released, live := [] })

/-- **Linked chunks** are returned one after the other. -/
lemma flushLoop_threaded {m : Mem} {l : List ℕ} : ∀ {head : ℕ}, Threaded m head l →
    ∀ fuel ≥ l.length, MemPool.flushLoop m fuel head = some l := by
  induction l with
  | nil =>
      rintro head rfl fuel -
      cases fuel <;> rfl
  | cons a l ih =>
      rintro head ⟨rfl, hne, hrest⟩ fuel hfuel
      obtain ⟨n, rfl⟩ := Nat.exists_eq_succ_of_ne_zero hne
      cases fuel with
      | zero => cases hfuel
      | succ fuel =>
          rw [MemPool.flushLoop, ih hrest fuel (Nat.le_of_succ_le_succ hfuel)]
          rfl

/-- The first chunk is always returned. -/
lemma mem_flushLoop {m : Mem} {fuel head : ℕ} {l : List ℕ} (hne : head ≠ 0)
    (h : MemPool.flushLoop m fuel head = some l) : head ∈ l := by
  obtain ⟨n, rfl⟩ := Nat.exists_eq_succ_of_ne_zero hne
  cases fuel with
  | zero => cases h
  | succ fuel =>
      obtain ⟨l', -, rfl⟩ := Option.map_eq_some_iff.mp h
      exact List.mem_cons_self

/-! ### Links -/

/-- A place is put at the end of a threaded list. -/
lemma Threaded.snoc {m : Mem} {l : List ℕ} {a b : ℕ} (ha : a < 2 ^ 64) (hne : a ≠ 0)
    (hdisj : ∀ c ∈ l ++ [b], Disjoint (bytes c 8) (bytes a 8))
    (hapart : ∀ c ∈ l, Disjoint (bytes c 8) (bytes b 8)) :
    ∀ {head : ℕ}, Threaded m head (l ++ [b]) →
      Threaded (storeWord (storeWord m b a) a 0) head (l ++ [b] ++ [a]) := by
  have hnew : loadWord (storeWord (storeWord m b a) a 0) a = 0 := loadWord_storeWord (by norm_num)
  induction l with
  | nil =>
      rintro head ⟨rfl, hb, -⟩
      refine ⟨rfl, hb, ?_, hne, ?_⟩
      · rw [loadWord_congr fun c hc => storeWord_of_notMem
          (Set.disjoint_left.mp (hdisj head List.mem_cons_self) hc), loadWord_storeWord ha]
      · exact hnew
  | cons c l ih =>
      rintro head ⟨rfl, hc, hrest⟩
      refine ⟨rfl, hc, ?_⟩
      have hkeep : loadWord (storeWord (storeWord m b a) a 0) head = loadWord m head :=
        loadWord_congr fun x hx => by
          rw [storeWord_of_notMem (Set.disjoint_left.mp (hdisj head List.mem_cons_self) hx),
            storeWord_of_notMem (Set.disjoint_left.mp (hapart head List.mem_cons_self) hx)]
      rw [hkeep]
      exact ih (fun x hx => hdisj x (List.mem_cons_of_mem _ hx))
        (fun x hx => hapart x (List.mem_cons_of_mem _ hx)) hrest

/-- The chunks that a pool holds are linked through their headers; a pool whose alignment
does not fit holds none. -/
structure PoolState.Linked (s : PoolState) : Prop where
  threaded : Threaded s.mem s.pool.firstChunk s.held
  unfit : 2 ^ 32 ≤ s.pool.alignment → s.held = []

namespace PoolInv

variable {s s' : PoolState} {alignment : ℕ}

/-- The header of a chunk is apart from the live blocks. -/
lemma header_apart (h : PoolInv s alignment) {a c : ℕ} (ha : a ∈ s.live) (hc : c ∈ s.held) :
    Disjoint (bytes c 8) (bytes a s.pool.blockSize) ∧ 8 ≤ s.pool.blockSize := by
  obtain ⟨d, hd, hlow, hup⟩ := h.safe.inside a ha
  rcases h with ⟨hlive, -⟩ | ⟨p, blocks, hrep, hands, -, -, hreg⟩
  · rw [hlive] at ha
    cases ha
  have hheader : 8 ≤ s.pool.blockSize := by
    rw [hrep.blockSize]
    exact hands.header
  have hlow : d + 8 ≤ a := hlow
  refine ⟨?_, hheader⟩
  rcases eq_or_ne c d with rfl | hne
  · exact disjoint_bytes hlow
  · rw [hrep.pageSize] at hup
    exact (hrep.regions.disjoint hc hd hne).mono (bytes_subset le_rfl (by omega))
      (bytes_subset (by omega) hup)

/-- What a configured pool can rely on. -/
lemma configured (h : PoolInv s alignment) (hfit : ¬ 2 ^ 32 ≤ s.pool.alignment) :
    s.pool.growOffset + s.pool.blockSize ≤ s.pool.pageSize ∧ s.pool.pageSize < 2 ^ 32
      ∧ 8 ≤ s.pool.pageSize ∧ Regions (s.held ++ s.parent) alignment s.pool.pageSize
      ∧ (s.pool.firstChunk = 0 ↔ s.held = [])
      ∧ s.pool.lastChunk = s.held.getD (s.held.length - 1) 0 := by
  rcases h with ⟨-, hunfit⟩ | ⟨p, blocks, hrep, hands, -, -, hreg⟩
  · exact absurd hunfit hfit
  have hconf : p.growOffset + p.blockSize ≤ p.pageSize := hands.configured
  have hheader : 8 ≤ p.blockSize := hands.header
  rw [hrep.growOffset, hrep.blockSize, hrep.pageSize]
  exact ⟨hconf, hrep.small, by omega, hreg, hrep.first, hrep.last⟩

/-- **A step keeps the links.** -/
theorem linked (h : PoolInv s alignment) (hl : s.Linked) (hs : PoolStep s s') : s'.Linked := by
  cases hs with
  | @alloc al size ret p m taken parent hal hparent halloc =>
      have hfit : ¬ 2 ^ 32 ≤ s.pool.alignment := by
        intro hunfit
        rw [MemPool.alloc_unfit hunfit hal] at halloc
        cases halloc
      obtain ⟨hconf, hsmall, hheader, hreg, hfirst, hlast⟩ := h.configured hfit
      have hnone : s.parent = parent → taken = [] := fun heq =>
        List.append_cancel_right ((heq ▸ hparent.symm).trans (List.nil_append parent).symm)
      rcases MemPool.alloc_cases hconf hsmall halloc with ⟨-, -, rfl, rfl, heq⟩
          | ⟨chunk, -, hzero, heq, -, rfl, rfl⟩ | ⟨-, -, -, -, rfl, rfl, heq⟩
          | ⟨chunk, -, hnz, -, heq, -, rfl, rfl⟩
      · rw [hnone heq, List.append_nil]
        exact ⟨hl.threaded, fun hunfit => absurd hunfit hfit⟩
      · obtain rfl : taken = [chunk] := List.append_cancel_right (hparent.symm.trans heq)
        have hnil := hfirst.mp hzero
        have hpos : 0 < chunk := hreg.pos chunk (by simp [heq])
        refine ⟨?_, fun hunfit => absurd hunfit hfit⟩
        rw [hnil]
        exact Threaded.push (l := []) rfl (by omega) (by norm_num) (by simp)
      · rw [hnone heq, List.append_nil]
        exact ⟨hl.threaded, fun hunfit => absurd hunfit hfit⟩
      · obtain rfl : taken = [chunk] := List.append_cancel_right (hparent.symm.trans heq)
        have hheld : s.held ≠ [] := fun hnil => hnz (hfirst.mpr hnil)
        obtain ⟨front, last, hfl⟩ := List.eq_nil_or_concat s.held |>.resolve_left hheld
        rw [List.concat_eq_append] at hfl
        have hlast' : s.pool.lastChunk = last := by
          rw [hlast, hfl]
          simp [List.getD_eq_getElem?_getD]
        have hmem : chunk ∈ s.held ++ s.parent := by simp [heq]
        have hnd : (s.held ++ s.parent).Nodup := hreg.nodup (by omega)
        have hapart : ∀ c ∈ s.held, Disjoint (bytes c 8) (bytes chunk 8) := by
          intro c hc
          have hne : c ≠ chunk := by
            rintro rfl
            exact (List.nodup_append.mp hnd).2.2 c hc c (by simp [heq]) rfl
          exact (hreg.disjoint (List.mem_append_left _ hc) hmem hne).mono
            (bytes_subset le_rfl (by omega)) (bytes_subset le_rfl (by omega))
        have hfront : ∀ c ∈ front, Disjoint (bytes c 8) (bytes last 8) := by
          intro c hc
          have hcm : c ∈ s.held := by simp [hfl, hc]
          have hlm : last ∈ s.held := by simp [hfl]
          have hne : c ≠ last := by
            rintro rfl
            have hnd' := (List.nodup_append.mp hnd).1
            rw [hfl] at hnd'
            exact (List.nodup_append.mp hnd').2.2 c hc c (List.mem_singleton_self c) rfl
          exact (hreg.disjoint (List.mem_append_left _ hcm) (List.mem_append_left _ hlm) hne).mono
            (bytes_subset le_rfl (by omega)) (bytes_subset le_rfl (by omega))
        have hle := hreg.le chunk hmem
        have hpos := hreg.pos chunk hmem
        refine ⟨?_, fun hunfit => absurd hunfit hfit⟩
        have hth := hl.threaded
        rw [hfl] at hth hapart
        show Threaded (storeWord (storeWord s.mem s.pool.lastChunk chunk) chunk 0) s.pool.firstChunk
          (s.held ++ [chunk])
        rw [hlast', hfl]
        exact hth.snoc (by omega) (by omega) hapart hfront
  | @free a ha =>
      refine ⟨?_, hl.unfit⟩
      refine hl.threaded.congr fun c hc b hb => storeWord_of_notMem fun hba => ?_
      obtain ⟨hdisj, hheader⟩ := h.header_apart ha hc
      exact Set.disjoint_left.mp hdisj hb (bytes_subset le_rfl (by omega) hba)
  | write hw =>
      refine ⟨?_, hl.unfit⟩
      refine hl.threaded.congr fun c hc b hb => ?_
      have hfit : ¬ 2 ^ 32 ≤ s.pool.alignment := by
        intro hunfit
        rw [hl.unfit hunfit] at hc
        cases hc
      obtain ⟨-, -, hheader, -⟩ := h.configured hfit
      refine hw c hc b (bytes_subset le_rfl (by omega) hb) fun a ha hba => ?_
      exact Set.disjoint_left.mp (h.header_apart ha hc).1 hb hba

end PoolInv

/-! ### Runs with flushes -/

/-- What can be seen of a run: after a step the live blocks and the chunks that have been
returned so far, before a flush the chunks that are held, and the pool that it leaves. -/
inductive PoolEvent where
  | use (live returned : List ℕ)
  | flush (held : List ℕ) (pool : MemPool)
deriving DecidableEq, Repr

/-- The states that a pool reaches with flushes between the steps, what can be seen of the
run, and the chunks that have been returned. -/
inductive PoolLife (alignment blockSize pageSize : ℕ) (chunks : List ℕ) :
    List PoolEvent → List ℕ → PoolState → Prop
  | init {p : MemPool} (h : MemPool.init alignment blockSize pageSize = some p) (m : Mem) :
      PoolLife alignment blockSize pageSize chunks [] [] ⟨p, m, [], chunks, []⟩
  | use {events : List PoolEvent} {returned : List ℕ} {s s' : PoolState}
      (h : PoolLife alignment blockSize pageSize chunks events returned s) (hs : PoolStep s s') :
      PoolLife alignment blockSize pageSize chunks (events ++ [.use s'.live returned]) returned s'
  | flush {events : List PoolEvent} {returned released : List ℕ} {s s' : PoolState} {fuel : ℕ}
      (h : PoolLife alignment blockSize pageSize chunks events returned s)
      (hf : s.flush fuel = some (released, s')) :
      PoolLife alignment blockSize pageSize chunks (events ++ [.flush s.held s'.pool])
        (returned ++ released) s'

/-- **What is expected at the end of a run**: the pool can be released, and then each chunk that
the parent has given has been returned once; no block has been live in a chunk that had been
returned; and every flush has left a pool like a new one. -/
structure PoolState.Clean (s : PoolState) (alignment blockSize pageSize : ℕ) (chunks : List ℕ)
    (events : List PoolEvent) (returned : List ℕ) : Prop where
  once : ∃ fuel released s', s.flush fuel = some (released, s')
    ∧ (returned ++ released ++ s.parent).Perm chunks
  apart : ∀ live returned', PoolEvent.use live returned' ∈ events →
    ∀ a ∈ live, ∀ c ∈ returned', a ∉ bytes c pageSize
  fresh : ∀ held pool, PoolEvent.flush held pool ∈ events →
    MemPool.init alignment blockSize pageSize = some pool

/-- No flush of the run is one of a pool that holds a chunk. -/
def IdleFlushes (events : List PoolEvent) : Prop :=
  ∀ held pool, PoolEvent.flush held pool ∈ events → held = []

/-- A pool that holds no chunk is as it was at first, and the chunks are given in order. -/
structure PoolState.Unused (s : PoolState) (alignment blockSize pageSize : ℕ) (chunks : List ℕ) :
    Prop where
  pool : s.held = [] → MemPool.init alignment blockSize pageSize = some s.pool
  given : s.held ++ s.parent = chunks

namespace PoolLife

variable {alignment blockSize pageSize : ℕ} {chunks returned : List ℕ} {events : List PoolEvent}
  {s s' : PoolState}

/-- The pointers of a new pool are null. -/
lemma init_null {p : MemPool} (h : MemPool.init alignment blockSize pageSize = some p) :
    p.firstChunk = 0 ∧ p.firstFree = 0 := by
  rw [MemPool.init] at h
  obtain ⟨-, h⟩ := Option.ite_none_left_eq_some.mp h
  obtain ⟨-, h⟩ := Option.ite_none_right_eq_some.mp h
  rw [← Option.some.inj h]
  exact ⟨rfl, rfl⟩

/-- A pool that holds no chunk has no live blocks. -/
lemma live_eq_nil (h : PoolInv s alignment) (hheld : s.held = []) : s.live = [] := by
  rw [List.eq_nil_iff_forall_not_mem]
  intro a ha
  obtain ⟨c, hc, -⟩ := h.safe.inside a ha
  rw [hheld] at hc
  cases hc

/-- A flush of a pool that holds no chunk does nothing. -/
lemma flush_idle (hinv : PoolInv s alignment) (hl : s.Linked) (hheld : s.held = []) {fuel : ℕ}
    {released : List ℕ} (hf : s.flush fuel = some (released, s')) : released = [] ∧ s' = s := by
  have hlive := live_eq_nil hinv hheld
  have hloop := flushLoop_threaded (hheld ▸ hl.threaded) fuel (Nat.zero_le _)
  rw [PoolState.flush, hloop, Option.bind_eq_bind, Option.bind_some] at hf
  obtain ⟨rfl, rfl⟩ := Prod.mk.inj (Option.some.inj hf)
  obtain ⟨pool, m, held, parent, live⟩ := s
  obtain rfl : held = [] := hheld
  obtain rfl : live = [] := hlive
  exact ⟨rfl, rfl⟩

/-- A step of a pool that holds no chunk takes one, or leaves the pool alone. -/
lemma unused_step {al : ℕ} (hinv : PoolInv s al) (hpool : MemPool.init alignment blockSize pageSize = some s.pool)
    (hheld : s.held = []) (hs : PoolStep s s') (hheld' : s'.held = []) : s'.pool = s.pool := by
  cases hs with
  | @alloc al' size ret p m taken parent hal hparent halloc =>
      have hfit : ¬ 2 ^ 32 ≤ s.pool.alignment := by
        intro hunfit
        rw [MemPool.alloc_unfit hunfit hal] at halloc
        cases halloc
      obtain ⟨hconf, hsmall, -, -, hfirst, -⟩ := hinv.configured hfit
      have hzero : s.pool.firstFree = 0 := (init_null hpool).2
      obtain ⟨-, rfl⟩ := List.append_eq_nil_iff.mp hheld'
      rcases MemPool.alloc_cases hconf hsmall halloc with ⟨hnz, -⟩ | ⟨chunk, -, -, heq, -⟩
          | ⟨-, hnz, -⟩ | ⟨chunk, -, hnz, -⟩
      · exact absurd hzero hnz
      · rw [hparent] at heq
        exact absurd (congrArg List.length heq) (by simp)
      · exact absurd (hfirst.mpr hheld) hnz
      · exact absurd (hfirst.mpr hheld) hnz
  | @free a ha =>
      rw [live_eq_nil hinv hheld] at ha
      cases ha
  | write _ => rfl

/-- The chunks that a step takes are the first that the parent has. -/
lemma given_step (hs : PoolStep s s') : s'.held ++ s'.parent = s.held ++ s.parent := by
  cases hs with
  | alloc _ hparent _ => rw [List.append_assoc, hparent]
  | free _ => rfl
  | write _ => rfl

lemma held_prefix (hs : PoolStep s s') (h : s'.held = []) : s.held = [] := by
  cases hs with
  | alloc _ _ _ => exact (List.append_eq_nil_iff.mp h).1
  | free _ => exact h
  | write _ => exact h

variable (hal : alignment < 2 ^ 32) (hb : blockSize < 2 ^ 32) (hp : pageSize < 2 ^ 32)
  (hreg : Regions chunks (poolAlignment alignment) pageSize)
include hal hb hp hreg

/-- **A run whose flushes are idle** is one without flushes. -/
theorem of_idle (hr : PoolLife alignment blockSize pageSize chunks events returned s)
    (hidle : IdleFlushes events) :
    returned = [] ∧ PoolInv s (poolAlignment alignment) ∧ s.Linked
      ∧ s.Unused alignment blockSize pageSize chunks
      ∧ (∀ live returned', PoolEvent.use live returned' ∈ events → returned' = [])
      ∧ ∀ held pool, PoolEvent.flush held pool ∈ events →
          MemPool.init alignment blockSize pageSize = some pool := by
  induction hr with
  | init h m =>
      exact ⟨rfl, PoolInv.init hal hb hp hreg h m, ⟨(init_null h).1, fun _ => rfl⟩, ⟨fun _ => h, rfl⟩,
        by simp, by simp⟩
  | @use events returned s s' h hs ih =>
      obtain ⟨rfl, hinv, hl, hun, huse, hfl⟩ := ih fun held pool he =>
        hidle held pool (List.mem_append_left _ he)
      refine ⟨rfl, hinv.step hs, hinv.linked hl hs, ⟨fun hheld' => ?_, ?_⟩, fun live returned' he => ?_,
        fun held pool he => ?_⟩
      · have hheld := held_prefix hs hheld'
        rw [unused_step hinv (hun.pool hheld) hheld hs hheld']
        exact hun.pool hheld
      · rw [given_step hs]
        exact hun.given
      · rcases List.mem_append.mp he with he | he
        · exact huse live returned' he
        · injection List.mem_singleton.mp he
      · rcases List.mem_append.mp he with he | he
        · exact hfl held pool he
        · cases List.mem_singleton.mp he
  | @flush events returned released s s' fuel h hf ih =>
      obtain ⟨rfl, hinv, hl, hun, huse, hfl⟩ := ih fun held pool he =>
        hidle held pool (List.mem_append_left _ he)
      have hheld : s.held = [] := hidle s.held s'.pool (by simp)
      obtain ⟨rfl, rfl⟩ := flush_idle hinv hl hheld hf
      refine ⟨rfl, hinv, hl, hun, fun live returned' he => ?_, fun held pool he => ?_⟩
      · rcases List.mem_append.mp he with he | he
        · exact huse live returned' he
        · cases List.mem_singleton.mp he
      · rcases List.mem_append.mp he with he | he
        · exact hfl held pool he
        · injection List.mem_singleton.mp he with _ hpool
          rw [hpool]
          exact hun.pool hheld

/-- **Without such flushes** a run is clean. -/
theorem clean_of_idle (hr : PoolLife alignment blockSize pageSize chunks events returned s)
    (hidle : IdleFlushes events) :
    s.Clean alignment blockSize pageSize chunks events returned := by
  obtain ⟨rfl, -, hl, hun, huse, hfl⟩ := of_idle hal hb hp hreg hr hidle
  refine ⟨⟨s.held.length, s.held, { s with held := s.held.filter fun c => c ∉ s.held, live := [] },
    ?_, ?_⟩, fun live returned' he a _ c hc => ?_, hfl⟩
  · rw [PoolState.flush, flushLoop_threaded hl.threaded s.held.length le_rfl]
    rfl
  · rw [List.nil_append, hun.given]
  · rw [huse live returned' he] at hc
    cases hc

omit hal hb hp hreg in
/-- An allocation keeps the sizes of a pool, and its first chunk if it has one; when it takes a
chunk there is a first one. -/
lemma alloc_firstChunk {p q : MemPool} {m m' : Mem} {parent parent' : List ℕ} {al size ret : ℕ}
    (hconf : p.growOffset + p.blockSize ≤ p.pageSize) (hsmall : p.pageSize < 2 ^ 32)
    (hpos : ∀ c ∈ parent, 0 < c) (h : p.alloc m parent al size = some (ret, q, m', parent')) :
    q.alignment = p.alignment ∧ q.growOffset + q.blockSize ≤ q.pageSize ∧ q.pageSize < 2 ^ 32
      ∧ (p.firstChunk ≠ 0 → q.firstChunk = p.firstChunk) ∧ (parent ≠ parent' → q.firstChunk ≠ 0) := by
  rcases MemPool.alloc_cases hconf hsmall h with ⟨-, -, rfl, -, rfl⟩ | ⟨chunk, -, hzero, rfl, -, rfl, -⟩
      | ⟨-, -, -, -, rfl, -, rfl⟩ | ⟨chunk, -, hnz, -, rfl, -, rfl, -⟩
  · exact ⟨rfl, hconf, hsmall, fun _ => rfl, fun hne => absurd rfl hne⟩
  · have hc := hpos chunk List.mem_cons_self
    exact ⟨rfl, hconf, hsmall, fun hnz => absurd hzero hnz, fun _ => Nat.pos_iff_ne_zero.mp hc⟩
  · exact ⟨rfl, hconf, hsmall, fun _ => rfl, fun hne => absurd rfl hne⟩
  · exact ⟨rfl, hconf, hsmall, fun _ => rfl, fun _ => hnz⟩

/-- **A flush that returns chunks** leaves a first chunk behind that has been returned. -/
theorem dangling (hr : PoolLife alignment blockSize pageSize chunks events returned s) :
    (∀ c ∈ s.parent, 0 < c)
      ∧ ((2 ^ 32 ≤ s.pool.alignment ∧ s.held = [])
        ∨ (s.pool.growOffset + s.pool.blockSize ≤ s.pool.pageSize ∧ s.pool.pageSize < 2 ^ 32
          ∧ (s.held ≠ [] → s.pool.firstChunk ≠ 0)))
      ∧ (¬ IdleFlushes events → s.pool.firstChunk ≠ 0 ∧ s.pool.firstChunk ∈ returned) := by
  induction hr with
  | @init p h m =>
      have hinv := PoolInv.init hal hb hp hreg h m
      refine ⟨hreg.pos, ?_, fun hn => absurd (fun _ _ he => by cases he) hn⟩
      by_cases hfit : 2 ^ 32 ≤ p.alignment
      · exact Or.inl ⟨hfit, rfl⟩
      · obtain ⟨hconf, hsmall, -⟩ := hinv.configured hfit
        exact Or.inr ⟨hconf, hsmall, fun hne => absurd rfl hne⟩
  | @use events returned s s' h hs ih =>
      obtain ⟨hpos, hconf, hdang⟩ := ih
      have hidle : ¬ IdleFlushes (events ++ [.use s'.live returned]) → ¬ IdleFlushes events := by
        intro hn hi
        refine hn fun held pool he => ?_
        rcases List.mem_append.mp he with he | he
        · exact hi held pool he
        · cases List.mem_singleton.mp he
      cases hs with
      | @alloc al size ret p m taken parent hal' hparent halloc =>
          have hparent' : ∀ c ∈ parent, 0 < c := fun c hc =>
            hpos c (hparent ▸ List.mem_append_right _ hc)
          rcases hconf with ⟨hunfit, -⟩ | ⟨hconf, hsmall, hfirst⟩
          · rw [MemPool.alloc_unfit hunfit hal'] at halloc
            cases halloc
          obtain ⟨-, hconf', hsmall', hkeep, htake⟩ := alloc_firstChunk hconf hsmall hpos halloc
          refine ⟨hparent', Or.inr ⟨hconf', hsmall', fun hne => ?_⟩, fun hn => ?_⟩
          · by_cases hheld : s.held = []
            · refine htake fun heq => hne ?_
              rw [heq] at hparent
              obtain rfl : taken = [] :=
                List.append_cancel_right (hparent.symm.trans (List.nil_append parent).symm)
              exact (List.append_nil _).trans hheld
            · rw [show p.firstChunk = s.pool.firstChunk from hkeep (hfirst hheld)]
              exact hfirst hheld
          · obtain ⟨hnz, hmem⟩ := hdang (hidle hn)
            have heq : p.firstChunk = s.pool.firstChunk := hkeep hnz
            exact ⟨heq.symm ▸ hnz, heq.symm ▸ hmem⟩
      | free ha => exact ⟨hpos, hconf, fun hn => hdang (hidle hn)⟩
      | write hw => exact ⟨hpos, hconf, fun hn => hdang (hidle hn)⟩
  | @flush events returned released s s' fuel h hf ih =>
      obtain ⟨hpos, hconf, hdang⟩ := ih
      obtain ⟨l, hloop, hs'⟩ := Option.bind_eq_some_iff.mp hf
      obtain ⟨rfl, rfl⟩ := Prod.mk.inj (Option.some.inj hs')
      refine ⟨hpos, ?_, fun hn => ?_⟩
      · rcases hconf with ⟨hunfit, hheld⟩ | ⟨hconf, hsmall, hfirst⟩
        · refine Or.inl ⟨hunfit, ?_⟩
          rw [hheld]
          rfl
        · refine Or.inr ⟨hconf, hsmall, fun hne => hfirst fun hheld => hne ?_⟩
          rw [hheld]
          rfl
      · by_cases hi : IdleFlushes events
        · -- the flush itself returns chunks
          have hheld : s.held ≠ [] := by
            intro hheld
            refine hn fun held pool he => ?_
            rcases List.mem_append.mp he with he | he
            · exact hi held pool he
            · injection List.mem_singleton.mp he with heq _
              exact heq.trans hheld
          rcases hconf with ⟨-, hnil⟩ | ⟨-, -, hfirst⟩
          · exact absurd hnil hheld
          · exact ⟨hfirst hheld, List.mem_append_right _ (mem_flushLoop (hfirst hheld) hloop)⟩
        · obtain ⟨hnz, hmem⟩ := hdang hi
          exact ⟨hnz, List.mem_append_left _ hmem⟩

/-- **In a clean run** no flush returns a chunk: the release would return the first chunk once
more. -/
theorem idle_of_clean (hsize : 0 < pageSize) (hr : PoolLife alignment blockSize pageSize chunks events returned s)
    (hc : s.Clean alignment blockSize pageSize chunks events returned) : IdleFlushes events := by
  by_contra hn
  obtain ⟨hnz, hmem⟩ := (dangling hal hb hp hreg hr).2.2 hn
  obtain ⟨fuel, released, s', hf, hperm⟩ := hc.once
  obtain ⟨l, hloop, hs'⟩ := Option.bind_eq_some_iff.mp hf
  obtain ⟨rfl, -⟩ := Prod.mk.inj (Option.some.inj hs')
  have hnd := (List.nodup_append.mp (hperm.nodup_iff.mpr (hreg.nodup hsize))).1
  exact (List.nodup_append.mp hnd).2.2 _ hmem _ (mem_flushLoop hnz hloop) rfl

end PoolLife

/-- **When flushing is safe**: the run of a pool, with a release at its end, is clean if and only
if no flush in it is one of a pool that holds a chunk. -/
theorem pool_flush_clean {alignment blockSize pageSize : ℕ} (hal : alignment < 2 ^ 32)
    (hb : blockSize < 2 ^ 32) (hp : pageSize < 2 ^ 32) (hsize : 0 < pageSize) {chunks : List ℕ}
    (hreg : Regions chunks (poolAlignment alignment) pageSize) {events : List PoolEvent}
    {returned : List ℕ} {s : PoolState}
    (hr : PoolLife alignment blockSize pageSize chunks events returned s) :
    s.Clean alignment blockSize pageSize chunks events returned ↔ IdleFlushes events :=
  ⟨PoolLife.idle_of_clean hal hb hp hreg hsize hr, PoolLife.clean_of_idle hal hb hp hreg hr⟩

/-! ### A flush of a pool with one chunk -/

/-- A pool with one block. -/
def onePool : PoolState where
  pool := ⟨0x10000, 0x10000, 0, 64, 64, 4096, 128, 64, 64⟩
  mem := storeWord (fun _ => 0) 0x10000 0
  held := [0x10000]
  parent := []
  live := [0x10040]

lemma regions_one : Regions [0x10000] (poolAlignment 64) 4096 :=
  ⟨by decide, by decide, by decide, List.pairwise_singleton _ _⟩

lemma poolLife_one : PoolLife 64 64 4096 [0x10000] [.use [0x10040] []] [] onePool := by
  have hinit : MemPool.init 64 64 4096 = some ⟨0, 0, 0, 64, 64, 4096, 0, 64, 64⟩ := by decide
  have halloc : (⟨0, 0, 0, 64, 64, 4096, 0, 64, 64⟩ : MemPool).alloc (fun _ => 0) [0x10000] 64 64
      = some (0x10040, onePool.pool, onePool.mem, []) := rfl
  have hstep : PoolStep ⟨⟨0, 0, 0, 64, 64, 4096, 0, 64, 64⟩, fun _ => 0, [], [0x10000], []⟩ onePool :=
    PoolStep.alloc (show 64 < 2 ^ 32 by decide) rfl halloc
  exact (PoolLife.init hinit fun _ => 0).use hstep

/-- A script in a run with flushes. -/
lemma PoolLife.script {alignment blockSize pageSize : ℕ} {chunks returned : List ℕ} {events : List PoolEvent}
    {calls : List PoolCall} {s s' : PoolState}
    (h : PoolLife alignment blockSize pageSize chunks events returned s)
    (hcalls : calls.foldlM PoolState.call s = some s') :
    ∃ uses, PoolLife alignment blockSize pageSize chunks (events ++ uses) returned s'
      ∧ ∀ e ∈ uses, ∃ live, e = .use live returned := by
  induction calls generalizing s events with
  | nil => exact ⟨[], by rw [List.append_nil]; exact Option.some.inj hcalls ▸ h, fun e he => by cases he⟩
  | cons c calls ih =>
      rw [List.foldlM_cons] at hcalls
      obtain ⟨s₁, hcall, hcalls⟩ := Option.bind_eq_some_iff.mp hcalls
      obtain ⟨uses, h', huses⟩ := ih (h.use (PoolState.call_step hcall)) hcalls
      rw [List.append_assoc] at h'
      exact ⟨_, h', List.forall_mem_append.mpr ⟨fun e he => ⟨_, List.mem_singleton.mp he⟩, huses⟩⟩

/-- A new pool is flushed, and then both of its chunks are in use. -/
theorem pool_flush_clean_one : ∃ events s, PoolLife 64 64 192 [0x10000, 0x20000] events [] s
    ∧ .flush [] twoChunks.pool ∈ events ∧ s.held = [0x10000, 0x20000] ∧ s.live = [0x20040, 0x10040, 0x10080]
    ∧ s.Clean 64 64 192 [0x10000, 0x20000] events [] := by
  have hflush : twoChunks.flush 1 = some ([], twoChunks) := rfl
  have hinit : PoolLife 64 64 192 [0x10000, 0x20000] [] [] twoChunks := PoolLife.init init_twoChunks fun _ => 0
  have hlife := hinit.flush hflush
  obtain ⟨s, hs, heq⟩ := Option.map_eq_some_iff.mp twoChunks_threeBlocks
  obtain ⟨hheld, hlive⟩ := Prod.mk.inj heq
  obtain ⟨uses, hrun, huses⟩ := hlife.script hs
  refine ⟨_, s, hrun, by simp [twoChunks], hheld, hlive, (pool_flush_clean (by decide) (by decide) (by decide) (by decide)
    regions_twoChunks hrun).mpr fun held pool he => ?_⟩
  rcases List.mem_append.mp he with he | he
  · injection List.mem_singleton.mp he
  · obtain ⟨live, heq⟩ := huses _ he
    cases heq

/-- Allocating, flushing and releasing: the chunk is returned twice. -/
theorem pool_flush_returns_twice : ¬ ∀ (alignment blockSize pageSize : ℕ) (chunks : List ℕ)
    (events : List PoolEvent) (returned : List ℕ) (s : PoolState), alignment < 2 ^ 32 →
    blockSize < 2 ^ 32 → pageSize < 2 ^ 32 → 0 < pageSize →
    Regions chunks (poolAlignment alignment) pageSize →
    PoolLife alignment blockSize pageSize chunks events returned s →
    s.Clean alignment blockSize pageSize chunks events returned := by
  intro h
  have hloop : MemPool.flushLoop onePool.mem 1 0x10000 = some [0x10000] := by
    have hnull : loadWord onePool.mem 0x10000 = 0 := loadWord_storeWord (by norm_num)
    rw [MemPool.flushLoop, hnull]
    rfl
  have hf : onePool.flush 1 = some ([0x10000], { onePool with held := [], live := [] }) := by
    rw [PoolState.flush, show onePool.pool.firstChunk = 0x10000 from rfl, hloop]
    rfl
  have hr := poolLife_one.flush hf
  have hc := h 64 64 4096 [0x10000] _ _ _ (by decide) (by decide) (by decide) (by decide) regions_one hr
  have hidle := PoolLife.idle_of_clean (show 64 < 2 ^ 32 by decide) (show 64 < 2 ^ 32 by decide)
    (show 4096 < 2 ^ 32 by decide) regions_one (by decide) hr hc
  have hheld := hidle onePool.held onePool.pool (by simp)
  cases hheld

end Furious
