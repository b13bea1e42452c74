import Furious.Data.PoolAllocator
import Furious.Memory.StackFrames

/-!
The stack allocator.

Allocations are cut from data pages, one behind the other; the address of each is recorded in the
frames, so that the last allocation can be taken back.

* `StackAlloc`: `fdb_stack_alloc_t` with `StackAlloc.init`, `StackAlloc.alloc` and
  `StackAlloc.pop`;
* `StackState`, `StackStep`, `StackRun`: histories of allocations and pops, between which the
  allocated bytes are written to;
* `StackState.Safe`: what the user of a stack allocator expects.

An address is a natural number, and no page reaches beyond `2 ^ 64`. A failing assertion is a fault,
and so is a parent that has no page left. The statistics, the hint and the mutex are left out.
-/

namespace Furious

/-- `fdb_os_pow2_bit`: the place of the lowest bit of a 32 bit number, counted from one. -/
def pow2Bit (x : ℕ) : ℕ := ((List.range 32).find? x.testBit).elim 0 (· + 1)

/-- `fdb_stack_alloc_t`. -/
structure StackAlloc where
  pageSize : ℕ
  pageMask : ℕ
  nextPage : ℕ
  nextOffset : ℕ
  lastFrame : ℕ
  maxFrameOffset : ℕ
deriving DecidableEq, Repr

namespace StackAlloc

/-- `fdb_stack_alloc_init`. -/
def init (pageSize : ℕ) : StackAlloc :=
  let shift := sub32 (pow2Bit pageSize) 1
  { pageSize := pageSize
    -- the complement of a number of 32 bits, extended to 64 bits
    pageMask := 2 ^ 64 - 1 - (2 ^ shift - 1)
    nextPage := 0
    nextOffset := 0
    lastFrame := 0
    maxFrameOffset := 8 * ((pageSize + (2 ^ 64 - 24)) % 2 ^ 64) % 2 ^ 64 / 8 % 2 ^ 32 }

/-- `addr & ~m_page_mask`. -/
def offsetBits (c : StackAlloc) (addr : ℕ) : ℕ := addr &&& (2 ^ 64 - 1 - c.pageMask)

/-- `fdb_stack_alloc_page_addr_decode`: the page and the offset of an address. -/
def pageAddrDecode (c : StackAlloc) (addr : ℕ) : ℕ × ℕ := (addr &&& c.pageMask, c.offsetBits addr % 2 ^ 32)

/-- A new data page. -/
def newPage (c : StackAlloc) : List ℕ → Option (StackAlloc × List ℕ)
  | [] => none
  | page :: parent =>
      if c.offsetBits page = 0 then some ({ c with nextPage := page, nextOffset := 0 }, parent) else none

/-- The bytes that are left out before the next allocation. -/
def slack (c : StackAlloc) (alignment : ℕ) : ℕ :=
  let least := if alignment > minAlignment then alignment else minAlignment
  let modulo := ((c.nextPage + c.nextOffset) &&& (least - 1)) % 2 ^ 32
  if modulo ≠ 0 then sub32 least modulo else 0

/-- The data page of the next allocation, and what is left out before it. -/
def room (c : StackAlloc) (parent : List ℕ) (alignment size : ℕ) : Option (StackAlloc × ℕ × List ℕ) :=
  let slack := c.slack alignment
  if c.pageSize ≤ add32 (add32 c.nextOffset slack) size ∨ c.nextPage = 0 then do
    let (c, parent) ← c.newPage parent
    some (c, 0, parent)
  else some (c, slack, parent)

/-- The frame of the next record. -/
def frame (c : StackAlloc) (m : Mem) (parent : List ℕ) : Option (StackAlloc × Mem × List ℕ) :=
  if c.lastFrame = 0 ∨ Frame.nextFree m c.lastFrame = c.maxFrameOffset then
    match parent with
    | [] => none
    | newFrame :: parent =>
        let m := Frame.setNextFree (Frame.setPrevious m newFrame c.lastFrame) newFrame 0
        let m := if c.lastFrame ≠ 0 then Frame.setNextPage m c.lastFrame newFrame else m
        some ({ c with lastFrame := newFrame }, m, parent)
  else some (c, m, parent)

/-- The record of an address. -/
def record (c : StackAlloc) (m : Mem) (addr : ℕ) : Mem :=
  Frame.setNextFree (storeWord m (Frame.data c.lastFrame (Frame.nextFree m c.lastFrame)) addr) c.lastFrame
    (add32 (Frame.nextFree m c.lastFrame) 8)

/-- A data page that has been filled up is followed by a new one. -/
def turn (c : StackAlloc) (parent : List ℕ) : Option (StackAlloc × List ℕ) :=
  if c.nextOffset = c.pageSize then c.newPage parent else some (c, parent)

/-- `fdb_stack_alloc_alloc`: the address, the allocator, the memory and the pages of the parent that
have not been taken. -/
def alloc (c : StackAlloc) (m : Mem) (parent : List ℕ) (alignment size : ℕ) :
    Option (ℕ × StackAlloc × Mem × List ℕ) :=
  if size ≤ c.pageSize ∧ alignment ≤ c.pageSize then do
    let (c, slack, parent) ← c.room parent alignment size
    if add32 (add32 c.nextOffset slack) size ≤ c.pageSize then do
      let (c, m, parent) ← c.frame m parent
      let addr := c.nextPage + c.nextOffset + slack
      let m := c.record m addr
      let c := { c with nextOffset := add32 c.nextOffset (add32 slack size) }
      if c.nextOffset ≤ c.pageSize then do
        let (c, parent) ← c.turn parent
        if c.offsetBits addr < c.pageSize ∧ addr % alignment = 0 then some (addr, c, m, parent) else none
      else none
    else none
  else none

/-- A last frame without records is given back, the first step of a pop. -/
def dropFrame (c : StackAlloc) (m : Mem) : Option (StackAlloc × Mem × List ℕ) :=
  if c.lastFrame = 0 then none
  else if Frame.nextFree m c.lastFrame = 0 then
    let previous := Frame.previous m c.lastFrame
    if previous = 0 then none
    else some ({ c with lastFrame := previous }, Frame.setNextPage m previous 0, [c.lastFrame])
  else some (c, m, [])

/-- `fdb_stack_alloc_pop`: the allocator, the memory and the pages that are given back. -/
def pop (c : StackAlloc) (m : Mem) (ptr : ℕ) : Option (StackAlloc × Mem × List ℕ) := do
  let (c, m, freed) ← c.dropFrame m
  let popAddr := loadWord m (Frame.data c.lastFrame (Frame.nextFree m c.lastFrame) - 8)
  let m := Frame.setNextFree m c.lastFrame (sub32 (Frame.nextFree m c.lastFrame) 8)
  if popAddr = ptr then
    let (page, offset) := c.pageAddrDecode popAddr
    let freed := if c.nextPage ≠ page then freed ++ [c.nextPage] else freed
    some ({ c with nextPage := page, nextOffset := offset }, m, freed)
  else none

/-- Pops, one after the other. -/
def popAll (c : StackAlloc) (m : Mem) : List ℕ → Option (StackAlloc × Mem)
  | [] => some (c, m)
  | ptr :: ptrs => do
      let (c, m, _) ← c.pop m ptr
      c.popAll m ptrs

end StackAlloc

/-! ### Histories -/

/-- What has been asked for, and where it is. -/
structure Allocation where
  addr : ℕ
  size : ℕ
  alignment : ℕ
deriving DecidableEq, Repr

/-- A stack allocator with the memory, the pages that it holds, and the live allocations, the last one
first, each with what its user has written to it. -/
structure StackState where
  alloc : StackAlloc
  mem : Mem
  held : List ℕ
  live : List (Allocation × Mem)

/-- The byte is in a page that the allocator holds. -/
def StackState.Holds (s : StackState) (b : ℕ) : Prop := ∃ page ∈ s.held, b ∈ bytes page s.alloc.pageSize

/-- A step of a history: an allocation, for which the parent gives pages apart from those that are
held; a pop of the last allocation; a user that writes to a live allocation; writes to memory that
the allocator does not hold. -/
inductive StackStep : StackState → StackState → Prop
  | alloc {s : StackState} {alignment size addr : ℕ} {c : StackAlloc} {m : Mem} {taken : List ℕ}
      (hsize : size ≤ s.alloc.pageSize) (halign : alignment ≤ s.alloc.pageSize)
      (hpow : ∃ j, alignment = 2 ^ j) (htaken : Regions (s.held ++ taken) s.alloc.pageSize s.alloc.pageSize)
      (h : s.alloc.alloc s.mem taken alignment size = some (addr, c, m, [])) :
      StackStep s ⟨c, m, s.held ++ taken, (⟨addr, size, alignment⟩, m) :: s.live⟩
  | pop {s : StackState} {a : Allocation × Mem} {live : List (Allocation × Mem)} {c : StackAlloc} {m : Mem}
      {freed : List ℕ} (hlive : s.live = a :: live)
      (h : s.alloc.pop s.mem a.1.addr = some (c, m, freed)) :
      StackStep s ⟨c, m, s.held.diff freed, live⟩
  | write {s : StackState} {before after : List (Allocation × Mem)} {a : Allocation} {data data' m : Mem}
      (hlive : s.live = before ++ (a, data) :: after) (hdata : ∀ b ∈ bytes a.addr a.size, m b = data' b)
      (hother : ∀ b, s.Holds b → b ∉ bytes a.addr a.size → m b = s.mem b) :
      StackStep s { s with
        mem := m
        live := before ++ (a, data') :: after }
  | other {s : StackState} {m : Mem} (h : ∀ b, s.Holds b → m b = s.mem b) : StackStep s { s with mem := m }

/-- The states that a stack allocator reaches. -/
inductive StackRun (pageSize : ℕ) : StackState → Prop
  | init (m : Mem) : StackRun pageSize ⟨StackAlloc.init pageSize, m, [], []⟩
  | step {s s' : StackState} (h : StackRun pageSize s) (hs : StackStep s s') : StackRun pageSize s'

/-- What the user of a stack allocator expects. -/
structure StackState.Safe (s : StackState) : Prop where
  apart : s.live.Pairwise fun a b => Disjoint (bytes a.1.addr a.1.size) (bytes b.1.addr b.1.size)
  aligned : ∀ a ∈ s.live, a.1.alignment ∣ a.1.addr
  inside : ∀ a ∈ s.live, ∃ page ∈ s.held, page ≤ a.1.addr ∧ a.1.addr < page + s.alloc.pageSize
    ∧ a.1.addr + a.1.size ≤ page + s.alloc.pageSize
  -- the frames, the last one first, with their records, the oldest one first
  recorded : ∃ frames, Frames s.mem s.alloc.pageSize s.alloc.lastFrame frames
    ∧ frames.flatMap (fun e => e.2.reverse) = s.live.map fun a => a.1.addr
  kept : ∀ a ∈ s.live, ∀ b ∈ bytes a.1.addr a.1.size, s.mem b = a.2 b
  pops : ∃ r, s.alloc.popAll s.mem (s.live.map fun a => a.1.addr) = some r
  gives : ∀ a live, s.live = a :: live → ∃ c m freed, s.alloc.pop s.mem a.1.addr = some (c, m, freed)
    ∧ freed.Nodup ∧ freed ⊆ s.held
  serves : ∀ alignment size parent, size ≤ s.alloc.pageSize → alignment ≤ s.alloc.pageSize →
    (∃ j, alignment = 2 ^ j) → Regions (s.held ++ parent) s.alloc.pageSize s.alloc.pageSize →
    3 ≤ parent.length → ∃ r, s.alloc.alloc s.mem parent alignment size = some r

end Furious
