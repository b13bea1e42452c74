import Furious.BTree.Indexed
import Furious.Data.Blocks
import Furious.Library.Loops
import Furious.Library.Memory

/-!
Bittables.

A bittable is a set of entity ids. Like those of a table its ids are cut into blocks of
256; the bitmap of a block says which of its ids are in the set. Bitmaps are created on
demand and found through a B-tree, and the number of ids is kept up to date in 32 bits.

* `Bittable`: the record;
* `Bittable.existsId`, `Bittable.add`, `Bittable.remove`, `Bittable.clear`,
  `Bittable.union`, `Bittable.difference`: the operations;
* `Denotes`: the set that a bittable stands for;
* `Denotes.existsId`, `Denotes.add`, `Denotes.remove`, `Denotes.clear`, `Denotes.union`,
  `Denotes.difference`: **the operations on the set**;
* `bittable_runs`: **runs** of calls on any number of bittables.
-/

namespace Furious

/-- `fdb_bittable_op_t`. -/
inductive BittableOp where
  | and
  | or
  | diff
deriving DecidableEq, Repr

/-- `fdb_bittable_t`; the bits of a bitmap are part of it. -/
structure Bittable where
  bitmaps : BTree ℕ
  size : ℕ
  bitmapAllocator : Pool Bitmap

namespace Bittable

/-- `fdb_bittable_init`. -/
def init : Bittable where
  bitmaps := BTree.init
  size := 0
  bitmapAllocator := Pool.empty

/-- `fdb_bittable_get_bitset`. -/
def getBitset (bt : Bittable) (bitsetId : ℕ) : Option (Option ℕ) := bt.bitmaps.get bitsetId

/-- A branch of `fdb_bittable_apply_bitset`: the count of the bitmap is taken out of the size
before the operation and put back after it. -/
def replace (bt : Bittable) (p : ℕ) (op : Bitmap → Option Bitmap) : Option Bittable := do
  let bm ← bt.bitmapAllocator.get p
  let bm' ← op bm
  let bitmapAllocator ← bt.bitmapAllocator.put p bm'
  some { bt with
    size := add32 (sub32 bt.size bm.numSet) bm'.numSet
    bitmapAllocator := bitmapAllocator }

/-- `fdb_bittable_apply_bitset`. -/
def applyBitset (bt : Bittable) (id : ℕ) (bitmap : Bitmap) (op : BittableOp) : Option Bittable := do
  let bm ← bt.getBitset id
  match op, bm with
  | .and, some p => bt.replace p (·.setAnd bitmap)
  | .and, none => some bt
  | .or, some p => bt.replace p (·.setOr bitmap)
  | .or, none => do
      let (p, bitmapAllocator) := bt.bitmapAllocator.alloc (Bitmap.init tableBlockSize)
      let (bitmaps, _) ← bt.bitmaps.insert id p
      let nbitmap ← bitmapAllocator.get p
      let nbitmap ← nbitmap.setOr bitmap
      let bitmapAllocator ← bitmapAllocator.put p nbitmap
      some { bitmaps := bitmaps
             size := add32 bt.size nbitmap.numSet
             bitmapAllocator := bitmapAllocator }
  | .diff, some p => bt.replace p (·.setDiff bitmap)
  | .diff, none => some bt

/-- `fdb_bittable_get_bitmap`. -/
def getBitmap (bt : Bittable) (id : ℕ) : Option (Option Bitmap) := do
  match ← bt.getBitset (id / tableBlockSize) with
  | none => some none
  | some p => (bt.bitmapAllocator.get p).map some

/-- `fdb_bittable_exists`. -/
def existsId (bt : Bittable) (id : ℕ) : Option Bool := do
  match ← bt.getBitset (id / tableBlockSize) with
  | none => some false
  | some p => do
      let bitmap ← bt.bitmapAllocator.get p
      bitmap.isSet (id % tableBlockSize)

/-- The first part of `fdb_bittable_add`: a missing bitmap is created. -/
def createBitmap (bt : Bittable) (bitsetId : ℕ) : Option (Bittable × ℕ) := do
  match ← bt.getBitset bitsetId with
  | some p => some (bt, p)
  | none => do
      let (p, bitmapAllocator) := bt.bitmapAllocator.alloc (Bitmap.init tableBlockSize)
      let (bitmaps, _) ← bt.bitmaps.insert bitsetId p
      some ({ bt with bitmaps := bitmaps, bitmapAllocator := bitmapAllocator }, p)

/-- `fdb_bittable_add`. -/
def add (bt : Bittable) (id : ℕ) : Option Bittable := do
  let (bt, p) ← bt.createBitmap (id / tableBlockSize)
  let bitmap ← bt.bitmapAllocator.get p
  let isSet ← bitmap.isSet (id % tableBlockSize)
  if isSet = true then some bt else do
    let bitmap ← bitmap.set (id % tableBlockSize)
    let bitmapAllocator ← bt.bitmapAllocator.put p bitmap
    some { bt with size := add32 bt.size 1, bitmapAllocator := bitmapAllocator }

/-- `fdb_bittable_remove`. -/
def remove (bt : Bittable) (id : ℕ) : Option Bittable := do
  match ← bt.getBitset (id / tableBlockSize) with
  | none => some bt
  | some p => do
      let bitmap ← bt.bitmapAllocator.get p
      let isSet ← bitmap.isSet (id % tableBlockSize)
      if isSet = true then do
        let bitmap ← bitmap.unset (id % tableBlockSize)
        let bitmapAllocator ← bt.bitmapAllocator.put p bitmap
        some { bt with size := sub32 bt.size 1, bitmapAllocator := bitmapAllocator }
      else some bt

/-- The loop of `fdb_bittable_clear`. -/
def nullifyAll (bitmaps : BTree ℕ) : ℕ → Iter → Pool Bitmap → Option (Pool Bitmap)
  | 0, _, _ => none
  | fuel + 1, it, pool => do
      let more ← it.hasNext bitmaps.nodes
      if more = true then do
        let ((_, value), it) ← it.next bitmaps.nodes
        let p ← value
        let bitmap ← pool.get p
        let pool ← pool.put p bitmap.nullify
        nullifyAll bitmaps fuel it pool
      else some pool

/-- `fdb_bittable_clear`. -/
def clear (bt : Bittable) : Option Bittable := do
  let it ← bt.bitmaps.iterInit
  let bitmapAllocator ← nullifyAll bt.bitmaps (bt.bitmaps.size + 1) it bt.bitmapAllocator
  some { bt with size := 0, bitmapAllocator := bitmapAllocator }

/-- The loop of `fdb_bittable_union` and of `fdb_bittable_difference`. -/
def applyAll (op : BittableOp) (snd : Bittable) : ℕ → Iter → Bittable → Option Bittable
  | 0, _, _ => none
  | fuel + 1, it, fst => do
      let more ← it.hasNext snd.bitmaps.nodes
      if more = true then do
        let ((key, value), it) ← it.next snd.bitmaps.nodes
        let p ← value
        let bitmap ← snd.bitmapAllocator.get p
        let fst ← fst.applyBitset key bitmap op
        applyAll op snd fuel it fst
      else some fst

/-- `fdb_bittable_union`. -/
def union (fst snd : Bittable) : Option Bittable := do
  let it ← snd.bitmaps.iterInit
  applyAll .or snd (snd.bitmaps.size + 1) it fst

/-- `fdb_bittable_difference`. -/
def difference (fst snd : Bittable) : Option Bittable := do
  let it ← snd.bitmaps.iterInit
  applyAll .diff snd (snd.bitmaps.size + 1) it fst

end Bittable

/-! ### Sets, block by block -/

/-- How many ids of the set are in the block `b`. -/
def inBlock (S : Finset ℕ) (b : ℕ) : ℕ := (S.filter fun id => id / tableBlockSize = b).card

variable {S S' T : Finset ℕ} {b : ℕ}

/-- Sets that differ in one block only. -/
lemma card_add_inBlock (h : ∀ id, id / tableBlockSize ≠ b → (id ∈ S' ↔ id ∈ S)) :
    S'.card + inBlock S b = S.card + inBlock S' b := by
  have hrest : (S'.filter fun id => ¬ id / tableBlockSize = b)
      = S.filter fun id => ¬ id / tableBlockSize = b := by
    ext id
    rw [Finset.mem_filter, Finset.mem_filter]
    exact and_congr_left fun hb => h id hb
  have hS := Finset.card_filter_add_card_filter_not (s := S) fun id => id / tableBlockSize = b
  have hS' := Finset.card_filter_add_card_filter_not (s := S') fun id => id / tableBlockSize = b
  rw [hrest] at hS'
  rw [inBlock, inBlock]
  omega

/-- The bitmap of a block counts the ids in it. -/
lemma inBlock_eq_numSet {x : Bitmap} (hx : x.bits.length = tableBlockSize)
    (h : ∀ id, id / tableBlockSize = b → (id ∈ S ↔ x.test (id % tableBlockSize) = true)) :
    inBlock S b = x.numSet := by
  rw [inBlock, x.numSet_eq_card, hx]
  refine Finset.card_bij (fun id _ => id % tableBlockSize) (fun id hid => ?_) (fun i hi j hj hij => ?_)
    fun o ho => ?_
  · obtain ⟨hS, hb⟩ := Finset.mem_filter.mp hid
    exact Finset.mem_filter.mpr ⟨Finset.mem_range.mpr (offset_lt id), (h id hb).mp hS⟩
  · have hib := (Finset.mem_filter.mp hi).2
    have hjb := (Finset.mem_filter.mp hj).2
    rw [← Nat.div_add_mod i tableBlockSize, ← Nat.div_add_mod j tableBlockSize, hib, hjb, hij]
  · obtain ⟨hlt, ho⟩ := Finset.mem_filter.mp ho
    rw [Finset.mem_range] at hlt
    have hdiv : (tableBlockSize * b + o) / tableBlockSize = b := by
      rw [Nat.mul_add_div (by decide), Nat.div_eq_of_lt hlt, Nat.add_zero]
    have hmod : (tableBlockSize * b + o) % tableBlockSize = o := by
      rw [Nat.mul_add_mod, Nat.mod_eq_of_lt hlt]
    refine ⟨tableBlockSize * b + o, Finset.mem_filter.mpr ⟨(h _ hdiv).mpr ?_, hdiv⟩, hmod⟩
    rw [hmod]
    exact ho

lemma inBlock_le (S : Finset ℕ) (b : ℕ) : inBlock S b ≤ S.card := Finset.card_filter_le _ _

/-! ### The set of a bittable -/

lemma decide_eq_of_iff {P : Prop} [Decidable P] {v : Bool} (h : P ↔ v = true) : decide P = v := by
  rw [Bool.eq_iff_iff, decide_eq_true_iff]
  exact h

/-- The bitmaps `r` say which ids are in the set. -/
structure Marks (r : ℕ → Option Bitmap) (S : Finset ℕ) : Prop where
  bounded : ∀ b x, r b = some x → b < numBlocks ∧ x.bits.length = tableBlockSize
  mem : ∀ id, id ∈ S ↔ ∃ x, r (id / tableBlockSize) = some x ∧ x.test (id % tableBlockSize) = true

namespace Marks

variable {r : ℕ → Option Bitmap} {x : Bitmap}

lemma mem_of_some (h : Marks r S) (hb : r b = some x) {id : ℕ} (hid : id / tableBlockSize = b) :
    id ∈ S ↔ x.test (id % tableBlockSize) = true := by
  rw [h.mem, hid, hb]
  constructor
  · rintro ⟨y, hy, ht⟩
    obtain rfl := Option.some.inj hy
    exact ht
  · exact fun ht => ⟨x, rfl, ht⟩

lemma notMem_of_none (h : Marks r S) (hb : r b = none) {id : ℕ} (hid : id / tableBlockSize = b) :
    id ∉ S := by
  rw [h.mem, hid, hb]
  rintro ⟨y, hy, -⟩
  cases hy

lemma inBlock_of_some (h : Marks r S) (hb : r b = some x) : inBlock S b = x.numSet :=
  inBlock_eq_numSet (h.bounded b x hb).2 fun _ hid => h.mem_of_some hb hid

/-- **One bitmap is exchanged**: the set changes in its block only. -/
theorem update (h : Marks r S) (hb : b < numBlocks) (hx : x.bits.length = tableBlockSize)
    (hother : ∀ id, id / tableBlockSize ≠ b → (id ∈ S' ↔ id ∈ S))
    (hblock : ∀ id, id / tableBlockSize = b → (id ∈ S' ↔ x.test (id % tableBlockSize) = true)) :
    Marks (Function.update r b (some x)) S' := by
  refine ⟨fun b' y hy => ?_, fun id => ?_⟩
  · by_cases hbb : b' = b
    · rw [hbb, Function.update_self] at hy
      obtain rfl := Option.some.inj hy
      exact ⟨hbb ▸ hb, hx⟩
    · rw [Function.update_of_ne hbb] at hy
      exact h.bounded b' y hy
  · by_cases hid : id / tableBlockSize = b
    · rw [hblock id hid, hid, Function.update_self]
      constructor
      · exact fun ht => ⟨x, rfl, ht⟩
      · rintro ⟨y, hy, ht⟩
        obtain rfl := Option.some.inj hy
        exact ht
    · rw [hother id hid, h.mem, Function.update_of_ne hid]

end Marks

/-- The bittable stands for the set `S`. -/
structure Denotes (bt : Bittable) (S : Finset ℕ) : Prop where
  records : ∃ r, Indexed bt.bitmaps bt.bitmapAllocator r ∧ Marks r S
  size : bt.size = S.card % 2 ^ 32

namespace Denotes

variable {bt : Bittable} {id : ℕ}

lemma init : Denotes Bittable.init ∅ := by
  refine ⟨⟨fun _ => none, Indexed.init, ⟨fun b x h => ?_, fun id => ?_⟩⟩, rfl⟩
  · cases h
  · constructor
    · exact fun h => absurd h (Finset.notMem_empty id)
    · rintro ⟨x, hx, -⟩
      cases hx

/-- There are no ids beyond the blocks. -/
lemma lt (h : Denotes bt S) (hid : id ∈ S) : id < 2 ^ 32 := by
  obtain ⟨r, -, hr⟩ := h.records
  obtain ⟨x, hx, -⟩ := (hr.mem id).mp hid
  have hlt := (hr.bounded _ x hx).1
  rw [Nat.div_lt_iff_lt_mul (by decide)] at hlt
  exact lt_of_lt_of_le hlt (by decide)

/-- **`fdb_bittable_exists`.** -/
theorem existsId (h : Denotes bt S) (id : ℕ) : bt.existsId id = some (decide (id ∈ S)) := by
  obtain ⟨r, hidx, hr⟩ := h.records
  rcases hidx.get (id / tableBlockSize) with ⟨hnone, hget⟩ | ⟨p, x, hx, hget, hp⟩
  · have hid : decide (id ∈ S) = false := decide_eq_false (hr.notMem_of_none hnone rfl)
    simp only [Bittable.existsId, Bittable.getBitset, hget, Option.bind_eq_bind, Option.bind_some, hid]
  · have hlt : id % tableBlockSize < x.bits.length := by
      rw [(hr.bounded _ x hx).2]
      exact offset_lt id
    have hid : decide (id ∈ S) = x.test (id % tableBlockSize) :=
      decide_eq_of_iff (hr.mem_of_some hx rfl)
    simp only [Bittable.existsId, Bittable.getBitset, hget, hp, Bitmap.isSet_eq hlt, Option.bind_eq_bind,
      Option.bind_some, hid]

/-- **`fdb_bittable_get_bitmap`**: the ids of the block that are in the set. -/
theorem getBitmap (h : Denotes bt S) (id : ℕ) : ∃ y, bt.getBitmap id = some y
    ∧ (∀ x, y = some x → x.bits.length = tableBlockSize)
    ∧ ∀ o < tableBlockSize, decide (id / tableBlockSize * tableBlockSize + o ∈ S)
      = y.elim false fun x => x.test o := by
  obtain ⟨r, hidx, hr⟩ := h.records
  have hblock : ∀ o < tableBlockSize, (id / tableBlockSize * tableBlockSize + o) / tableBlockSize
      = id / tableBlockSize := fun o ho => by
    rw [Nat.mul_comm, Nat.mul_add_div (by decide), Nat.div_eq_of_lt ho, Nat.add_zero]
  rcases hidx.get (id / tableBlockSize) with ⟨hnone, hget⟩ | ⟨p, x, hx, hget, hp⟩
  · refine ⟨none, ?_, fun x hx => (by cases hx), fun o ho => ?_⟩
    · simp only [Bittable.getBitmap, Bittable.getBitset, hget, Option.bind_eq_bind, Option.bind_some]
    · exact decide_eq_false (hr.notMem_of_none hnone (hblock o ho))
  · refine ⟨some x, ?_, fun y hy => ?_, fun o ho => ?_⟩
    · simp only [Bittable.getBitmap, Bittable.getBitset, hget, hp, Option.bind_eq_bind, Option.bind_some,
        Option.map_some]
    · obtain rfl := Option.some.inj hy
      exact (hr.bounded _ x hx).2
    · have hmod : (id / tableBlockSize * tableBlockSize + o) % tableBlockSize = o := by
        rw [Nat.mul_comm, Nat.mul_add_mod, Nat.mod_eq_of_lt ho]
      have hmem := hr.mem_of_some hx (hblock o ho)
      rw [hmod] at hmem
      exact decide_eq_of_iff hmem

/-- **A bitmap is exchanged** by an operation on the bittable that keeps the count. -/
theorem exchange (h : Denotes bt S) (S' : Finset ℕ) {p : ℕ} {x y : Bitmap} (hget : bt.bitmaps.get b = some (some p))
    (hp : bt.bitmapAllocator.get p = some x) (hy : y.bits.length = tableBlockSize)
    (hother : ∀ id, id / tableBlockSize ≠ b → (id ∈ S' ↔ id ∈ S))
    (hblock : ∀ id, id / tableBlockSize = b → (id ∈ S' ↔ y.test (id % tableBlockSize) = true)) :
    ∃ pool, bt.bitmapAllocator.put p y = some pool ∧ S'.card + x.numSet = S.card + y.numSet
      ∧ x.numSet ≤ S.card ∧ Denotes ⟨bt.bitmaps, S'.card % 2 ^ 32, pool⟩ S' := by
  obtain ⟨r, hidx, hr⟩ := h.records
  rcases hidx.get b with ⟨-, hnone⟩ | ⟨p', x', hx, hp', hx'⟩
  · rw [hnone] at hget
    cases hget
  obtain rfl := Option.some.inj (Option.some.inj (hp'.symm.trans hget))
  obtain rfl := Option.some.inj (hx'.symm.trans hp)
  obtain ⟨pool, hput, hidx'⟩ := hidx.put hget y
  have hcard := card_add_inBlock hother
  rw [hr.inBlock_of_some hx, inBlock_eq_numSet hy hblock] at hcard
  have hle := inBlock_le S b
  rw [hr.inBlock_of_some hx] at hle
  exact ⟨pool, hput, hcard, hle, ⟨_, hidx', hr.update (hr.bounded b x' hx).1 hy hother hblock⟩, rfl⟩

/-- **A bitmap is created.** -/
theorem create (h : Denotes bt S) (hb : b < numBlocks) (hget : bt.bitmaps.get b = some none) :
    ∃ p pool bitmaps ins, bt.bitmapAllocator.alloc (Bitmap.init tableBlockSize) = (p, pool)
      ∧ bt.bitmaps.insert b p = some (bitmaps, ins)
      ∧ bitmaps.get b = some (some p) ∧ pool.get p = some (Bitmap.init tableBlockSize)
      ∧ Denotes ⟨bitmaps, bt.size, pool⟩ S := by
  obtain ⟨r, hidx, hr⟩ := h.records
  rcases hidx.get b with ⟨hnone, -⟩ | ⟨p', x', -, hp', -⟩
  · obtain ⟨p, pool, bitmaps, ins, halloc, hins, hget', hp, hidx'⟩ :=
      hidx.insert hnone (Bitmap.init tableBlockSize)
    refine ⟨p, pool, bitmaps, ins, halloc, hins, hget', hp, ⟨_, hidx', ?_⟩, h.size⟩
    refine hr.update hb (Bitmap.length_init _) (fun _ _ => Iff.rfl) fun id hid => ?_
    rw [Bitmap.test_init]
    exact iff_of_false (hr.notMem_of_none hnone hid) Bool.false_ne_true
  · rw [hp'] at hget
    cases hget

/-- What an id leads to. -/
lemma cases (h : Denotes bt S) (b : ℕ) :
    (bt.bitmaps.get b = some none ∧ ∀ id, id / tableBlockSize = b → id ∉ S)
    ∨ ∃ p x, bt.bitmaps.get b = some (some p) ∧ bt.bitmapAllocator.get p = some x ∧ b < numBlocks
      ∧ x.bits.length = tableBlockSize
      ∧ ∀ id, id / tableBlockSize = b → (id ∈ S ↔ x.test (id % tableBlockSize) = true) := by
  obtain ⟨r, hidx, hr⟩ := h.records
  rcases hidx.get b with ⟨hnone, hget⟩ | ⟨p, x, hx, hget, hp⟩
  · exact Or.inl ⟨hget, fun id hid => hr.notMem_of_none hnone hid⟩
  · exact Or.inr ⟨p, x, hget, hp, (hr.bounded b x hx).1, (hr.bounded b x hx).2,
      fun id hid => hr.mem_of_some hx hid⟩

/-- The first part of `fdb_bittable_add`. -/
lemma createBitmap (h : Denotes bt S) (hb : b < numBlocks) :
    ∃ bt' p x, bt.createBitmap b = some (bt', p) ∧ Denotes bt' S
      ∧ bt'.bitmaps.get b = some (some p) ∧ bt'.bitmapAllocator.get p = some x
      ∧ x.bits.length = tableBlockSize
      ∧ ∀ id, id / tableBlockSize = b → (id ∈ S ↔ x.test (id % tableBlockSize) = true) := by
  rcases h.cases b with ⟨hget, hnone⟩ | ⟨p, x, hget, hp, -, hlen, hmem⟩
  · obtain ⟨p, pool, bitmaps, ins, halloc, hins, hget', hp, h'⟩ := h.create hb hget
    refine ⟨_, p, _, ?_, h', hget', hp, Bitmap.length_init _, fun id hid => ?_⟩
    · simp only [Bittable.createBitmap, Bittable.getBitset, hget, halloc, hins, Option.bind_eq_bind,
        Option.bind_some]
    · rw [Bitmap.test_init]
      exact iff_of_false (hnone id hid) Bool.false_ne_true
  · refine ⟨bt, p, x, ?_, h, hget, hp, hlen, hmem⟩
    simp only [Bittable.createBitmap, Bittable.getBitset, hget, Option.bind_eq_bind, Option.bind_some]

/-- Ids of one block differ in their place. -/
lemma mod_ne {i j : ℕ} (h : i / tableBlockSize = j / tableBlockSize) (hne : i ≠ j) :
    i % tableBlockSize ≠ j % tableBlockSize := fun hmod =>
  hne (by rw [← Nat.div_add_mod i tableBlockSize, ← Nat.div_add_mod j tableBlockSize, h, hmod])

/-- The bits after an assignment to the place of an id. -/
lemma mem_update {x y : Bitmap} {v : Bool}
    (hmem : ∀ j, j / tableBlockSize = id / tableBlockSize → (j ∈ S ↔ x.test (j % tableBlockSize) = true))
    (hy : y.test = Function.update x.test (id % tableBlockSize) v)
    (hS' : ∀ j, j ∈ S' ↔ if j = id then v = true else j ∈ S) (j : ℕ)
    (hj : j / tableBlockSize = id / tableBlockSize) :
    j ∈ S' ↔ y.test (j % tableBlockSize) = true := by
  rw [hS', hy]
  by_cases hji : j = id
  · rw [if_pos hji, hji, Function.update_self]
  · rw [if_neg hji, Function.update_of_ne (mod_ne hj hji), hmem j hj]

/-- **`fdb_bittable_add`.** -/
theorem add (h : Denotes bt S) (hid : id < 2 ^ 32) : ∃ bt', bt.add id = some bt'
    ∧ Denotes bt' (insert id S) := by
  have hb : id / tableBlockSize < numBlocks := by
    rw [Nat.div_lt_iff_lt_mul (by decide)]
    exact lt_of_lt_of_le hid (by decide)
  obtain ⟨bt', p, x, hcreate, h', hget, hp, hlen, hmem⟩ := h.createBitmap hb
  have hlt : id % tableBlockSize < x.bits.length := hlen ▸ offset_lt id
  cases ht : x.test (id % tableBlockSize) with
  | true =>
      have hin : id ∈ S := (hmem id rfl).mpr ht
      refine ⟨bt', ?_, by rwa [Finset.insert_eq_of_mem hin]⟩
      simp only [Bittable.add, hcreate, hp, Bitmap.isSet_eq hlt, ht, Option.bind_eq_bind,
        Option.bind_some, if_true]
  | false =>
      have hout : id ∉ S := fun hin => by rw [(hmem id rfl).mp hin] at ht; cases ht
      obtain ⟨y, hset, hylen, hy, -⟩ := Bitmap.setBit_spec hlt true
      have hS' : ∀ j, j ∈ insert id S ↔ if j = id then true = true else j ∈ S := fun j => by
        by_cases hj : j = id <;> simp [hj]
      obtain ⟨pool, hput, -, -, hden⟩ := h'.exchange _ hget hp (hylen.trans hlen)
        (fun j hj => by rw [hS', if_neg fun e => hj (by rw [e])]) (mem_update hmem hy hS')
      refine ⟨_, ?_, hden⟩
      have hsize : add32 bt'.size 1 = (insert id S).card % 2 ^ 32 := by
        rw [Finset.card_insert_of_notMem hout, add32, h'.size]
        omega
      simp only [Bittable.add, hcreate, hp, Bitmap.isSet_eq hlt, ht, Option.bind_eq_bind,
        Option.bind_some, Bool.false_eq_true, if_false, Bitmap.set, hset, hput, hsize]

/-- **`fdb_bittable_remove`.** -/
theorem remove (h : Denotes bt S) (id : ℕ) : ∃ bt', bt.remove id = some bt'
    ∧ Denotes bt' (S.erase id) := by
  rcases h.cases (id / tableBlockSize) with ⟨hget, hnone⟩ | ⟨p, x, hget, hp, -, hlen, hmem⟩
  · refine ⟨bt, ?_, by rwa [Finset.erase_eq_of_notMem (hnone id rfl)]⟩
    simp only [Bittable.remove, Bittable.getBitset, hget, Option.bind_eq_bind, Option.bind_some]
  have hlt : id % tableBlockSize < x.bits.length := hlen ▸ offset_lt id
  cases ht : x.test (id % tableBlockSize) with
  | false =>
      have hout : id ∉ S := fun hin => by rw [(hmem id rfl).mp hin] at ht; cases ht
      refine ⟨bt, ?_, by rwa [Finset.erase_eq_of_notMem hout]⟩
      simp only [Bittable.remove, Bittable.getBitset, hget, hp, Bitmap.isSet_eq hlt, ht,
        Option.bind_eq_bind, Option.bind_some, Bool.false_eq_true, if_false]
  | true =>
      have hin : id ∈ S := (hmem id rfl).mpr ht
      obtain ⟨y, hset, hylen, hy, -⟩ := Bitmap.setBit_spec hlt false
      have hS' : ∀ j, j ∈ S.erase id ↔ if j = id then false = true else j ∈ S := fun j => by
        by_cases hj : j = id <;> simp [hj]
      obtain ⟨pool, hput, -, -, hden⟩ := h.exchange _ hget hp (hylen.trans hlen)
        (fun j hj => by rw [hS', if_neg fun e => hj (by rw [e])]) (mem_update hmem hy hS')
      refine ⟨_, ?_, hden⟩
      have hpos : 0 < S.card := Finset.card_pos.mpr ⟨id, hin⟩
      have hsize : sub32 bt.size 1 = (S.erase id).card % 2 ^ 32 := by
        rw [Finset.card_erase_of_mem hin, sub32, h.size]
        omega
      simp only [Bittable.remove, Bittable.getBitset, hget, hp, Bitmap.isSet_eq hlt, ht,
        Option.bind_eq_bind, Option.bind_some, if_true, Bitmap.unset, hset, hput, hsize]

end Denotes

/-! ### Operations on two sets -/

namespace BittableOp

/-- What an operation does to a bit. -/
def bit : BittableOp → Bool → Bool → Bool
  | and, d, s => d && s
  | or, d, s => d || s
  | diff, d, s => d && (d ^^ s)

/-- What an operation does to a bitmap. -/
def onBitmap : BittableOp → Bitmap → Bitmap → Option Bitmap
  | and => Bitmap.setAnd
  | or => Bitmap.setOr
  | diff => Bitmap.setDiff

/-- What an operation does to a set, in the blocks `bs`. -/
def mix (op : BittableOp) (bs : List ℕ) (S T : Finset ℕ) : Finset ℕ :=
  (S ∪ T).filter fun id =>
    if id / tableBlockSize ∈ bs then op.bit (decide (id ∈ S)) (decide (id ∈ T)) = true else id ∈ S

variable {op : BittableOp} {bs : List ℕ} {id : ℕ}

lemma bit_false (op : BittableOp) : op.bit false false = false := by cases op <;> rfl

lemma mem_mix : id ∈ op.mix bs S T ↔ if id / tableBlockSize ∈ bs
    then op.bit (decide (id ∈ S)) (decide (id ∈ T)) = true else id ∈ S := by
  rw [mix, Finset.mem_filter, Finset.mem_union]
  refine and_iff_right_of_imp fun h => ?_
  by_cases hS : id ∈ S
  · exact Or.inl hS
  by_cases hT : id ∈ T
  · exact Or.inr hT
  · rw [decide_eq_false hS, decide_eq_false hT, bit_false] at h
    simp [hS] at h

/-- Inside the blocks the operation is done. -/
lemma mem_mix_of_mem (h : id / tableBlockSize ∈ bs) {d s : Bool} (hS : id ∈ S ↔ d = true)
    (hT : id ∈ T ↔ s = true) : id ∈ op.mix bs S T ↔ op.bit d s = true := by
  rw [mem_mix, if_pos h, decide_eq_of_iff hS, decide_eq_of_iff hT]

/-- Outside of them nothing changes. -/
lemma mem_mix_of_notMem (h : id / tableBlockSize ∉ bs) : id ∈ op.mix bs S T ↔ id ∈ S := by
  rw [mem_mix, if_neg h]

lemma onBitmap_spec {x y : Bitmap} (h : x.bits.length = y.bits.length) :
    ∃ z, op.onBitmap x y = some z ∧ z.bits.length = x.bits.length
      ∧ ∀ o, z.test o = op.bit (x.test o) (y.test o) := by
  cases op with
  | and => exact Bitmap.combine_spec _ h rfl
  | or => exact Bitmap.combine_spec _ h rfl
  | diff => exact Bitmap.combine_spec _ h rfl

end BittableOp

namespace Denotes

variable {bt snd : Bittable} {op : BittableOp}

/-- A branch of `fdb_bittable_apply_bitset`. -/
lemma replace (h : Denotes bt S) (op : BittableOp) {p : ℕ} {x y : Bitmap} (hget : bt.bitmaps.get b = some (some p))
    (hp : bt.bitmapAllocator.get p = some x) (hx : x.bits.length = tableBlockSize)
    (hy : y.bits.length = tableBlockSize)
    (hmemS : ∀ id, id / tableBlockSize = b → (id ∈ S ↔ x.test (id % tableBlockSize) = true))
    (hmemT : ∀ id, id / tableBlockSize = b → (id ∈ T ↔ y.test (id % tableBlockSize) = true)) :
    ∃ bt', bt.replace p (op.onBitmap · y) = some bt' ∧ Denotes bt' (op.mix [b] S T) := by
  obtain ⟨z, hz, hlen, htest⟩ := op.onBitmap_spec (hx.trans hy.symm)
  obtain ⟨pool, hput, hcard, hle, hden⟩ := h.exchange (op.mix [b] S T) hget hp (hlen.trans hx)
    (fun id hid => BittableOp.mem_mix_of_notMem (by rwa [List.mem_singleton]))
    (fun id hid => by
      rw [BittableOp.mem_mix_of_mem (List.mem_singleton.mpr hid) (hmemS id hid) (hmemT id hid), htest])
  have hsize : add32 (sub32 bt.size x.numSet) z.numSet = (op.mix [b] S T).card % 2 ^ 32 := by
    rw [add32, sub32, h.size]
    omega
  refine ⟨_, ?_, hden⟩
  simp only [Bittable.replace, hp, hz, hput, Option.bind_eq_bind, Option.bind_some, hsize]

/-- **`fdb_bittable_apply_bitset`** with a bitmap of another set. -/
theorem applyBitset (h : Denotes bt S) (op : BittableOp) {y : Bitmap} (hb : b < numBlocks)
    (hy : y.bits.length = tableBlockSize)
    (hmem : ∀ id, id / tableBlockSize = b → (id ∈ T ↔ y.test (id % tableBlockSize) = true)) :
    ∃ bt', bt.applyBitset b y op = some bt' ∧ Denotes bt' (op.mix [b] S T) := by
  rcases h.cases b with ⟨hget, hnone⟩ | ⟨p, x, hget, hp, -, hx, hmemS⟩
  · -- without a bitmap the block has no ids
    have hkeep : (∀ s, op.bit false s = false) → op.mix [b] S T = S := by
      intro hbit
      ext id
      by_cases hid : id / tableBlockSize = b
      · rw [BittableOp.mem_mix, if_pos (List.mem_singleton.mpr hid), decide_eq_false (hnone id hid), hbit]
        exact iff_of_false Bool.false_ne_true (hnone id hid)
      · exact BittableOp.mem_mix_of_notMem (by rwa [List.mem_singleton])
    cases op with
    | and =>
        refine ⟨bt, ?_, by rwa [hkeep fun s => rfl]⟩
        simp only [Bittable.applyBitset, Bittable.getBitset, hget, Option.bind_eq_bind, Option.bind_some]
    | diff =>
        refine ⟨bt, ?_, by rwa [hkeep fun s => rfl]⟩
        simp only [Bittable.applyBitset, Bittable.getBitset, hget, Option.bind_eq_bind, Option.bind_some]
    | or =>
        obtain ⟨p, pool, bitmaps, ins, halloc, hins, hget', hp, h'⟩ := h.create hb hget
        obtain ⟨z, hz, hlen, htest⟩ := BittableOp.or.onBitmap_spec (x := Bitmap.init tableBlockSize)
          (y := y) ((Bitmap.length_init _).trans hy.symm)
        have hother : ∀ id, id / tableBlockSize ≠ b → (id ∈ BittableOp.or.mix [b] S T ↔ id ∈ S) :=
          fun id hid => BittableOp.mem_mix_of_notMem (by rwa [List.mem_singleton])
        have hblock : ∀ id, id / tableBlockSize = b →
            (id ∈ BittableOp.or.mix [b] S T ↔ z.test (id % tableBlockSize) = true) := fun id hid => by
          rw [BittableOp.mem_mix_of_mem (List.mem_singleton.mpr hid)
            (iff_of_false (hnone id hid) Bool.false_ne_true) (hmem id hid), htest, Bitmap.test_init]
        obtain ⟨pool', hput, hcard, -, hden⟩ := h'.exchange _ hget' hp (hlen.trans (Bitmap.length_init _))
          hother hblock
        have hsize : add32 bt.size z.numSet = (BittableOp.or.mix [b] S T).card % 2 ^ 32 := by
          rw [Bitmap.numSet_init] at hcard
          rw [add32, h.size]
          omega
        refine ⟨_, ?_, hden⟩
        rw [BittableOp.onBitmap] at hz
        simp only [Bittable.applyBitset, Bittable.getBitset, hget, halloc, hins, hp, hz, hput, hsize,
          Option.bind_eq_bind, Option.bind_some]
  · obtain ⟨bt', hrep, hden⟩ := h.replace op hget hp hx hy hmemS hmem
    refine ⟨bt', ?_, hden⟩
    rw [← hrep]
    cases op with
    | and => simp only [Bittable.applyBitset, Bittable.getBitset, hget, Option.bind_eq_bind,
        Option.bind_some, BittableOp.onBitmap]
    | or => simp only [Bittable.applyBitset, Bittable.getBitset, hget, Option.bind_eq_bind,
        Option.bind_some, BittableOp.onBitmap]
    | diff => simp only [Bittable.applyBitset, Bittable.getBitset, hget, Option.bind_eq_bind,
        Option.bind_some, BittableOp.onBitmap]

/-- **The loop over the blocks of the other set.** -/
theorem applyAll (h : Denotes bt S) (op : BittableOp) {r : ℕ → Option Bitmap} {l : List (ℕ × ℕ)}
    {it : Iter} {fuel : ℕ}
    (hidx : Indexed snd.bitmaps snd.bitmapAllocator r) (hr : Marks r T)
    (hl : ∀ e ∈ l, snd.bitmaps.get e.1 = some (some e.2)) (hnd : (l.map Prod.fst).Nodup)
    (hit : it.Remains snd.bitmaps.nodes l) (hfuel : l.length < fuel) :
    ∃ bt', Bittable.applyAll op snd fuel it bt = some bt' ∧ Denotes bt' (op.mix (l.map Prod.fst) S T) := by
  induction l generalizing bt S it fuel with
  | nil =>
      have hmix : op.mix [] S T = S := by
        ext id
        rw [BittableOp.mem_mix, if_neg List.not_mem_nil]
      cases fuel with
      | zero => omega
      | succ fuel =>
          refine ⟨bt, ?_, by rwa [List.map_nil, hmix]⟩
          simp only [Bittable.applyAll, hit.1, Option.bind_eq_bind, Option.bind_some,
            Bool.false_eq_true, if_false]
  | cons e l ih =>
      obtain ⟨hmore, it', hnext, hrest⟩ := hit
      rw [List.map_cons, List.nodup_cons] at hnd
      obtain ⟨he, hnd⟩ := hnd
      rcases hidx.get e.1 with ⟨-, hnone⟩ | ⟨p, y, hy, hget, hp⟩
      · rw [hl e List.mem_cons_self] at hnone
        cases hnone
      have hpe : p = e.2 :=
        Option.some.inj (Option.some.inj (hget.symm.trans (hl e List.mem_cons_self)))
      obtain ⟨bt₁, happly, h₁⟩ := h.applyBitset op (hr.bounded e.1 y hy).1 (hr.bounded e.1 y hy).2
        fun id hid => hr.mem_of_some hy hid
      -- the blocks that are left are as they were
      have hmix : op.mix ((e :: l).map Prod.fst) S T
          = op.mix (l.map Prod.fst) (op.mix [e.1] S T) T := by
        ext id
        rw [List.map_cons]
        by_cases hid : id / tableBlockSize ∈ l.map Prod.fst
        · have hne : id / tableBlockSize ∉ [e.1] := fun heq => he (List.mem_singleton.mp heq ▸ hid)
          rw [BittableOp.mem_mix, BittableOp.mem_mix, if_pos (List.mem_cons_of_mem _ hid), if_pos hid,
            decide_eq_decide.mpr (BittableOp.mem_mix_of_notMem hne)]
        · rw [BittableOp.mem_mix_of_notMem hid, BittableOp.mem_mix, BittableOp.mem_mix]
          by_cases heq : id / tableBlockSize = e.1
          · rw [if_pos (List.mem_cons.mpr (Or.inl heq)), if_pos (List.mem_singleton.mpr heq)]
          · rw [if_neg (fun hor => (List.mem_cons.mp hor).elim heq hid),
              if_neg (by rwa [List.mem_singleton])]
      cases fuel with
      | zero => omega
      | succ fuel =>
          obtain ⟨bt', hrun, h'⟩ := ih h₁ (fun e' he' => hl e' (List.mem_cons_of_mem _ he')) hnd hrest
            (Nat.lt_of_succ_lt_succ hfuel)
          refine ⟨bt', ?_, by rw [hmix]; exact h'⟩
          simp only [Bittable.applyAll, hmore, Option.bind_eq_bind, Option.bind_some, if_true, hnext,
            ← hpe, hp, happly, hrun]

/-- The loop, for a bittable. -/
lemma applyAll_eq (h : Denotes bt S) (op : BittableOp) (hT : Denotes snd T)
    (hbit : ∀ d, op.bit d false = d) : ∃ it bt', snd.bitmaps.iterInit = some it
      ∧ Bittable.applyAll op snd (snd.bitmaps.size + 1) it bt = some bt'
      ∧ ∀ S', (∀ id, id ∈ S' ↔ op.bit (decide (id ∈ S)) (decide (id ∈ T)) = true) → Denotes bt' S' := by
  obtain ⟨r, hidx, hr⟩ := hT.records
  obtain ⟨l, it, hl, hinit, hrem⟩ := hidx.iterInit
  have hlen : l.length ≤ numBlocks := hl.length_le fun b hb => by
    obtain ⟨x, hx⟩ := Option.ne_none_iff_exists'.mp hb
    exact (hr.bounded b x hx).1
  have hsize : snd.bitmaps.size = l.length := by
    rw [hl.size, Nat.mod_eq_of_lt (lt_of_le_of_lt hlen (by decide))]
  obtain ⟨bt', hrun, h'⟩ := h.applyAll op hidx hr hl.pointer hl.nodup hrem
    (hsize ▸ Nat.lt_succ_self l.length : l.length < snd.bitmaps.size + 1)
  refine ⟨it, bt', hinit, hrun, fun S' hS' => ?_⟩
  have hmix : op.mix (l.map Prod.fst) S T = S' := by
    ext id
    rw [BittableOp.mem_mix, hS']
    by_cases hid : id / tableBlockSize ∈ l.map Prod.fst
    · rw [if_pos hid]
    · have hout : id ∉ T := hr.notMem_of_none (by_contra fun hne => hid ((hl.keys _).mpr hne)) rfl
      rw [if_neg hid, decide_eq_false hout, hbit, decide_eq_true_iff]
  exact hmix ▸ h'

/-- **`fdb_bittable_union`.** -/
theorem union (h : Denotes bt S) (hT : Denotes snd T) : ∃ bt', bt.union snd = some bt'
    ∧ Denotes bt' (S ∪ T) := by
  obtain ⟨it, bt', hinit, hrun, h'⟩ := h.applyAll_eq .or hT fun d => Bool.or_false d
  refine ⟨bt', ?_, h' _ fun id => ?_⟩
  · simp only [Bittable.union, hinit, Option.bind_eq_bind, Option.bind_some, hrun]
  · simp [BittableOp.bit]

/-- **`fdb_bittable_difference`.** -/
theorem difference (h : Denotes bt S) (hT : Denotes snd T) : ∃ bt', bt.difference snd = some bt'
    ∧ Denotes bt' (S \ T) := by
  obtain ⟨it, bt', hinit, hrun, h'⟩ := h.applyAll_eq .diff hT fun d => by cases d <;> rfl
  refine ⟨bt', ?_, h' _ fun id => ?_⟩
  · simp only [Bittable.difference, hinit, Option.bind_eq_bind, Option.bind_some, hrun]
  · by_cases hS : id ∈ S <;> by_cases hT : id ∈ T <;> simp [BittableOp.bit, hS, hT]

/-- The loop of `fdb_bittable_clear`. -/
lemma nullifyAll {bitmaps : BTree ℕ} {pool : Pool Bitmap} {r : ℕ → Option Bitmap} {l : List (ℕ × ℕ)}
    {it : Iter} {fuel : ℕ} (hidx : Indexed bitmaps pool r)
    (hl : ∀ e ∈ l, bitmaps.get e.1 = some (some e.2)) (hnd : (l.map Prod.fst).Nodup)
    (hit : it.Remains bitmaps.nodes l) (hfuel : l.length < fuel) :
    ∃ pool' r', Bittable.nullifyAll bitmaps fuel it pool = some pool' ∧ Indexed bitmaps pool' r'
      ∧ ∀ b, r' b = if b ∈ l.map Prod.fst then (r b).map Bitmap.nullify else r b := by
  induction l generalizing pool r it fuel with
  | nil =>
      cases fuel with
      | zero => omega
      | succ fuel =>
          refine ⟨pool, r, ?_, hidx, fun b => (if_neg List.not_mem_nil).symm⟩
          simp only [Bittable.nullifyAll, hit.1, Option.bind_eq_bind, Option.bind_some,
            Bool.false_eq_true, if_false]
  | cons e l ih =>
      obtain ⟨hmore, it', hnext, hrest⟩ := hit
      rw [List.map_cons, List.nodup_cons] at hnd
      obtain ⟨he, hnd⟩ := hnd
      have hpe := hl e List.mem_cons_self
      rcases hidx.get e.1 with ⟨-, hnone⟩ | ⟨p, x, hx, hget, hp⟩
      · rw [hpe] at hnone
        cases hnone
      obtain rfl : p = e.2 := Option.some.inj (Option.some.inj (hget.symm.trans hpe))
      obtain ⟨pool₁, hput, hidx₁⟩ := hidx.put hpe x.nullify
      cases fuel with
      | zero => omega
      | succ fuel =>
          obtain ⟨pool', r', hrun, hidx', hr'⟩ := ih hidx₁ (fun e' he' => hl e' (List.mem_cons_of_mem _ he'))
            hnd hrest (Nat.lt_of_succ_lt_succ hfuel)
          refine ⟨pool', r', ?_, hidx', fun b => ?_⟩
          · simp only [Bittable.nullifyAll, hmore, Option.bind_eq_bind, Option.bind_some, if_true, hnext,
              hp, hput, hrun]
          · rw [hr', List.map_cons]
            by_cases hb : b = e.1
            · rw [hb, if_neg he, if_pos List.mem_cons_self, Function.update_self, hx, Option.map_some]
            · rw [Function.update_of_ne hb]
              simp only [List.mem_cons, hb, false_or]

/-- **`fdb_bittable_clear`.** -/
theorem clear (h : Denotes bt S) : ∃ bt', bt.clear = some bt' ∧ Denotes bt' ∅ := by
  obtain ⟨r, hidx, hr⟩ := h.records
  obtain ⟨l, it, hl, hinit, hrem⟩ := hidx.iterInit
  have hlen : l.length ≤ numBlocks := hl.length_le fun b hb => by
    obtain ⟨x, hx⟩ := Option.ne_none_iff_exists'.mp hb
    exact (hr.bounded b x hx).1
  have hsize : bt.bitmaps.size = l.length := by
    rw [hl.size, Nat.mod_eq_of_lt (lt_of_le_of_lt hlen (by decide))]
  obtain ⟨pool, r', hrun, hidx', hr'⟩ := nullifyAll hidx hl.pointer hl.nodup hrem
    (hsize ▸ Nat.lt_succ_self l.length : l.length < bt.bitmaps.size + 1)
  have hall : ∀ b, r' b = (r b).map Bitmap.nullify := fun b => by
    rw [hr']
    by_cases hb : b ∈ l.map Prod.fst
    · rw [if_pos hb]
    · have hnone : r b = none := by_contra fun hne => hb ((hl.keys b).mpr hne)
      rw [if_neg hb, hnone, Option.map_none]
  refine ⟨⟨bt.bitmaps, 0, pool⟩, ?_, ⟨r', hidx', ⟨fun b x hx => ?_, fun id => ?_⟩⟩, rfl⟩
  · simp only [Bittable.clear, hinit, Option.bind_eq_bind, Option.bind_some, hrun]
  · rw [hall] at hx
    obtain ⟨y, hy, rfl⟩ := Option.map_eq_some_iff.mp hx
    rw [Bitmap.length_nullify]
    exact hr.bounded b y hy
  · refine iff_of_false (Finset.notMem_empty id) ?_
    rintro ⟨x, hx, ht⟩
    rw [hall] at hx
    obtain ⟨y, hy, rfl⟩ := Option.map_eq_some_iff.mp hx
    rw [Bitmap.test_nullify] at ht
    cases ht

end Denotes

/-! ### Runs -/

/-- A call on the bittable `i`; a union or a difference is with the bittable `j`. -/
inductive BitCall where
  | add (i id : ℕ)
  | remove (i id : ℕ)
  | clear (i : ℕ)
  | union (i j : ℕ)
  | difference (i j : ℕ)

namespace BitCall

/-- Ids have 32 bits, and the two operands are not the same bittable. -/
def Legal : BitCall → Prop
  | add _ id => id < 2 ^ 32
  | remove _ id => id < 2 ^ 32
  | clear _ => True
  | union i j => i ≠ j
  | difference i j => i ≠ j

/-- The bittable that changes. -/
def target : BitCall → ℕ
  | add i _ => i
  | remove i _ => i
  | clear i => i
  | union i _ => i
  | difference i _ => i

/-- What the target becomes. -/
def result (bts : ℕ → Bittable) : BitCall → Option Bittable
  | add i id => (bts i).add id
  | remove i id => (bts i).remove id
  | clear i => (bts i).clear
  | union i j => (bts i).union (bts j)
  | difference i j => (bts i).difference (bts j)

/-- A call. -/
def call (bts : ℕ → Bittable) (c : BitCall) : Option (ℕ → Bittable) :=
  (c.result bts).map fun bt => Function.update bts c.target bt

/-- The set that the target becomes. -/
def act (sets : ℕ → Finset ℕ) : BitCall → Finset ℕ
  | add i id => insert id (sets i)
  | remove i id => (sets i).erase id
  | clear _ => ∅
  | union i j => sets i ∪ sets j
  | difference i j => sets i \ sets j

/-- The sets after a sequence of calls. -/
def sets (calls : List BitCall) : ℕ → Finset ℕ :=
  calls.foldl (fun sets c => Function.update sets c.target (c.act sets)) fun _ => ∅

/-- The bittables after a sequence of calls. -/
def run (calls : List BitCall) : Option (ℕ → Bittable) :=
  calls.foldlM (fun bts c => c.call bts) fun _ => Bittable.init

variable {bts : ℕ → Bittable} {c : BitCall}

/-- **A call** does to the bittables what it does to the sets. -/
lemma call_spec {S : ℕ → Finset ℕ} (h : ∀ i, Denotes (bts i) (S i)) (hc : c.Legal) :
    ∃ bts', c.call bts = some bts'
      ∧ ∀ i, Denotes (bts' i) (Function.update S c.target (c.act S) i) := by
  have hresult : ∃ bt', c.result bts = some bt' ∧ Denotes bt' (c.act S) := by
    cases c with
    | add i id => exact (h i).add hc
    | remove i id => exact (h i).remove id
    | clear i => exact (h i).clear
    | union i j => exact (h i).union (h j)
    | difference i j => exact (h i).difference (h j)
  obtain ⟨bt', hres, hden⟩ := hresult
  refine ⟨Function.update bts c.target bt', by rw [call, hres, Option.map_some], fun i => ?_⟩
  by_cases hi : i = c.target
  · rw [hi, Function.update_self, Function.update_self]
    exact hden
  · rw [Function.update_of_ne hi, Function.update_of_ne hi]
    exact h i

/-- **A run** of calls. -/
lemma run_spec {calls : List BitCall} (h : ∀ c ∈ calls, c.Legal) :
    ∃ bts, run calls = some bts ∧ ∀ i, Denotes (bts i) (sets calls i) := by
  refine foldlM_spec (fun done (bts : ℕ → Bittable) => ∀ i, Denotes (bts i) (sets done i)) calls
    (fun i => Denotes.init) fun done c rest bts hl hden => ?_
  obtain ⟨bts', hcall, hden'⟩ := call_spec hden (h c (hl ▸ by simp))
  refine ⟨bts', hcall, ?_⟩
  rw [sets, List.foldl_append]
  exact hden'

end BitCall

/-- The size is the number of ids, unless all 32 bit numbers are in the set. -/
lemma Denotes.size_eq_card_iff {bt : Bittable} (h : Denotes bt S) :
    bt.size = S.card ↔ S ≠ Finset.range (2 ^ 32) := by
  have hsub : S ⊆ Finset.range (2 ^ 32) := fun id hid => Finset.mem_range.mpr (h.lt hid)
  have hle := Finset.card_le_card hsub
  rw [Finset.card_range] at hle
  rw [h.size]
  constructor
  · intro hmod hall
    rw [hall, Finset.card_range, Nat.mod_self] at hmod
    cases hmod
  · intro hne
    have hlt : S.card < 2 ^ 32 := lt_of_le_of_ne hle fun heq =>
      hne (Finset.eq_of_subset_of_card_le hsub (by rw [Finset.card_range, heq]))
    exact Nat.mod_eq_of_lt hlt

/-- **Bittables are sets of ids.** Every run of calls succeeds; the ids that exist are those of
the set, the size is their number in 32 bits, which is the number itself unless all 32 bit
numbers are in the set. A call changes its target only, for it is modelled as an update there, and every bitmap
counts its bits, by the field of `Bitmap`. -/
theorem bittable_runs (calls : List BitCall) (h : ∀ c ∈ calls, c.Legal) :
    ∃ bts, BitCall.run calls = some bts
      ∧ (∀ i id, (bts i).existsId id = some (decide (id ∈ BitCall.sets calls i)))
      ∧ (∀ i, (bts i).size = (BitCall.sets calls i).card % 2 ^ 32)
      ∧ (∀ i, (bts i).size = (BitCall.sets calls i).card
          ↔ BitCall.sets calls i ≠ Finset.range (2 ^ 32))
      ∧ (∀ (c : BitCall) bts', c.call bts = some bts' → ∀ j, j ≠ c.target → bts' j = bts j)
      ∧ ∀ i p x, (bts i).bitmapAllocator.get p = some x → x.numSet = x.bits.count true := by
  obtain ⟨bts, hrun, hden⟩ := BitCall.run_spec h
  refine ⟨bts, hrun, fun i id => (hden i).existsId id, fun i => (hden i).size,
    fun i => (hden i).size_eq_card_iff, fun c bts' hc j hj => ?_, fun i p x _ => x.numSet_eq⟩
  obtain ⟨bt, -, rfl⟩ := Option.map_eq_some_iff.mp hc
  exact Function.update_of_ne hj _ _

/-- Five calls on two bittables. -/
theorem bittable_runs_five :
    ∃ bts, BitCall.run [.add 0 1, .add 1 300, .union 0 1, .difference 1 0, .remove 0 1] = some bts
      ∧ (bts 0).existsId 300 = some true ∧ (bts 0).size = 1 := by
  have hlegal : ∀ c ∈ ([.add 0 1, .add 1 300, .union 0 1, .difference 1 0, .remove 0 1] : List BitCall),
      c.Legal := by
    simp [BitCall.Legal]
  obtain ⟨bts, hrun, hexists, hsize, -⟩ := bittable_runs _ hlegal
  refine ⟨bts, hrun, (hexists 0 300).trans (by decide), (hsize 0).trans (by decide)⟩

lemma sets_addAll (n : ℕ) : BitCall.sets ((List.range n).map (BitCall.add 0)) 0 = Finset.range n := by
  induction n with
  | zero => rfl
  | succ n ih =>
      rw [BitCall.sets] at ih ⊢
      rw [List.range_succ, List.map_append, List.foldl_append, List.map_singleton, List.foldl_cons,
        List.foldl_nil, BitCall.target, Function.update_self, BitCall.act, ih, Finset.range_add_one]

/-- With all 32 bit numbers in it a bittable has size zero. -/
theorem not_bittable_runs : ¬ ∀ calls : List BitCall, (∀ c ∈ calls, c.Legal) →
    ∀ bts, BitCall.run calls = some bts → ∀ i, (bts i).size = (BitCall.sets calls i).card := by
  intro h
  have hlegal : ∀ c ∈ (List.range (2 ^ 32)).map (BitCall.add 0), c.Legal := by
    intro c hc
    obtain ⟨id, hid, rfl⟩ := List.mem_map.mp hc
    exact List.mem_range.mp hid
  obtain ⟨bts, hrun, hden⟩ := BitCall.run_spec hlegal
  have hsize := h _ hlegal bts hrun 0
  rw [(hden 0).size_eq_card_iff] at hsize
  exact hsize (sets_addAll (2 ^ 32))

end Furious
