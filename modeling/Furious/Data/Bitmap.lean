import Mathlib.Tactic

/-!
Bitmaps.

A bitmap has a fixed number of bits and counts those that are set.

* `Bitmap`: the bits and their number, which agree by construction;
* `Bitmap.setBit`, `Bitmap.set`, `Bitmap.unset`, `Bitmap.isSet`: `fdb_bitmap_set_bit`,
  `fdb_bitmap_set`, `fdb_bitmap_unset` and `fdb_bitmap_is_set`; a bit out of range is
  a fault;
* `Bitmap.setBitmap`, `Bitmap.setAnd`, `Bitmap.setOr`, `Bitmap.setDiff`, `Bitmap.nullify`, `Bitmap.negate`: the
  operations on all bits, after which `refreshNumSet` counts the bits that are set;
* `Bitmap.test`: a bit, and `Bitmap.setBit_spec`, `Bitmap.combine_spec`: **what the operations
  do**.
-/

namespace Furious

/-- `fdb_bitmap_t`. -/
structure Bitmap where
  bits : List Bool
  numSet : ℕ
  numSet_eq : numSet = bits.count true

/-- An assignment changes the number of set bits by what it changes. -/
lemma count_set_bool {l : List Bool} {i : ℕ} (h : i < l.length) (v : Bool) :
    (l.set i v).count true
      = if v then l.count true + (if l[i] then 0 else 1) else l.count true - (if l[i] then 1 else 0) := by
  rw [List.count_set h]
  cases v with
  | false => cases l[i] <;> simp
  | true =>
      cases hb : l[i] with
      | false => simp
      | true =>
          have hpos : 0 < l.count true := List.count_pos_iff.mpr (hb ▸ List.getElem_mem h)
          simp only [beq_self_eq_true, if_true]
          omega

/-- The number of set bits is that of their places. -/
lemma count_eq_card (l : List Bool) :
    l.count true = ((Finset.range l.length).filter fun o => l.getD o false = true).card := by
  induction l using List.reverseRecOn with
  | nil => rfl
  | append_singleton l a ih =>
      have hold : (Finset.range l.length).filter (fun o => (l ++ [a]).getD o false = true)
          = (Finset.range l.length).filter fun o => l.getD o false = true := by
        refine Finset.filter_congr fun o ho => ?_
        rw [List.getD_eq_getElem?_getD, List.getElem?_append_left (Finset.mem_range.mp ho),
          ← List.getD_eq_getElem?_getD]
      rw [List.count_append, ih, List.length_append, List.length_singleton, Finset.range_add_one,
        Finset.filter_insert, hold]
      cases a with
      | false => simp
      | true => simp

/-! ### Counting the bits that are set -/

/-- `count_bits_lookup`. -/
def countBitsLookup : List ℕ := [0, 1, 1, 2, 1, 2, 2, 3, 1, 2, 2, 3, 2, 3, 3, 4]

/-- `FDB_BITMAP_NUM_CHUNKS`: the bytes for so many bits. -/
def numChunks (maxBits : ℕ) : ℕ := (maxBits + 7) / 8

/-- The number that four bits make up, the first of which is the lowest one. -/
def nibble (bits : List Bool) (i : ℕ) : ℕ :=
  (bits.getD i false).toNat + 2 * (bits.getD (i + 1) false).toNat
    + 4 * (bits.getD (i + 2) false).toNat + 8 * (bits.getD (i + 3) false).toNat

/-- `fdb_bitmap_refresh_num_set`: adds up what the table says about the halves of the bytes. -/
def refreshNumSet (bits : List Bool) : ℕ :=
  (List.range (numChunks bits.length)).foldl (fun numSet i =>
    numSet + (countBitsLookup.getD (nibble bits (8 * i + 4)) 0
      + countBitsLookup.getD (nibble bits (8 * i)) 0)) 0

lemma nibble_drop (bits : List Bool) (i : ℕ) : nibble bits i = nibble (bits.drop i) 0 := by
  simp [nibble, List.getD_eq_getElem?_getD, List.getElem?_drop]

/-- The table is right. -/
lemma countBitsLookup_nibble (bits : List Bool) (i : ℕ) :
    countBitsLookup.getD (nibble bits i) 0 = ((bits.drop i).take 4).count true := by
  rw [nibble_drop]
  match bits.drop i with
  | [] => rfl
  | [a] => cases a <;> rfl
  | [a, b] => cases a <;> cases b <;> rfl
  | [a, b, c] => cases a <;> cases b <;> cases c <;> rfl
  | a :: b :: c :: d :: _ => cases a <;> cases b <;> cases c <;> cases d <;> rfl

/-- **The bits are counted.** -/
theorem refreshNumSet_eq (bits : List Bool) : refreshNumSet bits = bits.count true := by
  have hchunks : ∀ n : ℕ, (List.range n).foldl (fun numSet i =>
      numSet + (countBitsLookup.getD (nibble bits (8 * i + 4)) 0
        + countBitsLookup.getD (nibble bits (8 * i)) 0)) 0 = (bits.take (8 * n)).count true := by
    intro n
    induction n with
    | zero => rfl
    | succ n ih =>
        have htake : bits.take (8 * (n + 1)) = bits.take (8 * n)
            ++ ((bits.drop (8 * n)).take 4 ++ (bits.drop (8 * n + 4)).take 4) := by
          rw [show 8 * (n + 1) = 8 * n + (4 + 4) by omega, List.take_add, List.take_add, List.drop_drop]
        rw [List.range_succ, List.foldl_append, ih, htake, List.count_append, List.count_append,
          ← countBitsLookup_nibble, ← countBitsLookup_nibble, List.foldl_cons, List.foldl_nil]
        omega
  rw [refreshNumSet, hchunks, List.take_of_length_le (by rw [numChunks]; omega)]

namespace Bitmap

/-- `fdb_bitmap_init`. -/
def init (maxBits : ℕ) : Bitmap where
  bits := List.replicate maxBits false
  numSet := 0
  numSet_eq := by simp [List.count_replicate]

/-- `fdb_bitmap_is_set`. -/
def isSet (b : Bitmap) (i : ℕ) : Option Bool := b.bits[i]?

/-- `fdb_bitmap_set_bit`. -/
def setBit (b : Bitmap) (i : ℕ) (value : Bool) : Option Bitmap :=
  if h : i < b.bits.length then
    some { bits := b.bits.set i value
           numSet := if value then b.numSet + (if b.bits[i] then 0 else 1)
             else b.numSet - (if b.bits[i] then 1 else 0)
           numSet_eq := by rw [count_set_bool h, b.numSet_eq] }
  else none

/-- `fdb_bitmap_set`. -/
def set (b : Bitmap) (i : ℕ) : Option Bitmap := b.setBit i true

/-- `fdb_bitmap_unset`. -/
def unset (b : Bitmap) (i : ℕ) : Option Bitmap := b.setBit i false

/-- `fdb_bitmap_set_bitmap`. -/
def setBitmap (dst src : Bitmap) : Option Bitmap :=
  if dst.bits.length = src.bits.length then some src else none

/-- What `fdb_bitmap_set_and`, `fdb_bitmap_set_or` and `fdb_bitmap_set_diff` have in common; a
fault if the bitmaps are incompatible. -/
def combine (f : Bool → Bool → Bool) (dst src : Bitmap) : Option Bitmap :=
  if dst.bits.length = src.bits.length then
    some { bits := List.zipWith f dst.bits src.bits
           numSet := refreshNumSet (List.zipWith f dst.bits src.bits)
           numSet_eq := refreshNumSet_eq _ }
  else none

/-- `fdb_bitmap_set_and`. -/
def setAnd (dst src : Bitmap) : Option Bitmap := combine (fun d s => d && s) dst src

/-- `fdb_bitmap_set_or`. -/
def setOr (dst src : Bitmap) : Option Bitmap := combine (fun d s => d || s) dst src

/-- `fdb_bitmap_set_diff`. -/
def setDiff (dst src : Bitmap) : Option Bitmap := combine (fun d s => d && (d ^^ s)) dst src

/-- `fdb_bitmap_nullify`. -/
def nullify (b : Bitmap) : Bitmap where
  bits := List.replicate b.bits.length false
  numSet := 0
  numSet_eq := by simp [List.count_replicate]

/-- `fdb_bitmap_negate`, where the bits fill their bytes. -/
def negate (b : Bitmap) : Bitmap where
  bits := b.bits.map not
  numSet := refreshNumSet (b.bits.map not)
  numSet_eq := refreshNumSet_eq _

/-- A bit; those out of range are not set. -/
def test (b : Bitmap) (i : ℕ) : Bool := b.bits.getD i false

@[simp] lemma length_init (n : ℕ) : (init n).bits.length = n := List.length_replicate ..

@[simp] lemma numSet_init (n : ℕ) : (init n).numSet = 0 := rfl

@[simp] lemma test_init (n i : ℕ) : (init n).test i = false := by
  simp only [test, init, List.getD_eq_getElem?_getD, List.getElem?_replicate]
  split <;> rfl

variable {b : Bitmap} {i : ℕ}

lemma isSet_eq (h : i < b.bits.length) : b.isSet i = some (b.test i) := by
  simp [isSet, test, h]

/-- A set bit is counted. -/
lemma numSet_pos (h : b.test i = true) : 0 < b.numSet := by
  rw [b.numSet_eq, List.count_pos_iff]
  by_cases hi : i < b.bits.length
  · have hb : b.bits[i] = true := by simpa [test, hi] using h
    exact hb ▸ List.getElem_mem hi
  · simp [test, hi] at h

/-- There are no more set bits than bits. -/
lemma numSet_le (b : Bitmap) : b.numSet ≤ b.bits.length := by
  rw [b.numSet_eq]
  exact List.count_le_length

/-- **An assignment** to a bit changes this bit only. -/
theorem setBit_spec (h : i < b.bits.length) (v : Bool) :
    ∃ c, b.setBit i v = some c ∧ c.bits.length = b.bits.length
      ∧ c.test = Function.update b.test i v
      ∧ c.numSet + (b.test i).toNat = b.numSet + v.toNat := by
  have hi : b.test i = b.bits[i] := by simp [test, h]
  refine ⟨_, dif_pos h, List.length_set .., ?_, ?_⟩
  · funext j
    by_cases hj : j = i
    · simp [test, hj, h]
    · rw [Function.update_of_ne hj]
      simp [test, List.getElem?_set_ne (Ne.symm hj), List.getD_eq_getElem?_getD]
  · show (if v then b.numSet + (if b.bits[i] then 0 else 1)
      else b.numSet - (if b.bits[i] then 1 else 0)) + (b.test i).toNat = b.numSet + v.toNat
    rw [← hi]
    cases hb : b.test i with
    | false => cases v <;> rfl
    | true =>
        have hpos := numSet_pos hb
        cases v with
        | false => exact Nat.sub_add_cancel hpos
        | true => rfl

/-- **An operation on all bits** takes them one by one. -/
theorem combine_spec (f : Bool → Bool → Bool) {dst src : Bitmap}
    (h : dst.bits.length = src.bits.length) (hf : f false false = false) :
    ∃ c, combine f dst src = some c ∧ c.bits.length = dst.bits.length
      ∧ ∀ o, c.test o = f (dst.test o) (src.test o) := by
  refine ⟨_, if_pos h, ?_, fun o => ?_⟩
  · rw [List.length_zipWith, h, Nat.min_self]
  · by_cases ho : o < dst.bits.length
    · have ho' : o < src.bits.length := h ▸ ho
      simp [test, ho, ho']
    · have ho' : ¬ o < src.bits.length := h ▸ ho
      simp [test, ho, ho', hf]

@[simp] lemma length_nullify (b : Bitmap) : b.nullify.bits.length = b.bits.length :=
  List.length_replicate ..

@[simp] lemma test_nullify (b : Bitmap) (o : ℕ) : b.nullify.test o = false := by
  simp only [test, nullify, List.getD_eq_getElem?_getD, List.getElem?_replicate]
  split <;> rfl

@[simp] lemma length_negate (b : Bitmap) : b.negate.bits.length = b.bits.length := List.length_map ..

lemma test_negate (h : i < b.bits.length) : b.negate.test i = !b.test i := by
  simp [test, negate, h]

/-- The bits that are set, as a set. -/
lemma numSet_eq_card (b : Bitmap) :
    b.numSet = ((Finset.range b.bits.length).filter fun o => b.test o = true).card := by
  rw [b.numSet_eq, count_eq_card]
  rfl

end Bitmap

end Furious
