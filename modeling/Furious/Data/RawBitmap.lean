import Furious.Data.Bitmap

/-!
The bytes of a bitmap.

A bitmap keeps its bits in bytes, of which the last one may have bits to spare.

* `RawBitmap`: the bytes and the number of set bits, with the operations of `bitmap.c`;
* `bitsOf`: the bits of some bytes, and what the operations on bytes do to them;
* `BitmapOp`: the operations on a family of bitmaps of one size, and `BitmapOp.bit`: the boolean
  operations that they stand for;
* `BitmapRun`, `bitmap_runs`: **every operation computes its bits**, and the number of set bits where
  no bit to spare is left set;
* `RawBitmap.Models`, `bitmap_refines`: **without bits to spare the bytes are a `Bitmap`**, whose operations
  are theirs in every run.
-/

namespace Furious

/-! ### The operations -/

/-- `fdb_bitmap_t`. -/
structure RawBitmap where
  maxBits : ℕ
  numSet : ℕ
  data : List (BitVec 8)
deriving DecidableEq, Repr

/-- `FDB_BITMAP_NUM_CHUNKS`, in 32 bits. -/
def rawChunks (maxBits : ℕ) : ℕ := (maxBits + 7) % 2 ^ 32 / 8

/-- `set_bit_true`: the new byte, and whether it has changed. -/
def setBitTrue (data : BitVec 8) (bit : ℕ) : BitVec 8 × Bool :=
  let val := data ||| (1#8 <<< bit)
  (val, data != val)

/-- `set_bit_false`. -/
def setBitFalse (data : BitVec 8) (bit : ℕ) : BitVec 8 × Bool :=
  let val := data &&& ~~~(1#8 <<< bit)
  (val, data != val)

/-- `read_bit`. -/
def readBit (data : BitVec 8) (bit : ℕ) : Bool := (data &&& (1#8 <<< bit)) != 0#8

/-- `fdb_bitmap_refresh_num_set`. -/
def refreshRaw (data : List (BitVec 8)) : ℕ :=
  data.foldl (fun (numSet : ℕ) (d : BitVec 8) =>
    (numSet + (countBitsLookup.getD (d >>> 4).toNat 0 + countBitsLookup.getD (d &&& 0x0f#8).toNat 0))
      % 2 ^ 32) 0

namespace RawBitmap

/-- `fdb_bitmap_init`. -/
def init (maxBits : ℕ) : RawBitmap := ⟨maxBits, 0, List.replicate (rawChunks maxBits) 0#8⟩

/-- `fdb_bitmap_set`: a byte that is not there is a fault. -/
def set (b : RawBitmap) (element : ℕ) : Option RawBitmap := do
  let d ← b.data[element / 8]?
  let (val, res) := setBitTrue d (element % 8)
  some { b with
    data := b.data.set (element / 8) val
    numSet := (b.numSet + res.toNat) % 2 ^ 32 }

/-- `fdb_bitmap_unset`. -/
def unset (b : RawBitmap) (element : ℕ) : Option RawBitmap := do
  let d ← b.data[element / 8]?
  let (val, res) := setBitFalse d (element % 8)
  some { b with
    data := b.data.set (element / 8) val
    numSet := (b.numSet + 2 ^ 32 - res.toNat) % 2 ^ 32 }

/-- `fdb_bitmap_set_bit`. -/
def setBit (b : RawBitmap) (element : ℕ) (value : Bool) : Option RawBitmap :=
  if value then b.set element else b.unset element

/-- `fdb_bitmap_is_set`. -/
def isSet (b : RawBitmap) (element : ℕ) : Option Bool := do
  let d ← b.data[element / 8]?
  some (readBit d (element % 8))

/-- `fdb_bitmap_set_bitmap`. -/
def setBitmap (dst src : RawBitmap) : RawBitmap := { dst with numSet := src.numSet, data := src.data }

/-- What `fdb_bitmap_set_and`, `fdb_bitmap_set_or` and `fdb_bitmap_set_diff` have in common. -/
def combine (f : BitVec 8 → BitVec 8 → BitVec 8) (dst src : RawBitmap) : RawBitmap :=
  let data := List.zipWith f dst.data src.data
  { dst with data := data, numSet := refreshRaw data }

/-- `fdb_bitmap_set_and`. -/
def setAnd (dst src : RawBitmap) : RawBitmap := combine (fun d s => d &&& s) dst src

/-- `fdb_bitmap_set_or`. -/
def setOr (dst src : RawBitmap) : RawBitmap := combine (fun d s => d ||| s) dst src

/-- `fdb_bitmap_set_diff`. -/
def setDiff (dst src : RawBitmap) : RawBitmap := combine (fun d s => d &&& (d ^^^ s)) dst src

/-- `fdb_bitmap_negate`. -/
def negate (b : RawBitmap) : RawBitmap :=
  let data := b.data.map fun d => ~~~d
  { b with data := data, numSet := refreshRaw data }

/-- `fdb_bitmap_nullify`. -/
def nullify (b : RawBitmap) : RawBitmap :=
  { b with numSet := 0, data := List.replicate b.data.length 0#8 }

end RawBitmap

/-! ### The bits of the bytes -/

/-- The bits of a byte, the lowest one first. -/
def byteBits (d : BitVec 8) : List Bool := (List.range 8).map d.getLsbD

/-- The bits of some bytes. -/
def bitsOf (data : List (BitVec 8)) : List Bool := data.flatMap byteBits

@[simp] lemma length_byteBits (d : BitVec 8) : (byteBits d).length = 8 := by simp [byteBits]

lemma bitsOf_cons (d : BitVec 8) (data : List (BitVec 8)) :
    bitsOf (d :: data) = byteBits d ++ bitsOf data := List.flatMap_cons

@[simp] lemma length_bitsOf (data : List (BitVec 8)) : (bitsOf data).length = 8 * data.length := by
  induction data with
  | nil => rfl
  | cons d data ih =>
      rw [bitsOf_cons, List.length_append, length_byteBits, List.length_cons, ih]
      omega

/-- Where a bit is. -/
lemma getElem?_bitsOf (data : List (BitVec 8)) (i : ℕ) :
    (bitsOf data)[i]? = data[i / 8]?.map fun d => d.getLsbD (i % 8) := by
  induction data generalizing i with
  | nil => simp [bitsOf]
  | cons d data ih =>
      rw [bitsOf_cons]
      by_cases hi : i < 8
      · rw [List.getElem?_append_left (by simpa using hi), Nat.div_eq_of_lt hi, Nat.mod_eq_of_lt hi]
        simp [byteBits, hi]
      · obtain ⟨j, rfl⟩ := Nat.exists_eq_add_of_le (Nat.le_of_not_lt hi)
        rw [List.getElem?_append_right (by simp), length_byteBits, Nat.add_sub_cancel_left]
        have hdiv : (8 + j) / 8 = j / 8 + 1 := by omega
        have hmod : (8 + j) % 8 = j % 8 := by omega
        rw [hdiv, hmod, List.getElem?_cons_succ]
        exact ih j

/-- The table counts the bits of a byte. -/
lemma countBitsLookup_byte (d : BitVec 8) :
    countBitsLookup.getD (d >>> 4).toNat 0 + countBitsLookup.getD (d &&& 0x0f#8).toNat 0
      = (byteBits d).count true := by
  revert d
  decide +kernel

/-- **The bits are counted**, as far as 32 bits go. -/
lemma refreshRaw_eq (data : List (BitVec 8)) : refreshRaw data = (bitsOf data).count true % 2 ^ 32 := by
  have hfold : ∀ n < 2 ^ 32, data.foldl (fun (numSet : ℕ) (d : BitVec 8) =>
      (numSet + (countBitsLookup.getD (d >>> 4).toNat 0 + countBitsLookup.getD (d &&& 0x0f#8).toNat 0))
        % 2 ^ 32) n = (n + (bitsOf data).count true) % 2 ^ 32 := by
    induction data with
    | nil =>
        intro n hn
        exact (Nat.mod_eq_of_lt hn).symm
    | cons d data ih =>
        intro n _
        rw [List.foldl_cons, ih _ (Nat.mod_lt _ (by decide)), countBitsLookup_byte, Nat.mod_add_mod,
          bitsOf_cons, List.count_append, Nat.add_assoc]
  rw [refreshRaw, hfold 0 (by decide), Nat.zero_add]

/-- An operation on the bytes of two bitmaps that is one on their bits. -/
lemma bitsOf_zipWith {f : BitVec 8 → BitVec 8 → BitVec 8} {g : Bool → Bool → Bool}
    (hfg : ∀ d e i, i < 8 → (f d e).getLsbD i = g (d.getLsbD i) (e.getLsbD i)) (xs ys : List (BitVec 8)) :
    bitsOf (List.zipWith f xs ys) = List.zipWith g (bitsOf xs) (bitsOf ys) := by
  refine List.ext_getElem? fun i => ?_
  have hi : i % 8 < 8 := Nat.mod_lt _ (by decide)
  rw [getElem?_bitsOf, List.getElem?_zipWith, List.getElem?_zipWith, getElem?_bitsOf, getElem?_bitsOf]
  cases xs[i / 8]? with
  | none => rfl
  | some d =>
      cases ys[i / 8]? with
      | none => rfl
      | some e => simp [hfg d e _ hi]

/-- The same for the bytes of one bitmap. -/
lemma bitsOf_map {f : BitVec 8 → BitVec 8} {g : Bool → Bool}
    (hfg : ∀ d i, i < 8 → (f d).getLsbD i = g (d.getLsbD i)) (xs : List (BitVec 8)) :
    bitsOf (xs.map f) = (bitsOf xs).map g := by
  refine List.ext_getElem? fun i => ?_
  have hi : i % 8 < 8 := Nat.mod_lt _ (by decide)
  rw [getElem?_bitsOf, List.getElem?_map, List.getElem?_map, getElem?_bitsOf]
  cases xs[i / 8]? with
  | none => rfl
  | some d => simp [hfg d _ hi]

/-- A new byte that differs in one bit. -/
lemma bitsOf_set {data : List (BitVec 8)} {i : ℕ} {d val : BitVec 8} {v : Bool} (hd : data[i / 8]? = some d)
    (hval : ∀ j < 8, val.getLsbD j = if j = i % 8 then v else d.getLsbD j) :
    bitsOf (data.set (i / 8) val) = (bitsOf data).set i v := by
  have hlt : i / 8 < data.length := (List.getElem?_eq_some_iff.mp hd).1
  refine List.ext_getElem? fun j => ?_
  have hj : j % 8 < 8 := Nat.mod_lt _ (by decide)
  rw [getElem?_bitsOf, List.getElem?_set, List.getElem?_set, length_bitsOf, getElem?_bitsOf]
  by_cases hdiv : i / 8 = j / 8
  · rw [if_pos hdiv, if_pos (hdiv ▸ hlt), Option.map_some, hval _ hj, ← hdiv, hd, Option.map_some]
    by_cases hij : i = j
    · rw [if_pos hij, if_pos (by omega), if_pos (by omega)]
    · rw [if_neg hij, if_neg (by omega)]
  · have hij : i ≠ j := fun h => hdiv (by rw [h])
    rw [if_neg hdiv, if_neg hij]

lemma getLsbD_setBitTrue (d : BitVec 8) {i j : ℕ} (hi : i < 8) (_hj : j < 8) :
    (setBitTrue d i).1.getLsbD j = if j = i then true else d.getLsbD j := by
  rw [setBitTrue, BitVec.getLsbD_or, BitVec.getLsbD_shiftLeft, BitVec.getLsbD_one]
  by_cases hij : j = i
  · simp [hij, hi]
  · have : (decide (j < 8) && !decide (j < i) && (decide (0 < 8) && decide (j - i = 0))) = false := by
      simp
      omega
    rw [this, Bool.or_false, if_neg hij]

lemma getLsbD_setBitFalse (d : BitVec 8) {i j : ℕ} (hi : i < 8) (hj : j < 8) :
    (setBitFalse d i).1.getLsbD j = if j = i then false else d.getLsbD j := by
  rw [setBitFalse, BitVec.getLsbD_and, BitVec.getLsbD_not, BitVec.getLsbD_shiftLeft, BitVec.getLsbD_one]
  by_cases hij : j = i
  · simp [hij, hi]
  · have : (decide (j < 8) && !decide (j < i) && (decide (0 < 8) && decide (j - i = 0))) = false := by
      simp
      omega
    rw [this, Bool.not_false, Bool.and_true, if_neg hij]
    simp [hj]

/-- The byte changes if the bit does. -/
lemma ne_byte_iff {d val : BitVec 8} {i : ℕ} {v : Bool} (hi : i < 8)
    (hval : ∀ j < 8, val.getLsbD j = if j = i then v else d.getLsbD j) :
    (d != val) = (d.getLsbD i != v) := by
  have hself : val.getLsbD i = v := by rw [hval i hi, if_pos rfl]
  by_cases hv : d.getLsbD i = v
  · have hsame : d = val := by
      refine BitVec.eq_of_getLsbD_eq fun j hj => ?_
      rw [hval j hj]
      split
      · next hji => rw [hji, hv]
      · rfl
    rw [hv, ← hsame, bne_self_eq_false, bne_self_eq_false]
  · have hne : d ≠ val := by
      rintro rfl
      exact hv hself
    rw [bne_iff_ne.mpr hne, bne_iff_ne.mpr hv]

/-! ### One bitmap -/

namespace RawBitmap

/-- A bit, also of those to spare; those that are not there are not set. -/
def test (b : RawBitmap) (i : ℕ) : Bool := (bitsOf b.data).getD i false

/-- A bitmap of `n` bits counts all bits of its bytes. -/
structure Counted (n : ℕ) (b : RawBitmap) : Prop where
  maxBits : b.maxBits = n
  length : b.data.length = rawChunks n
  numSet : b.numSet = (bitsOf b.data).count true

variable {n i : ℕ} {b dst src : RawBitmap}

/-- The bytes have room for the bits. -/
lemma le_rawChunks (hn : n + 7 < 2 ^ 32) : n ≤ 8 * rawChunks n ∧ 8 * rawChunks n < n + 8 := by
  rw [rawChunks, Nat.mod_eq_of_lt hn]
  omega

/-- Nor do they overflow the counter. -/
lemma rawChunks_lt (n : ℕ) : 8 * rawChunks n < 2 ^ 32 := by
  have := Nat.mod_lt (n + 7) (show 0 < 2 ^ 32 by decide)
  have := Nat.div_mul_le_self ((n + 7) % 2 ^ 32) 8
  rw [rawChunks]
  omega

namespace Counted

/-- Counting once more changes nothing. -/
lemma count_lt {data : List (BitVec 8)} (h : data.length = rawChunks n) :
    (bitsOf data).count true < 2 ^ 32 := by
  have hle : (bitsOf data).count true ≤ 8 * rawChunks n := by
    rw [← h, ← length_bitsOf]
    exact List.count_le_length
  exact hle.trans_lt (rawChunks_lt n)

lemma init (n : ℕ) : Counted n (RawBitmap.init n) := by
  refine ⟨rfl, List.length_replicate .., ?_⟩
  have hbits : ∀ k, (bitsOf (List.replicate k 0#8)).count true = 0 := by
    intro k
    induction k with
    | zero => rfl
    | succ k ih => rw [List.replicate_succ, bitsOf_cons, List.count_append, ih]; rfl
  exact (hbits _).symm

/-- Bytes that are counted. -/
lemma refresh (h : Counted n b) {data : List (BitVec 8)} (hlen : data.length = b.data.length) :
    Counted n { b with data := data, numSet := refreshRaw data } := by
  have hdata := hlen.trans h.length
  exact ⟨h.maxBits, hdata, (refreshRaw_eq data).trans (Nat.mod_eq_of_lt (count_lt hdata))⟩

/-- **An assignment** to a bit. -/
lemma setBit (h : Counted n b) (hn : n + 7 < 2 ^ 32) (hi : i < n) (v : Bool) :
    ∃ b', b.setBit i v = some b' ∧ Counted n b' ∧ bitsOf b'.data = (bitsOf b.data).set i v := by
  have hroom := le_rawChunks hn
  have hlt : i / 8 < b.data.length := by
    rw [h.length]
    omega
  have hd : b.data[i / 8]? = some b.data[i / 8] := List.getElem?_eq_getElem hlt
  have hi8 : i % 8 < 8 := Nat.mod_lt _ (by decide)
  have hlen : i < (bitsOf b.data).length := by
    rw [length_bitsOf, h.length]
    omega
  have hbit : (bitsOf b.data)[i] = b.data[i / 8].getLsbD (i % 8) := by
    have := getElem?_bitsOf b.data i
    rw [hd, List.getElem?_eq_getElem hlen, Option.map_some] at this
    exact Option.some.inj this
  have hcount := count_set_bool hlen v
  rw [hbit] at hcount
  have hpos : b.data[i / 8].getLsbD (i % 8) = true → 0 < (bitsOf b.data).count true := fun h =>
    List.count_pos_iff.mpr ((hbit.trans h) ▸ List.getElem_mem hlen)
  -- what is common to the two values
  have hset : ∀ val res, (∀ j < 8, val.getLsbD j = if j = i % 8 then v else b.data[i / 8].getLsbD j) →
      res = (b.data[i / 8].getLsbD (i % 8) != v) →
      ∀ numSet, numSet = (if v then (b.numSet + res.toNat) % 2 ^ 32
        else (b.numSet + 2 ^ 32 - res.toNat) % 2 ^ 32) →
      Counted n { b with data := b.data.set (i / 8) val, numSet := numSet }
        ∧ bitsOf (b.data.set (i / 8) val) = (bitsOf b.data).set i v := by
    rintro val res hval hres _ rfl
    have hbits := bitsOf_set hd hval
    have hold := count_lt h.length
    have hnew := count_lt ((List.length_set ..).trans h.length : (b.data.set (i / 8) val).length = _)
    refine ⟨⟨h.maxBits, (List.length_set ..).trans h.length, ?_⟩, hbits⟩
    rw [hbits, hcount] at hnew
    rw [hbits, hcount, h.numSet, hres]
    generalize (bitsOf b.data).count true = m at hpos hold hnew ⊢
    cases v with
    | true =>
        cases hb : b.data[i / 8].getLsbD (i % 8) with
        | true =>
            simp only [if_true, bne_self_eq_false, Bool.toNat_false, Nat.add_zero]
            exact Nat.mod_eq_of_lt hold
        | false =>
            simp only [hb, if_true, Bool.false_eq_true, if_false] at hnew
            simp only [if_true, Bool.false_eq_true, if_false, Bool.false_bne, Bool.toNat_true]
            exact Nat.mod_eq_of_lt hnew
    | false =>
        cases hb : b.data[i / 8].getLsbD (i % 8) with
        | true =>
            have := hpos hb
            simp only [Bool.false_eq_true, if_false, if_true, Bool.true_bne, Bool.not_false, Bool.toNat_true]
            omega
        | false =>
            simp only [Bool.false_eq_true, if_false, bne_self_eq_false, Bool.toNat_false]
            omega
  cases v with
  | true =>
      have hval := fun j (hj : j < 8) => getLsbD_setBitTrue b.data[i / 8] hi8 hj
      obtain ⟨hc, hbits⟩ := hset _ (setBitTrue b.data[i / 8] (i % 8)).2 hval (ne_byte_iff hi8 hval) _
        (if_pos rfl).symm
      refine ⟨_, ?_, hc, hbits⟩
      simp only [RawBitmap.setBit, if_true, RawBitmap.set, hd, Option.bind_eq_bind, Option.bind_some]
  | false =>
      have hval := fun j (hj : j < 8) => getLsbD_setBitFalse b.data[i / 8] hi8 hj
      obtain ⟨hc, hbits⟩ := hset _ (setBitFalse b.data[i / 8] (i % 8)).2 hval (ne_byte_iff hi8 hval) _
        (if_neg Bool.false_ne_true).symm
      refine ⟨_, ?_, hc, hbits⟩
      simp only [RawBitmap.setBit, Bool.false_eq_true, if_false, RawBitmap.unset, hd, Option.bind_eq_bind,
        Option.bind_some]

end Counted

lemma readBit_eq : ∀ (d : BitVec 8) (j : ℕ), j < 8 → readBit d j = d.getLsbD j := by
  decide +kernel

/-- What `fdb_bitmap_is_set` reads. -/
lemma isSet_eq (h : Counted n b) (hi : i < 8 * rawChunks n) : b.isSet i = some (b.test i) := by
  have hlt : i / 8 < b.data.length := by
    rw [h.length]
    omega
  rw [isSet, test, List.getD_eq_getElem?_getD, getElem?_bitsOf, List.getElem?_eq_getElem hlt,
    Option.bind_eq_bind, Option.bind_some, readBit_eq _ _ (Nat.mod_lt _ (by decide))]
  rfl

/-- There is no bit without bytes. -/
lemma isSet_eq_none (h : b.data = []) (i : ℕ) : b.isSet i = none := by
  rw [isSet, h]
  rfl

/-- The number of set bits is right. -/
def Exact (n : ℕ) (b : RawBitmap) : Prop :=
  b.numSet = ((Finset.range n).filter fun i => b.isSet i = some true).card

instance : Decidable (b.Exact n) := inferInstanceAs (Decidable (_ = _))

/-- The bits to spare are alike. -/
def Level (n : ℕ) (b : RawBitmap) : Prop := ∀ i, n ≤ i → i < 8 * rawChunks n → b.test i = b.test n

/-- **The number of set bits is right** where no bit to spare is set. -/
lemma Counted.exact_iff (h : Counted n b) (hn : n + 7 < 2 ^ 32) (hlevel : b.Level n) :
    b.Exact n ↔ n % 8 = 0 ∨ b.test n = false := by
  obtain ⟨hle, hlt⟩ := le_rawChunks hn
  have hset : (Finset.range n).filter (fun i => b.isSet i = some true)
      = (Finset.range n).filter fun i => b.test i = true := by
    refine Finset.filter_congr fun i hi => ?_
    rw [isSet_eq h ((Finset.mem_range.mp hi).trans_le hle), Option.some_inj]
  have hall : b.numSet = ((Finset.range (8 * rawChunks n)).filter fun i => b.test i = true).card := by
    rw [h.numSet, count_eq_card, length_bitsOf, h.length]
    rfl
  have hsub : (Finset.range n).filter (fun i => b.test i = true)
      ⊆ (Finset.range (8 * rawChunks n)).filter fun i => b.test i = true :=
    Finset.filter_subset_filter _ (Finset.range_subset_range.mpr hle)
  have hmod : n % 8 = 0 ↔ n = 8 * rawChunks n := by omega
  rw [Exact, hset, hall]
  constructor
  · intro hcard
    by_contra hno
    rw [not_or, Bool.not_eq_false, hmod] at hno
    have heq := Finset.eq_of_subset_of_card_le hsub hcard.le
    have hmem : n ∈ (Finset.range (8 * rawChunks n)).filter fun i => b.test i = true :=
      Finset.mem_filter.mpr ⟨Finset.mem_range.mpr (lt_of_le_of_ne hle hno.1), hno.2⟩
    rw [← heq] at hmem
    exact absurd (Finset.mem_range.mp (Finset.mem_filter.mp hmem).1) (lt_irrefl n)
  · intro hclear
    refine (congrArg Finset.card (Finset.Subset.antisymm hsub fun i hi => ?_)).symm
    obtain ⟨hi, htest⟩ := Finset.mem_filter.mp hi
    refine Finset.mem_filter.mpr ⟨Finset.mem_range.mpr ?_, htest⟩
    by_contra hge
    rcases hclear with hclear | hclear
    · have := Finset.mem_range.mp hi
      omega
    · rw [hlevel i (not_lt.mp hge) (Finset.mem_range.mp hi), hclear] at htest
      cases htest

end RawBitmap

/-! ### Families of bitmaps -/

/-- An operation on one of the bitmaps. -/
inductive BitmapOp where
  | set (dst element : ℕ)
  | unset (dst element : ℕ)
  | setBit (dst element : ℕ) (value : Bool)
  | setBitmap (dst src : ℕ)
  | setAnd (dst src : ℕ)
  | setOr (dst src : ℕ)
  | setDiff (dst src : ℕ)
  | negate (dst : ℕ)
  | nullify (dst : ℕ)

namespace BitmapOp

/-- The bitmap that is changed. -/
def dst : BitmapOp → ℕ
  | set dst _ | unset dst _ | setBit dst _ _ | setBitmap dst _ | setAnd dst _ | setOr dst _
  | setDiff dst _ | negate dst | nullify dst => dst

/-- The element is in range. The two bitmaps of an operation may be one, which the `restrict` of the parameters
leaves out. -/
def Legal (n : ℕ) : BitmapOp → Prop
  | set _ element | unset _ element | setBit _ element _ => element < n
  | _ => True

/-- The bitmap that is left. -/
def call (s : ℕ → RawBitmap) : BitmapOp → Option RawBitmap
  | set dst element => (s dst).set element
  | unset dst element => (s dst).unset element
  | setBit dst element value => (s dst).setBit element value
  | setBitmap dst src => some ((s dst).setBitmap (s src))
  | setAnd dst src => some ((s dst).setAnd (s src))
  | setOr dst src => some ((s dst).setOr (s src))
  | setDiff dst src => some ((s dst).setDiff (s src))
  | negate dst => some (s dst).negate
  | nullify dst => some (s dst).nullify

/-- The boolean operation on the bits `x` of the bitmaps. -/
def bit (x : ℕ → ℕ → Bool) : BitmapOp → ℕ → Bool
  | set dst element, i => if i = element then true else x dst i
  | unset dst element, i => if i = element then false else x dst i
  | setBit dst element value, i => if i = element then value else x dst i
  | setBitmap _ src, i => x src i
  | setAnd dst src, i => x dst i && x src i
  | setOr dst src, i => x dst i || x src i
  | setDiff dst src, i => x dst i && !x src i
  | negate dst, i => !x dst i
  | nullify _, _ => false

/-- The bitmaps after the operation. -/
def step (s : ℕ → RawBitmap) (op : BitmapOp) : Option (ℕ → RawBitmap) :=
  (op.call s).map (Function.update s op.dst)

/-- The bitmap that is left, where the bits fill their bytes. -/
def callBits (a : ℕ → Bitmap) : BitmapOp → Option Bitmap
  | set dst element => (a dst).set element
  | unset dst element => (a dst).unset element
  | setBit dst element value => (a dst).setBit element value
  | setBitmap dst src => (a dst).setBitmap (a src)
  | setAnd dst src => (a dst).setAnd (a src)
  | setOr dst src => (a dst).setOr (a src)
  | setDiff dst src => (a dst).setDiff (a src)
  | negate dst => some (a dst).negate
  | nullify dst => some (a dst).nullify

/-- The bitmaps after the operation, where the bits fill their bytes. -/
def stepBits (a : ℕ → Bitmap) (op : BitmapOp) : Option (ℕ → Bitmap) :=
  (op.callBits a).map (Function.update a op.dst)

end BitmapOp

/-- The bits of some bitmaps. -/
def bitsAt (s : ℕ → RawBitmap) (k i : ℕ) : Bool := (s k).test i

/-- The runs of bitmaps of `n` bits. -/
inductive BitmapRun (n : ℕ) : (ℕ → RawBitmap) → Prop
  | init : BitmapRun n fun _ => RawBitmap.init n
  | step {s s' : ℕ → RawBitmap} (h : BitmapRun n s) (op : BitmapOp) (legal : op.Legal n)
      (hcall : op.step s = some s') : BitmapRun n s'

namespace RawBitmap

variable {n i : ℕ} {b dst src : RawBitmap}

/-- Two bitmaps in one. -/
lemma Counted.combine (hd : Counted n dst) (hs : Counted n src) {f : BitVec 8 → BitVec 8 → BitVec 8}
    {g : Bool → Bool → Bool}
    (hfg : ∀ d e i, i < 8 → (f d e).getLsbD i = g (d.getLsbD i) (e.getLsbD i)) :
    Counted n (combine f dst src)
      ∧ ∀ i < 8 * rawChunks n, (RawBitmap.combine f dst src).test i = g (dst.test i) (src.test i) := by
  refine ⟨hd.refresh ?_, fun i hi => ?_⟩
  · rw [List.length_zipWith, hd.length, hs.length, Nat.min_self]
  · have hdlt : i < (bitsOf dst.data).length := by rwa [length_bitsOf, hd.length]
    have hslt : i < (bitsOf src.data).length := by rwa [length_bitsOf, hs.length]
    rw [test, RawBitmap.combine, bitsOf_zipWith hfg, test, test, List.getD_eq_getElem?_getD,
      List.getD_eq_getElem?_getD, List.getD_eq_getElem?_getD, List.getElem?_zipWith,
      List.getElem?_eq_getElem hdlt, List.getElem?_eq_getElem hslt]
    rfl

lemma getLsbD_not_byte (d : BitVec 8) (i : ℕ) (hi : i < 8) : (~~~d).getLsbD i = !d.getLsbD i := by simp [hi]

lemma Counted.negate (h : Counted n b) :
    Counted n b.negate ∧ ∀ i < 8 * rawChunks n, b.negate.test i = !b.test i := by
  refine ⟨h.refresh (List.length_map ..), fun i hi => ?_⟩
  have hlt : i < (bitsOf b.data).length := by rwa [length_bitsOf, h.length]
  rw [test, RawBitmap.negate, bitsOf_map getLsbD_not_byte, test, List.getD_eq_getElem?_getD,
    List.getD_eq_getElem?_getD, List.getElem?_map, List.getElem?_eq_getElem hlt]
  rfl

lemma test_init (n i : ℕ) : (RawBitmap.init n).test i = false := by
  rw [test, List.getD_eq_getElem?_getD, getElem?_bitsOf, RawBitmap.init, List.getElem?_replicate]
  split <;> simp

lemma Counted.nullify (h : Counted n b) :
    Counted n b.nullify ∧ ∀ i, b.nullify.test i = false := by
  have hdata : b.nullify.data = (RawBitmap.init n).data := by
    rw [RawBitmap.nullify, h.length]
    rfl
  refine ⟨⟨h.maxBits, by rw [hdata, (Counted.init n).length], ?_⟩, fun i => ?_⟩
  · rw [hdata, ← (Counted.init n).numSet]
    rfl
  · rw [test, hdata]
    exact test_init n i

/-- A bit that is assigned. -/
lemma Counted.setBit_test (h : Counted n b) (hn : n + 7 < 2 ^ 32) (hi : i < n) (v : Bool) :
    ∃ b', b.setBit i v = some b' ∧ Counted n b' ∧ ∀ j, b'.test j = if j = i then v else b.test j := by
  obtain ⟨b', hset, hc, hbits⟩ := h.setBit hn hi v
  have hlt : i < (bitsOf b.data).length := by
    have := (le_rawChunks hn).1
    rw [length_bitsOf, h.length]
    omega
  refine ⟨b', hset, hc, fun j => ?_⟩
  rw [test, hbits, test, List.getD_eq_getElem?_getD, List.getD_eq_getElem?_getD, List.getElem?_set]
  by_cases hij : i = j
  · rw [if_pos hij, if_pos (hij ▸ hlt), if_pos hij.symm, Option.getD_some]
  · rw [if_neg hij, if_neg (Ne.symm hij)]

end RawBitmap

namespace BitmapOp

variable {n : ℕ} {s : ℕ → RawBitmap}

/-- **One operation** keeps the count of all bits of the bytes, and computes each of them. -/
theorem call_spec (hn : n + 7 < 2 ^ 32) (h : ∀ k, (s k).Counted n) {op : BitmapOp} (hl : op.Legal n) :
    ∃ b', op.call s = some b' ∧ b'.Counted n ∧ ∀ i < 8 * rawChunks n, b'.test i = op.bit (bitsAt s) i := by
  cases op with
  | set dst element =>
      obtain ⟨b', hset, hc, htest⟩ := (h dst).setBit_test hn hl true
      exact ⟨b', hset, hc, fun i _ => htest i⟩
  | unset dst element =>
      obtain ⟨b', hset, hc, htest⟩ := (h dst).setBit_test hn hl false
      exact ⟨b', hset, hc, fun i _ => htest i⟩
  | setBit dst element value =>
      obtain ⟨b', hset, hc, htest⟩ := (h dst).setBit_test hn hl value
      exact ⟨b', hset, hc, fun i _ => htest i⟩
  | setBitmap dst src => exact ⟨_, rfl, ⟨(h dst).maxBits, (h src).length, (h src).numSet⟩, fun i _ => rfl⟩
  | setAnd dst src =>
      obtain ⟨hc, htest⟩ := (h dst).combine (h src) (g := fun x y => x && y)
        fun d e i _ => BitVec.getLsbD_and
      exact ⟨_, rfl, hc, htest⟩
  | setOr dst src =>
      obtain ⟨hc, htest⟩ := (h dst).combine (h src) (g := fun x y => x || y)
        fun d e i _ => BitVec.getLsbD_or
      exact ⟨_, rfl, hc, htest⟩
  | setDiff dst src =>
      obtain ⟨hc, htest⟩ := (h dst).combine (h src) (f := fun d e => d &&& (d ^^^ e))
        (g := fun x y => x && !y) fun d e i _ => by
          rw [BitVec.getLsbD_and, BitVec.getLsbD_xor]
          cases d.getLsbD i <;> cases e.getLsbD i <;> rfl
      exact ⟨_, rfl, hc, htest⟩
  | negate dst => exact ⟨_, rfl, (h dst).negate⟩
  | nullify dst => exact ⟨_, rfl, (h dst).nullify.1, fun i _ => (h dst).nullify.2 i⟩

/-- What an operation does to the bits to spare is one thing. -/
lemma bit_level (h : ∀ k, (s k).Level n) {op : BitmapOp} (hl : op.Legal n) {i : ℕ} (hni : n ≤ i)
    (hi : i < 8 * rawChunks n) : op.bit (bitsAt s) i = op.bit (bitsAt s) n := by
  have hbit : ∀ k, bitsAt s k i = bitsAt s k n := fun k => h k i hni hi
  cases op with
  | set dst element =>
      have hlt : element < n := hl
      rw [bit, bit, if_neg (by omega), if_neg (by omega), hbit]
  | unset dst element =>
      have hlt : element < n := hl
      rw [bit, bit, if_neg (by omega), if_neg (by omega), hbit]
  | setBit dst element value =>
      have hlt : element < n := hl
      rw [bit, bit, if_neg (by omega), if_neg (by omega), hbit]
  | setBitmap dst src => exact hbit src
  | setAnd dst src => rw [bit, bit, hbit, hbit]
  | setOr dst src => rw [bit, bit, hbit, hbit]
  | setDiff dst src => rw [bit, bit, hbit, hbit]
  | negate dst => rw [bit, bit, hbit]
  | nullify dst => rfl

/-- No operation changes the number of bytes. -/
lemma length_call (h : ∀ k, (s k).data.length = rawChunks n) {op : BitmapOp} {b' : RawBitmap}
    (hcall : op.call s = some b') : b'.data.length = rawChunks n := by
  have hset : ∀ {k i : ℕ}, (s k).set i = some b' → b'.data.length = rawChunks n := by
    intro k i hs
    obtain ⟨d, -, hs⟩ := Option.bind_eq_some_iff.mp hs
    rw [← Option.some.inj hs, List.length_set, h]
  have hunset : ∀ {k i : ℕ}, (s k).unset i = some b' → b'.data.length = rawChunks n := by
    intro k i hs
    obtain ⟨d, -, hs⟩ := Option.bind_eq_some_iff.mp hs
    rw [← Option.some.inj hs, List.length_set, h]
  cases op with
  | set dst element => exact hset hcall
  | unset dst element => exact hunset hcall
  | setBit dst element value =>
      cases value with
      | true => exact hset hcall
      | false => exact hunset hcall
  | setBitmap dst src => rw [← Option.some.inj hcall]; exact h src
  | setAnd dst src | setOr dst src | setDiff dst src =>
      rw [← Option.some.inj hcall]
      exact (List.length_zipWith ..).trans (by rw [h, h, Nat.min_self])
  | negate dst => rw [← Option.some.inj hcall]; exact (List.length_map ..).trans (h dst)
  | nullify dst => rw [← Option.some.inj hcall]; exact (List.length_replicate ..).trans (h dst)

end BitmapOp

namespace BitmapRun

variable {n : ℕ} {s : ℕ → RawBitmap}

lemma length (h : BitmapRun n s) (k : ℕ) : (s k).data.length = rawChunks n := by
  induction h generalizing k with
  | init => exact List.length_replicate ..
  | step _ op _ hcall ih =>
      obtain ⟨b', hb', rfl⟩ := Option.map_eq_some_iff.mp hcall
      rcases eq_or_ne k op.dst with rfl | hk
      · rw [Function.update_self]
        exact BitmapOp.length_call ih hb'
      · rw [Function.update_of_ne hk]
        exact ih k

/-- **The invariant of a run.** -/
lemma inv (hn : n + 7 < 2 ^ 32) (h : BitmapRun n s) (k : ℕ) : (s k).Counted n ∧ (s k).Level n := by
  induction h generalizing k with
  | init =>
      exact ⟨RawBitmap.Counted.init n, fun i _ _ =>
        (RawBitmap.test_init n i).trans (RawBitmap.test_init n n).symm⟩
  | step _ op legal hcall ih =>
      obtain ⟨b', hb', rfl⟩ := Option.map_eq_some_iff.mp hcall
      obtain ⟨b, hb, hc, htest⟩ := BitmapOp.call_spec hn (fun k => (ih k).1) legal
      obtain rfl := Option.some.inj (hb'.symm.trans hb)
      rcases eq_or_ne k op.dst with rfl | hk
      · rw [Function.update_self]
        refine ⟨hc, fun i hni hi => ?_⟩
        rw [htest i hi, htest n (hni.trans_lt hi), BitmapOp.bit_level (fun k => (ih k).2) legal hni hi]
      · rw [Function.update_of_ne hk]
        exact ih k

end BitmapRun

/-! ### Without bits to spare -/

namespace RawBitmap

variable {n i : ℕ} {r r' : RawBitmap} {b b' : Bitmap}

/-- The bytes are those of the bitmap `b` of `n` bits, which fill them. -/
structure Models (n : ℕ) (r : RawBitmap) (b : Bitmap) : Prop where
  counted : r.Counted n
  bits : bitsOf r.data = b.bits

lemma Models.numSet (h : r.Models n b) : r.numSet = b.numSet := by
  rw [h.counted.numSet, h.bits, b.numSet_eq]

lemma Models.length (h : r.Models n b) : b.bits.length = 8 * rawChunks n := by
  rw [← h.bits, length_bitsOf, h.counted.length]

lemma Models.test (h : r.Models n b) (i : ℕ) : r.test i = b.test i := by
  rw [RawBitmap.test, h.bits]
  rfl

lemma Models.init (hn : n + 7 < 2 ^ 32) (h8 : n % 8 = 0) : (RawBitmap.init n).Models n (Bitmap.init n) := by
  have hc := Counted.init n
  refine ⟨hc, ?_⟩
  have hlen : 8 * rawChunks n = n := by
    have := le_rawChunks hn
    omega
  refine List.eq_replicate_iff.mpr ⟨by rw [length_bitsOf, hc.length, hlen], fun x hx => ?_⟩
  obtain ⟨i, hi, rfl⟩ := List.mem_iff_getElem.mp hx
  have := test_init n i
  rwa [RawBitmap.test, List.getD_eq_getElem?_getD, List.getElem?_eq_getElem hi] at this

/-- A bit is read alike. -/
lemma Models.isSet (h : r.Models n b) (hn : n + 7 < 2 ^ 32) (hi : i < n) : r.isSet i = b.isSet i := by
  have hlt : i < 8 * rawChunks n := hi.trans_le (le_rawChunks hn).1
  calc r.isSet i = some (r.test i) := isSet_eq h.counted hlt
    _ = some (b.test i) := by rw [h.test]
    _ = b.isSet i := (Bitmap.isSet_eq (h.length.symm ▸ hlt)).symm

/-- An assignment to a bit. -/
lemma Models.setBit (h : r.Models n b) (hn : n + 7 < 2 ^ 32) (hi : i < n) (v : Bool) :
    ∃ r' b', r.setBit i v = some r' ∧ b.setBit i v = some b' ∧ r'.Models n b' := by
  obtain ⟨r', hr, hc, hbits⟩ := h.counted.setBit hn hi v
  have hlt : i < b.bits.length := by
    have := (le_rawChunks hn).1
    rw [h.length]
    omega
  exact ⟨r', _, hr, dif_pos hlt, hc, by rw [hbits, h.bits]⟩

/-- An operation on all bits. -/
lemma Models.combine {src : RawBitmap} {c : Bitmap} (h : r.Models n b) (h' : src.Models n c)
    {f : BitVec 8 → BitVec 8 → BitVec 8} {g : Bool → Bool → Bool}
    (hfg : ∀ d e i, i < 8 → (f d e).getLsbD i = g (d.getLsbD i) (e.getLsbD i)) :
    ∃ b', Bitmap.combine g b c = some b' ∧ (RawBitmap.combine f r src).Models n b' := by
  refine ⟨_, if_pos (h.length.trans h'.length.symm), (h.counted.combine h'.counted hfg).1, ?_⟩
  rw [RawBitmap.combine, bitsOf_zipWith hfg, h.bits, h'.bits]

/-- The complement. -/
lemma Models.negate (h : r.Models n b) : r.negate.Models n b.negate := by
  refine ⟨h.counted.negate.1, ?_⟩
  rw [RawBitmap.negate, bitsOf_map getLsbD_not_byte, h.bits, Bitmap.negate]

/-- No bit is left. -/
lemma Models.nullify (h : r.Models n b) : r.nullify.Models n b.nullify := by
  refine ⟨h.counted.nullify.1, ?_⟩
  have hlen : (bitsOf r.nullify.data).length = b.bits.length := by
    rw [length_bitsOf, h.counted.nullify.1.length, h.length]
  refine List.eq_replicate_iff.mpr ⟨hlen, fun x hx => ?_⟩
  obtain ⟨i, hi, rfl⟩ := List.mem_iff_getElem.mp hx
  have := h.counted.nullify.2 i
  rwa [RawBitmap.test, List.getD_eq_getElem?_getD, List.getElem?_eq_getElem hi] at this

end RawBitmap

namespace BitmapOp

variable {n : ℕ} {s : ℕ → RawBitmap} {a : ℕ → Bitmap}

/-- The operation on the bytes is that on the bits. -/
lemma callBits_spec (hn : n + 7 < 2 ^ 32) (h : ∀ k, (s k).Models n (a k)) {op : BitmapOp} (hl : op.Legal n) :
    ∃ r b, op.call s = some r ∧ op.callBits a = some b ∧ r.Models n b := by
  cases op with
  | set dst element => exact (h dst).setBit hn hl true
  | unset dst element => exact (h dst).setBit hn hl false
  | setBit dst element value => exact (h dst).setBit hn hl value
  | setBitmap dst src =>
      have hlen : (a dst).bits.length = (a src).bits.length := (h dst).length.trans (h src).length.symm
      exact ⟨_, _, rfl, if_pos hlen, ⟨(h dst).counted.maxBits, (h src).counted.length, (h src).counted.numSet⟩,
        (h src).bits⟩
  | setAnd dst src =>
      obtain ⟨b, hb, hm⟩ := (h dst).combine (h src) (f := fun d e => d &&& e) (g := fun x y => x && y)
        fun d e i _ => BitVec.getLsbD_and
      exact ⟨_, b, rfl, hb, hm⟩
  | setOr dst src =>
      obtain ⟨b, hb, hm⟩ := (h dst).combine (h src) (f := fun d e => d ||| e) (g := fun x y => x || y)
        fun d e i _ => BitVec.getLsbD_or
      exact ⟨_, b, rfl, hb, hm⟩
  | setDiff dst src =>
      obtain ⟨b, hb, hm⟩ := (h dst).combine (h src) (f := fun d e => d &&& (d ^^^ e))
        (g := fun x y => x && (x ^^ y)) fun d e i _ => by rw [BitVec.getLsbD_and, BitVec.getLsbD_xor]
      exact ⟨_, b, rfl, hb, hm⟩
  | negate dst => exact ⟨_, _, rfl, rfl, (h dst).negate⟩
  | nullify dst => exact ⟨_, _, rfl, rfl, (h dst).nullify⟩

/-- A step on the bytes is a step on the bits. -/
lemma stepBits_spec (hn : n + 7 < 2 ^ 32) (h : ∀ k, (s k).Models n (a k)) {op : BitmapOp} (hl : op.Legal n) :
    ∃ s' a', op.step s = some s' ∧ op.stepBits a = some a' ∧ ∀ k, (s' k).Models n (a' k) := by
  obtain ⟨r, b, hr, hb, hm⟩ := callBits_spec hn h hl
  refine ⟨_, _, by rw [step, hr, Option.map_some], by rw [stepBits, hb, Option.map_some], fun k => ?_⟩
  rcases eq_or_ne k op.dst with rfl | hk
  · rwa [Function.update_self, Function.update_self]
  · rw [Function.update_of_ne hk, Function.update_of_ne hk]
    exact h k

/-- A run on the bytes is a run on the bits, from any bitmaps. -/
lemma foldlM_stepBits (hn : n + 7 < 2 ^ 32) {ops : List BitmapOp} (hl : ∀ op ∈ ops, op.Legal n)
    (h : ∀ k, (s k).Models n (a k)) :
    ∃ s' a', ops.foldlM step s = some s' ∧ ops.foldlM stepBits a = some a' ∧ ∀ k, (s' k).Models n (a' k) := by
  induction ops generalizing s a with
  | nil => exact ⟨s, a, rfl, rfl, h⟩
  | cons op ops ih =>
      obtain ⟨s₁, a₁, hs, ha, h₁⟩ := stepBits_spec hn h (hl op List.mem_cons_self)
      obtain ⟨s', a', hs', ha', h'⟩ := ih (fun op' h' => hl op' (List.mem_cons_of_mem _ h')) h₁
      refine ⟨s', a', ?_, ?_, h'⟩
      · rw [List.foldlM_cons, hs]
        exact hs'
      · rw [List.foldlM_cons, ha]
        exact ha'

end BitmapOp

/-- **The bytes refine the bits.** With no bits to spare, as in the tables, every run on the bytes succeeds, and
what is read from them and the number of set bits are those of the same run on the bits. -/
theorem bitmap_refines {n : ℕ} (hn : n + 7 < 2 ^ 32) (h8 : n % 8 = 0) {ops : List BitmapOp}
    (hl : ∀ op ∈ ops, op.Legal n) :
    ∃ s a, ops.foldlM BitmapOp.step (fun _ => RawBitmap.init n) = some s
      ∧ ops.foldlM BitmapOp.stepBits (fun _ => Bitmap.init n) = some a
      ∧ ∀ k, (s k).numSet = (a k).numSet ∧ ∀ i < n, (s k).isSet i = (a k).isSet i := by
  obtain ⟨s, a, hs, ha, h⟩ := BitmapOp.foldlM_stepBits hn hl fun _ => RawBitmap.Models.init hn h8
  exact ⟨s, a, hs, ha, fun k => ⟨(h k).numSet, fun i hi => (h k).isSet hn hi⟩⟩

/-! ### The property -/

/-- The operation computes its bits, counts them and leaves the other bitmaps alone. -/
structure BitmapOp.Works (n : ℕ) (s s' : ℕ → RawBitmap) (op : BitmapOp) : Prop where
  bits : ∀ i < n, (s' op.dst).isSet i = some (op.bit (bitsAt s) i)
  numSet : (s' op.dst).Exact n
  other : ∀ k, k ≠ op.dst → s' k = s k

/-- **Every operation computes its bits**, in every run. The number of set bits is right if
and only if the operation leaves no bit to spare set; the bytes are there for sizes up to
`2 ^ 32 - 8`. -/
theorem bitmap_runs {n : ℕ} (hpos : 1 ≤ n) (hlt : n < 2 ^ 32) {s : ℕ → RawBitmap} (h : BitmapRun n s)
    {op : BitmapOp} (hl : op.Legal n) :
    (∃ s', op.step s = some s' ∧ op.Works n s s')
      ↔ n + 7 < 2 ^ 32 ∧ (n % 8 = 0 ∨ op.bit (bitsAt s) n = false) := by
  by_cases hn : n + 7 < 2 ^ 32
  · obtain ⟨b', hcall, hc, htest⟩ := BitmapOp.call_spec hn (fun k => (h.inv hn k).1) hl
    have hstep : op.step s = some (Function.update s op.dst b') := by
      rw [BitmapOp.step, hcall, Option.map_some]
    have hself : Function.update s op.dst b' op.dst = b' := Function.update_self ..
    obtain ⟨hle, -⟩ := RawBitmap.le_rawChunks hn
    have hexact : b'.Exact n ↔ n % 8 = 0 ∨ op.bit (bitsAt s) n = false := by
      have hrun := (h.step op hl hstep).inv hn op.dst
      rw [hself] at hrun
      rw [hrun.1.exact_iff hn hrun.2]
      by_cases hmod : n % 8 = 0
      · exact iff_of_true (Or.inl hmod) (Or.inl hmod)
      · rw [htest n (by omega)]
    rw [← hexact]
    constructor
    · rintro ⟨s', hs', hw⟩
      obtain rfl := Option.some.inj (hstep.symm.trans hs')
      exact ⟨hn, hself ▸ hw.numSet⟩
    · rintro ⟨-, hx⟩
      refine ⟨_, hstep, fun i hi => ?_, by rw [hself]; exact hx, fun k hk => Function.update_of_ne hk ..⟩
      have hi' := hi.trans_le hle
      rw [hself, RawBitmap.isSet_eq hc hi', htest i hi']
  · -- the number of bytes overflows to zero
    refine iff_of_false ?_ fun hc => hn hc.1
    rintro ⟨s', hs', hw⟩
    have hzero : rawChunks n = 0 := by
      rw [rawChunks]
      omega
    have hlen := (h.step op hl hs').length op.dst
    rw [hzero, List.length_eq_zero_iff] at hlen
    have := hw.bits 0 hpos
    rw [RawBitmap.isSet_eq_none hlen] at this
    cases this

/-- A bitmap of ten bits, which is negated twice. -/
theorem bitmap_runs_ten : ∃ s s', BitmapRun 10 s ∧ (BitmapOp.negate 0).step s = some s'
    ∧ (BitmapOp.negate 0).Works 10 s s' := by
  have h₀ : BitmapRun 10 fun _ => RawBitmap.init 10 := BitmapRun.init
  have h₁ := h₀.step (.set 0 3) (by decide : 3 < 10) rfl
  have h₂ := h₁.step (.negate 0) trivial rfl
  obtain ⟨s', hs', hw⟩ := (bitmap_runs (by decide) (by decide) h₂ (show (BitmapOp.negate 0).Legal 10 from trivial)).mpr
    ⟨by decide, Or.inr (by decide +kernel)⟩
  exact ⟨_, s', h₂, hs', hw⟩

/-- **A bitmap of one bit counts eight** once it is negated. -/
theorem not_bitmap_runs : ¬ ∀ (n : ℕ) (s : ℕ → RawBitmap) (op : BitmapOp), 1 ≤ n → n < 2 ^ 32 →
    BitmapRun n s → op.Legal n → ∃ s', op.step s = some s' ∧ op.Works n s s' := by
  intro hall
  obtain ⟨s', hs', hw⟩ := hall 1 _ (.negate 0) le_rfl (by decide) BitmapRun.init trivial
  obtain rfl := Option.some.inj hs'
  exact absurd hw.numSet (by decide +kernel)

end Furious
