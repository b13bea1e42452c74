import Mathlib.Tactic
import Mathlib.Order.CompletePartialOrder

/-!
Memory as bytes, and lists that are threaded through it.

* `add32`, `sub32`: numbers of 32 bits;
* `Mem`: a memory; `loadBytes`, `storeBytes`: numbers in some bytes, lowest byte first; `loadWord`,
  `storeWord`: words of 64 bits;
* `loadBytes_storeBytes`, `loadBytes_congr`, `storeBytes_of_notMem`: **what a number depends on**;
* `bytes`: the places of some bytes, `disjoint_bytes`: when they are apart, and
  `sum_le_of_disjoint`: how many there can be;
* `Regions`: chunks of memory apart from each other, as they come from another allocator;
* `Threaded`: a list whose elements are places, each of which has the next one as its word;
  `Threaded.push`, `Threaded.congr`: pushing a place, and writes elsewhere.
-/

namespace Furious

/-- `+=` on a 32 bit number. -/
def add32 (a b : ℕ) : ℕ := (a + b) % 2 ^ 32

/-- `-=` on a 32 bit number. -/
def sub32 (a b : ℕ) : ℕ := (a + (2 ^ 32 - b % 2 ^ 32)) % 2 ^ 32

/-- A memory: the byte at each place. -/
abbrev Mem : Type := ℕ → UInt8

/-- The number that `n` bytes from `a` on make up. -/
def loadBytes (m : Mem) : ℕ → ℕ → ℕ
  | 0, _ => 0
  | n + 1, a => (m a).toNat + 256 * loadBytes m n (a + 1)

/-- The word at `a`. -/
def loadWord (m : Mem) (a : ℕ) : ℕ := loadBytes m 8 a

/-- The memory with the word `v` at `a`. -/
def storeWord (m : Mem) (a v : ℕ) : Mem := fun b =>
  if a ≤ b ∧ b < a + 8 then UInt8.ofNat (v / 256 ^ (b - a)) else m b

/-- The memory with the number `v` in the `n` bytes from `a` on. -/
def storeBytes (m : Mem) (n a v : ℕ) : Mem := fun b =>
  if a ≤ b ∧ b < a + n then UInt8.ofNat (v / 256 ^ (b - a)) else m b

/-- The places of `n` bytes from `a` on. -/
def bytes (a n : ℕ) : Set ℕ := Set.Ico a (a + n)

variable {m m' : Mem} {a b n k v : ℕ}

lemma mem_bytes : b ∈ bytes a n ↔ a ≤ b ∧ b < a + n := Iff.rfl

/-- Bytes that end where others begin, or before. -/
lemma disjoint_bytes (h : a + n ≤ b) : Disjoint (bytes a n) (bytes b k) := by
  rw [Set.disjoint_left]
  intro c hc hc'
  rw [mem_bytes] at hc hc'
  omega

lemma bytes_subset (h₁ : b ≤ a) (h₂ : a + n ≤ b + k) : bytes a n ⊆ bytes b k := by
  intro c hc
  rw [mem_bytes] at hc ⊢
  omega

lemma loadBytes_congr (h : ∀ b ∈ bytes a n, m b = m' b) : loadBytes m n a = loadBytes m' n a := by
  induction n generalizing a with
  | zero => rfl
  | succ n ih =>
      rw [loadBytes, loadBytes, h a (mem_bytes.mpr (by omega)),
        ih fun b hb => h b (bytes_subset (by omega) (by omega) hb)]

/-- **A word** depends on its bytes only. -/
theorem loadWord_congr (h : ∀ b ∈ bytes a 8, m b = m' b) : loadWord m a = loadWord m' a :=
  loadBytes_congr h

lemma loadBytes_of_bytes (h : ∀ i < n, m (a + i) = UInt8.ofNat (v / 256 ^ i)) :
    loadBytes m n a = v % 256 ^ n := by
  induction n generalizing a v with
  | zero => rw [loadBytes, pow_zero, Nat.mod_one]
  | succ n ih =>
      have hfirst : (m a).toNat = v % 256 := by
        have h₀ := h 0 (by omega)
        rw [Nat.add_zero, pow_zero, Nat.div_one] at h₀
        rw [h₀, UInt8.toNat_ofNat']
      have hrest : loadBytes m n (a + 1) = v / 256 % 256 ^ n := ih fun i hi => by
        rw [Nat.add_assoc, Nat.add_comm 1 i, h (i + 1) (by omega), Nat.div_div_eq_div_mul, pow_succ']
      rw [loadBytes, hfirst, hrest, pow_succ', Nat.mod_mul]

/-- **A stored number** is read back. -/
theorem loadBytes_storeBytes (hv : v < 256 ^ n) : loadBytes (storeBytes m n a v) n a = v := by
  have h : loadBytes (storeBytes m n a v) n a = v % 256 ^ n := loadBytes_of_bytes fun i hi => by
    rw [storeBytes, if_pos (by omega), Nat.add_sub_cancel_left]
  rw [h, Nat.mod_eq_of_lt hv]

/-- A store changes its own bytes only. -/
lemma storeBytes_of_notMem (h : b ∉ bytes a n) : storeBytes m n a v b = m b := if_neg h

/-- A number that a store does not touch. -/
lemma loadBytes_storeBytes_of_disjoint (h : Disjoint (bytes b k) (bytes a n)) :
    loadBytes (storeBytes m n a v) k b = loadBytes m k b :=
  loadBytes_congr fun _ hc => storeBytes_of_notMem (Set.disjoint_left.mp h hc)

lemma storeWord_eq : storeWord m a v = storeBytes m 8 a v := rfl

/-- A stored word is read back. -/
lemma loadWord_storeWord (hv : v < 2 ^ 64) : loadWord (storeWord m a v) a = v :=
  loadBytes_storeBytes (lt_of_lt_of_le hv (by norm_num))

lemma storeWord_of_notMem (h : b ∉ bytes a 8) : storeWord m a v b = m b := if_neg h

/-- **Bytes that are apart from each other** and in a region do not exceed it. -/
theorem sum_le_of_disjoint {l : List (ℕ × ℕ)}
    (hapart : l.Pairwise fun x y => Disjoint (bytes x.1 x.2) (bytes y.1 y.2))
    (hin : ∀ x ∈ l, bytes x.1 x.2 ⊆ bytes a n) : (l.map Prod.snd).sum ≤ n := by
  have hcard : ∀ c k : ℕ, (bytes c k).ncard = k := fun c k => by
    rw [bytes, ← Finset.coe_Ico, Set.ncard_coe_finset, Nat.card_Ico, Nat.add_sub_cancel_left]
  have hsum : (l.map Prod.snd).sum = {b | ∃ x ∈ l, b ∈ bytes x.1 x.2}.ncard := by
    clear hin
    induction l with
    | nil => simp
    | cons x l ih =>
        obtain ⟨hx, hl⟩ := List.pairwise_cons.mp hapart
        have hfinite : {b | ∃ y ∈ l, b ∈ bytes y.1 y.2}.Finite := by
          refine (Set.Finite.biUnion (List.finite_toSet l) fun y _ => Set.finite_Ico y.1 (y.1 + y.2)).subset ?_
          rintro b ⟨y, hy, hb⟩
          exact Set.mem_biUnion hy hb
        have hunion : {b | ∃ y ∈ x :: l, b ∈ bytes y.1 y.2}
            = bytes x.1 x.2 ∪ {b | ∃ y ∈ l, b ∈ bytes y.1 y.2} := by
          ext b
          simp
        have hdisj : Disjoint (bytes x.1 x.2) {b | ∃ y ∈ l, b ∈ bytes y.1 y.2} := by
          rw [Set.disjoint_left]
          rintro b hb ⟨y, hy, hby⟩
          exact Set.disjoint_left.mp (hx y hy) hb hby
        rw [List.map_cons, List.sum_cons, ih hl, hunion,
          Set.ncard_union_eq hdisj (Set.finite_Ico _ _) hfinite, hcard]
  rw [hsum, ← hcard a n]
  refine Set.ncard_le_ncard ?_ (Set.finite_Ico _ _)
  rintro b ⟨x, hx, hb⟩
  exact hin x hx hb

/-! ### Regions -/

/-- What a parent gives: regions of the size and with the alignment that are asked for, apart from
each other. -/
structure Regions (chunks : List ℕ) (alignment size : ℕ) : Prop where
  aligned : ∀ c ∈ chunks, alignment ∣ c
  pos : ∀ c ∈ chunks, 0 < c
  le : ∀ c ∈ chunks, c + size ≤ 2 ^ 64
  apart : chunks.Pairwise fun c d => Disjoint (bytes c size) (bytes d size)

namespace Regions

variable {chunks : List ℕ} {alignment size : ℕ}

lemma of_sublist {chunks' : List ℕ} (h : Regions chunks alignment size) (hs : chunks'.Sublist chunks) :
    Regions chunks' alignment size where
  aligned c hc := h.aligned c (hs.subset hc)
  pos c hc := h.pos c (hs.subset hc)
  le c hc := h.le c (hs.subset hc)
  apart := h.apart.sublist hs

/-- Different regions have no byte in common. -/
lemma disjoint (h : Regions chunks alignment size) (ha : a ∈ chunks) (hb : b ∈ chunks) (hab : a ≠ b) :
    Disjoint (bytes a size) (bytes b size) := by
  have : Std.Symm fun c d => Disjoint (bytes c size) (bytes d size) := ⟨fun _ _ hd => hd.symm⟩
  exact h.apart.forall ha hb hab

/-- No region is given twice. -/
lemma nodup (h : Regions chunks alignment size) (hsize : 0 < size) : chunks.Nodup := by
  refine h.apart.imp fun {c d} hd heq => ?_
  subst heq
  exact Set.disjoint_left.mp hd (mem_bytes.mpr ⟨le_rfl, by omega⟩) (mem_bytes.mpr ⟨le_rfl, by omega⟩)

/-- The regions fit into memory. -/
lemma total_lt (h : Regions chunks alignment size) : chunks.length * size < 2 ^ 64 := by
  have hpairs : (chunks.map fun c => (c, size)).Pairwise fun x y =>
      Disjoint (bytes x.1 x.2) (bytes y.1 y.2) := List.pairwise_map.mpr h.apart
  have hle := sum_le_of_disjoint (a := 1) (n := 2 ^ 64 - 1) hpairs fun x hx => by
    obtain ⟨c, hc, rfl⟩ := List.mem_map.mp hx
    have hend := h.le c hc
    exact bytes_subset (h.pos c hc) (by dsimp only; omega)
  have hsum : ((chunks.map fun c => (c, size)).map Prod.snd).sum = chunks.length * size := by
    rw [List.map_map, Function.comp_def, List.map_const', List.sum_replicate, smul_eq_mul]
  rw [hsum] at hle
  omega

/-- The next region is new. -/
lemma fresh {next : List ℕ} (h : Regions (chunks ++ a :: next) alignment size) (hsize : 0 < size) :
    a ∉ chunks ∧ Regions (chunks ++ [a]) alignment size :=
  ⟨fun hmem => (List.nodup_append.mp (h.nodup hsize)).2.2 a hmem a List.mem_cons_self rfl,
    h.of_sublist (List.Sublist.append_left (List.singleton_sublist.mpr List.mem_cons_self) _)⟩

end Regions

/-! ### Lists threaded through memory -/

/-- From the place `head` on, the words at the places `l` lead from one to the next; the last of
them is null. -/
def Threaded (m : Mem) : ℕ → List ℕ → Prop
  | head, [] => head = 0
  | head, a :: l => head = a ∧ a ≠ 0 ∧ Threaded m (loadWord m a) l

namespace Threaded

variable {head : ℕ} {l : List ℕ}

/-- **Writes elsewhere.** -/
theorem congr (h : Threaded m head l) (hm : ∀ a ∈ l, ∀ b ∈ bytes a 8, m' b = m b) : Threaded m' head l := by
  induction l generalizing head with
  | nil => exact h
  | cons a l ih =>
      obtain ⟨hhead, hne, hrest⟩ := h
      refine ⟨hhead, hne, ?_⟩
      rw [loadWord_congr (hm a List.mem_cons_self)]
      exact ih hrest fun b hb => hm b (List.mem_cons_of_mem a hb)

/-- **A place is pushed.** -/
theorem push (h : Threaded m head l) (ha : a ≠ 0) (hhead : head < 2 ^ 64)
    (hdisj : ∀ b ∈ l, Disjoint (bytes b 8) (bytes a 8)) :
    Threaded (storeWord m a head) a (a :: l) := by
  refine ⟨rfl, ha, ?_⟩
  rw [loadWord_storeWord hhead]
  exact h.congr fun b hb c hc => storeWord_of_notMem (Set.disjoint_left.mp (hdisj b hb) hc)

end Threaded

end Furious
