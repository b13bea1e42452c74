import Furious.Library.Memory

/-!
The frames of a stack allocator.

The addresses that a stack allocator has handed out are recorded in pages of their own, the
frames. A frame has a header and, behind it, one record after the other; the header leads to
the frame before.

* `Frame.previous`, `Frame.nextFree`: the header;
* `Frame.Holds`: the records of a frame, and `Frame.Holds.push`, `Frame.Holds.pop`,
  `Frame.Holds.init`: **the updates of a frame**;
* `Frames`: the frames from the last one on, with their records; `Frames.congr`,
  `Frames.update`: **the chain under an update of its pages**.
-/

namespace Furious

namespace Frame

/-- `fheader->p_previous_page`. -/
def previous (m : Mem) (f : ℕ) : ℕ := loadWord m (f + 8)

/-- `fheader->m_next_free`. -/
def nextFree (m : Mem) (f : ℕ) : ℕ := loadBytes m 4 (f + 16)

def setNextPage (m : Mem) (f page : ℕ) : Mem := storeWord m f page

def setPrevious (m : Mem) (f page : ℕ) : Mem := storeWord m (f + 8) page

def setNextFree (m : Mem) (f next : ℕ) : Mem := storeBytes m 4 (f + 16) next

/-- A place behind the header, `frame_data + offset`. -/
def data (f offset : ℕ) : ℕ := f + 24 + offset

/-- The frame at `f`, a page of `size` bytes, holds `records`, the oldest one first. -/
structure Holds (m : Mem) (size f : ℕ) (records : List ℕ) : Prop where
  nextFree : nextFree m f = 8 * records.length
  record : ∀ i < records.length, records[i]? = some (loadWord m (data f (8 * i)))
  le : 24 + 8 * records.length ≤ size
  small : size ≤ 2 ^ 30

namespace Holds

instance (m : Mem) (size f : ℕ) (records : List ℕ) : Decidable (Holds m size f records) :=
  decidable_of_iff (Frame.nextFree m f = 8 * records.length
      ∧ (∀ i < records.length, records[i]? = some (loadWord m (data f (8 * i))))
      ∧ 24 + 8 * records.length ≤ size ∧ size ≤ 2 ^ 30)
    ⟨fun h => ⟨h.1, h.2.1, h.2.2.1, h.2.2.2⟩, fun h => ⟨h.nextFree, h.record, h.le, h.small⟩⟩

variable {m m' : Mem} {size f v : ℕ} {records : List ℕ}

/-- Writes elsewhere. -/
lemma congr (h : Holds m size f records) (hm : ∀ b ∈ bytes f size, m' b = m b) :
    Holds m' size f records ∧ Frame.previous m' f = Frame.previous m f := by
  have hle := h.le
  have hword : ∀ a n, f ≤ a → a + n ≤ f + size → loadBytes m' n a = loadBytes m n a :=
    fun a n ha hn => loadBytes_congr fun b hb => hm b (bytes_subset ha hn hb)
  refine ⟨⟨?_, fun i hi => ?_, h.le, h.small⟩, hword _ _ (by omega) (by omega)⟩
  · rw [Frame.nextFree, hword _ _ (by omega) (by omega)]
    exact h.nextFree
  · have hw : loadWord m' (data f (8 * i)) = loadWord m (data f (8 * i)) :=
      hword _ _ (by rw [data]; omega) (by rw [data]; omega)
    rw [hw]
    exact h.record i hi

/-- The link to the next page is not read. -/
lemma setNextPage (h : Holds m size f records) (page : ℕ) :
    Holds (Frame.setNextPage m f page) size f records
      ∧ Frame.previous (Frame.setNextPage m f page) f = Frame.previous m f := by
  have hother : ∀ a n, f + 8 ≤ a → loadBytes (Frame.setNextPage m f page) n a = loadBytes m n a :=
    fun a n ha => loadBytes_storeBytes_of_disjoint (disjoint_bytes ha).symm
  refine ⟨⟨?_, fun i hi => ?_, h.le, h.small⟩, hother _ _ (by omega)⟩
  · rw [Frame.nextFree, hother _ _ (by omega)]
    exact h.nextFree
  · rw [loadWord, hother _ _ (by rw [data]; omega)]
    exact h.record i hi

/-- **A new frame** has no records. -/
theorem init (m : Mem) (f previous : ℕ) (hp : previous < 2 ^ 64) (hsize : 24 ≤ size)
    (hsmall : size ≤ 2 ^ 30) : Holds (Frame.setNextFree (Frame.setPrevious m f previous) f 0) size f []
      ∧ Frame.previous (Frame.setNextFree (Frame.setPrevious m f previous) f 0) f = previous := by
  refine ⟨⟨loadBytes_storeBytes (by norm_num), fun i hi => ?_, hsize, hsmall⟩, ?_⟩
  · exact absurd hi (Nat.not_lt_zero i)
  · rw [Frame.previous, Frame.setNextFree, loadWord,
      loadBytes_storeBytes_of_disjoint (disjoint_bytes (by omega))]
    exact loadWord_storeWord hp

/-- **A record is added.** -/
theorem push (h : Holds m size f records) (hroom : 24 + 8 * records.length + 8 ≤ size) (hv : v < 2 ^ 64)
    (hm' : Frame.setNextFree (storeWord m (data f (Frame.nextFree m f)) v) f
      (add32 (Frame.nextFree m f) 8) = m') :
    Holds m' size f (records ++ [v]) ∧ Frame.previous m' f = Frame.previous m f
      ∧ ∀ b, b ∉ bytes f size → m' b = m b := by
  have hsmall := h.small
  rw [h.nextFree, data, add32, Nat.mod_eq_of_lt (by omega)] at hm'
  subst hm'
  have hlen : (records ++ [v]).length = records.length + 1 := by rw [List.length_append]; rfl
  -- what lies outside of the counter and of the new record is as it was
  have hother : ∀ a n, (a + n ≤ f + 16 ∨ f + 20 ≤ a ∧ a + n ≤ f + 24 + 8 * records.length) →
      loadBytes (Frame.setNextFree (storeWord m (f + 24 + 8 * records.length) v) f
        (8 * records.length + 8)) n a = loadBytes m n a := fun a n han => by
    have hcounter : Disjoint (bytes a n) (bytes (f + 16) 4) := by
      rcases han with han | han
      · exact disjoint_bytes han
      · exact (disjoint_bytes (by omega)).symm
    rw [Frame.setNextFree, loadBytes_storeBytes_of_disjoint hcounter, storeWord_eq,
      loadBytes_storeBytes_of_disjoint (disjoint_bytes (by omega))]
  refine ⟨⟨?_, fun i hi => ?_, ?_, hsmall⟩, hother _ _ (by omega), fun b hb => ?_⟩
  · rw [hlen, Nat.mul_succ]
    exact loadBytes_storeBytes (by norm_num; omega)
  · rw [hlen] at hi
    by_cases heq : i = records.length
    · subst heq
      rw [List.getElem?_append_right le_rfl, Nat.sub_self, List.getElem?_cons_zero, data, loadWord,
        Frame.setNextFree, loadBytes_storeBytes_of_disjoint (disjoint_bytes (by omega)).symm]
      exact congrArg some (loadWord_storeWord hv).symm
    · have hw : loadBytes (Frame.setNextFree (storeWord m (f + 24 + 8 * records.length) v) f
          (8 * records.length + 8)) 8 (f + 24 + 8 * i) = loadBytes m 8 (f + 24 + 8 * i) :=
        hother _ _ (by omega)
      rw [List.getElem?_append_left (by omega), data, loadWord, hw]
      exact h.record i (by omega)
  · rw [hlen]
    omega
  · rw [mem_bytes] at hb
    rw [Frame.setNextFree, storeBytes_of_notMem (by rw [mem_bytes]; omega),
      storeWord_of_notMem (by rw [mem_bytes]; omega)]

/-- **The last record is taken back.** -/
theorem pop (h : Holds m size f (records ++ [v])) :
    loadWord m (data f (Frame.nextFree m f) - 8) = v
      ∧ Holds (Frame.setNextFree m f (sub32 (Frame.nextFree m f) 8)) size f records
      ∧ Frame.previous (Frame.setNextFree m f (sub32 (Frame.nextFree m f) 8)) f = Frame.previous m f
      ∧ ∀ b, b ∉ bytes f size → Frame.setNextFree m f (sub32 (Frame.nextFree m f) 8) b = m b := by
  have hlen : (records ++ [v]).length = records.length + 1 := by rw [List.length_append]; rfl
  have hle := h.le
  have hsmall := h.small
  have hnext := h.nextFree
  rw [hlen] at hle hnext
  have hsub : sub32 (Frame.nextFree m f) 8 = 8 * records.length := by
    rw [sub32, hnext]
    omega
  have hother : ∀ a n, (a + n ≤ f + 16 ∨ f + 20 ≤ a) →
      loadBytes (Frame.setNextFree m f (8 * records.length)) n a = loadBytes m n a := fun a n han => by
    refine loadBytes_storeBytes_of_disjoint ?_
    rcases han with han | han
    · exact disjoint_bytes han
    · exact (disjoint_bytes (by omega)).symm
  rw [hsub]
  refine ⟨?_, ⟨loadBytes_storeBytes (by norm_num; omega), fun i hi => ?_, by omega, hsmall⟩,
    hother _ _ (by omega), fun b hb => ?_⟩
  · have hrec := h.record records.length (by omega)
    rw [List.getElem?_append_right le_rfl, Nat.sub_self, List.getElem?_cons_zero] at hrec
    have hdata : data f (Frame.nextFree m f) - 8 = data f (8 * records.length) := by
      rw [data, data, hnext]
      omega
    rw [hdata]
    exact (Option.some.inj hrec).symm
  · have hrec := h.record i (by omega)
    rw [List.getElem?_append_left hi] at hrec
    rw [hrec, loadWord, loadWord, hother _ _ (Or.inr (by rw [data]; omega))]
  · rw [mem_bytes] at hb
    exact storeBytes_of_notMem (by rw [mem_bytes]; omega)

end Holds

end Frame

/-- From the frame `head` on, the frames with their records, the last frame first. -/
def Frames (m : Mem) (size : ℕ) : ℕ → List (ℕ × List ℕ) → Prop
  | head, [] => head = 0
  | head, e :: l => head = e.1 ∧ e.1 ≠ 0 ∧ Frame.Holds m size e.1 e.2 ∧ Frames m size (Frame.previous m e.1) l

namespace Frames

instance decidable (m : Mem) (size : ℕ) : (head : ℕ) → (l : List (ℕ × List ℕ)) → Decidable (Frames m size head l)
  | head, [] => inferInstanceAs (Decidable (head = 0))
  | head, e :: l =>
      have := decidable m size (Frame.previous m e.1) l
      inferInstanceAs (Decidable (head = e.1 ∧ e.1 ≠ 0 ∧ Frame.Holds m size e.1 e.2
        ∧ Frames m size (Frame.previous m e.1) l))

variable {m m' : Mem} {size head f : ℕ} {records : List ℕ} {l : List (ℕ × List ℕ)}

/-- **Writes elsewhere.** -/
theorem congr (h : Frames m size head l) (hm : ∀ e ∈ l, ∀ b ∈ bytes e.1 size, m' b = m b) :
    Frames m' size head l := by
  induction l generalizing head with
  | nil => exact h
  | cons e l ih =>
      obtain ⟨hhead, hne, hholds, hrest⟩ := h
      obtain ⟨hholds', hprev⟩ := hholds.congr (hm e List.mem_cons_self)
      refine ⟨hhead, hne, hholds', ?_⟩
      rw [hprev]
      exact ih hrest fun e' he' => hm e' (List.mem_cons_of_mem e he')

/-- **The last frame changes.** -/
theorem update {records' : List ℕ} (h : Frames m size head ((f, records) :: l))
    (hholds : Frame.Holds m' size f records') (hprev : Frame.previous m' f = Frame.previous m f)
    (hm : ∀ e ∈ l, ∀ b ∈ bytes e.1 size, m' b = m b) : Frames m' size head ((f, records') :: l) := by
  obtain ⟨hhead, hne, -, hrest⟩ := h
  refine ⟨hhead, hne, hholds, ?_⟩
  rw [hprev]
  exact congr hrest hm

/-- Whether there is a frame. -/
lemma head_eq_zero_iff (h : Frames m size head l) : head = 0 ↔ l = [] := by
  cases l with
  | nil => exact iff_of_true h rfl
  | cons e l => exact iff_of_false (h.1 ▸ h.2.1) (List.cons_ne_nil e l)

end Frames

/-! ### The records -/

/-- The frames from `head` on are pages that are held, all of them but the last one are full, and
together they hold the records `addrs`, the last one first. -/
structure Recorded (m : Mem) (size : ℕ) (held : List ℕ) (head : ℕ) (frames : List (ℕ × List ℕ))
    (addrs : List ℕ) : Prop where
  linked : Frames m size head frames
  mem : ∀ e ∈ frames, e.1 ∈ held
  nodup : (frames.map Prod.fst).Nodup
  full : ∀ e ∈ frames.tail, 24 + 8 * e.2.length = size
  records : frames.flatMap (fun e => e.2.reverse) = addrs

namespace Recorded

variable {m m' : Mem} {size head f v : ℕ} {held held' : List ℕ} {frames : List (ℕ × List ℕ)}
  {addrs : List ℕ}

/-- Writes elsewhere. -/
lemma congr (h : Recorded m size held head frames addrs)
    (hm : ∀ e ∈ frames, ∀ b ∈ bytes e.1 size, m' b = m b) : Recorded m' size held head frames addrs :=
  { h with linked := h.linked.congr hm }

/-- The frames are pages apart from each other. -/
lemma disjoint (h : Recorded m size held head frames addrs) (hreg : Regions held size size) {p : ℕ}
    (hp : p ∈ held) (hne : p ∉ frames.map Prod.fst) : ∀ e ∈ frames, Disjoint (bytes e.1 size) (bytes p size) :=
  fun e he => hreg.disjoint (h.mem e he) hp fun heq => hne (heq ▸ List.mem_map_of_mem he)

/-- The frames before the last one are other pages. -/
lemma tail_disjoint {e : ℕ × List ℕ} {l : List (ℕ × List ℕ)}
    (h : Recorded m size held head (e :: l) addrs) (hreg : Regions held size size) :
    ∀ e' ∈ l, Disjoint (bytes e'.1 size) (bytes e.1 size) := fun e' he' => by
  refine hreg.disjoint (h.mem e' (List.mem_cons_of_mem e he')) (h.mem e List.mem_cons_self) fun heq => ?_
  exact (List.nodup_cons.mp h.nodup).1 (heq ▸ List.mem_map_of_mem he')

/-- **The last frame is linked** to a next page. -/
theorem link (h : Recorded m size held head frames addrs) (hreg : Regions held size size) (hhead : head ≠ 0)
    (page : ℕ) : Recorded (Frame.setNextPage m head page) size held head frames addrs
      ∧ Frame.nextFree (Frame.setNextPage m head page) head = Frame.nextFree m head
      ∧ ∀ b, b ∉ bytes head size → Frame.setNextPage m head page b = m b := by
  cases frames with
  | nil => exact absurd h.linked hhead
  | cons e l =>
      obtain ⟨rfl, -, hholds, -⟩ := h.linked
      have hle := hholds.le
      obtain ⟨hholds', hprev⟩ := hholds.setNextPage page
      have hframe : ∀ b, b ∉ bytes e.1 size → Frame.setNextPage m e.1 page b = m b := fun b hb =>
        storeWord_of_notMem fun hmem => hb (bytes_subset le_rfl (by omega) hmem)
      have hlinked : Frames (Frame.setNextPage m e.1 page) size e.1 ((e.1, e.2) :: l) :=
        Frames.update h.linked hholds' hprev fun e' he' b hb =>
          hframe b (Set.disjoint_left.mp (h.tail_disjoint hreg e' he') hb)
      exact ⟨{ h with linked := hlinked }, hholds'.nextFree.trans hholds.nextFree.symm, hframe⟩

/-- An empty frame in front of full ones. -/
lemma cons (h : Recorded m size held head frames addrs) (hfull : head = 0 ∨ Frame.nextFree m head = size - 24)
    (hsize : 24 ≤ size) (hf : f ∈ held) (hpos : f ≠ 0) (hnotin : f ∉ frames.map Prod.fst)
    (hholds : Frame.Holds m size f []) (hprev : Frame.previous m f = head) :
    Recorded m size held f ((f, []) :: frames) addrs := by
  refine ⟨⟨rfl, hpos, hholds, hprev ▸ h.linked⟩, List.forall_mem_cons.mpr ⟨hf, h.mem⟩,
    List.nodup_cons.mpr ⟨hnotin, h.nodup⟩, ?_, h.records⟩
  cases frames with
  | nil => exact fun e he => absurd he List.not_mem_nil
  | cons e l =>
      obtain ⟨rfl, hepos, hlast, -⟩ := h.linked
      have hnext := hlast.nextFree
      have heq := hfull.resolve_left hepos
      exact List.forall_mem_cons.mpr ⟨by omega, h.full⟩

/-- **A new frame**, after a full one. -/
theorem newFrame (h : Recorded m size held head frames addrs) (hreg : Regions (held ++ [f]) size size)
    (hfull : head = 0 ∨ Frame.nextFree m head = size - 24) (hsize : 32 ≤ size) (hsmall : size ≤ 2 ^ 30)
    (hm' : (if head ≠ 0 then
        Frame.setNextPage (Frame.setNextFree (Frame.setPrevious m f head) f 0) head f
      else Frame.setNextFree (Frame.setPrevious m f head) f 0) = m') :
    Recorded m' size (held ++ [f]) f ((f, []) :: frames) addrs
      ∧ ∀ b, (∀ e ∈ frames, b ∉ bytes e.1 size) → b ∉ bytes f size → m' b = m b := by
  have hf : f ∈ held ++ [f] := List.mem_append_right _ (List.mem_singleton_self f)
  have hfpos : f ≠ 0 := (hreg.pos f hf).ne'
  have hfresh : f ∉ held := (hreg.fresh (by omega)).1
  have hnotin : f ∉ frames.map Prod.fst := fun hmem => by
    obtain ⟨e, he, heq⟩ := List.mem_map.mp hmem
    exact hfresh (heq ▸ h.mem e he)
  have hheld : Recorded m size (held ++ [f]) head frames addrs :=
    { h with mem := fun e he => List.mem_append_left _ (h.mem e he) }
  have hapart := hheld.disjoint hreg hf hnotin
  have hhead : head < 2 ^ 64 := by
    cases frames with
    | nil => exact lt_of_eq_of_lt h.linked (by norm_num)
    | cons e l =>
        rw [h.linked.1]
        exact lt_of_lt_of_le (by omega) (hreg.le _ (hheld.mem e List.mem_cons_self))
  obtain ⟨hinit, hprev⟩ := Frame.Holds.init m f head hhead (by omega) hsmall
  have hframe : ∀ b, b ∉ bytes f size → Frame.setNextFree (Frame.setPrevious m f head) f 0 b = m b := by
    intro b hb
    rw [mem_bytes] at hb
    rw [Frame.setNextFree, storeBytes_of_notMem (by rw [mem_bytes]; omega), Frame.setPrevious,
      storeWord_of_notMem (by rw [mem_bytes]; omega)]
  have hsame : ∀ e ∈ frames, ∀ b ∈ bytes e.1 size,
      Frame.setNextFree (Frame.setPrevious m f head) f 0 b = m b := fun e he b hb =>
    hframe b (Set.disjoint_left.mp (hapart e he) hb)
  have hold := hheld.congr hsame
  by_cases hzero : head = 0
  · rw [if_neg (not_not.mpr hzero)] at hm'
    subst hm'
    exact ⟨hold.cons (Or.inl hzero) (by omega) hf hfpos hnotin hinit hprev, fun b _ hb => hframe b hb⟩
  · rw [if_pos hzero] at hm'
    subst hm'
    cases frames with
    | nil => exact absurd h.linked hzero
    | cons e l =>
        obtain ⟨rfl, -, hlast, -⟩ := h.linked
        obtain ⟨hlinked, hnext, hother⟩ := hold.link hreg hzero f
        obtain ⟨hinit', hprev'⟩ := hinit.congr fun b hb =>
          hother b (Set.disjoint_right.mp (hapart e List.mem_cons_self) hb)
        have hnext' := (hlast.congr (hsame e List.mem_cons_self)).1.nextFree.trans hlast.nextFree.symm
        refine ⟨hlinked.cons (Or.inr ?_) (by omega) hf hfpos hnotin hinit' (hprev'.trans hprev),
          fun b hb hbf => (hother b (hb e List.mem_cons_self)).trans (hframe b hbf)⟩
        rw [hnext, hnext']
        exact hfull.resolve_left hzero

/-- **A record is added** to a frame that is not full. -/
theorem push (h : Recorded m size held head frames addrs) (hreg : Regions held size size)
    (hroom : ¬ (head = 0 ∨ Frame.nextFree m head = size - 24)) (hdvd : 8 ∣ size) (hv : v < 2 ^ 64)
    (hm' : Frame.setNextFree (storeWord m (Frame.data head (Frame.nextFree m head)) v) head
      (add32 (Frame.nextFree m head) 8) = m') :
    ∃ frames', Recorded m' size held head frames' (v :: addrs) ∧ frames'.map Prod.fst = frames.map Prod.fst
      ∧ ∀ b, (∀ e ∈ frames, b ∉ bytes e.1 size) → m' b = m b := by
  push Not at hroom
  cases frames with
  | nil => exact absurd h.linked hroom.1
  | cons e l =>
      obtain ⟨hhead, hepos, hholds, hrest⟩ := h.linked
      subst hhead
      have hle := hholds.le
      have hnext := hholds.nextFree
      have hlen : 24 + 8 * e.2.length + 8 ≤ size := by
        have := hroom.2
        omega
      obtain ⟨hholds', hprev, hframe⟩ := hholds.push hlen hv hm'
      have hdisj : ∀ e' ∈ l, ∀ b ∈ bytes e'.1 size, m' b = m b := fun e' he' b hb => by
        exact hframe b (Set.disjoint_left.mp (h.tail_disjoint hreg e' he') hb)
      refine ⟨(e.1, e.2 ++ [v]) :: l, ⟨h.linked.update hholds' hprev hdisj, ?_, h.nodup, h.full, ?_⟩, rfl,
        fun b hb => hframe b (hb e List.mem_cons_self)⟩
      · exact List.forall_mem_cons.mpr (List.forall_mem_cons.mp h.mem)
      · rw [← h.records, List.flatMap_cons, List.flatMap_cons, List.reverse_append]
        rfl

/-- **The last record is taken back** from a frame that is not empty. -/
theorem pop (h : Recorded m size held head frames (v :: addrs)) (hreg : Regions held size size)
    (hne : Frame.nextFree m head ≠ 0) (hhead : head ≠ 0)
    (hm' : Frame.setNextFree m head (sub32 (Frame.nextFree m head) 8) = m') :
    loadWord m (Frame.data head (Frame.nextFree m head) - 8) = v
      ∧ ∃ frames', Recorded m' size held head frames' addrs ∧ frames'.map Prod.fst = frames.map Prod.fst
      ∧ ∀ b, (∀ e ∈ frames, b ∉ bytes e.1 size) → m' b = m b := by
  cases frames with
  | nil => exact absurd h.linked hhead
  | cons e l =>
      obtain ⟨f, records⟩ := e
      obtain ⟨rfl, hepos, hholds, hrest⟩ := h.linked
      have hrecords := h.records
      induction records using List.reverseRecOn with
      | nil => exact absurd hholds.nextFree hne
      | append_singleton records w =>
          rw [List.flatMap_cons, List.reverse_append, List.reverse_singleton, List.singleton_append,
            List.cons_append, List.cons.injEq] at hrecords
          obtain ⟨rfl, hrecords⟩ := hrecords
          obtain ⟨hload, hholds', hprev, hframe⟩ := hholds.pop
          rw [hm'] at hholds' hprev hframe
          have hdisj : ∀ e' ∈ l, ∀ b ∈ bytes e'.1 size, m' b = m b := fun e' he' b hb => by
            exact hframe b (Set.disjoint_left.mp (h.tail_disjoint hreg e' he') hb)
          exact ⟨hload, (head, records) :: l, ⟨h.linked.update hholds' hprev hdisj,
            List.forall_mem_cons.mpr (List.forall_mem_cons.mp h.mem), h.nodup, h.full, hrecords⟩, rfl,
            fun b hb => hframe b (hb _ List.mem_cons_self)⟩

/-- **An empty last frame is given back.** -/
theorem drop (h : Recorded m size held head frames addrs) (hreg : Regions held size size) (hne : addrs ≠ [])
    (hsize : 32 ≤ size) (hempty : Frame.nextFree m head = 0) (hhead : head ≠ 0)
    (hm' : Frame.setNextPage m (Frame.previous m head) 0 = m') :
    Frame.previous m head ≠ 0 ∧ Frame.nextFree m' (Frame.previous m head) ≠ 0 ∧ head ∈ held
      ∧ ∃ frames', frames.map Prod.fst = head :: frames'.map Prod.fst
      ∧ Recorded m' size (held.diff [head]) (Frame.previous m head) frames' addrs
      ∧ ∀ b, (∀ e ∈ frames, b ∉ bytes e.1 size) → m' b = m b := by
  subst hm'
  cases frames with
  | nil => exact absurd h.linked hhead
  | cons e l =>
      obtain ⟨f, records⟩ := e
      obtain ⟨rfl, hepos, hholds, hrest⟩ := h.linked
      have hlen : Frame.nextFree m head = 8 * records.length := hholds.nextFree
      obtain rfl : records = [] := List.length_eq_zero_iff.mp (by omega)
      obtain ⟨hnotin, hnodup⟩ := List.nodup_cons.mp h.nodup
      have hrecords := h.records
      cases l with
      | nil => exact absurd hrecords.symm hne
      | cons e l =>
          have hprev := hrest.1
          have hprevnext := hrest.2.2.1.nextFree
          have hfull := h.full e List.mem_cons_self
          have htail : Recorded m size (held.diff [head]) (Frame.previous m head) (e :: l) addrs := by
            refine ⟨hrest, fun e' he' => ?_, hnodup, fun e' he' => h.full e' (List.mem_of_mem_tail he'),
              hrecords⟩
            refine List.mem_diff_of_mem (h.mem e' (List.mem_cons_of_mem _ he')) fun hmem => ?_
            exact hnotin (List.mem_map.mpr ⟨e', he', List.mem_singleton.mp hmem⟩)
          have hpos : Frame.previous m head ≠ 0 := hprev ▸ hrest.2.1
          obtain ⟨hlinked, hnext, hother⟩ := htail.link (hreg.of_sublist (List.diff_sublist _ _)) hpos 0
          refine ⟨hpos, ?_, h.mem _ List.mem_cons_self, e :: l, rfl, hlinked, fun b hb => hother b ?_⟩
          · rw [hnext, hprev, hprevnext]
            omega
          · rw [hprev]
            exact hb e (List.mem_cons_of_mem _ List.mem_cons_self)

end Recorded

end Furious
