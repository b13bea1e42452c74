import Furious.Data.Contents

/-!
Reference tables.

A reference table is a table whose components are the heads of references, by their tails. So a tail has one
reference at most; what is removed is that of the tail, whatever head is given.

* `Reftable.add`, `Reftable.get`, `Reftable.remove`, `Reftable.existsRef`: the operations;
* `RefOp`, `Reftable.run`: sequences of them;
* `Refers`: the references that a sequence should leave, `Kept`: those that it leaves;
* `Reftable.Refs`: the table has some references, `Refs.add`, `Refs.remove`: **its steps**;
* `references_iff`: **which sequences leave the references that they should**, and which removals of a
  reference that is not there do nothing.

Ids have 32 bits.
-/

namespace Furious

/-! ### The operations -/

/-- `fdb_reftable_t`. -/
structure Reftable where
  table : Table

namespace Reftable

/-- `sizeof(entity_id_t)`. -/
abbrev entityIdSize : ℕ := 4

/-- `fdb_reftable_init`. -/
def init (memory : Address → UInt8) : Reftable := ⟨Table.init entityIdSize false memory⟩

/-- `fdb_reftable_add`. -/
def add (rt : Reftable) (tail head : ℕ) : Option Reftable := do
  let (table, phead) ← rt.table.createComponent tail
  some ⟨table.store entityIdSize phead head⟩

/-- `fdb_reftable_get`. -/
def get (rt : Reftable) (tail : ℕ) : Option (Option Address) := rt.table.getComponent tail

/-- `fdb_reftable_remove`, which makes no use of the head. -/
def remove (rt : Reftable) (tail _head : ℕ) : Option Reftable := do
  let table ← rt.table.destroyComponent tail
  some ⟨table⟩

/-- `fdb_reftable_exists`. -/
def existsRef (rt : Reftable) (tail head : ℕ) : Option Bool := do
  match ← rt.table.getComponent tail with
  | none => some false
  | some phead => some (rt.table.load entityIdSize phead = head)

end Reftable

/-- A call that changes a reference table. -/
inductive RefOp where
  | add (tail head : ℕ)
  | remove (tail head : ℕ)
deriving DecidableEq, Repr

namespace RefOp

/-- The tail that it is about. -/
def tail : RefOp → ℕ
  | add tail _ => tail
  | remove tail _ => tail

/-- The invalid id fails an assertion. -/
def Valid : RefOp → Prop
  | add tail head => tail < invalidId ∧ head < 2 ^ 32
  | remove tail head => tail < invalidId ∧ head < 2 ^ 32

instance : (op : RefOp) → Decidable op.Valid
  | add tail head => inferInstanceAs (Decidable (tail < invalidId ∧ head < 2 ^ 32))
  | remove tail head => inferInstanceAs (Decidable (tail < invalidId ∧ head < 2 ^ 32))

/-- The effect on the table. -/
def call (rt : Reftable) : RefOp → Option Reftable
  | add tail head => rt.add tail head
  | remove tail head => rt.remove tail head

/-- The effect on the heads of the tails. -/
def act (heads : ℕ → Option ℕ) : RefOp → ℕ → Option ℕ
  | add tail head => Function.update heads tail (some head)
  | remove tail _ => Function.update heads tail none

end RefOp

/-- A sequence of calls. -/
def Reftable.run (rt : Reftable) (ops : List RefOp) : Option Reftable := ops.foldlM RefOp.call rt

/-! ### What a sequence leaves -/

/-- The last `add` for the tail was with this head, and the reference has not been removed since. -/
def Refers (ops : List RefOp) (tail head : ℕ) : Prop :=
  ∃ before after, ops = before ++ .add tail head :: after
    ∧ (∀ other, .add tail other ∉ after) ∧ .remove tail head ∉ after

/-- The last call for the tail was an `add` with this head. -/
def Kept (ops : List RefOp) (tail head : ℕ) : Prop :=
  ∃ before after, ops = before ++ .add tail head :: after ∧ ∀ op ∈ after, op.tail ≠ tail

/-- If a tail is named by a removal behind the last `add` for it, one of these removals is of the
reference. -/
def Settled (ops : List RefOp) : Prop :=
  ∀ before tail head after, ops = before ++ .add tail head :: after → (∀ other, .add tail other ∉ after) →
    (∃ other, .remove tail other ∈ after) → .remove tail head ∈ after

/-- A list is split in one way only at the last element with a property. -/
lemma split_last_unique {α : Type*} {P : α → Prop} {b b' a a' : List α} {x x' : α}
    (h : b ++ x :: a = b' ++ x' :: a') (hx : P x) (hx' : P x') (ha : ∀ y ∈ a, ¬ P y)
    (ha' : ∀ y ∈ a', ¬ P y) : x = x' ∧ a = a' := by
  rcases List.append_eq_append_iff.mp h with ⟨c, -, hc⟩ | ⟨c, -, hc⟩
  · cases c with
    | nil => exact List.cons.inj hc
    | cons y c =>
        obtain ⟨-, rfl⟩ := List.cons.inj hc
        exact absurd hx' (ha x' (by simp))
  · cases c with
    | nil =>
        obtain ⟨rfl, rfl⟩ := List.cons.inj hc
        exact ⟨rfl, rfl⟩
    | cons y c =>
        obtain ⟨-, rfl⟩ := List.cons.inj hc
        exact absurd hx (ha' x (by simp))

lemma Kept.refers {ops : List RefOp} {tail head : ℕ} (h : Kept ops tail head) : Refers ops tail head := by
  obtain ⟨before, after, hops, hafter⟩ := h
  exact ⟨before, after, hops, fun other hmem => hafter _ hmem rfl, fun hmem => hafter _ hmem rfl⟩

lemma Refers.mem {ops : List RefOp} {tail head : ℕ} (h : Refers ops tail head) : .add tail head ∈ ops := by
  obtain ⟨before, after, rfl, -⟩ := h
  exact List.mem_append_right _ List.mem_cons_self

/-- **When a sequence leaves what it should.** -/
lemma kept_iff_refers_iff (ops : List RefOp) :
    (∀ tail head, Kept ops tail head ↔ Refers ops tail head) ↔ Settled ops := by
  constructor
  · intro h before tail head after hops hadd hremove
    by_contra hnot
    obtain ⟨other, hother⟩ := hremove
    obtain ⟨before', after', hops', hafter'⟩ := (h tail head).mpr ⟨before, after, hops, hadd, hnot⟩
    -- both are split at the last `add` for the tail
    have hsplit := split_last_unique (P := fun op => ∃ head, op = .add tail head) (hops.symm.trans hops')
      ⟨head, rfl⟩ ⟨head, rfl⟩ ?_ ?_
    · exact hafter' _ (hsplit.2 ▸ hother) rfl
    · rintro op hop ⟨head, rfl⟩
      exact hadd head hop
    · rintro op hop ⟨head, rfl⟩
      exact hafter' _ hop rfl
  · refine fun h tail head => ⟨Kept.refers, ?_⟩
    rintro ⟨before, after, hops, hadd, hremove⟩
    refine ⟨before, after, hops, fun op hop htail => ?_⟩
    cases op with
    | add tail' other =>
        obtain rfl : tail' = tail := htail
        exact hadd other hop
    | remove tail' other =>
        obtain rfl : tail' = tail := htail
        exact hremove (h before tail' head after hops hadd ⟨other, hop⟩)

/-- The heads that a sequence leaves to the tails. -/
def headsOf (ops : List RefOp) : ℕ → Option ℕ := ops.foldl RefOp.act fun _ => none

lemma headsOf_concat (ops : List RefOp) (op : RefOp) : headsOf (ops ++ [op]) = op.act (headsOf ops) := by
  rw [headsOf, List.foldl_append]
  rfl

lemma RefOp.act_of_ne {heads : ℕ → Option ℕ} {op : RefOp} {tail : ℕ} (h : op.tail ≠ tail) :
    op.act heads tail = heads tail := by
  cases op with
  | add tail' head => exact Function.update_of_ne (Ne.symm h) _ _
  | remove tail' head => exact Function.update_of_ne (Ne.symm h) _ _

/-- The heads are those of the last calls for their tails. -/
lemma headsOf_eq_some_iff (ops : List RefOp) (tail head : ℕ) :
    headsOf ops tail = some head ↔ Kept ops tail head := by
  induction ops using List.reverseRecOn with
  | nil =>
      constructor
      · intro h
        cases h
      · rintro ⟨before, after, hops, -⟩
        exact absurd hops (by simp)
  | append_singleton ops op ih =>
      rw [headsOf_concat]
      constructor
      · intro h
        by_cases htail : op.tail = tail
        · cases op with
          | add tail' head' =>
              obtain rfl : tail' = tail := htail
              rw [RefOp.act, Function.update_self] at h
              obtain rfl := Option.some.inj h
              exact ⟨ops, [], rfl, by simp⟩
          | remove tail' head' =>
              obtain rfl : tail' = tail := htail
              rw [RefOp.act, Function.update_self] at h
              cases h
        · rw [RefOp.act_of_ne htail] at h
          obtain ⟨before, after, rfl, hafter⟩ := ih.mp h
          refine ⟨before, after ++ [op], by simp, fun op' hop' => ?_⟩
          rcases List.mem_append.mp hop' with hop' | hop'
          · exact hafter op' hop'
          · rwa [List.mem_singleton.mp hop']
      · rintro ⟨before, after, hops, hafter⟩
        rcases List.eq_nil_or_concat after with rfl | ⟨after, op', rfl⟩
        · obtain ⟨-, hop⟩ := List.append_inj' hops rfl
          obtain rfl := List.singleton_inj.mp hop
          exact Function.update_self _ _ _
        · rw [List.concat_eq_append, ← List.cons_append, ← List.append_assoc] at hops
          obtain ⟨hinit, hop⟩ := List.append_inj' hops rfl
          obtain rfl := List.singleton_inj.mp hop
          rw [RefOp.act_of_ne (hafter op (by simp))]
          exact ih.mpr ⟨before, after, hinit, fun op' hop' => hafter op' (by simp [hop'])⟩

/-! ### What the table has -/

namespace Reftable

/-- The table has the references of some tails to their heads. -/
structure Refs (rt : Reftable) (heads : ℕ → Option ℕ) : Prop where
  sound : ∃ M, rt.table.Sound M
  housed : rt.table.Housed
  esize : rt.table.esize = entityIdSize
  destructor : rt.table.destructor = false
  slot : ∀ tail < invalidId, (rt.table.slot tail).map (rt.table.load entityIdSize) = heads tail
  lt : ∀ tail head, heads tail = some head → head < 2 ^ 32

namespace Refs

variable {rt : Reftable} {heads : ℕ → Option ℕ} {tail head : ℕ}

lemma init (memory : Address → UInt8) : (init memory).Refs fun _ => none where
  sound := ⟨∅, Table.Sound.init _ _ _⟩
  housed := Table.Housed.init (by decide) _ _
  esize := rfl
  destructor := rfl
  slot tail htail := by
    have hsound := Table.Sound.init entityIdSize false memory
    have hslot := (hsound.keeps_empty 0).slot tail htail
    rw [Finmap.lookup_empty] at hslot
    rw [Reftable.init, ← hslot]
    rfl
  lt tail head h := by cases h

/-- A tail without a head has no slot. -/
lemma get_none_iff (h : rt.Refs heads) (htail : tail < invalidId) :
    rt.get tail = some none ↔ heads tail = none := by
  obtain ⟨M, hsound⟩ := h.sound
  rw [Reftable.get, hsound.getComponent htail, ← h.slot tail htail, Option.map_eq_none_iff, Option.some.injEq]

/-- **`fdb_reftable_exists`.** -/
lemma existsRef_eq (h : rt.Refs heads) (htail : tail < invalidId) :
    rt.existsRef tail head = some (decide (heads tail = some head)) := by
  obtain ⟨M, hsound⟩ := h.sound
  rw [existsRef, hsound.getComponent htail, ← h.slot tail htail]
  cases rt.table.slot tail with
  | none => rfl
  | some phead => simp

/-- The bytes of one tail do not matter for another one. -/
lemma load_of_ne {t t' : Table} {other : ℕ} {ptr : Address} (hhoused : t.Housed) (hesize : t.esize = entityIdSize)
    (hne : other ≠ tail) (hplace : t.place tail = some ptr)
    (hmem : ∀ a ∉ ptr.bytes entityIdSize, t'.memory a = t.memory a) :
    (t.slot other).map (t'.load entityIdSize) = (t.slot other).map (t.load entityIdSize) := by
  cases hslot : t.slot other with
  | none => rfl
  | some a =>
      have hdisj := hhoused.apart hne (Table.place_of_slot hslot) hplace
      rw [hesize] at hdisj
      rw [Option.map_some, Option.map_some, Table.load_congr fun x hx => hmem x (Set.disjoint_left.mp hdisj hx)]

/-- **One tail changes**: it has `new` now, and the others have what they had. -/
lemma update (h : rt.Refs heads) {t : Table} {new : Option ℕ} (hsound : ∃ M, t.Sound M)
    (hhoused : t.Housed) (hesize : t.esize = rt.table.esize) (hdestructor : t.destructor = rt.table.destructor)
    (hself : (t.slot tail).map (t.load entityIdSize) = new) (hlt : ∀ head, new = some head → head < 2 ^ 32)
    (hother : ∀ other, other ≠ tail → (t.slot other).map (t.load entityIdSize)
      = (rt.table.slot other).map (rt.table.load entityIdSize)) :
    Refs ⟨t⟩ (Function.update heads tail new) where
  sound := hsound
  housed := hhoused
  esize := hesize.trans h.esize
  destructor := hdestructor.trans h.destructor
  slot other htail := by
    by_cases hne : other = tail
    · rw [hne, Function.update_self, hself]
    · rw [Function.update_of_ne hne, hother other hne, h.slot other htail]
  lt other head hhead := by
    by_cases hne : other = tail
    · rw [hne, Function.update_self] at hhead
      exact hlt head hhead
    · rw [Function.update_of_ne hne] at hhead
      exact h.lt other head hhead

/-- **`fdb_reftable_add`.** -/
theorem add (h : rt.Refs heads) (htail : tail < invalidId) (hhead : head < 2 ^ 32) :
    ∃ rt', rt.add tail head = some rt' ∧ rt'.Refs (Function.update heads tail (some head)) := by
  obtain ⟨M, hsound⟩ := h.sound
  obtain ⟨t, M', phead, heq, hsound', hup, hphead, hmem, -⟩ := hsound.create_updates htail
  have hcall : (TableOp.create tail).call rt.table = some (t, some phead) := by
    rw [TableOp.call, heq, Option.map_some]
  have hhoused : t.Housed := h.housed.step hsound (show (TableOp.create tail).Valid from htail) (by simp) hcall
  refine ⟨⟨t.store entityIdSize phead head⟩, by rw [Reftable.add, heq]; rfl, ?_⟩
  refine h.update ⟨M', hsound'.store _ _ _⟩ (hhoused.store _ _ _) hup.esize hup.destructor ?_
    (fun other hother => Option.some.inj hother ▸ hhead) fun other hne => ?_
  · show (t.slot tail).map ((t.store entityIdSize phead head).load entityIdSize) = some head
    rw [hphead, Option.map_some, Table.load_store t phead (by norm_num; exact hhead)]
  · calc (t.slot other).map ((t.store entityIdSize phead head).load entityIdSize)
      _ = (t.slot other).map (t.load entityIdSize) :=
        load_of_ne hhoused (hup.esize.trans h.esize) hne (Table.place_of_slot hphead)
          fun a ha => Table.memory_store ha
      _ = (rt.table.slot other).map (t.load entityIdSize) := by rw [hup.slot_of_ne hne]
      _ = (rt.table.slot other).map (rt.table.load entityIdSize) := by rw [Table.load_of_memory hmem]

/-- **`fdb_reftable_remove`.** -/
theorem remove (h : rt.Refs heads) (htail : tail < invalidId) (head : ℕ) :
    ∃ rt', rt.remove tail head = some rt' ∧ rt'.Refs (Function.update heads tail none) := by
  obtain ⟨M, hsound⟩ := h.sound
  obtain ⟨t, heq, hsound', hup, hmem, -⟩ := hsound.destroy_updates htail
  have hcall : (TableOp.destroy tail).call rt.table = some (t, none) := by
    rw [TableOp.call, heq, Option.map_some]
  have hhoused : t.Housed := h.housed.step hsound (show (TableOp.destroy tail).Valid from htail) (by simp) hcall
  refine ⟨⟨t⟩, by rw [Reftable.remove, heq]; rfl, ?_⟩
  refine h.update ⟨M, hsound'⟩ hhoused hup.esize hup.destructor ?_ (fun other hother => by cases hother)
    fun other hne => ?_
  · rw [hup.slot_false, Option.map_none]
  · rw [hup.slot_of_ne hne]
    cases hplace : rt.table.place tail with
    | none =>
        rw [hplace, Option.elim_none] at hmem
        rw [Table.load_of_memory hmem]
    | some ptr =>
        rw [hplace, Option.elim_some, h.esize] at hmem
        exact load_of_ne h.housed h.esize hne hplace fun a ha => by rw [hmem, Table.memset_of_notMem ha]

/-- **Every call.** -/
lemma call (h : rt.Refs heads) {op : RefOp} (valid : op.Valid) :
    ∃ rt', op.call rt = some rt' ∧ rt'.Refs (op.act heads) := by
  cases op with
  | add tail head => exact h.add valid.1 valid.2
  | remove tail head => exact h.remove valid.1 head

/-- **Every sequence.** -/
theorem run (h : rt.Refs heads) {ops : List RefOp} (valid : ∀ op ∈ ops, op.Valid) :
    ∃ rt', rt.run ops = some rt' ∧ rt'.Refs (ops.foldl RefOp.act heads) := by
  induction ops generalizing rt heads with
  | nil => exact ⟨rt, rfl, h⟩
  | cons op ops ih =>
      obtain ⟨rt₁, heq, h₁⟩ := h.call (valid op List.mem_cons_self)
      obtain ⟨rt', hrun, h'⟩ := ih h₁ fun op' hop' => valid op' (List.mem_cons_of_mem _ hop')
      refine ⟨rt', ?_, h'⟩
      rw [Reftable.run, List.foldlM_cons, heq]
      exact hrun

end Refs

/-- What is removed where nothing is. -/
lemma destroy_missing {t t' : Table} {M : KeyMap ℕ} {id : ℕ} (h : t.Sound M) (hid : id < invalidId)
    (hslot : t.slot id = none) (hdestructor : t.destructor = false) (hdes : t.destroyComponent id = some t') :
    t'.numComponents = t.numComponents ∧ t'.destroyed = t.destroyed := by
  rcases h.destroy hid with ⟨-, heq⟩ | ⟨t₁, block, block', hb, heq, -, -, -, -, hnum, -, hcalls⟩
  · obtain rfl := Option.some.inj (heq.symm.trans hdes)
    exact ⟨rfl, rfl⟩
  · obtain rfl := Option.some.inj (heq.symm.trans hdes)
    have htest : block.existing.test (id % tableBlockSize) ≠ true := by
      intro htest
      rw [Table.slot, Table.existsAt_eq hb, htest, if_pos rfl, Table.place_eq hb] at hslot
      cases hslot
    rw [hnum, hcalls, if_neg htest, hdestructor, if_neg Bool.false_ne_true]
    exact ⟨rfl, rfl⟩

/-- The same answers, and as many references. -/
structure Same (rt rt' : Reftable) : Prop where
  existsRef : ∀ tail < invalidId, ∀ head < 2 ^ 32, rt'.existsRef tail head = rt.existsRef tail head
  numComponents : rt'.table.numComponents = rt.table.numComponents
  destroyed : rt'.table.destroyed = rt.table.destroyed

/-- **A removal** does nothing if the tail has no reference; else it removes that reference. -/
lemma Refs.same_iff {rt rt' : Reftable} {heads : ℕ → Option ℕ} {tail head : ℕ} (h : rt.Refs heads)
    (htail : tail < invalidId) (hremove : rt.remove tail head = some rt') : rt.Same rt' ↔ heads tail = none := by
  obtain ⟨rt'', hremove', h'⟩ := h.remove htail head
  obtain rfl := Option.some.inj (hremove'.symm.trans hremove)
  constructor
  · intro hsame
    cases hhead : heads tail with
    | none => rfl
    | some other =>
        have hanswer := hsame.existsRef tail htail other (h.lt tail other hhead)
        rw [h.existsRef_eq htail, h'.existsRef_eq htail, hhead, Function.update_self] at hanswer
        simp at hanswer
  · intro hnone
    have hupdate : Function.update heads tail none = heads := by
      rw [← hnone, Function.update_eq_self]
    rw [hupdate] at h'
    obtain ⟨M, hsound⟩ := h.sound
    obtain ⟨t, hdes, heq⟩ := Option.bind_eq_some_iff.mp hremove
    obtain rfl := Option.some.inj heq
    have hslot : rt.table.slot tail = none := by
      rw [← Option.map_eq_none_iff, h.slot tail htail, hnone]
    obtain ⟨hnum, hcalls⟩ := destroy_missing hsound htail hslot h.destructor hdes
    exact ⟨fun other hother head' _ => by rw [h.existsRef_eq hother, h'.existsRef_eq hother], hnum, hcalls⟩

end Reftable

/-- **The references that a sequence should leave** are those that `fdb_reftable_exists` answers
for, if and only if the sequence is settled. And a removal of a reference that is not there does
nothing if and only if its tail has no reference. -/
theorem references_iff (memory : Address → UInt8) {ops : List RefOp} (valid : ∀ op ∈ ops, op.Valid) :
    ∃ rt, (Reftable.init memory).run ops = some rt
      ∧ ((∀ tail < invalidId, ∀ head < 2 ^ 32,
          ∃ answer, rt.existsRef tail head = some answer ∧ (answer = true ↔ Refers ops tail head)) ↔ Settled ops)
      ∧ ∀ tail < invalidId, ∀ head < 2 ^ 32, rt.existsRef tail head = some false →
          ∃ rt', rt.remove tail head = some rt' ∧ (rt.Same rt' ↔ rt.get tail = some none) := by
  obtain ⟨rt, hrun, hrefs⟩ := (Reftable.Refs.init memory).run valid
  have hkept (tail head : ℕ) : ops.foldl RefOp.act (fun _ => none) tail = some head ↔ Kept ops tail head :=
    headsOf_eq_some_iff ops tail head
  have hanswer (tail head : ℕ) (htail : tail < invalidId) :
      (∃ answer, rt.existsRef tail head = some answer ∧ (answer = true ↔ Refers ops tail head))
        ↔ (Kept ops tail head ↔ Refers ops tail head) := by
    rw [hrefs.existsRef_eq htail, ← hkept]
    simp
  refine ⟨rt, hrun, ?_, fun tail htail head _ _ => ?_⟩
  · rw [← kept_iff_refers_iff]
    constructor
    · refine fun h tail head => ⟨Kept.refers, fun hrefers => ?_⟩
      obtain ⟨htail, hhead⟩ := valid _ hrefers.mem
      exact ((hanswer tail head htail).mp (h tail htail head hhead)).mpr hrefers
    · exact fun h tail htail head _ => (hanswer tail head htail).mpr (h tail head)
  · obtain ⟨rt', hremove, -⟩ := hrefs.remove htail head
    refine ⟨rt', hremove, ?_⟩
    rw [hrefs.get_none_iff htail]
    exact hrefs.same_iff htail hremove

/-- A reference is replaced, removed and added again. -/
theorem references_iff_replaced :
    ∃ rt, (Reftable.init fun _ => 0).run [.add 1 2, .add 1 3, .remove 1 3, .add 1 2] = some rt
    ∧ ((∀ tail < invalidId, ∀ head < 2 ^ 32, ∃ answer, rt.existsRef tail head = some answer
        ∧ (answer = true ↔ Refers [.add 1 2, .add 1 3, .remove 1 3, .add 1 2] tail head))
      ↔ Settled [.add 1 2, .add 1 3, .remove 1 3, .add 1 2])
    ∧ ∀ tail < invalidId, ∀ head < 2 ^ 32, rt.existsRef tail head = some false →
      ∃ rt', rt.remove tail head = some rt' ∧ (rt.Same rt' ↔ rt.get tail = some none) :=
  references_iff (fun _ => 0) (by decide)

/-- `1` refers to `2`; a removal of the reference to `3` removes it. -/
theorem removes_another : ¬ ∀ (memory : Address → UInt8) (ops : List RefOp), (∀ op ∈ ops, op.Valid) →
    ∃ rt, (Reftable.init memory).run ops = some rt
      ∧ (∀ tail < invalidId, ∀ head < 2 ^ 32,
        ∃ answer, rt.existsRef tail head = some answer ∧ (answer = true ↔ Refers ops tail head))
      ∧ ∀ tail < invalidId, ∀ head < 2 ^ 32, rt.existsRef tail head = some false →
        ∃ rt', rt.remove tail head = some rt' ∧ rt.Same rt' := by
  intro h
  obtain ⟨rt, hrun, hanswers, -⟩ := h (fun _ => 0) [.add 1 2, .remove 1 3] (by decide)
  have hnone : ((Reftable.init fun _ => 0).run [.add 1 2, .remove 1 3]).bind (fun rt => rt.existsRef 1 2)
      = some false := by decide +kernel
  obtain ⟨answer, hanswer, hrefers⟩ := hanswers 1 (by decide) 2 (by decide)
  rw [hrun, Option.bind_some, hanswer] at hnone
  obtain rfl := Option.some.inj hnone
  exact Bool.false_ne_true (hrefers.mpr ⟨[], [.remove 1 3], rfl, by simp, by decide⟩)

end Furious
