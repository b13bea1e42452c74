import Furious.Data.Clear

/-!
Runs of a table.

Components are created, destroyed, enabled and disabled by their ids, in any order,
and now and then the table is cleared. Next to the table a history is kept: which
components were created and not destroyed since, and which have ended.

* `TableOp`, `TableRun`: the operations, and the runs of a table with its history;
* `Table.existsAt`, `Table.enabledAt`, `Table.slot`: what a table says about an id;
* `Table.Updates`: a change of one id, `Sound.create_updates` and its like;
* `TableRun.keeps`: **in every run the table has the components that are live**.
-/

namespace Furious

/-! ### What a table says about an id -/

namespace Table

variable {t t' : Table} {M : KeyMap ℕ} {id : ℕ}

/-- The component exists. -/
def existsAt (t : Table) (id : ℕ) : Bool :=
  (t.blockAt (id / tableBlockSize)).elim false fun block =>
    block.existing.test (id % tableBlockSize)

/-- The component is enabled. -/
def enabledAt (t : Table) (id : ℕ) : Bool :=
  (t.blockAt (id / tableBlockSize)).elim false fun block =>
    block.enabled.test (id % tableBlockSize)

/-- The address of the component in its block, if there is one. -/
def place (t : Table) (id : ℕ) : Option Address :=
  (t.blockAt (id / tableBlockSize)).map fun block =>
    block.data.add (id % tableBlockSize * t.esize)

/-- The address of the component, if it exists. -/
def slot (t : Table) (id : ℕ) : Option Address := if t.existsAt id then t.place id else none

lemma existsAt_eq {block : TableBlock} (h : t.blockAt (id / tableBlockSize) = some block) :
    t.existsAt id = block.existing.test (id % tableBlockSize) := by rw [existsAt, h]; rfl

lemma enabledAt_eq {block : TableBlock} (h : t.blockAt (id / tableBlockSize) = some block) :
    t.enabledAt id = block.enabled.test (id % tableBlockSize) := by rw [enabledAt, h]; rfl

lemma place_eq {block : TableBlock} (h : t.blockAt (id / tableBlockSize) = some block) :
    t.place id = some (block.data.add (id % tableBlockSize * t.esize)) := by rw [place, h]; rfl

namespace Sound

/-- `fdb_table_get_component` and `fdb_table_is_enabled` say it. -/
lemma getComponent (h : t.Sound M) (hid : id < invalidId) : t.getComponent id = some (t.slot id) := by
  rcases h.cases (id / tableBlockSize) with ⟨hp, hb⟩ | ⟨p, block, hp, hget, hb, hshaped⟩
  · have hslot : t.slot id = none := by
      rw [slot, existsAt, hb]
      rfl
    rw [hslot]
    simp only [Table.getComponent, decodeId_eq hid, Option.bind_eq_bind, Option.bind_some, h.shows.get, hp]
  · rw [slot, place_eq hb, existsAt_eq hb]
    simp only [Table.getComponent, decodeId_eq hid, Option.bind_eq_bind, Option.bind_some, h.shows.get, hp,
      hget, hshaped.isSet (offset_lt id)]

lemma isEnabled (h : t.Sound M) (hid : id < invalidId) : t.isEnabled id = some (t.enabledAt id) := by
  rcases h.cases (id / tableBlockSize) with ⟨hp, hb⟩ | ⟨p, block, hp, hget, hb, hshaped⟩
  · rw [enabledAt, hb]
    simp only [Table.isEnabled, decodeId_eq hid, Option.bind_eq_bind, Option.bind_some, h.shows.get, hp,
      Option.elim_none]
  · have hset : block.enabled.isSet (id % tableBlockSize)
        = some (block.enabled.test (id % tableBlockSize)) :=
      Bitmap.isSet_eq (by rw [hshaped.enabled]; exact offset_lt id)
    rw [enabledAt_eq hb]
    simp only [Table.isEnabled, decodeId_eq hid, Option.bind_eq_bind, Option.bind_some, h.shows.get, hp,
      hget, hset]

lemma getBlock_none (h : t.Sound M) (b : ℕ) : t.getBlock b = some none ↔ t.blockAt b = none := by
  rw [getBlock, h.shows.get]
  rcases h.cases b with ⟨hp, hb⟩ | ⟨p, block, hp, -, hb, -⟩
  · rw [hp, hb]
    simp
  · rw [hp, hb]
    simp

lemma notMem_of_getBlock (h : t.Sound M) {b : ℕ} (hb : t.getBlock b = some none) : b ∉ M := by
  rw [getBlock, h.shows.get] at hb
  exact Finmap.lookup_eq_none.mp (Option.some.inj hb)

end Sound

/-! ### Changes of one id -/

/-- The bits of the id become `e` and `d`; blocks stay where they are. -/
structure Updates (t t' : Table) (id : ℕ) (e d : Bool) : Prop where
  esize : t'.esize = t.esize
  destructor : t'.destructor = t.destructor
  existsAt : t'.existsAt = Function.update t.existsAt id e
  enabledAt : t'.enabledAt = Function.update t.enabledAt id d
  data : ∀ b block, t.blockAt b = some block →
    ∃ block', t'.blockAt b = some block' ∧ block'.data = block.data

/-- Ids are equal if their blocks and places are. -/
lemma id_ext {i j : ℕ} (hd : i / tableBlockSize = j / tableBlockSize)
    (hm : i % tableBlockSize = j % tableBlockSize) : i = j := by
  rw [← Nat.div_add_mod i tableBlockSize, ← Nat.div_add_mod j tableBlockSize, hd, hm]

/-- A change of bits, seen by the ids. -/
lemma Changes.update {block block' : TableBlock} {e : Bool} (hc : t.Changes t' id block block')
    (f : TableBlock → ℕ → Bool) (hf : f block' = Function.update (f block) (id % tableBlockSize) e)
    (hold : ∀ o, (t.blockAt (id / tableBlockSize)).elim false (fun block => f block o) = f block o) :
    (fun i => (t'.blockAt (i / tableBlockSize)).elim false fun block => f block (i % tableBlockSize))
      = Function.update (fun i => (t.blockAt (i / tableBlockSize)).elim false
          fun block => f block (i % tableBlockSize)) id e := by
  funext i
  rw [hc.blockAt]
  by_cases hd : i / tableBlockSize = id / tableBlockSize
  · rw [hd, Function.update_self, Option.elim_some, hf]
    by_cases hm : i % tableBlockSize = id % tableBlockSize
    · rw [hm, Function.update_self, id_ext hd hm, Function.update_self]
    · have hne : i ≠ id := fun heq => hm (by rw [heq])
      rw [Function.update_of_ne hm, Function.update_of_ne hne, hd, hold]
  · have hne : i ≠ id := fun heq => hd (by rw [heq])
    rw [Function.update_of_ne hd, Function.update_of_ne hne]

/-- A change of bits of a block that is there, or of a new one. -/
lemma Changes.updates {block block' : TableBlock} {e d : Bool} (hc : t.Changes t' id block block')
    (hs : block.Sets block' (id % tableBlockSize) e d)
    (hold : t.blockAt (id / tableBlockSize) = some block
      ∨ t.blockAt (id / tableBlockSize) = none ∧ ∀ o, block.existing.test o = false
        ∧ block.enabled.test o = false) : t.Updates t' id e d where
  esize := hc.esize
  destructor := hc.destructor
  existsAt := by
    refine hc.update (fun block => block.existing.test) hs.existing fun o => ?_
    rcases hold with hb | ⟨hb, hnew⟩
    · rw [hb, Option.elim_some]
    · rw [hb, Option.elim_none, (hnew o).1]
  enabledAt := by
    refine hc.update (fun block => block.enabled.test) hs.enabled fun o => ?_
    rcases hold with hb | ⟨hb, hnew⟩
    · rw [hb, Option.elim_some]
    · rw [hb, Option.elim_none, (hnew o).2]
  data b old hb := by
    rw [hc.blockAt]
    by_cases hbb : b = id / tableBlockSize
    · rw [hbb] at hb ⊢
      rcases hold with hb' | ⟨hb', -⟩
      · rw [hb] at hb'
        rw [Option.some.inj hb']
        exact ⟨block', Function.update_self _ _ _, hs.data⟩
      · rw [hb] at hb'
        cases hb'
    · exact ⟨old, by rw [Function.update_of_ne hbb, hb], rfl⟩

/-- Nothing changes. -/
lemma Updates.same (t : Table) (id : ℕ) : t.Updates t id (t.existsAt id) (t.enabledAt id) :=
  ⟨rfl, rfl, (Function.update_eq_self _ _).symm, (Function.update_eq_self _ _).symm,
    fun _ block hb => ⟨block, hb, rfl⟩⟩

/-- Without a block there is no component. -/
lemma bits_of_none (h : t.blockAt (id / tableBlockSize) = none) :
    t.existsAt id = false ∧ t.enabledAt id = false := by
  rw [existsAt, enabledAt, h]
  exact ⟨rfl, rfl⟩

namespace Updates

variable {e d : Bool} {i : ℕ}

/-- **The components of other ids** stay where they are. -/
lemma slot_of_ne (h : t.Updates t' id e d) (hi : i ≠ id) : t'.slot i = t.slot i := by
  rw [slot, slot, h.existsAt, Function.update_of_ne hi]
  cases he : t.existsAt i with
  | false => rfl
  | true =>
      cases hb : t.blockAt (i / tableBlockSize) with
      | none =>
          rw [(bits_of_none hb).1] at he
          cases he
      | some block =>
          obtain ⟨block', hb', hdata⟩ := h.data _ block hb
          rw [place_eq hb, place_eq hb', hdata, h.esize]

/-- A component that stays does not move. -/
lemma slot_of_exists (h : t.Updates t' id true d) (he : t.existsAt id = true) :
    t'.slot id = t.slot id := by
  rw [slot, slot, h.existsAt, Function.update_self, he]
  cases hb : t.blockAt (id / tableBlockSize) with
  | none =>
      rw [(bits_of_none hb).1] at he
      cases he
  | some block =>
      obtain ⟨block', hb', hdata⟩ := h.data _ block hb
      rw [place_eq hb, place_eq hb', hdata, h.esize]

lemma slot_false (h : t.Updates t' id false d) : t'.slot id = none := by
  rw [slot, h.existsAt, Function.update_self]
  rfl

end Updates

namespace Sound

/-- **`fdb_table_create_component`**, for its id. -/
theorem create_updates (h : t.Sound M) (hid : id < invalidId) :
    ∃ t' M' ptr, t.createComponent id = some (t', ptr) ∧ t'.Sound M' ∧ t.Updates t' id true true
      ∧ t'.slot id = some ptr ∧ t'.memory = t.memory ∧ t'.destroyed = t.destroyed := by
  obtain ⟨t', M', block, block', heq, h', hc, hcreate, hold, -, hmem, hdes⟩ := h.create hid
  obtain ⟨block'', heq', hshaped, hsets, -, -⟩ := TableBlock.create_spec hc.shaped (offset_lt id)
  rw [hcreate] at heq'
  obtain rfl := Option.some.inj heq'
  have hup : t.Updates t' id true true := by
    refine hc.updates hsets ?_
    rcases hold with ⟨hb, -⟩ | ⟨hb, rfl, -⟩
    · exact Or.inl hb
    · exact Or.inr ⟨hb, fun o => ⟨Bitmap.test_init _ _, Bitmap.test_init _ _⟩⟩
  refine ⟨t', M', _, heq, h', hup, ?_, hmem, hdes⟩
  have hb' : t'.blockAt (id / tableBlockSize) = some block' := by
    rw [hc.blockAt, Function.update_self]
  rw [slot, hup.existsAt, Function.update_self, if_pos rfl, place_eq hb', hsets.data, hc.esize]

/-- **`fdb_table_destroy_component`**, for its id: the destructor is called if there is a
block. -/
theorem destroy_updates (h : t.Sound M) (hid : id < invalidId) :
    ∃ t', t.destroyComponent id = some t' ∧ t'.Sound M ∧ t.Updates t' id false false
      ∧ t'.memory = (t.place id).elim t.memory (fun ptr => memset t.memory ptr t.esize)
      ∧ t'.destroyed = (if t.destructor then t.destroyed ++ (t.place id).toList else t.destroyed) := by
  rcases h.destroy hid with ⟨hb, heq⟩ | ⟨t', block, block', hb, heq, h', hc, hdes, -, -, hmem, hcalls⟩
  · obtain ⟨he, hd⟩ := bits_of_none hb
    have hup := Updates.same t id
    rw [he, hd] at hup
    refine ⟨t, heq, h, hup, ?_, ?_⟩
    · rw [place, hb]
      rfl
    · rw [place, hb, Option.map_none, Option.toList_none, List.append_nil, ite_self]
  · obtain ⟨block'', heq', hshaped, hsets, -, -⟩ := TableBlock.destroy_spec hc.shaped (offset_lt id)
    rw [hdes] at heq'
    obtain rfl := Option.some.inj heq'
    refine ⟨t', heq, h', hc.updates hsets (Or.inl hb), ?_, ?_⟩
    · rw [hmem, place_eq hb]
      rfl
    · rw [hcalls, place_eq hb]
      rfl

/-- **`fdb_table_enable_component`**, for its id: the bit is set wherever there is a block. -/
theorem enable_updates (h : t.Sound M) (hid : id < invalidId) :
    ∃ t', t.enableComponent id = some t' ∧ t'.Sound M
      ∧ t.Updates t' id (t.existsAt id) (t.blockAt (id / tableBlockSize)).isSome
      ∧ t'.memory = t.memory ∧ t'.destroyed = t.destroyed := by
  rcases h.enable hid with ⟨hb, heq⟩ | ⟨a, block, block', hb, heq, h', hc, hen⟩
  · have hup := Updates.same t id
    rw [(bits_of_none hb).2] at hup
    exact ⟨t, heq, h, by rw [hb]; exact hup, rfl, rfl⟩
  · obtain ⟨block'', heq', hshaped, hsets, -, -⟩ := TableBlock.enable_spec hc.shaped (offset_lt id)
    rw [hen] at heq'
    obtain rfl := Option.some.inj heq'
    rw [← existsAt_eq hb] at hsets
    exact ⟨_, heq, h', by rw [hb]; exact hc.updates hsets (Or.inl hb), rfl, rfl⟩

/-- **`fdb_table_disable_component`**, for its id. -/
theorem disable_updates (h : t.Sound M) (hid : id < invalidId) :
    ∃ t', t.disableComponent id = some t' ∧ t'.Sound M ∧ t.Updates t' id (t.existsAt id) false
      ∧ t'.memory = t.memory ∧ t'.destroyed = t.destroyed := by
  rcases h.disable hid with ⟨hb, heq⟩ | ⟨a, block, block', hb, heq, h', hc, hdis⟩
  · have hup := Updates.same t id
    rw [(bits_of_none hb).2] at hup
    exact ⟨t, heq, h, hup, rfl, rfl⟩
  · obtain ⟨block'', heq', hshaped, hsets, -, -⟩ := TableBlock.disable_spec hc.shaped (offset_lt id)
    rw [hdis] at heq'
    obtain rfl := Option.some.inj heq'
    rw [← existsAt_eq hb] at hsets
    exact ⟨_, heq, h', hc.updates hsets (Or.inl hb), rfl, rfl⟩

end Sound

end Table

/-! ### Runs -/

/-- An operation on a table. -/
inductive TableOp where
  | create (id : ℕ)
  | destroy (id : ℕ)
  | enable (id : ℕ)
  | disable (id : ℕ)
  | clear
deriving DecidableEq, Repr

/-- The components that were created and not destroyed since, with their addresses, and
the addresses of those that have ended. -/
structure History where
  live : KeyMap Address
  ended : Multiset Address

/-- The addresses of the live components. -/
def History.addresses (hist : History) : Multiset Address := hist.live.entries.map Sigma.snd

namespace TableOp

/-- The invalid id fails an assertion. -/
def Valid : TableOp → Prop
  | create id => id < invalidId
  | destroy id => id < invalidId
  | enable id => id < invalidId
  | disable id => id < invalidId
  | clear => True

instance : (op : TableOp) → Decidable op.Valid
  | create id => inferInstanceAs (Decidable (id < invalidId))
  | destroy id => inferInstanceAs (Decidable (id < invalidId))
  | enable id => inferInstanceAs (Decidable (id < invalidId))
  | disable id => inferInstanceAs (Decidable (id < invalidId))
  | clear => isTrue trivial

/-- The effect on the table, and the pointer that a creation gives. -/
def call (t : Table) : TableOp → Option (Table × Option Address)
  | create id => (t.createComponent id).map fun r => (r.1, some r.2)
  | destroy id => (t.destroyComponent id).map fun t' => (t', none)
  | enable id => (t.enableComponent id).map fun t' => (t', none)
  | disable id => (t.disableComponent id).map fun t' => (t', none)
  | clear => t.clear.map fun t' => (t', none)

/-- The effect on the history: a component is created if it is not live. -/
def act (hist : History) (ptr : Option Address) : TableOp → History
  | create id =>
      if id ∈ hist.live then hist
      else { hist with live := ptr.elim hist.live fun a => hist.live.insert id a }
  | destroy id =>
      { live := hist.live.erase id
        ended := hist.ended + (hist.live.lookup id).elim 0 fun a => {a} }
  | enable _ => hist
  | disable _ => hist
  | clear => { live := ∅, ended := hist.ended + hist.addresses }

end TableOp

/-- The runs of a table and its history whose operations meet the condition `ok`. -/
inductive TableRun (ok : Table → TableOp → Prop) : Table → History → Prop
  | init (esize : ℕ) (destructor : Bool) (memory : Address → UInt8) :
      TableRun ok (Table.init esize destructor memory) ⟨∅, 0⟩
  | step {t t' : Table} {hist : History} {ptr : Option Address} (h : TableRun ok t hist)
      (op : TableOp) (valid : op.Valid) (hok : ok t op) (hcall : op.call t = some (t', ptr)) :
      TableRun ok t' (op.act hist ptr)

lemma TableRun.mono {ok ok' : Table → TableOp → Prop} (hok : ∀ t op, ok t op → ok' t op) {t : Table}
    {hist : History} (h : TableRun ok t hist) : TableRun ok' t hist := by
  induction h with
  | init esize destructor memory => exact .init esize destructor memory
  | step _ op valid hop hcall ih => exact ih.step op valid (hok _ op hop) hcall

/-- The operations one after the other, as long as they are valid and meet the condition. -/
def tableRunList (ok : Table → TableOp → Prop) [∀ t op, Decidable (ok t op)] :
    List TableOp → Table → History → Option (Table × History)
  | [], t, hist => some (t, hist)
  | op :: ops, t, hist =>
      if op.Valid ∧ ok t op then do
        let (t', ptr) ← op.call t
        tableRunList ok ops t' (op.act hist ptr)
      else none

lemma TableRun.list {ok : Table → TableOp → Prop} [∀ t op, Decidable (ok t op)] {ops : List TableOp}
    {t : Table} {hist : History} {r : Table × History} (h : TableRun ok t hist)
    (hr : tableRunList ok ops t hist = some r) : TableRun ok r.1 r.2 := by
  induction ops generalizing t hist with
  | nil =>
      rw [← Option.some.inj hr]
      exact h
  | cons op ops ih =>
      by_cases hop : op.Valid ∧ ok t op
      · rw [tableRunList, if_pos hop] at hr
        obtain ⟨⟨t', ptr⟩, hcall, hr⟩ := Option.bind_eq_some_iff.mp hr
        exact ih (h.step op hop.1 hop.2 hcall) hr
      · rw [tableRunList, if_neg hop] at hr
        cases hr

/-- A run with components of 8 bytes and a destructor is there if something can be read off
its end. -/
lemma TableRun.exists_of_map (ok : Table → TableOp → Prop) [∀ t op, Decidable (ok t op)]
    (ops : List TableOp) {T : Type} {f : Table × History → T} {x : T}
    (h : (tableRunList ok ops (Table.init 8 true fun _ => 0) ⟨∅, 0⟩).map f = some x) :
    ∃ t hist, TableRun ok t hist ∧ f (t, hist) = x := by
  obtain ⟨⟨t, hist⟩, hr, hx⟩ := Option.map_eq_some_iff.mp h
  exact ⟨t, hist, (TableRun.init 8 true fun _ => 0).list hr, hx⟩

/-- The table has the components that are live. -/
structure Table.Keeps (t : Table) (hist : History) : Prop where
  slot : ∀ id < invalidId, hist.live.lookup id = t.slot id
  lt : ∀ id ∈ hist.live, id < invalidId

namespace Table

variable {t t' : Table} {hist : History} {M : KeyMap ℕ} {id : ℕ} {e d : Bool}

/-- Enabling and disabling change no component. -/
lemma Keeps.updates (h : t.Keeps hist) (hup : t.Updates t' id (t.existsAt id) d) : t'.Keeps hist where
  slot i hi := by
    rw [h.slot i hi]
    by_cases hii : i = id
    · rw [hii]
      cases he : t.existsAt id with
      | true =>
          rw [he] at hup
          rw [hup.slot_of_exists he]
      | false =>
          rw [he] at hup
          rw [hup.slot_false, Table.slot, he]
          rfl
    · rw [hup.slot_of_ne hii]
  lt := h.lt

lemma Keeps.create (h : t.Keeps hist) (hup : t.Updates t' id true true) {ptr : Address}
    (hptr : t'.slot id = some ptr) (hid : id < invalidId) :
    t'.Keeps (TableOp.act hist (some ptr) (.create id)) := by
  rw [TableOp.act]
  by_cases hlive : id ∈ hist.live
  · rw [if_pos hlive]
    refine ⟨fun i hi => ?_, h.lt⟩
    rw [h.slot i hi]
    by_cases hii : i = id
    · obtain ⟨a, ha⟩ := Finmap.mem_iff.mp hlive
      rw [h.slot id hid] at ha
      have he : t.existsAt id = true := by
        by_contra hne
        rw [Table.slot, if_neg hne] at ha
        cases ha
      rw [hii, hup.slot_of_exists he]
    · rw [hup.slot_of_ne hii]
  · rw [if_neg hlive]
    refine ⟨fun i hi => ?_, fun i hi => ?_⟩
    · by_cases hii : i = id
      · rw [hii, Option.elim_some, Finmap.lookup_insert, hptr]
      · rw [Option.elim_some, Finmap.lookup_insert_of_ne _ hii, h.slot i hi, hup.slot_of_ne hii]
    · rcases Finmap.mem_insert.mp hi with rfl | hi
      · exact hid
      · exact h.lt i hi

lemma Keeps.destroy (h : t.Keeps hist) (hup : t.Updates t' id false false) :
    t'.Keeps (TableOp.act hist none (.destroy id)) where
  slot i hi := by
    rw [TableOp.act]
    by_cases hii : i = id
    · rw [hii, Finmap.lookup_erase, hup.slot_false]
    · rw [Finmap.lookup_erase_ne hii, h.slot i hi, hup.slot_of_ne hii]
  lt i hi := h.lt i (Finmap.mem_erase.mp hi).2

lemma Sound.keeps_empty (h : t.Sound ∅) (ended : Multiset Address) : t.Keeps ⟨∅, ended⟩ where
  slot id _ := by
    have hb : t.blockAt (id / tableBlockSize) = none := by
      rw [h.blockAt_eq, Finmap.lookup_empty]
      rfl
    rw [Table.slot, (bits_of_none hb).1]
    rfl
  lt id hid := absurd hid Finmap.notMem_empty

/-- What an operation does to a table whose blocks are those of `M`. -/
inductive Step (t : Table) (M : KeyMap ℕ) (t' : Table) : TableOp → Option Address → Prop
  | create {id : ℕ} {ptr : Address} (valid : id < invalidId) (updates : t.Updates t' id true true)
      (slot : t'.slot id = some ptr) (memory : t'.memory = t.memory)
      (destroyed : t'.destroyed = t.destroyed) : Step t M t' (.create id) (some ptr)
  | destroy {id : ℕ} (valid : id < invalidId) (updates : t.Updates t' id false false)
      (memory : t'.memory = (t.place id).elim t.memory (fun ptr => memset t.memory ptr t.esize))
      (destroyed : t'.destroyed
        = (if t.destructor then t.destroyed ++ (t.place id).toList else t.destroyed)) :
      Step t M t' (.destroy id) none
  | enable {id : ℕ} (updates : t.Updates t' id (t.existsAt id) (t.blockAt (id / tableBlockSize)).isSome)
      (memory : t'.memory = t.memory) (destroyed : t'.destroyed = t.destroyed) :
      Step t M t' (.enable id) none
  | disable {id : ℕ} (updates : t.Updates t' id (t.existsAt id) false)
      (memory : t'.memory = t.memory) (destroyed : t'.destroyed = t.destroyed) :
      Step t M t' (.disable id) none
  | clear {l : List (ℕ × ℕ)} (lists : Lists l M) (empty : t'.Sound ∅) (esize : t'.esize = t.esize)
      (destructor : t'.destructor = t.destructor)
      (destroyed : t'.destroyed = t.destroyed ++ l.flatMap fun e => t.callsAt e.1) :
      Step t M t' .clear none

/-- **Every operation** does one of these. -/
theorem Sound.step (h : t.Sound M) {op : TableOp} (valid : op.Valid) {ptr : Option Address}
    (hcall : op.call t = some (t', ptr)) : (∃ M', t'.Sound M') ∧ t.Step M t' op ptr := by
  cases op with
  | create id =>
      obtain ⟨t₁, M', ptr', heq, h', hup, hptr, hmem, hdes⟩ := h.create_updates valid
      rw [TableOp.call, heq] at hcall
      obtain ⟨rfl, rfl⟩ := Prod.mk.inj (Option.some.inj hcall)
      exact ⟨⟨M', h'⟩, .create valid hup hptr hmem hdes⟩
  | destroy id =>
      obtain ⟨t₁, heq, h', hup, hmem, hdes⟩ := h.destroy_updates valid
      rw [TableOp.call, heq] at hcall
      obtain ⟨rfl, rfl⟩ := Prod.mk.inj (Option.some.inj hcall)
      exact ⟨⟨M, h'⟩, .destroy valid hup hmem hdes⟩
  | enable id =>
      obtain ⟨t₁, heq, h', hup, hmem, hdes⟩ := h.enable_updates valid
      rw [TableOp.call, heq] at hcall
      obtain ⟨rfl, rfl⟩ := Prod.mk.inj (Option.some.inj hcall)
      exact ⟨⟨M, h'⟩, .enable hup hmem hdes⟩
  | disable id =>
      obtain ⟨t₁, heq, h', hup, hmem, hdes⟩ := h.disable_updates valid
      rw [TableOp.call, heq] at hcall
      obtain ⟨rfl, rfl⟩ := Prod.mk.inj (Option.some.inj hcall)
      exact ⟨⟨M, h'⟩, .disable hup hmem hdes⟩
  | clear =>
      have hlast : t.destructor = true → numBlocks - 1 ∉ M := by
        intro hd hlast
        rw [TableOp.call, h.clear_last hd hlast] at hcall
        cases hcall
      obtain ⟨l, t₁, hl, heq, h', hesize, hdestructor, -, -, hdes⟩ := h.clear hlast
      rw [TableOp.call, heq] at hcall
      obtain ⟨rfl, rfl⟩ := Prod.mk.inj (Option.some.inj hcall)
      exact ⟨⟨∅, h'⟩, .clear hl h' hesize hdestructor hdes⟩

/-- The size of the components and the destructor never change. -/
lemma Step.fixed {op : TableOp} {ptr : Option Address} (h : t.Step M t' op ptr) :
    t'.esize = t.esize ∧ t'.destructor = t.destructor := by
  cases h with
  | create _ hup => exact ⟨hup.esize, hup.destructor⟩
  | destroy _ hup => exact ⟨hup.esize, hup.destructor⟩
  | enable hup => exact ⟨hup.esize, hup.destructor⟩
  | disable hup => exact ⟨hup.esize, hup.destructor⟩
  | clear _ _ hesize hdestructor => exact ⟨hesize, hdestructor⟩

/-- **A step** keeps the live components. -/
theorem Step.keeps {op : TableOp} {ptr : Option Address} (h : t.Step M t' op ptr) (hk : t.Keeps hist) :
    t'.Keeps (op.act hist ptr) := by
  cases h with
  | create valid hup hslot => exact hk.create hup hslot valid
  | destroy _ hup => exact hk.destroy hup
  | enable hup => exact hk.updates hup
  | disable hup => exact hk.updates hup
  | clear _ hsound => exact hsound.keeps_empty _

end Table

/-- **In every run the table has the components that are live**, with their addresses. -/
theorem TableRun.keeps {ok : Table → TableOp → Prop} {t : Table} {hist : History}
    (h : TableRun ok t hist) : (∃ M, t.Sound M) ∧ t.Keeps hist := by
  induction h with
  | init esize destructor memory =>
      have hsound := Table.Sound.init esize destructor memory
      exact ⟨⟨∅, hsound⟩, hsound.keeps_empty 0⟩
  | step _ op valid _ hcall ih =>
      obtain ⟨⟨M, hsound⟩, hkeeps⟩ := ih
      obtain ⟨hsound', hstep⟩ := hsound.step valid hcall
      exact ⟨hsound', hstep.keeps hkeeps⟩

/-- **No operation fails**, but to clear a table with a destructor and its last block. -/
theorem TableRun.progress {ok : Table → TableOp → Prop} {t : Table} {hist : History}
    (h : TableRun ok t hist) {op : TableOp} (valid : op.Valid)
    (hclear : op = .clear → t.destructor = true → t.getBlock (numBlocks - 1) = some none) :
    ∃ r, op.call t = some r := by
  obtain ⟨⟨M, hsound⟩, -⟩ := h.keeps
  cases op with
  | create id =>
      obtain ⟨t', -, ptr, heq, -⟩ := hsound.create_updates valid
      exact ⟨_, by rw [TableOp.call, heq, Option.map_some]⟩
  | destroy id =>
      obtain ⟨t', heq, -⟩ := hsound.destroy_updates valid
      exact ⟨_, by rw [TableOp.call, heq, Option.map_some]⟩
  | enable id =>
      obtain ⟨t', heq, -⟩ := hsound.enable_updates valid
      exact ⟨_, by rw [TableOp.call, heq, Option.map_some]⟩
  | disable id =>
      obtain ⟨t', heq, -⟩ := hsound.disable_updates valid
      exact ⟨_, by rw [TableOp.call, heq, Option.map_some]⟩
  | clear =>
      obtain ⟨-, t', -, heq, -⟩ := hsound.clear fun hd => hsound.notMem_of_getBlock (hclear rfl hd)
      exact ⟨_, by rw [TableOp.call, heq, Option.map_some]⟩

/-! ### Iterators -/

/-- **The iterators of all offsets** share the blocks of the table between them, each in
ascending order, and each block goes where `block_get_offset` sends it. -/
theorem TableRun.iterators_share {ok : Table → TableOp → Prop} {t : Table} {hist : History}
    (h : TableRun ok t hist) :
    ∃ l : List (ℕ × ℕ), (l.Pairwise fun e f => e.1 < f.1)
      ∧ (∀ b p, (b, p) ∈ l ↔ t.getBlock b = some (some p))
      ∧ ∀ chunkSize stride, 1 ≤ chunkSize → 1 ≤ stride → stride ≤ 2 ^ 31 →
        ((List.range stride).flatMap (routed l chunkSize stride)).Perm l
        ∧ ∀ offset < stride, ∀ fuel, l.length < fuel →
          ∃ iter, TableIter.init t chunkSize offset stride = some iter
            ∧ iter.alternate t fuel fuel
              = some ((routed l chunkSize stride offset).map fun e => some e.2)
            ∧ ∀ n, iter.calls t fuel n
              = some ((List.range n).map fun i => ((routed l chunkSize stride offset).map Prod.snd)[i]?) := by
  obtain ⟨⟨M, hsound⟩, -⟩ := h.keeps
  obtain ⟨l, hl, hinit⟩ := hsound.iterInit
  obtain ⟨hleads, -⟩ := hsound.leads hl
  refine ⟨l, hl.sorted, fun b p => ?_, fun chunkSize stride _ hs hs' => ⟨routed_perm l chunkSize hs, ?_⟩⟩
  · rw [hl.mem, Table.getBlock, hsound.shows.get, Option.some_inj]
  · intro offset ho fuel hfuel
    obtain ⟨iter, hiter, haw⟩ := hinit chunkSize offset stride ho hs'
    have hlen : ((routed l chunkSize stride offset).map Prod.snd).length < fuel := by
      rw [List.length_map]
      exact lt_of_le_of_lt (List.length_filter_le _ _) hfuel
    refine ⟨iter, hiter, ?_, fun n => haw.calls_eq hleads hfuel n⟩
    rw [haw.alternate_eq hleads hfuel hlen, List.map_map]
    rfl

theorem TableRun.iterators_share_three : ∃ t hist, TableRun (fun _ _ => True) t hist
    ∧ (t.getBlock 0 = some (some 1) ∧ t.getBlock 5 = some (some 0) ∧ t.getBlock 9 = some (some 2))
    ∧ ∃ l : List (ℕ × ℕ), (l.Pairwise fun e f => e.1 < f.1)
      ∧ (∀ b p, (b, p) ∈ l ↔ t.getBlock b = some (some p))
      ∧ ((List.range 2).flatMap (routed l 3 2)).Perm l := by
  obtain ⟨t, hist, h, hM⟩ := TableRun.exists_of_map (fun _ _ => True)
    [.create 1280, .create 3, .create 2400]
    (f := fun r => (r.1.getBlock 0, r.1.getBlock 5, r.1.getBlock 9))
    (x := (some (some 1), some (some 0), some (some 2))) (by decide +kernel)
  obtain ⟨h₀, h₁, h₂⟩ : t.getBlock 0 = some (some 1) ∧ t.getBlock 5 = some (some 0)
      ∧ t.getBlock 9 = some (some 2) := by simpa using hM
  obtain ⟨l, hsorted, hmem, hall⟩ := h.iterators_share
  exact ⟨t, hist, h, ⟨h₀, h₁, h₂⟩, l, hsorted, hmem, (hall 3 2 (by decide) (by decide) (by decide)).1⟩

end Furious
