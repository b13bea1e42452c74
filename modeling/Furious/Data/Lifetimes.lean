import Furious.Data.Runs

/-!
The lifetimes of components.

The destructor of a table is called when a component is destroyed, and when the table is
cleared or released. A destruction does not look at whether there is a component, and
clearing finds the enabled ones, so each component ends once in the runs where what is
destroyed is there and what is cleared is enabled.

* `Lists.values`: the values of a map, by a list of its entries;
* `Sound.callsAt_entries`: the calls for all blocks are those for the live components;
* `Ending`: the operations that end each component once;
* `TableRun.clearable`: a table is cleared whose live components are enabled;
* `lifetimes`: **in runs of these each component ends once**, `not_lifetimes`: a
  destruction of what is not there.
-/

namespace Furious

/-- The values of a map are those of its entries. -/
lemma Lists.values {V : Type} {l : List (ℕ × V)} {M : KeyMap V} (h : Lists l M) :
    M.entries.map Sigma.snd = (l.map Prod.snd : Multiset V) := by
  have hentries : M.entries = (l.map fun e => (⟨e.1, e.2⟩ : Σ _ : ℕ, V) : Multiset (Σ _ : ℕ, V)) := by
    refine (Multiset.Nodup.ext M.nodup_entries ?_).mpr ?_
    · refine Multiset.coe_nodup.mpr (List.Nodup.map_on (fun e _ f _ hef => ?_) ?_)
      · obtain ⟨h₁, h₂⟩ := Sigma.mk.inj hef
        exact Prod.ext h₁ (eq_of_heq h₂)
      · refine h.sorted.imp fun hlt heq => ?_
        rw [heq] at hlt
        exact lt_irrefl _ hlt
    · rintro ⟨k, v⟩
      rw [← Finmap.lookup_eq_some_iff, ← h.mem, Multiset.mem_coe, List.mem_map]
      constructor
      · exact fun hmem => ⟨(k, v), hmem, rfl⟩
      · rintro ⟨e, hmem, heq⟩
        obtain ⟨h₁, h₂⟩ := Sigma.mk.inj heq
        rw [← h₁, ← eq_of_heq h₂]
        exact hmem
  rw [hentries, Multiset.map_coe, List.map_map]
  rfl

/-! ### The calls for all blocks -/

namespace Table

variable {t : Table} {M : KeyMap ℕ} {hist : History}

/-- The components of a table that exist are those that are enabled, and its last block is not
there. -/
def Clearable (t : Table) : Prop :=
  (∀ id < invalidId, t.getComponent id ≠ some none ↔ t.isEnabled id = some true)
    ∧ t.getBlock (numBlocks - 1) = some none

/-- The enabled components of a block with their ids. -/
def entriesAt (t : Table) (b : ℕ) : List (ℕ × Address) :=
  (t.blockAt b).elim [] fun block =>
    ((List.range' 0 tableBlockSize).filter block.enabled.test).map fun o =>
      (b * tableBlockSize + o, block.data.add (o * t.esize))

/-- The ids of the entries of a block. -/
lemma mem_entriesAt {b id : ℕ} {a : Address} : (id, a) ∈ t.entriesAt b
    ↔ id / tableBlockSize = b ∧ t.enabledAt id = true ∧ t.place id = some a := by
  rw [entriesAt]
  cases hb : t.blockAt b with
  | none =>
      simp only [Option.elim_none, List.not_mem_nil, false_iff, not_and]
      rintro rfl he
      rw [(bits_of_none hb).2] at he
      cases he
  | some block =>
      rw [Option.elim_some, List.mem_map]
      constructor
      · rintro ⟨o, ho, heq⟩
        obtain ⟨rfl, rfl⟩ := Prod.mk.inj heq
        obtain ⟨ho, htest⟩ := List.mem_filter.mp ho
        have ho' : o < tableBlockSize := by
          rw [List.mem_range'_1] at ho
          omega
        have hb' : t.blockAt ((b * tableBlockSize + o) / tableBlockSize) = some block := by
          rw [TableBlock.div_id ho', hb]
        refine ⟨TableBlock.div_id ho', ?_, ?_⟩
        · rw [enabledAt_eq hb', TableBlock.mod_id ho', htest]
        · rw [place_eq hb', TableBlock.mod_id ho']
      · rintro ⟨rfl, htest, hplace⟩
        rw [enabledAt_eq hb] at htest
        rw [place_eq hb] at hplace
        refine ⟨id % tableBlockSize, List.mem_filter.mpr ⟨?_, htest⟩, ?_⟩
        · rw [List.mem_range'_1]
          have ho := offset_lt id
          omega
        · rw [Option.some.inj hplace, Nat.mul_comm, Nat.div_add_mod]

namespace Sound

/-- The calls for a block are those for its entries. -/
lemma callsAt_eq (h : t.Sound M) (hd : t.destructor = true) (b : ℕ) :
    t.callsAt b = (t.entriesAt b).map Prod.snd := by
  rw [callsAt, hd, if_pos rfl, entriesAt]
  cases hb : t.blockAt b with
  | none => rfl
  | some block =>
      rw [Option.elim_some, Option.elim_some, List.map_map, TableBlock.listed, (h.shaped hb).1.esize]
      rfl

/-- **The calls for all blocks** are those for the live components, if these are the enabled
ones. -/
theorem callsAt_entries (h : t.Sound M) (hk : t.Keeps hist) (hd : t.destructor = true)
    (hc : t.Clearable) {l : List (ℕ × ℕ)} (hl : Lists l M) :
    ((l.flatMap fun e => t.callsAt e.1 : List Address) : Multiset Address) = hist.addresses := by
  have hlists : Lists (l.flatMap fun e => t.entriesAt e.1) hist.live := by
    refine ⟨List.pairwise_flatMap.mpr ⟨fun e _ => ?_, ?_⟩, fun id a => ?_⟩
    · -- the ids of one block
      rw [entriesAt]
      cases t.blockAt e.1 with
      | none => exact List.Pairwise.nil
      | some block =>
          have hrange : (List.range' 0 tableBlockSize).Pairwise (· < ·) := List.pairwise_lt_range' ..
          exact List.pairwise_map.mpr ((hrange.filter _).imp fun hlt => Nat.add_lt_add_left hlt _)
    · -- those of different blocks
      refine hl.sorted.imp fun {e f} hef x hx y hy => ?_
      have hx' := mem_entriesAt.mp hx
      have hy' := mem_entriesAt.mp hy
      by_contra hge
      have hdiv := Nat.div_le_div_right (c := tableBlockSize) (not_lt.mp hge)
      rw [hx'.1, hy'.1] at hdiv
      omega
    · rw [List.mem_flatMap]
      constructor
      · rintro ⟨e, he, hmem⟩
        obtain ⟨hdiv, hen, hplace⟩ := mem_entriesAt.mp hmem
        have hb : e.1 ∈ M := Finmap.mem_of_lookup_eq_some ((hl.mem e.1 e.2).mp he)
        have hid : id < invalidId := by
          have hlt := h.lt e.1 hb
          have hne : e.1 ≠ numBlocks - 1 := fun heq => h.notMem_of_getBlock hc.2 (heq ▸ hb)
          rw [← Nat.div_add_mod id tableBlockSize, Nat.mul_comm, hdiv]
          exact TableBlock.id_lt (by omega) (offset_lt id)
        have hex := (hc.1 id hid).mpr (by rw [h.isEnabled hid, hen])
        rw [h.getComponent hid, slot] at hex
        rw [hk.slot id hid, slot]
        by_cases he : t.existsAt id = true
        · rw [if_pos he, hplace]
        · exact absurd (by rw [if_neg he]) hex
      · intro hlookup
        have hid := hk.lt id (Finmap.mem_of_lookup_eq_some hlookup)
        rw [hk.slot id hid] at hlookup
        have hen : t.enabledAt id = true := by
          have hen := (hc.1 id hid).mp (by rw [h.getComponent hid, hlookup]; exact fun heq => by cases heq)
          rw [h.isEnabled hid] at hen
          exact Option.some.inj hen
        have hplace : t.place id = some a := by
          rw [slot] at hlookup
          by_cases he : t.existsAt id = true
          · rwa [if_pos he] at hlookup
          · rw [if_neg he] at hlookup
            cases hlookup
        rcases h.cases (id / tableBlockSize) with ⟨-, hb⟩ | ⟨p, block, hp, -⟩
        · rw [(bits_of_none hb).2] at hen
          cases hen
        · exact ⟨_, (hl.mem _ p).mpr hp, mem_entriesAt.mpr ⟨rfl, hen, hplace⟩⟩
  rw [History.addresses, hlists.values, List.map_flatMap]
  refine congrArg _ (List.flatMap_congr fun e _ => ?_)
  exact h.callsAt_eq hd e.1

end Sound

end Table

/-! ### Runs -/

/-- The operations that end each component once: what is destroyed exists, unless there is no
block for it, and what is cleared is enabled. -/
def Ending (t : Table) : TableOp → Prop
  | .create _ => True
  | .destroy id => t.getBlock (id / tableBlockSize) = some none ∨ t.getComponent id ≠ some none
  | .enable _ => True
  | .disable _ => True
  | .clear => t.Clearable

namespace Table

variable {t t' : Table} {M : KeyMap ℕ} {hist : History} {ptr : Option Address}

/-- **A step** calls the destructor on the components that it ends. -/
theorem Step.ended {op : TableOp} (hstep : t.Step M t' op ptr) (h : t.Sound M) (hk : t.Keeps hist)
    (hd : t.destructor = true) (hok : Ending t op)
    (hended : (t.destroyed : Multiset Address) = hist.ended) :
    (t'.destroyed : Multiset Address) = (op.act hist ptr).ended := by
  cases hstep with
  | create valid hup hslot hmem hdes =>
      rw [hdes, hended, TableOp.act]
      split <;> rfl
  | @destroy id valid hup hmem hdes =>
      -- there is a place for it only if it is live
      have hplace : t.place id = hist.live.lookup id := by
        rw [hk.slot id valid]
        rcases hok with hnone | hex
        · have hb := (h.getBlock_none _).mp hnone
          rw [slot, (bits_of_none hb).1, place, hb]
          rfl
        · rw [h.getComponent valid] at hex
          rw [slot] at hex ⊢
          by_cases he : t.existsAt id = true
          · rw [if_pos he]
          · exact absurd (by rw [if_neg he]) hex
      rw [hdes, hd, if_pos rfl, ← Multiset.coe_add, hended, TableOp.act, hplace]
      cases hist.live.lookup id <;> rfl
  | enable hup hmem hdes => rw [hdes, hended, TableOp.act]
  | disable hup hmem hdes => rw [hdes, hended, TableOp.act]
  | clear hl hsound hesize hdestructor hdes =>
      rw [hdes, ← Multiset.coe_add, hended, h.callsAt_entries hk hd hok hl]
      rfl

end Table

/-- **In the runs that end each component once** the destructor was called on the components
that have ended, as often as they have, and the release of the table calls it on the live
ones. -/
theorem lifetimes {t : Table} {hist : History} (h : TableRun Ending t hist) (hd : t.destructor = true) :
    (∀ id < invalidId, t.getComponent id = some (hist.live.lookup id))
    ∧ (t.destroyed : Multiset Address) = hist.ended
    ∧ (t.Clearable → ∃ calls, t.release = some calls
      ∧ (calls : Multiset Address) = hist.ended + hist.addresses) := by
  have hended : t.destructor = true → (t.destroyed : Multiset Address) = hist.ended := by
    clear hd
    induction h with
    | init esize destructor memory => exact fun _ => rfl
    | step h op valid hok hcall ih =>
        intro hd
        obtain ⟨⟨M, hsound⟩, hkeeps⟩ := h.keeps
        obtain ⟨-, hstep⟩ := hsound.step valid hcall
        rw [hstep.fixed.2] at hd
        exact hstep.ended hsound hkeeps hd hok (ih hd)
  obtain ⟨⟨M, hsound⟩, hkeeps⟩ := h.keeps
  refine ⟨fun id hid => by rw [hsound.getComponent hid, hkeeps.slot id hid], hended hd, fun hc => ?_⟩
  obtain ⟨l, hl, hrel⟩ := hsound.release fun _ => hsound.notMem_of_getBlock hc.2
  refine ⟨_, hrel, ?_⟩
  rw [← Multiset.coe_add, hended hd, hsound.callsAt_entries hkeeps hd hc hl]

/-- In an empty table nothing is enabled. -/
lemma Table.Sound.enabledAt_empty {t : Table} (h : t.Sound ∅) (id : ℕ) : t.enabledAt id = false := by
  refine (Table.bits_of_none ?_).2
  rw [h.blockAt_eq, Finmap.lookup_empty]
  rfl

/-- **What is enabled exists**, in runs that enable nothing else. -/
lemma TableRun.existsAt_of_enabledAt {ok : Table → TableOp → Prop} {t : Table} {hist : History}
    (hok : ∀ t id, ok t (.enable id) → t.existsAt id = true) (h : TableRun ok t hist) (id : ℕ)
    (he : t.enabledAt id = true) : t.existsAt id = true := by
  induction h with
  | init esize destructor memory =>
      rw [(Table.Sound.init esize destructor memory).enabledAt_empty] at he
      cases he
  | step h op valid hop hcall ih =>
      obtain ⟨⟨M, hsound⟩, -⟩ := h.keeps
      obtain ⟨-, hstep⟩ := hsound.step valid hcall
      cases hstep with
      | create _ hup | destroy _ hup =>
          rw [hup.enabledAt, Function.update_apply] at he
          rw [hup.existsAt, Function.update_apply]
          split at he
          next heq => rw [if_pos heq, he]
          next hne => rw [if_neg hne, ih he]
      | enable hup =>
          rw [hup.enabledAt, Function.update_apply] at he
          rw [hup.existsAt, Function.update_eq_self]
          split at he
          next heq => exact heq ▸ hok _ _ hop
          next hne => exact ih he
      | disable hup =>
          rw [hup.enabledAt, Function.update_apply] at he
          rw [hup.existsAt, Function.update_eq_self]
          split at he
          next heq => cases he
          next hne => exact ih he
      | clear _ hempty =>
          rw [hempty.enabledAt_empty] at he
          cases he

/-- A table whose live components are enabled is cleared. -/
lemma TableRun.clearable {ok : Table → TableOp → Prop} {t : Table} {hist : History}
    (hok : ∀ t id, ok t (.enable id) → t.existsAt id = true) (h : TableRun ok t hist)
    (hlive : ∀ id ∈ hist.live, t.isEnabled id = some true) (hlast : t.getBlock (numBlocks - 1) = some none) :
    t.Clearable := by
  obtain ⟨⟨M, hsound⟩, hkeeps⟩ := h.keeps
  refine ⟨fun id hid => ?_, hlast⟩
  constructor
  · intro hex
    refine hlive id (Finmap.lookup_isSome.mp ?_)
    rw [hkeeps.slot id hid]
    rw [hsound.getComponent hid] at hex
    exact Option.isSome_iff_ne_none.mpr fun hnone => hex (by rw [hnone])
  · intro hen
    rw [hsound.isEnabled hid] at hen
    have hex := h.existsAt_of_enabledAt hok id (Option.some.inj hen)
    rw [hsound.getComponent hid, Table.slot, if_pos hex]
    cases hb : t.blockAt (id / tableBlockSize) with
    | none =>
        rw [(Table.bits_of_none hb).1] at hex
        cases hex
    | some block =>
        rw [Table.place_eq hb]
        intro hnone
        cases hnone

/-- Two components have ended and the release of the table ends the two that are live. -/
theorem lifetimes_disabled : ∃ t hist, TableRun Ending t hist ∧ t.destructor = true
    ∧ t.destroyed.length = 2 ∧ hist.live.keys = {4, 700} ∧ t.Clearable
    ∧ (∀ id < invalidId, t.getComponent id = some (hist.live.lookup id))
    ∧ (t.destroyed : Multiset Address) = hist.ended
    ∧ ∃ calls, t.release = some calls ∧ (calls : Multiset Address) = hist.ended + hist.addresses := by
  obtain ⟨t, hist, h, hM⟩ := TableRun.exists_of_map
    (fun t op => (match op with
      | .destroy id => decide (t.getBlock (id / tableBlockSize) = some none ∨ t.getComponent id ≠ some none)
      | .enable _ => false
      | .clear => false
      | _ => true) = true)
    [.create 3, .create 4, .disable 3, .destroy 700, .create 3, .destroy 3, .create 700, .create 3, .disable 3,
      .destroy 3]
    (f := fun r => (r.1.destructor, r.1.destroyed.length, r.2.live.keys,
      decide (r.1.isEnabled 4 = some true ∧ r.1.isEnabled 700 = some true ∧ r.1.getBlock (numBlocks - 1) = some none)))
    (x := (true, 2, ({4, 700} : Finset ℕ), true)) (by decide +kernel)
  have hrun : TableRun Ending t hist := by
    refine h.mono fun t op hop => ?_
    cases op with
    | destroy id =>
        have hex : t.getBlock (id / tableBlockSize) = some none ∨ t.getComponent id ≠ some none :=
          of_decide_eq_true hop
        exact hex
    | clear => cases hop
    | create id => trivial
    | enable id => trivial
    | disable id => trivial
  simp only [Prod.mk.injEq, decide_eq_true_eq] at hM
  obtain ⟨hd, hlen, hkeys, h₄, h₇₀₀, hlast⟩ := hM
  have hclear : t.Clearable := by
    refine h.clearable (fun t id hop => by cases hop) (fun id hid => ?_) hlast
    rw [← Finmap.mem_keys, hkeys] at hid
    rcases Finset.mem_insert.mp hid with rfl | hid
    · exact h₄
    · rw [Finset.mem_singleton.mp hid, h₇₀₀]
  obtain ⟨hlook, hended, hrelease⟩ := lifetimes hrun hd
  exact ⟨t, hist, hrun, hd, hlen, hkeys, hclear, hlook, hended, hrelease hclear⟩

/-- A component is destroyed that was not created, in a block with another one. -/
theorem not_lifetimes : ¬ ∀ t hist, TableRun (fun _ _ => True) t hist → t.destructor = true →
    (t.destroyed : Multiset Address) = hist.ended ∧ ∃ calls, t.release = some calls
      ∧ (calls : Multiset Address) = hist.ended + hist.addresses := by
  intro hall
  obtain ⟨t, hist, h, hM⟩ := TableRun.exists_of_map (fun _ _ => True) [.create 0, .destroy 1]
    (f := fun r => (r.1.destructor, r.1.destroyed.length, r.2.ended.card)) (x := (true, 1, 0))
    (by decide +kernel)
  obtain ⟨hd, hcards⟩ := Prod.mk.inj hM
  obtain ⟨h₁, h₂⟩ := Prod.mk.inj hcards
  have hcard := congrArg Multiset.card (hall t hist h hd).1
  rw [Multiset.coe_card, h₁, h₂] at hcard
  cases hcard

end Furious
