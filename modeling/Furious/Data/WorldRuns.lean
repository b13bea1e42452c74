import Furious.Library.Handles
import Furious.Data.World

/-!
Runs of a database.

Whatever calls are made, a database contains what the calls have put there. Each of them changes what it is about, and
nothing else: the tables of both kinds are in one pool, but no two of them are the same.

* `Table.Holds`: a table has some values, `Holds.add`, `Holds.destroy`: **its steps**;
* `World.Contains`: a database contains some facts, `Contains.use`, `Contains.step`: **every call**;
* `WorldRun`: a run of calls, `world_refines`: **what the functions answer after any run**.
-/

namespace Furious

/-! ### Values in a table -/

namespace Table

/-- The table has the values of some entities. -/
structure Holds (t : Table) (f : TableFacts) : Prop where
  sound : ∃ M, t.Sound M
  housed : t.Housed
  esize : t.esize = f.csize
  destructor : t.destructor = f.dstr
  value : ∀ id < invalidId, (t.slot id).map (t.load f.csize) = f.values id

namespace Holds

variable {t t' : Table} {f : TableFacts} {id other value : ℕ} {ptr : Address}

lemma init {csize : ℕ} (h : Fits csize) (dstr : Bool) (memory : Address → UInt8) :
    (Table.init csize dstr memory).Holds ⟨csize, dstr, fun _ => none⟩ where
  sound := ⟨∅, Sound.init _ _ _⟩
  housed := Housed.init h dstr memory
  esize := rfl
  destructor := rfl
  value id hid := by
    have hslot := ((Sound.init csize dstr memory).keeps_empty 0).slot id hid
    rw [Finmap.lookup_empty] at hslot
    rw [← hslot]
    rfl

/-- The bytes of one entity do not matter for another one. -/
lemma load_of_ne (hhoused : t.Housed) (hne : other ≠ id) (hplace : t.place id = some ptr)
    (hmem : ∀ a ∉ ptr.bytes t.esize, t'.memory a = t.memory a) :
    (t.slot other).map (t'.load t.esize) = (t.slot other).map (t.load t.esize) := by
  cases hslot : t.slot other with
  | none => rfl
  | some a =>
      have hdisj := hhoused.apart hne (place_of_slot hslot) hplace
      rw [Option.map_some, Option.map_some, load_congr fun x hx => hmem x (Set.disjoint_left.mp hdisj hx)]

/-- **One entity changes.** -/
lemma update (h : t.Holds f) {v : Option ℕ} (hsound : ∃ M, t'.Sound M) (hhoused : t'.Housed)
    (hesize : t'.esize = t.esize) (hdestructor : t'.destructor = t.destructor)
    (hself : (t'.slot id).map (t'.load f.csize) = v)
    (hother : ∀ other, other ≠ id → (t'.slot other).map (t'.load f.csize) = (t.slot other).map (t.load f.csize)) :
    t'.Holds (f.set id v) where
  sound := hsound
  housed := hhoused
  esize := hesize.trans h.esize
  destructor := hdestructor.trans h.destructor
  value other hid := by
    by_cases hne : other = id
    · rw [hne]
      exact hself.trans (Function.update_self id v f.values).symm
    · refine (hother other hne).trans ((h.value other hid).trans ?_)
      exact (Function.update_of_ne hne v f.values).symm

/-- **A component is created** and gets a value. -/
theorem add (h : t.Holds f) (hid : id < invalidId) (hvalue : value < 256 ^ f.csize) : ∃ t' ptr,
    t.createComponent id = some (t', ptr) ∧ t'.esize = f.csize
      ∧ (t'.store f.csize ptr value).Holds (f.set id (some value)) := by
  obtain ⟨M, hsound⟩ := h.sound
  obtain ⟨t', M', ptr, heq, hsound', hup, hptr, hmem, -⟩ := hsound.create_updates hid
  have hcall : (TableOp.create id).call t = some (t', some ptr) := by rw [TableOp.call, heq, Option.map_some]
  have hhoused : t'.Housed := h.housed.step hsound (show (TableOp.create id).Valid from hid) (by simp) hcall
  have hesize : t'.esize = f.csize := hup.esize.trans h.esize
  refine ⟨t', ptr, heq, hesize, h.update ⟨M', hsound'.store _ _ _⟩ (hhoused.store _ _ _) hup.esize hup.destructor ?_
    fun other hne => ?_⟩
  · show (t'.slot id).map ((t'.store f.csize ptr value).load f.csize) = some value
    rw [hptr, Option.map_some, load_store t' ptr hvalue]
  · calc (t'.slot other).map ((t'.store f.csize ptr value).load f.csize)
      _ = (t'.slot other).map (t'.load f.csize) := by
        rw [← hesize]
        exact load_of_ne hhoused hne (place_of_slot hptr) fun a ha => memory_store ha
      _ = (t.slot other).map (t'.load f.csize) := by rw [hup.slot_of_ne hne]
      _ = (t.slot other).map (t.load f.csize) := by rw [load_of_memory hmem]

/-- **A component is destroyed.** -/
theorem destroy (h : t.Holds f) (hid : id < invalidId) :
    ∃ t', t.destroyComponent id = some t' ∧ t'.Holds (f.set id none) := by
  obtain ⟨M, hsound⟩ := h.sound
  obtain ⟨t', heq, hsound', hup, hmem, -⟩ := hsound.destroy_updates hid
  have hcall : (TableOp.destroy id).call t = some (t', none) := by rw [TableOp.call, heq, Option.map_some]
  have hhoused : t'.Housed := h.housed.step hsound (show (TableOp.destroy id).Valid from hid) (by simp) hcall
  refine ⟨t', heq, h.update ⟨M, hsound'⟩ hhoused hup.esize hup.destructor (by rw [hup.slot_false, Option.map_none])
    fun other hne => ?_⟩
  rw [hup.slot_of_ne hne]
  cases hplace : t.place id with
  | none =>
      rw [hplace, Option.elim_none] at hmem
      rw [load_of_memory hmem]
  | some ptr =>
      rw [hplace, Option.elim_some] at hmem
      rw [← h.esize]
      exact load_of_ne h.housed hne hplace fun a ha => by rw [hmem, memset_of_notMem ha]

/-- The value of a component. -/
lemma get (h : t.Holds f) (hid : id < invalidId) :
    ∃ ptr, t.getComponent id = some ptr ∧ ptr.map (t.load t.esize) = f.values id := by
  obtain ⟨M, hsound⟩ := h.sound
  exact ⟨_, hsound.getComponent hid, by rw [h.esize, h.value id hid]⟩

end Holds

/-- The release of the table comes to an end. -/
def Releasable (t : Table) : Prop := t.destructor = true → t.getBlock (numBlocks - 1) = some none

lemma Holds.release {t : Table} {f : TableFacts} (h : t.Holds f) (hok : t.Releasable) :
    ∃ calls, t.release = some calls := by
  obtain ⟨M, hsound⟩ := h.sound
  obtain ⟨l, -, hrelease⟩ := hsound.release fun hd => hsound.notMem_of_getBlock (hok hd)
  exact ⟨_, hrelease⟩

end Table

/-! ### Loops over a registry -/

section Loops

variable {K : Type} {t : BTree ℕ} {M : KeyMap ℕ} {key p : ℕ} {l : List (ℕ × ℕ)}

lemma Iter.Remains.forEach_eq {σ : Type} {nodes : Pool (Node ℕ)} {body : σ → ℕ → Option σ} {iter : Iter}
    {l : List (ℕ × ℕ)} (h : iter.Remains nodes l) {fuel : ℕ} (hfuel : l.length < fuel) (s : σ) :
    iter.forEach nodes body fuel s = l.foldlM (fun s e => body s e.2) s := by
  induction l generalizing iter fuel s with
  | nil =>
      cases fuel with
      | zero => exact absurd hfuel (Nat.not_lt_zero _)
      | succ fuel =>
          simp only [Iter.forEach, h.1, Option.bind_eq_bind, Option.bind_some, Bool.false_eq_true, if_false]
          rfl
  | cons e l ih =>
      obtain ⟨hhas, iter', hnext, hrest⟩ := h
      cases fuel with
      | zero => exact absurd hfuel (Nat.not_lt_zero _)
      | succ fuel =>
          have hrest' := fun s => ih hrest (Nat.lt_of_succ_lt_succ hfuel) s
          simp only [Iter.forEach, hhas, hnext, Option.bind_eq_bind, Option.bind_some, if_true, hrest',
            List.foldlM_cons]

/-- **A loop over a registry** goes through its entries. -/
theorem Shows.forEach_eq (h : Shows t M) (hlt : ∀ key ∈ M, key < 2 ^ 32) : ∃ l, Lists l M
    ∧ ∀ (σ : Type) (body : σ → ℕ → Option σ) (s : σ), t.forEach body s = l.foldlM (fun s e => body s e.2) s := by
  obtain ⟨l, iter, hl, hinit, hrem⟩ := h.iterInit
  have hle : l.length ≤ maxEntries := by
    have hsub : M.keys ⊆ Finset.range maxEntries := fun key hkey =>
      Finset.mem_range.mpr (hlt key (Finmap.mem_keys.mp hkey))
    calc l.length = M.keys.card := hl.card.symm
      _ ≤ (Finset.range maxEntries).card := Finset.card_le_card hsub
      _ = maxEntries := Finset.card_range _
  refine ⟨l, hl, fun σ body s => ?_⟩
  rw [BTree.forEach, hinit, Option.bind_eq_bind, Option.bind_some, hrem.forEach_eq (Nat.lt_succ_of_le hle)]

/-- The entries of a registry, as some keys of the records in a pool. -/
lemma registry_entries (hl : Lists l M) {i : ℕ → K} (hi : Function.Injective i) (handle : K → Option ℕ)
    (hhandle : ∀ key, handle (i key) = M.lookup key) :
    (∀ e ∈ l.map fun e => (i e.1, e.2), handle e.1 = some e.2)
    ∧ ((l.map fun e => (i e.1, e.2)).map Prod.fst).Nodup
    ∧ ∀ k, k ∈ (l.map fun e => (i e.1, e.2)).map Prod.fst ↔ ∃ key ∈ M, k = i key := by
  have hkeys : (l.map fun e => (i e.1, e.2)).map Prod.fst = (l.map Prod.fst).map i := by
    rw [List.map_map, List.map_map]
    rfl
  have hnd : (l.map Prod.fst).Nodup := List.pairwise_map.mpr (hl.sorted.imp fun hlt => ne_of_lt hlt)
  refine ⟨fun e he => ?_, ?_, fun k => ?_⟩
  · obtain ⟨e', he', rfl⟩ := List.mem_map.mp he
    exact (hhandle _).trans ((hl.mem e'.1 e'.2).mp he')
  · rw [hkeys]
    exact hnd.map hi
  · rw [hkeys, List.mem_map]
    constructor
    · rintro ⟨key, hkey, rfl⟩
      obtain ⟨e, he, rfl⟩ := List.mem_map.mp hkey
      exact ⟨e.1, Finmap.mem_of_lookup_eq_some ((hl.mem e.1 e.2).mp he), rfl⟩
    · rintro ⟨key, hkey, rfl⟩
      obtain ⟨p, hp⟩ := Finmap.mem_iff.mp hkey
      exact ⟨key, List.mem_map.mpr ⟨(key, p), (hl.mem key p).mpr hp, rfl⟩, rfl⟩

/-- **The records of a registry are released.** -/
theorem Shows.releaseAll [DecidableEq K] (h : Shows t M) (hlt : ∀ key ∈ M, key < 2 ^ 32) {β : Type} {pool : Pool β}
    {handle : K → Option ℕ} (hpool : Handles pool handle) (handle' : K → Option ℕ)
    (body : Pool β → ℕ → Option (Pool β)) {i : ℕ → K} (hi : Function.Injective i)
    (hhandle : ∀ key, handle (i key) = M.lookup key) (hnone : ∀ key, handle' (i key) = none)
    (hother : ∀ k, (∀ key, k ≠ i key) → handle' k = handle k)
    (hbody : ∀ key ∈ M, ∀ (pool' : Pool β) (p : ℕ) (x : β), record pool handle (i key) = some x →
      pool'.get p = some x → body pool' p = pool'.release p) :
    ∃ pool', t.forEach body pool = some pool' ∧ Handles pool' handle'
      ∧ ∀ k, (∀ key, k ≠ i key) → record pool' handle' k = record pool handle k := by
  obtain ⟨l, hl, hloop⟩ := h.forEach_eq hlt
  obtain ⟨hlive, hnd, hkeys⟩ := registry_entries hl hi handle hhandle
  obtain ⟨pool', hrun, hhandles, hrec⟩ := hpool.releaseAll handle' body hlive hnd
    (fun e he pool' x hx hget => by
      obtain ⟨key, hkey, hk⟩ := (hkeys e.1).mp (List.mem_map_of_mem he)
      exact hbody key hkey pool' e.2 x (hk ▸ hx) hget)
    fun k => by
      by_cases hin : k ∈ (l.map fun e => (i e.1, e.2)).map Prod.fst
      · obtain ⟨key, -, rfl⟩ := (hkeys k).mp hin
        rw [if_pos hin, hnone]
      · rw [if_neg hin]
        by_cases hk : ∃ key, k = i key
        · obtain ⟨key, rfl⟩ := hk
          rw [hnone, hhandle, Finmap.lookup_eq_none.mpr fun hkey => hin ((hkeys _).mpr ⟨key, hkey, rfl⟩)]
        · exact hother k fun key hkey => hk ⟨key, hkey⟩
  refine ⟨pool', ?_, hhandles, fun k hk => ?_⟩
  · rw [List.foldlM_map] at hrun
    exact (hloop _ _ _).trans hrun
  · rw [hrec, if_neg fun hin => ?_]
    obtain ⟨key, -, heq⟩ := (hkeys k).mp hin
    exact hk key heq

lemma lookup_insert_eq (M : KeyMap ℕ) (key p : ℕ) :
    (M.insert key p).lookup = Function.update M.lookup key (some p) := by
  funext k
  by_cases hk : k = key
  · rw [hk, Finmap.lookup_insert, Function.update_self]
  · rw [Finmap.lookup_insert_of_ne _ hk, Function.update_of_ne hk]

lemma lookup_erase_eq (M : KeyMap ℕ) (key : ℕ) : (M.erase key).lookup = Function.update M.lookup key none := by
  funext k
  by_cases hk : k = key
  · rw [hk, Finmap.lookup_erase, Function.update_self]
  · rw [Finmap.lookup_erase_ne hk, Function.update_of_ne hk]

lemma hash_lt (name : CString) : hash name < 2 ^ 32 := UInt32.toNat_lt _

end Loops

/-! ### What a database contains -/

/-- The references as values of a table. -/
def TableFacts.ofHeads (heads : ℕ → Option ℕ) : TableFacts := ⟨Reftable.entityIdSize, false, heads⟩

/-- The facts of the tables of both kinds. -/
def Facts.tableAt (A : Facts) : ℕ ⊕ ℕ → Option TableFacts :=
  Sum.elim A.tables fun key => (A.references key).map TableFacts.ofHeads

/-- The handles of the tables of both kinds. -/
def handlesOf (M N : KeyMap ℕ) : ℕ ⊕ ℕ → Option ℕ := Sum.elim M.lookup N.lookup

lemma lookup_empty_eq : (∅ : KeyMap ℕ).lookup = fun _ => none := funext fun _ => Finmap.lookup_empty _

lemma handlesOf_empty : handlesOf ∅ ∅ = fun _ => none := by
  funext k
  cases k with
  | inl key => exact Finmap.lookup_empty _
  | inr key => exact Finmap.lookup_empty _

lemma handlesOf_insert_inl (M N : KeyMap ℕ) (key p : ℕ) :
    handlesOf (M.insert key p) N = Function.update (handlesOf M N) (.inl key) (some p) := by
  rw [handlesOf, handlesOf, lookup_insert_eq, Sum.update_elim_inl]

lemma handlesOf_insert_inr (M N : KeyMap ℕ) (key p : ℕ) :
    handlesOf M (N.insert key p) = Function.update (handlesOf M N) (.inr key) (some p) := by
  rw [handlesOf, handlesOf, lookup_insert_eq, Sum.update_elim_inr]

lemma handlesOf_erase (M N : KeyMap ℕ) (key : ℕ) :
    handlesOf (M.erase key) N = Function.update (handlesOf M N) (.inl key) none := by
  rw [handlesOf, handlesOf, lookup_erase_eq, Sum.update_elim_inl]

lemma map_update {β γ : Type} (g : β → γ) (r : ℕ → Option β) (key : ℕ) (x : Option β) :
    (fun k => (Function.update r key x k).map g) = Function.update (fun k => (r k).map g) key (x.map g) :=
  Function.comp_update (Option.map g) r key x

namespace Facts

variable (A : Facts) (key : ℕ)

lemma tableAt_addTable (csize : ℕ) (dstr : Bool) : (A.addTable key csize dstr).tableAt
    = Function.update A.tableAt (.inl key) (some ((A.tableAt (.inl key)).getD ⟨csize, dstr, fun _ => none⟩)) := by
  rw [tableAt, addTable, tableAt, Sum.update_elim_inl, Sum.elim_inl]

lemma tableAt_addReferences : (A.addReferences key).tableAt
    = Function.update A.tableAt (.inr key) (some ((A.tableAt (.inr key)).getD (.ofHeads fun _ => none))) := by
  rw [tableAt, tableAt, Sum.update_elim_inr, Sum.elim_inr, Option.getD_map]
  exact congrArg _ (map_update TableFacts.ofHeads A.references key _)

lemma tableAt_setComponent (id : ℕ) (value : Option ℕ) : (A.setComponent key id value).tableAt
    = Function.update A.tableAt (.inl key) ((A.tableAt (.inl key)).map fun f => f.set id value) := by
  rw [tableAt, setComponent, tableAt, Sum.update_elim_inl, Sum.elim_inl]

lemma tableAt_setReference (tail : ℕ) (head : Option ℕ) : (A.setReference key tail head).tableAt
    = Function.update A.tableAt (.inr key) ((A.tableAt (.inr key)).map fun f => f.set tail head) := by
  rw [tableAt, tableAt, Sum.update_elim_inr, Sum.elim_inr, Option.map_map]
  refine congrArg _ ((map_update TableFacts.ofHeads A.references key _).trans ?_)
  rw [Option.map_map]
  rfl

lemma tableAt_clearEntity (id : ℕ) :
    (A.clearEntity id).tableAt (.inl key) = (A.tables key).map fun f => f.set id none := rfl

lemma mapTag_setTag (f g : Finset ℕ → Finset ℕ) : (A.setTag key f).mapTag key g = A.setTag key (g ∘ f) := by
  simp only [setTag, mapTag, Function.update_self, Function.update_idem, Option.map_some, Function.comp_apply]

end Facts

/-- The database contains the facts; its registries show `M`, `N` and `T`. -/
structure World.Contains (db : World) (A : Facts) (M N T : KeyMap ℕ) : Prop where
  tables : Shows db.tables M
  references : Shows db.references N
  tags : Shows db.tags T
  tables_lt : ∀ key ∈ M, key < 2 ^ 32
  references_lt : ∀ key ∈ N, key < 2 ^ 32
  tags_lt : ∀ key ∈ T, key < 2 ^ 32
  handles : Handles db.tableAllocator (handlesOf M N)
  bittables : Handles db.bittableAllocator T.lookup
  table : ∀ k, Option.Rel (fun (n : NamedTable) f => n.table.Holds f) (record db.tableAllocator (handlesOf M N) k)
    (A.tableAt k)
  tag : ∀ key, Option.Rel Denotes (record db.bittableAllocator T.lookup key) (A.tags key)

section Rel

variable {K β γ : Type*} {R : β → γ → Prop} {x : Option β} {y : Option γ}

lemma rel_some {a : β} (h : Option.Rel R (some a) y) : ∃ b, y = some b ∧ R a b := by
  cases h with
  | some hab => exact ⟨_, rfl, hab⟩

lemma rel_none (h : Option.Rel R none y) : y = none := by
  cases h with
  | none => rfl

variable [DecidableEq K]

/-- One key changes. -/
lemma rel_update {r : K → Option β} {f : K → Option γ} (h : ∀ k, Option.Rel R (r k) (f k)) (k : K)
    (hxy : Option.Rel R x y) (k' : K) : Option.Rel R (Function.update r k x k') (Function.update f k y k') := by
  by_cases hk : k' = k
  · rw [hk, Function.update_self, Function.update_self]
    exact hxy
  · rw [Function.update_of_ne hk, Function.update_of_ne hk]
    exact h k'

end Rel

namespace World.Contains

variable {db : World} {A A' : Facts} {M N T : KeyMap ℕ} {k : ℕ ⊕ ℕ} {p : ℕ} {f f' : TableFacts}

lemma init : World.init.Contains Facts.empty ∅ ∅ ∅ where
  tables := Shows.init
  references := Shows.init
  tags := Shows.init
  tables_lt key hkey := absurd hkey Finmap.notMem_empty
  references_lt key hkey := absurd hkey Finmap.notMem_empty
  tags_lt key hkey := absurd hkey Finmap.notMem_empty
  handles := by
    rw [handlesOf_empty]
    exact Handles.empty
  bittables := by
    rw [lookup_empty_eq]
    exact Handles.empty
  table k := by
    cases k with
    | inl key => exact .none
    | inr key => exact .none
  tag key := .none

/-- The table of a handle. -/
lemma get (h : db.Contains A M N T) (hk : handlesOf M N k = some p) :
    ∃ n f, db.tableAllocator.get p = some n ∧ record db.tableAllocator (handlesOf M N) k = some n
      ∧ A.tableAt k = some f ∧ n.table.Holds f := by
  obtain ⟨n, hn, hrec⟩ := h.handles.get hk
  have hrel := h.table k
  rw [hrec] at hrel
  obtain ⟨f, hf, hholds⟩ := rel_some hrel
  exact ⟨n, f, hn, hrec, hf, hholds⟩

/-- A table with facts has a handle. -/
lemma handle (h : db.Contains A M N T) (hf : A.tableAt k = some f) : ∃ p, handlesOf M N k = some p := by
  cases hk : handlesOf M N k with
  | some p => exact ⟨p, rfl⟩
  | none =>
      have hrel := h.table k
      rw [record_of_none hk, hf] at hrel
      cases hrel

/-- A table without a handle has no facts. -/
lemma fresh (h : db.Contains A M N T) (hk : handlesOf M N k = none) : A.tableAt k = none := by
  have hrel := h.table k
  rw [record_of_none hk] at hrel
  exact rel_none hrel

/-- **A table is used**, of either kind. -/
theorem use (h : db.Contains A M N T) (hk : handlesOf M N k = some p) (hf : A.tableAt k = some f)
    {use : Table → Option Table} (huse : ∀ t : Table, t.Holds f → ∃ t', use t = some t' ∧ t'.Holds f')
    (htables : A'.tableAt = Function.update A.tableAt k (some f')) (htags : A'.tags = A.tags) :
    ∃ db', db.useTable p use = some db' ∧ db'.Contains A' M N T := by
  obtain ⟨n, f₁, hn, -, hf₁, hholds⟩ := h.get hk
  obtain rfl := Option.some.inj (hf₁.symm.trans hf)
  obtain ⟨t, ht, hholds'⟩ := huse n.table hholds
  obtain ⟨pool, hput, hhandles, hrec⟩ := h.handles.put hk { n with table := t }
  refine ⟨{ db with tableAllocator := pool }, ?_, { h with handles := hhandles, table := fun k' => ?_, tag := ?_ }⟩
  · simp only [World.useTable, hn, ht, hput, Option.bind_eq_bind, Option.bind_some]
  · rw [hrec, htables]
    exact rel_update h.table k (.some hholds') k'
  · rw [htags]
    exact h.tag

/-- **A new component table.** -/
theorem newTable (h : db.Contains A M N T) {name : CString} (hnew : M.lookup (hash name) = none)
    (hlen : name.strlen < maxTableName) {csize : ℕ} (hfits : Table.Fits csize) (dstr : Bool) (memory : Address → UInt8) :
    ∃ d p, db.toDatabase.newTable name csize dstr memory = some (d, p)
      ∧ World.Contains { db with toDatabase := d } (A.addTable (hash name) csize dstr) (M.insert (hash name) p) N T := by
  obtain ⟨p, pool, halloc, hhandles, hrec⟩ :=
    h.handles.alloc (.inl (hash name)) ⟨name, hash name, Table.init csize dstr memory⟩
  obtain ⟨tables, ins, hins, -, -, hshows⟩ := h.tables.insert (Finmap.lookup_eq_none.mp hnew) p
  refine ⟨⟨tables, pool⟩, p, ?_, { h with tables := hshows, tables_lt := ?_, handles := ?_, table := fun k => ?_ }⟩
  · simp only [Database.newTable, NamedTable.init, if_pos hlen, getTableId, halloc, hins, Option.bind_eq_bind,
      Option.bind_some]
  · intro key hkey
    rcases Finmap.mem_insert.mp hkey with rfl | hkey
    · exact hash_lt name
    · exact h.tables_lt key hkey
  · rw [handlesOf_insert_inl]
    exact hhandles
  · have hnone : A.tableAt (.inl (hash name)) = none := h.fresh hnew
    rw [handlesOf_insert_inl, hrec, Facts.tableAt_addTable, hnone]
    exact rel_update h.table _ (.some (.init hfits dstr memory)) k

/-- What the two creations have in common. -/
lemma addTable (h : db.Contains A M N T) {name : CString} (hlen : name.strlen < maxTableName) {csize : ℕ}
    (hfits : Table.Fits csize) (dstr : Bool) (memory : Address → UInt8) (found : ℕ → Option ℕ) : ∃ r M',
      (match M.lookup (hash name) with
        | some p => some (db.toDatabase, found p)
        | none => (db.toDatabase.newTable name csize dstr memory).bind fun r => some (r.1, some r.2)) = some r
      ∧ World.Contains { db with toDatabase := r.1 } (A.addTable (hash name) csize dstr) M' N T := by
  cases hp : M.lookup (hash name) with
  | none =>
      obtain ⟨d, p, hcall, h'⟩ := h.newTable hp hlen hfits dstr memory
      exact ⟨(d, some p), _, by rw [hcall]; rfl, h'⟩
  | some p =>
      have hk : handlesOf M N (.inl (hash name)) = some p := hp
      obtain ⟨n, f, -, -, hf, -⟩ := h.get hk
      refine ⟨_, M, rfl, { h with table := fun k => ?_ }⟩
      rw [Facts.tableAt_addTable, hf, Option.getD_some, ← hf, Function.update_eq_self]
      exact h.table k

/-- **A component table is removed.** -/
theorem removeTable (h : db.Contains A M N T) {name : CString}
    (hok : ∀ p, db.tables.get (hash name) = some (some p) → Orderly db.tables (.remove (hash name))
      ∧ ∀ n, db.tableAllocator.get p = some n → n.table.Releasable) : ∃ d M',
      db.toDatabase.removeTable name = some d ∧ World.Contains { db with toDatabase := d }
        { A with tables := Function.update A.tables (hash name) none } M' N T := by
  have htables : ({ A with tables := Function.update A.tables (hash name) none } : Facts).tableAt
      = Function.update A.tableAt (.inl (hash name)) none := by
    rw [Facts.tableAt, Facts.tableAt, Sum.update_elim_inl]
  cases hp : M.lookup (hash name) with
  | none =>
      refine ⟨db.toDatabase, M, ?_, { h with table := fun k => ?_ }⟩
      · rw [Database.removeTable, getTableId, h.tables.get, hp]
        rfl
      · have hnone : A.tableAt (.inl (hash name)) = none := h.fresh hp
        rw [htables, ← hnone, Function.update_eq_self]
        exact h.table k
  | some p =>
      have hk : handlesOf M N (.inl (hash name)) = some p := hp
      obtain ⟨horderly, hreleasable⟩ := hok p (by rw [h.tables.get, hp])
      obtain ⟨n, f, hn, -, -, hholds⟩ := h.get hk
      obtain ⟨calls, hcalls⟩ := hholds.release (hreleasable n hn)
      obtain ⟨pool, hrelease, hhandles, hrec⟩ := h.handles.release hk
      obtain ⟨tables, hremove, hshows⟩ := h.tables.remove hp horderly
      refine ⟨⟨tables, pool⟩, M.erase (hash name), ?_, { h with
        tables := hshows, tables_lt := fun key hkey => ?_, handles := ?_, table := fun k => ?_ }⟩
      · simp only [Database.removeTable, getTableId, h.tables.get, hp, hn, hcalls, hrelease, hremove,
          Option.bind_eq_bind, Option.bind_some]
      · exact h.tables_lt key (Finmap.mem_erase.mp hkey).2
      · rw [handlesOf_erase]
        exact hhandles
      · rw [handlesOf_erase, hrec, htables]
        exact rel_update h.table _ .none k

/-- **A reference table** is found, or made. -/
theorem findOrCreateReftable (h : db.Contains A M N T) {name : CString} (hlen : name.strlen < maxTableName)
    (memory : Address → UInt8) : ∃ db' p N', db.findOrCreateReftable name memory = some (db', p)
      ∧ db'.Contains (A.addReferences (hash name)) M N' T := by
  cases hp : N.lookup (hash name) with
  | some p =>
      have hk : handlesOf M N (.inr (hash name)) = some p := hp
      obtain ⟨n, f, -, -, hf, -⟩ := h.get hk
      refine ⟨db, p, N, ?_, { h with table := fun k => ?_ }⟩
      · simp only [World.findOrCreateReftable, h.references.get, hp, Option.bind_eq_bind, Option.bind_some]
      · rw [Facts.tableAt_addReferences, hf, Option.getD_some, ← hf, Function.update_eq_self]
        exact h.table k
  | none =>
      obtain ⟨p, pool, halloc, hhandles, hrec⟩ := h.handles.alloc (.inr (hash name))
        ⟨name, hash name, Table.init Reftable.entityIdSize false memory⟩
      obtain ⟨references, ins, hins, -, -, hshows⟩ := h.references.insert (Finmap.lookup_eq_none.mp hp) p
      refine ⟨{ db with references := references, tableAllocator := pool }, p, N.insert (hash name) p, ?_, { h with
        references := hshows, references_lt := fun key hkey => ?_, handles := ?_, table := fun k => ?_ }⟩
      · simp only [World.findOrCreateReftable, h.references.get, hp, NamedTable.init, if_pos hlen, halloc, hins,
          Option.bind_eq_bind, Option.bind_some]
      · rcases Finmap.mem_insert.mp hkey with rfl | hkey
        · exact hash_lt name
        · exact h.references_lt key hkey
      · rw [handlesOf_insert_inr]
        exact hhandles
      · have hnone : A.tableAt (.inr (hash name)) = none := h.fresh hp
        rw [handlesOf_insert_inr, hrec, Facts.tableAt_addReferences, hnone]
        exact rel_update h.table _ (.some (.init (by decide) false memory)) k

/-- A tag without a handle has no facts. -/
lemma untagged (h : db.Contains A M N T) {key : ℕ} (hp : T.lookup key = none) : A.tags key = none := by
  have hrel := h.tag key
  have hnone : record db.bittableAllocator T.lookup key = none := record_of_none hp
  rw [hnone] at hrel
  exact rel_none hrel

/-- **The bittable of a tag** is found, or made. -/
theorem getTaggedEntities (h : db.Contains A M N T) (tag : CString) : ∃ db' p T',
    db.getTaggedEntities tag = some (db', p)
    ∧ db'.Contains (A.setTag (hash tag) fun S => S) M N T' ∧ T'.lookup (hash tag) = some p := by
  cases hp : T.lookup (hash tag) with
  | some p =>
      obtain ⟨bt, -, hrec⟩ := h.bittables.get hp
      have hrel := h.tag (hash tag)
      rw [hrec] at hrel
      obtain ⟨S, hS, -⟩ := rel_some hrel
      refine ⟨db, p, T, ?_, { h with tag := ?_ }, hp⟩
      · simp only [World.getTaggedEntities, h.tags.get, hp, Option.bind_eq_bind, Option.bind_some]
      · rw [Facts.setTag, hS, Option.getD_some, ← hS, Function.update_eq_self]
        exact h.tag
  | none =>
      obtain ⟨p, pool, halloc, hbittables, hrec⟩ := h.bittables.alloc (hash tag) Bittable.init
      obtain ⟨tags, ins, hins, -, -, hshows⟩ := h.tags.insert (Finmap.lookup_eq_none.mp hp) p
      have hnone := h.untagged hp
      refine ⟨{ db with tags := tags, bittableAllocator := pool }, p, T.insert (hash tag) p, ?_, { h with
        tags := hshows, tags_lt := fun key hkey => ?_, bittables := ?_, tag := fun key => ?_ }, Finmap.lookup_insert _⟩
      · simp only [World.getTaggedEntities, h.tags.get, hp, halloc, hins, Option.bind_eq_bind, Option.bind_some]
      · rcases Finmap.mem_insert.mp hkey with rfl | hkey
        · exact hash_lt tag
        · exact h.tags_lt key hkey
      · rw [lookup_insert_eq]
        exact hbittables
      · rw [lookup_insert_eq, hrec, Facts.setTag, hnone]
        exact rel_update h.tag _ (.some Denotes.init) key

/-- **A bittable is used.** -/
lemma useBittable (h : db.Contains A M N T) {key : ℕ} (hp : T.lookup key = some p) (use : Bittable → Option Bittable)
    (g : Finset ℕ → Finset ℕ) (huse : ∀ bt S, Denotes bt S → ∃ bt', use bt = some bt' ∧ Denotes bt' (g S)) :
    ∃ bt bt' pool, db.bittableAllocator.get p = some bt ∧ use bt = some bt'
      ∧ db.bittableAllocator.put p bt' = some pool
      ∧ World.Contains { db with bittableAllocator := pool } (A.mapTag key g) M N T := by
  obtain ⟨bt, hbt, hbtrec⟩ := h.bittables.get hp
  have hrel := h.tag key
  rw [hbtrec] at hrel
  obtain ⟨S, hS, hden⟩ := rel_some hrel
  obtain ⟨bt', hbt', hden'⟩ := huse bt S hden
  obtain ⟨pool, hput, hbittables, hrec⟩ := h.bittables.put hp bt'
  refine ⟨bt, bt', pool, hbt, hbt', hput, { h with bittables := hbittables, tag := fun key' => ?_ }⟩
  rw [hrec, Facts.mapTag, hS]
  exact rel_update h.tag key (.some hden') key'

/-- **`fdb_database_tag_entity`.** -/
theorem tagEntity (h : db.Contains A M N T) {id : ℕ} (hid : id < 2 ^ 32) (tag : CString) : ∃ db' T',
    db.tagEntity id tag = some db' ∧ db'.Contains (A.setTag (hash tag) (insert id)) M N T' := by
  obtain ⟨db₁, p, T', hfind, h₁, hp⟩ := h.getTaggedEntities tag
  obtain ⟨bt, bt', pool, hbt, hadd, hput, h'⟩ := h₁.useBittable hp (fun bt => bt.add id) (insert id)
    fun bt S hden => hden.add hid
  refine ⟨{ db₁ with bittableAllocator := pool }, T', ?_, A.mapTag_setTag (hash tag) (fun S => S) (insert id) ▸ h'⟩
  simp only [World.tagEntity, hfind, hbt, hadd, hput, Option.bind_eq_bind, Option.bind_some]

/-- **`fdb_database_untag_entity`.** -/
theorem untagEntity (h : db.Contains A M N T) (id : ℕ) (tag : CString) : ∃ db', db.untagEntity id tag = some db'
    ∧ db'.Contains (A.mapTag (hash tag) fun S => S.erase id) M N T := by
  cases hp : T.lookup (hash tag) with
  | none =>
      have hnone := h.untagged hp
      refine ⟨db, ?_, ?_⟩
      · simp only [World.untagEntity, h.tags.get, hp, Option.bind_eq_bind, Option.bind_some]
      · rw [Facts.mapTag, hnone, Option.map_none, ← hnone, Function.update_eq_self]
        exact h
  | some p =>
      obtain ⟨bt, bt', pool, hbt, hremove, hput, h'⟩ := h.useBittable hp (fun bt => bt.remove id)
        (fun S => S.erase id) fun bt S hden => hden.remove id
      refine ⟨_, ?_, h'⟩
      simp only [World.untagEntity, h.tags.get, hp, hbt, hremove, hput, Option.bind_eq_bind, Option.bind_some]

/-! ### Loops over all tables -/

/-- The component table of a key that is there. -/
lemma held (h : db.Contains A M N T) {key : ℕ} (hkey : key ∈ M) : ∃ n f,
    record db.tableAllocator (handlesOf M N) (.inl key) = some n ∧ A.tables key = some f ∧ n.table.Holds f := by
  obtain ⟨p, hp⟩ := Finmap.mem_iff.mp hkey
  have hk : handlesOf M N (.inl key) = some p := hp
  obtain ⟨n, f, -, hrec, hf, hholds⟩ := h.get hk
  exact ⟨n, f, hrec, hf, hholds⟩

/-- **`fdb_database_clear_entity`** goes through all component tables. -/
theorem clearEntity (h : db.Contains A M N T) {id : ℕ} (hid : id < invalidId) : ∃ db', db.clearEntity id = some db'
    ∧ db'.Contains (A.clearEntity id) M N T := by
  obtain ⟨l, hl, hloop⟩ := h.tables.forEach_eq h.tables_lt
  obtain ⟨hlive, hnd, hkeys⟩ := registry_entries hl Sum.inl_injective (handlesOf M N) fun key => rfl
  let cleared : NamedTable → NamedTable := fun n => { n with table := (n.table.destroyComponent id).getD n.table }
  have hcleared : ∀ key ∈ M, ∃ n f t, record db.tableAllocator (handlesOf M N) (.inl key) = some n
      ∧ A.tables key = some f ∧ n.table.destroyComponent id = some t ∧ t.Holds (f.set id none)
      ∧ cleared n = { n with table := t } := fun key hkey => by
    obtain ⟨n, f, hn, hf, hholds⟩ := h.held hkey
    obtain ⟨t, ht, hholds'⟩ := hholds.destroy hid
    exact ⟨n, f, t, hn, hf, ht, hholds', by simp only [cleared, ht, Option.getD_some]⟩
  obtain ⟨pool, hrun, hhandles, hrec⟩ := h.handles.putAll (World.clearEntry id) cleared hlive hnd
    fun e he pool' n hn hget => by
      obtain ⟨key, hkey, hk⟩ := (hkeys e.1).mp (List.mem_map_of_mem he)
      obtain ⟨n', f, t, hn', -, ht, -, heq⟩ := hcleared key hkey
      rw [hk, hn'] at hn
      obtain rfl := Option.some.inj hn
      rw [World.clearEntry, hget, Option.bind_eq_bind, Option.bind_some, ht, heq]
      rfl
  refine ⟨{ db with tableAllocator := pool }, ?_, { h with handles := hhandles, table := fun k => ?_ }⟩
  · rw [List.foldlM_map] at hrun
    have hrun' : db.tables.forEach (World.clearEntry id) db.tableAllocator = some pool := (hloop _ _ _).trans hrun
    rw [World.clearEntity, hrun']
    rfl
  · rw [hrec]
    by_cases hin : k ∈ (l.map fun e => ((Sum.inl e.1 : ℕ ⊕ ℕ), e.2)).map Prod.fst
    · obtain ⟨key, hkey, rfl⟩ := (hkeys k).mp hin
      obtain ⟨n, f, t, hn, hf, -, hholds, heq⟩ := hcleared key hkey
      rw [if_pos hin, hn, Option.map_some, heq, A.tableAt_clearEntity, hf, Option.map_some]
      exact .some hholds
    · rw [if_neg hin]
      cases k with
      | inl key =>
          have hnone : handlesOf M N (.inl key) = none :=
            Finmap.lookup_eq_none.mpr fun hkey => hin ((hkeys _).mpr ⟨key, hkey, rfl⟩)
          have hfacts : A.tables key = none := h.fresh hnone
          rw [record_of_none hnone, A.tableAt_clearEntity, hfacts, Option.map_none]
          exact .none
      | inr key => exact h.table (.inr key)

end World.Contains

/-- **`fdb_bittable_release`** comes to an end. -/
lemma Denotes.release {bt : Bittable} {S : Finset ℕ} (h : Denotes bt S) : bt.release = some () := by
  obtain ⟨r, hidx, hr⟩ := h.records
  obtain ⟨M, hshows, hrec, hlive, hinj⟩ := hidx.map
  have hlt : ∀ key ∈ M, key < 2 ^ 32 := fun key hkey => by
    obtain ⟨p, hp⟩ := Finmap.mem_iff.mp hkey
    obtain ⟨x, hx⟩ := Option.ne_none_iff_exists'.mp (hlive key p hp)
    have hb := (hr.bounded key x (by rw [hrec, hp, Option.bind_some, hx])).1
    exact lt_trans hb (by decide)
  have hhandles : Handles bt.bitmapAllocator M.lookup := ⟨hlive, hinj⟩
  obtain ⟨nodes, hnodes⟩ := hshows.release
  obtain ⟨pool, hrun, -⟩ := hshows.releaseAll hlt hhandles (fun _ => none) Pool.release Function.injective_id
    (fun key => rfl) (fun key => rfl) (fun k hk => absurd rfl (hk k)) fun key hkey pool' p x hx hget => rfl
  rw [Bittable.release, hrun, hnodes]
  rfl

namespace World.Contains

variable {db : World} {A : Facts} {M N T : KeyMap ℕ}

lemma releaseTable_eq {n : NamedTable} {f : TableFacts} (h : n.table.Holds f) (hok : n.table.Releasable)
    {pool : Pool NamedTable} {p : ℕ} (hget : pool.get p = some n) : World.releaseTable pool p = pool.release p := by
  obtain ⟨calls, hcalls⟩ := h.release hok
  rw [World.releaseTable, hget, Option.bind_eq_bind, Option.bind_some, hcalls]
  rfl

/-- **`fdb_database_clear`.** -/
theorem clear (h : db.Contains A M N T) (hok : ∀ key p n, db.tables.get key = some (some p) →
    db.tableAllocator.get p = some n → n.table.Releasable) :
    ∃ db', db.clear = some db' ∧ db'.Contains Facts.empty ∅ ∅ ∅ := by
  -- the component tables
  obtain ⟨pool₁, hrun₁, hhandles₁, hrec₁⟩ := h.tables.releaseAll h.tables_lt h.handles (handlesOf ∅ N)
    World.releaseTable Sum.inl_injective (fun key => rfl) (fun key => Finmap.lookup_empty key)
    (fun k hk => by
      cases k with
      | inl key => exact absurd rfl (hk key)
      | inr key => rfl) fun key hkey pool p n hn hget => by
      obtain ⟨q, hq⟩ := Finmap.mem_iff.mp hkey
      have hk : handlesOf M N (.inl key) = some q := hq
      obtain ⟨n', f, hn', hrec, -, hholds⟩ := h.get hk
      obtain rfl := Option.some.inj (hrec.symm.trans hn)
      exact releaseTable_eq hholds (hok key q n' (by rw [h.tables.get, hq]) hn') hget
  obtain ⟨tables, hclear₁, hshows₁⟩ := h.tables.clear
  -- the bittables
  obtain ⟨bits, hrunBits, hbittables, -⟩ := h.tags.releaseAll h.tags_lt h.bittables (fun _ => none)
    World.releaseBittable Function.injective_id (fun key => rfl) (fun key => rfl)
    (fun k hk => absurd rfl (hk k)) fun key hkey pool p bt hbt hget => by
      have hrel := h.tag key
      rw [show record db.bittableAllocator T.lookup key = some bt from hbt] at hrel
      obtain ⟨S, -, hden⟩ := rel_some hrel
      rw [World.releaseBittable, hget, Option.bind_eq_bind, Option.bind_some, hden.release]
      rfl
  obtain ⟨tags, hclear₂, hshows₂⟩ := h.tags.clear
  -- the reference tables
  obtain ⟨pool₂, hrun₂, hhandles₂, -⟩ := h.references.releaseAll h.references_lt hhandles₁ (handlesOf ∅ ∅)
    World.releaseTable Sum.inr_injective (fun key => rfl) (fun key => Finmap.lookup_empty key)
    (fun k hk => by
      cases k with
      | inl key => rfl
      | inr key => exact absurd rfl (hk key)) fun key hkey pool p n hn hget => by
      have hrel := h.table (.inr key)
      rw [← hrec₁ (.inr key) (fun key' heq => (by cases heq)), hn] at hrel
      obtain ⟨f, hf, hholds⟩ := rel_some hrel
      obtain ⟨heads, -, rfl⟩ := Option.map_eq_some_iff.mp hf
      refine releaseTable_eq hholds (fun hd => ?_) hget
      rw [hholds.destructor] at hd
      cases hd
  obtain ⟨references, hclear₃, hshows₃⟩ := h.references.clear
  -- no component table is left
  obtain ⟨pool₃, hrun₃, hhandles₃, -⟩ := hshows₁.releaseAll (fun key hkey => absurd hkey Finmap.notMem_empty)
    hhandles₂ (handlesOf ∅ ∅) World.releaseTable Sum.inl_injective (fun key => rfl)
    (fun key => Finmap.lookup_empty key) (fun k hk => rfl) fun key hkey => absurd hkey Finmap.notMem_empty
  obtain ⟨tables', hclear₄, hshows₄⟩ := hshows₁.clear
  refine ⟨⟨⟨tables', pool₃⟩, references, tags, bits⟩, ?_, ⟨hshows₄, hshows₃, hshows₂,
    fun key hkey => absurd hkey Finmap.notMem_empty, fun key hkey => absurd hkey Finmap.notMem_empty,
    fun key hkey => absurd hkey Finmap.notMem_empty, hhandles₃, ?_, fun k => ?_, fun key => ?_⟩⟩
  · simp only [World.clear, hrun₁, hclear₁, hrunBits, hclear₂, hrun₂, hclear₃, hrun₃, hclear₄, Option.bind_eq_bind,
      Option.bind_some]
  · rw [lookup_empty_eq]
    exact hbittables
  · have hnone : record pool₃ (handlesOf ∅ ∅) k = none := record_of_none (by rw [handlesOf_empty])
    rw [hnone]
    cases k with
    | inl key => exact .none
    | inr key => exact .none
  · have hnone : record bits (∅ : KeyMap ℕ).lookup key = none := record_of_none (Finmap.lookup_empty _)
    rw [hnone]
    exact .none

end World.Contains

/-! ### Runs -/

/-- What the functions rely on: names and sizes that fit, tables that are there, and a removal that keeps the registry
in order. The release of a table with a destructor does not end if there is its last block. -/
def WorldOp.Ok (db : World) (A : Facts) : WorldOp → Prop
  | createTable name csize _ _ | findOrCreateTable name csize _ _ => name.strlen < maxTableName ∧ Table.Fits csize
  | removeTable name => ∀ p, db.tables.get (hash name) = some (some p) → Orderly db.tables (.remove (hash name))
      ∧ ∀ n, db.tableAllocator.get p = some n → n.table.Releasable
  | addComponent name id value => id < invalidId ∧ ∃ f, A.tables (hash name) = some f ∧ value < 256 ^ f.csize
  | removeComponent name id => id < invalidId ∧ A.tables (hash name) ≠ none
  | tagEntity id _ => id < 2 ^ 32
  | untagEntity _ _ | getTaggedEntities _ => True
  | findOrCreateReftable refName _ | createReftable refName _ => refName.strlen < maxTableName
  | addReference refName tail head => tail < invalidId ∧ head < 2 ^ 32 ∧ A.references (hash refName) ≠ none
  | removeReference refName tail _ => tail < invalidId ∧ A.references (hash refName) ≠ none
  | clearEntity id => id < invalidId
  | clear => ∀ key p n, db.tables.get key = some (some p) → db.tableAllocator.get p = some n → n.table.Releasable

namespace World.Contains

variable {db : World} {A : Facts} {M N T : KeyMap ℕ} {f : TableFacts}

/-- **A component table is used**, by its name. -/
lemma useNamed (h : db.Contains A M N T) {name : CString} (hf : A.tables (hash name) = some f)
    (use : Table → Option Table) {id : ℕ} {v : Option ℕ}
    (huse : ∀ t : Table, t.Holds f → ∃ t', use t = some t' ∧ t'.Holds (f.set id v)) :
    ∃ db' p, db.findTable name = some p ∧ db.useTable p use = some db'
      ∧ db'.Contains (A.setComponent (hash name) id v) M N T := by
  have hat : A.tableAt (.inl (hash name)) = some f := hf
  obtain ⟨p, hk⟩ := h.handle hat
  have htables : (A.setComponent (hash name) id v).tableAt
      = Function.update A.tableAt (.inl (hash name)) (some (f.set id v)) := by
    rw [A.tableAt_setComponent, hat, Option.map_some]
  obtain ⟨db', hcall, h'⟩ := h.use hk hat huse htables rfl
  refine ⟨db', p, ?_, hcall, h'⟩
  have hp : M.lookup (hash name) = some p := hk
  rw [World.findTable, Database.findTable, getTableId, h.tables.get, hp]
  rfl

/-- **A reference table is used**, by its name. -/
lemma useReferences (h : db.Contains A M N T) {name : CString} {heads : ℕ → Option ℕ}
    (hf : A.references (hash name) = some heads) (use : Table → Option Table) {tail : ℕ} {v : Option ℕ}
    (huse : ∀ t : Table, t.Holds (.ofHeads heads) →
      ∃ t', use t = some t' ∧ t'.Holds ((TableFacts.ofHeads heads).set tail v)) :
    ∃ db' p, db.findReftable name = some p ∧ db.useTable p use = some db'
      ∧ db'.Contains (A.setReference (hash name) tail v) M N T := by
  have hat : A.tableAt (.inr (hash name)) = some (.ofHeads heads) := by
    rw [Facts.tableAt, Sum.elim_inr, hf, Option.map_some]
  obtain ⟨p, hk⟩ := h.handle hat
  have htables : (A.setReference (hash name) tail v).tableAt
      = Function.update A.tableAt (.inr (hash name)) (some ((TableFacts.ofHeads heads).set tail v)) := by
    rw [A.tableAt_setReference, hat, Option.map_some]
  obtain ⟨db', hcall, h'⟩ := h.use hk hat huse htables rfl
  refine ⟨db', p, ?_, hcall, h'⟩
  have hp : N.lookup (hash name) = some p := hk
  rw [World.findReftable, h.references.get, hp]
  rfl

/-- **Every call** does what it says. -/
theorem step (h : db.Contains A M N T) {op : WorldOp} (hok : op.Ok db A) :
    ∃ db' M' N' T', op.call db = some db' ∧ db'.Contains (op.act A) M' N' T' := by
  cases op with
  | createTable name csize dstr memory =>
      obtain ⟨r, M', hr, h'⟩ := h.addTable hok.1 hok.2 dstr memory fun _ => none
      refine ⟨_, M', N, T, ?_, h'⟩
      have hcall : db.toDatabase.createTable name csize dstr memory = some r := by
        rw [← hr, Database.createTable, getTableId, h.tables.get]
        cases M.lookup (hash name) <;> rfl
      rw [WorldOp.call, hcall, Option.map_some]
  | findOrCreateTable name csize dstr memory =>
      obtain ⟨r, M', hr, h'⟩ := h.addTable hok.1 hok.2 dstr memory some
      refine ⟨_, M', N, T, ?_, h'⟩
      have hcall : db.toDatabase.findOrCreateTable name csize dstr memory = some r := by
        rw [← hr, Database.findOrCreateTable, getTableId, h.tables.get]
        cases M.lookup (hash name) <;> rfl
      rw [WorldOp.call, hcall, Option.map_some]
  | removeTable name =>
      obtain ⟨d, M', hcall, h'⟩ := h.removeTable hok
      exact ⟨_, M', N, T, by rw [WorldOp.call, hcall, Option.map_some], h'⟩
  | addComponent name id value =>
      obtain ⟨hid, f, hf, hvalue⟩ := hok
      obtain ⟨db', p, hfind, hcall, h'⟩ := h.useNamed hf (v := some value) (World.addValue id value) fun t ht => by
        obtain ⟨t', ptr, heq, hesize, ht'⟩ := ht.add hid hvalue
        refine ⟨_, ?_, ht'⟩
        simp only [World.addValue, heq, hesize, Option.bind_eq_bind, Option.bind_some]
      refine ⟨db', M, N, T, ?_, h'⟩
      rw [WorldOp.call, World.addComponent, hfind]
      exact hcall
  | removeComponent name id =>
      obtain ⟨f, hf⟩ := Option.ne_none_iff_exists'.mp hok.2
      obtain ⟨db', p, hfind, hcall, h'⟩ := h.useNamed hf (fun table => table.destroyComponent id)
        fun t ht => ht.destroy hok.1
      refine ⟨db', M, N, T, ?_, h'⟩
      rw [WorldOp.call, World.removeComponent, hfind]
      exact hcall
  | tagEntity id tag =>
      obtain ⟨db', T', hcall, h'⟩ := h.tagEntity hok tag
      exact ⟨db', M, N, T', hcall, h'⟩
  | untagEntity id tag =>
      obtain ⟨db', hcall, h'⟩ := h.untagEntity id tag
      exact ⟨db', M, N, T, hcall, h'⟩
  | getTaggedEntities tag =>
      obtain ⟨db', p, T', hcall, h', -⟩ := h.getTaggedEntities tag
      exact ⟨db', M, N, T', by rw [WorldOp.call, hcall, Option.map_some], h'⟩
  | findOrCreateReftable refName memory =>
      obtain ⟨db', p, N', hcall, h'⟩ := h.findOrCreateReftable hok memory
      exact ⟨db', M, N', T, by rw [WorldOp.call, hcall, Option.map_some], h'⟩
  | createReftable refName memory =>
      obtain ⟨db', p, N', hcall, h'⟩ := h.findOrCreateReftable hok memory
      exact ⟨db', M, N', T, by rw [WorldOp.call, World.createReftable, hcall, Option.map_some], h'⟩
  | addReference refName tail head =>
      obtain ⟨heads, hf⟩ := Option.ne_none_iff_exists'.mp hok.2.2
      obtain ⟨db', p, hfind, hcall, h'⟩ := h.useReferences hf (v := some head) (fun table => do
          let rt ← Reftable.add ⟨table⟩ tail head
          some rt.table) fun t ht => by
        have hhead : head < 256 ^ Reftable.entityIdSize := hok.2.1
        obtain ⟨t', ptr, heq, -, ht'⟩ := ht.add hok.1 hhead
        refine ⟨_, ?_, ht'⟩
        simp only [Reftable.add, heq, Option.bind_eq_bind, Option.bind_some]
        rfl
      refine ⟨db', M, N, T, ?_, h'⟩
      rw [WorldOp.call, World.addReference, hfind]
      exact hcall
  | removeReference refName tail head =>
      obtain ⟨heads, hf⟩ := Option.ne_none_iff_exists'.mp hok.2
      obtain ⟨db', p, hfind, hcall, h'⟩ := h.useReferences hf (v := none) (fun table => do
          let rt ← Reftable.remove ⟨table⟩ tail head
          some rt.table) fun t ht => by
        obtain ⟨t', heq, ht'⟩ := ht.destroy hok.1
        refine ⟨t', ?_, ht'⟩
        simp only [Reftable.remove, heq, Option.bind_eq_bind, Option.bind_some]
      refine ⟨db', M, N, T, ?_, h'⟩
      rw [WorldOp.call, World.removeReference, hfind]
      exact hcall
  | clearEntity id =>
      obtain ⟨db', hcall, h'⟩ := h.clearEntity hok
      exact ⟨db', M, N, T, hcall, h'⟩
  | clear =>
      obtain ⟨db', hcall, h'⟩ := h.clear hok
      exact ⟨db', ∅, ∅, ∅, hcall, h'⟩

end World.Contains

/-- The functions answer by the facts. -/
structure World.Answers (db : World) (A : Facts) : Prop where
  component : ∀ (name : CString) f, A.tables (hash name) = some f → ∀ id < invalidId,
    db.component name id = some (f.values id)
  hasTag : ∀ id (tag : CString), db.hasTag id tag = some (decide (id ∈ (A.tags (hash tag)).getD ∅))
  existsReference : ∀ (name : CString) heads, A.references (hash name) = some heads → ∀ tail < invalidId, ∀ head,
    db.existsReference name tail head = some (decide (heads tail = some head))

/-- **The answers.** -/
lemma World.Contains.answers {db : World} {A : Facts} {M N T : KeyMap ℕ} (h : db.Contains A M N T) : db.Answers A where
  component name f hf id hid := by
    have hat : A.tableAt (.inl (hash name)) = some f := hf
    obtain ⟨p, hk⟩ := h.handle hat
    have hp : M.lookup (hash name) = some p := hk
    obtain ⟨n, f', hn, -, hf', hholds⟩ := h.get hk
    obtain rfl := Option.some.inj (hf'.symm.trans hat)
    obtain ⟨ptr, hget, hvalue⟩ := hholds.get hid
    simp only [World.component, World.findTable, Database.findTable, getTableId, h.tables.get, hp, hn, hget, hvalue,
      Option.bind_eq_bind, Option.bind_some]
  hasTag id tag := by
    obtain ⟨db', p, T', hcall, h', hp⟩ := h.getTaggedEntities tag
    obtain ⟨bt, hbt, hrec⟩ := h'.bittables.get hp
    have hrel := h'.tag (hash tag)
    have htag : (A.setTag (hash tag) fun S => S).tags (hash tag) = some ((A.tags (hash tag)).getD ∅) :=
      Function.update_self ..
    rw [hrec, htag] at hrel
    obtain ⟨S, hS, hden⟩ := rel_some hrel
    obtain rfl := Option.some.inj hS
    simp only [World.hasTag, hcall, hbt, hden.existsId, Option.bind_eq_bind, Option.bind_some]
  existsReference name heads hf tail htail head := by
    have hat : A.tableAt (.inr (hash name)) = some (.ofHeads heads) := by
      rw [Facts.tableAt, Sum.elim_inr, hf, Option.map_some]
    obtain ⟨p, hk⟩ := h.handle hat
    have hp : N.lookup (hash name) = some p := hk
    obtain ⟨n, f', hn, -, hf', hholds⟩ := h.get hk
    obtain rfl := Option.some.inj (hf'.symm.trans hat)
    obtain ⟨ptr, hget, hvalue⟩ := hholds.get htail
    have hesize : n.table.esize = Reftable.entityIdSize := hholds.esize
    rw [hesize] at hvalue
    have hheads : heads tail = ptr.map (n.table.load Reftable.entityIdSize) := hvalue.symm
    simp only [World.existsReference, World.findReftable, h.references.get, hp, hn, Reftable.existsRef, hget, hheads,
      Option.bind_eq_bind, Option.bind_some]
    cases ptr <;> simp

/-- The runs of a database, with what is in it. -/
inductive WorldRun : World → Facts → Prop
  | init : WorldRun World.init Facts.empty
  | step {db db' : World} {A : Facts} (h : WorldRun db A) (op : WorldOp) (hok : op.Ok db A)
      (hcall : op.call db = some db') : WorldRun db' (op.act A)

/-- **A run** keeps the facts. -/
lemma WorldRun.contains {db : World} {A : Facts} (h : WorldRun db A) : ∃ M N T, db.Contains A M N T := by
  induction h with
  | init => exact ⟨∅, ∅, ∅, .init⟩
  | step _ op hok hcall ih =>
      obtain ⟨M, N, T, hc⟩ := ih
      obtain ⟨db', M', N', T', hcall', hc'⟩ := hc.step hok
      obtain rfl := Option.some.inj (hcall'.symm.trans hcall)
      exact ⟨M', N', T', hc'⟩

/-- A run can go on. -/
lemma WorldRun.extend {db : World} {A : Facts} (h : WorldRun db A) (op : WorldOp) (hok : op.Ok db A) :
    ∃ db', op.call db = some db' ∧ WorldRun db' (op.act A) := by
  obtain ⟨M, N, T, hc⟩ := h.contains
  obtain ⟨db', -, -, -, hcall, -⟩ := hc.step hok
  exact ⟨db', hcall, h.step op hok hcall⟩

/-- **After any run** the functions answer by what the calls have put in the database, and every further call succeeds
and changes what it is about. What `fdb_database_clear_entity` takes away are the components of the entity, in all tables:
the components of other entities stay, and so do all tags and references, those of the entity and to it included. -/
theorem world_refines {db : World} {A : Facts} (h : WorldRun db A) : db.Answers A
    ∧ (∀ op : WorldOp, op.Ok db A → ∃ db', op.call db = some db' ∧ db'.Answers (op.act A))
    ∧ ∀ id < invalidId, ∃ db', db.clearEntity id = some db'
      ∧ (∀ (name : CString), A.tables (hash name) ≠ none → ∀ i < invalidId,
        db'.component name i = if i = id then some none else db.component name i)
      ∧ (∀ i tag, db'.hasTag i tag = db.hasTag i tag)
      ∧ ∀ (name : CString), A.references (hash name) ≠ none → ∀ tail < invalidId, ∀ head,
        db'.existsReference name tail head = db.existsReference name tail head := by
  obtain ⟨M, N, T, hc⟩ := h.contains
  have hanswers := hc.answers
  refine ⟨hanswers, fun op hok => ?_, fun id hid => ?_⟩
  · obtain ⟨db', M', N', T', hcall, hc'⟩ := hc.step hok
    exact ⟨db', hcall, hc'.answers⟩
  · obtain ⟨db', hcall, hc'⟩ := hc.clearEntity hid
    have hanswers' := hc'.answers
    refine ⟨db', hcall, fun name hname i hi => ?_, fun i tag => ?_, fun name hname tail htail head => ?_⟩
    · obtain ⟨f, hf⟩ := Option.ne_none_iff_exists'.mp hname
      have hf' : (A.clearEntity id).tables (hash name) = some (f.set id none) := by
        show (A.tables (hash name)).map (fun f => f.set id none) = _
        rw [hf, Option.map_some]
      have hvalue : (f.set id none).values i = if i = id then none else f.values i := Function.update_apply ..
      rw [hanswers'.component name _ hf' i hi, hanswers.component name f hf i hi, hvalue]
      split <;> rfl
    · rw [hanswers'.hasTag, hanswers.hasTag]
      rfl
    · obtain ⟨heads, hf⟩ := Option.ne_none_iff_exists'.mp hname
      rw [hanswers'.existsReference name heads hf tail htail, hanswers.existsReference name heads hf tail htail]

/-- The name of a table, of a reference and of a tag. -/
def crewName : CString := ⟨[67, 114, 101, 119], by decide⟩

theorem world_refines_crew : ∃ db db' : World, db.component crewName 5 = some (some 7)
    ∧ db.existsReference crewName 5 9 = some true ∧ db.hasTag 5 crewName = some true
    ∧ db.clearEntity 5 = some db' ∧ db'.component crewName 5 = some none
    ∧ db'.existsReference crewName 5 9 = some true ∧ db'.hasTag 5 crewName = some true := by
  have hlen : crewName.strlen < maxTableName := by decide
  obtain ⟨db₁, -, h₁⟩ := WorldRun.init.extend (.createTable crewName 4 false fun _ => 0) ⟨hlen, by decide⟩
  obtain ⟨db₂, -, h₂⟩ := h₁.extend (.addComponent crewName 5 7)
    ⟨by decide, ⟨4, false, fun _ => none⟩, by simp [WorldOp.act, Facts.addTable, Facts.empty], by simp⟩
  obtain ⟨db₃, -, h₃⟩ := h₂.extend (.createReftable crewName fun _ => 0) hlen
  obtain ⟨db₄, -, h₄⟩ := h₃.extend (.addReference crewName 5 9)
    ⟨by decide, by decide, by simp [WorldOp.act, Facts.addReferences]⟩
  obtain ⟨db₅, -, h₅⟩ := h₄.extend (.tagEntity 5 crewName) (show 5 < 2 ^ 32 by decide)
  obtain ⟨⟨hcomponent, htag, hreference⟩, -, hclear⟩ := world_refines h₅
  obtain ⟨db₆, hcall, hcomponent', htag', hreference'⟩ := hclear 5 (by decide)
  have hvalue : db₅.component crewName 5 = some (some 7) :=
    (hcomponent crewName ⟨4, false, Function.update (fun _ => none) 5 (some 7)⟩
      (by simp [WorldOp.act, Facts.addReferences, Facts.setReference, Facts.setTag, Facts.setComponent, Facts.addTable,
        Facts.empty, TableFacts.set]) 5 (by decide)).trans (by simp)
  have hhead : db₅.existsReference crewName 5 9 = some true := by
    rw [hreference crewName (Function.update (fun _ => none) 5 (some 9))
      (by simp [WorldOp.act, Facts.addReferences, Facts.setReference, Facts.setTag, Facts.setComponent, Facts.addTable,
        Facts.empty]) 5 (by decide), Function.update_self, decide_eq_true rfl]
  have htagged : db₅.hasTag 5 crewName = some true := by
    rw [htag]
    simp [WorldOp.act, Facts.setTag]
  refine ⟨db₅, db₆, hvalue, hhead, htagged, hcall, ?_, ?_, (htag' 5 crewName).trans htagged⟩
  · rw [hcomponent' crewName (by simp [WorldOp.act, Facts.addReferences, Facts.setReference, Facts.setTag,
      Facts.setComponent, Facts.addTable, Facts.empty]) 5 (by decide), if_pos rfl]
  · rw [hreference' crewName (by simp [WorldOp.act, Facts.addReferences, Facts.setReference, Facts.setTag,
      Facts.setComponent, Facts.addTable, Facts.empty]) 5 (by decide), hhead]

end Furious
