import Furious.Data.CascadeTask

/-!
All runs of the task of a cascading gather.

If no name is in the way, all threads go through the code side by side, in whichever order they take their steps, and
the rounds of all of them together are those of a single thread.

* `frontier`: the frontiers, `exists_rounds`: all threads in front of each round;
* `CascTask.course`: the way of all threads, phase by phase;
* `CascOp.Valid`: what the code relies on, `RunsTo`: what is to be expected of all runs;
* `not_runsTo`: no run comes to an end if the name of a temporary table is taken;
* `cascade_threads`: **many threads run to what one thread runs to**.
-/

namespace Furious

/-! ### The parts of the reference table -/

section Parts

variable {op : CascOp} {hashTables : List (BTree BCluster)} {chunkSize stride : ℕ} {refs : List RefBlock}
  {tables : List Table} {L : List (ℕ × ℕ)} {expanded : List Expanded} {clusters : List BCluster}

/-- **The part of a thread.** -/
lemma consumeRefs_spec (hexp : Expansion op.expanded op.clusters)
    (hserves : ∀ b < numBlocks, Serves hashTables op.clusters chunkSize stride b)
    (hrefs : (refs.map RefBlock.start).Nodup) (hfills : Fills op.expanded tables []) :
    ∃ t, refs.foldlM (CascThread.consumeRefs op hashTables chunkSize stride) (CascThread.init tables) = some t
      ∧ t.refs = refs ∧ t.current = Bittable.init ∧ Found (t.next, t.blacklist) (refs.flatMap RefBlock.edges)
      ∧ Fills op.expanded t.tables (entries op.clusters (refs.flatMap RefBlock.edges)) := by
  refine foldlM_spec (fun done (t : CascThread) => t.refs = done ∧ t.current = Bittable.init
      ∧ Found (t.next, t.blacklist) (done.flatMap RefBlock.edges)
      ∧ Fills op.expanded t.tables (entries op.clusters (done.flatMap RefBlock.edges))) refs
    ⟨rfl, rfl, ⟨Denotes.init, Denotes.init⟩, hfills⟩ fun done block rest t hl ⟨hdone, hcurrent, hfound, htables⟩ => ?_
  have hnd := nodup_sources hrefs
  rw [hl, List.flatMap_append, List.flatMap_cons, ← List.append_assoc, List.map_append] at hnd
  obtain ⟨⟨next, blacklist⟩, hfind, hfound'⟩ := findRootsAndBlacklist_spec hfound block
  obtain ⟨tables', hgather, htables'⟩ := htables.gather hexp hserves block (List.nodup_append.mp hnd).1
  refine ⟨{ t with refs := t.refs ++ [block], tables := tables', blacklist := blacklist, next := next },
    ?_, by rw [hdone], hcurrent, ?_, ?_⟩
  · simp only [CascThread.consumeRefs, hfind, hgather, Option.bind_eq_bind, Option.bind_some]
  · rw [List.flatMap_append, List.flatMap_singleton]
    exact hfound'
  · rw [List.flatMap_append, List.flatMap_singleton]
    exact htables'

/-- The blocks of the temporary tables. -/
lemma Fills.agree (h : Fills expanded tables L) :
    Agree tables fun b => decide (∃ s ∈ sources L, s / tableBlockSize = b) := by
  intro t ht
  obtain ⟨i, hi⟩ := List.getElem?_of_mem ht
  obtain ⟨e, -, hfilled⟩ := h.get hi
  exact ⟨hfilled.sound, fun b => by rw [Bool.eq_iff_iff, hfilled.blocks, decide_eq_true_eq]⟩

/-- The sources of a block with a target that is there. -/
lemma sources_entries_block {block : RefBlock} (hrefs : (refs.map RefBlock.start).Nodup) (hblock : block ∈ refs) :
    (∃ s ∈ sources (entries clusters (refs.flatMap RefBlock.edges)), s / tableBlockSize = block.start / tableBlockSize)
      ↔ block.hits (reaches clusters) = true := by
  rw [RefBlock.hits, List.any_eq_true]
  constructor
  · rintro ⟨s, hs, hnumber⟩
    obtain ⟨target, hmem⟩ := mem_sources.mp hs
    obtain ⟨hedge, hreach⟩ := mem_entries.mp hmem
    obtain ⟨block', hblock', hedge⟩ := List.mem_flatMap.mp hedge
    have hstart := RefBlock.start_of_mem hedge
    dsimp only at hstart
    obtain rfl : block' = block := eq_of_block hrefs hblock' hblock (by
      rw [← hstart, Nat.mul_div_cancel _ (by decide), hnumber])
    exact ⟨_, hedge, hreach⟩
  · rintro ⟨⟨s, target⟩, hedge, hreach⟩
    refine ⟨s, mem_sources.mpr ⟨target, mem_entries.mpr ⟨List.mem_flatMap.mpr ⟨block, hblock, hedge⟩, hreach⟩⟩, ?_⟩
    have hstart := RefBlock.start_of_mem hedge
    dsimp only at hstart
    rw [← hstart, Nat.mul_div_cancel _ (by decide)]

/-- The temporary tables have the blocks with a target that is there. -/
lemma serves_of_fills (hne : expanded ≠ []) (hrefs : (refs.map RefBlock.start).Nodup)
    (htables : Fills expanded tables (entries clusters (refs.flatMap RefBlock.edges))) {block : RefBlock}
    (hblock : block ∈ refs) : serves tables (block.start / tableBlockSize) = block.hits (reaches clusters) := by
  have hne' : tables ≠ [] := by
    rintro rfl
    exact hne (List.forall₂_nil_right_iff.mp htables)
  rw [Bool.eq_iff_iff, htables.agree.serves_eq, and_iff_right hne', decide_eq_true_eq,
    sources_entries_block hrefs hblock]

/-- **The references of a thread** that take part. -/
lemma links_of_fills {t : CascThread} (hne : expanded ≠ []) (hrefs : (refs.map RefBlock.start).Nodup)
    (ht : t.refs = refs) (htables : Fills expanded t.tables (entries clusters (refs.flatMap RefBlock.edges))) :
    t.links = hitEdges (reaches clusters) refs := by
  rw [CascThread.links, hitEdges, ht]
  exact congrArg _ (List.filter_congr fun block hblock => serves_of_fills hne hrefs htables hblock)

end Parts

/-! ### The frontiers -/

/-- The frontier in front of each round. -/
def frontier (E : List (ℕ × ℕ)) (F : Finset ℕ) : ℕ → Finset ℕ
  | 0 => F
  | m + 1 => (puts E (frontier E F m)).toFinset

lemma coe_frontier (E : List (ℕ × ℕ)) (F : Finset ℕ) (m : ℕ) : (frontier E F m : Set ℕ) = linkLayer E F m := by
  induction m with
  | zero => rfl
  | succ m ih =>
      rw [frontier, ← linkLayer_one, linkLayer, ih]
      rfl

/-- The frontiers depend on which links there are. -/
lemma frontier_perm {E E' : List (ℕ × ℕ)} (h : E.Perm E') (F : Finset ℕ) (m : ℕ) :
    frontier E F m = frontier E' F m := by
  rw [← Finset.coe_inj, coe_frontier, coe_frontier, linkLayer_perm h]

section Rounds

variable {n : ℕ} {E : List (ℕ × ℕ)} {F : Finset ℕ} {t x : Fin n → CascThread} {m : ℕ}

/-- The threads in front of a round: each with its own references and tables, and all with one frontier. -/
def AtRound (t : Fin n → CascThread) (F : Finset ℕ) (x : Fin n → CascThread) : Prop :=
  ∀ i, (x i).refs = (t i).refs ∧ (x i).tables = (t i).tables ∧ (x i).Ready F

/-- **A round** of all threads: each expands the frontier, then it makes the next one. -/
structure IsRound (t : Fin n → CascThread) (F : Finset ℕ) (x : Fin n → CascThread)
    (e : Fin n → CascThread × List Cluster) (y : Fin n → CascThread) : Prop where
  expand : ∀ i, (x i).expand = some (e i)
  refs : ∀ i, (e i).1.refs = (t i).refs
  built : ∀ i, List.Forall₂ (Cluster.Built (t i).tables · F) (t i).refs (e i).2
  unite : ∀ i, ∃ c c', (e i).1.current.clear = some c
    ∧ frontiersUnion (List.ofFn fun j => (e j).1.next) c = some c' ∧ y i = { (e i).1 with current := c' }

lemma links_ofFn (x : Fin n → CascThread) : links (List.ofFn x) = (List.ofFn fun i => (x i).links).flatten := by
  rw [links, List.flatMap_def, List.map_ofFn]
  rfl

/-- A round leads to the next frontier. -/
lemma AtRound.next (hE : links (List.ofFn t) = E) (hnd : (E.map Prod.fst).Nodup) (h : AtRound t F x) :
    ∃ e y, IsRound t F x e y ∧ AtRound t (puts E F).toFinset y := by
  have hlinks : ∀ i, (x i).links = (t i).links := fun i => by
    rw [CascThread.links, (h i).1, (h i).2.1, CascThread.links]
  have hall : links (List.ofFn x) = E := by
    rw [← hE, links_ofFn, links_ofFn]
    exact congrArg (fun l => (List.ofFn l).flatten) (funext hlinks)
  have hready : ∀ t' ∈ List.ofFn x, t'.Ready F := fun t' ht' => by
    obtain ⟨i, rfl⟩ := List.mem_ofFn.mp ht'
    exact (h i).2.2
  obtain ⟨threads', clusters, hround, -, hready', -⟩ := round_spec hready (hall ▸ hnd.sublist (puts_sublist _ _))
  obtain ⟨e, y, rfl, -, hexp, hunite⟩ := CascState.round_ofFn hround
  -- what a thread keeps when it expands the frontier
  have hexpand : ∀ i, (e i).1.refs = (t i).refs ∧ (e i).1.tables = (t i).tables
      ∧ List.Forall₂ (Cluster.Built (t i).tables · F) (t i).refs (e i).2 := fun i => by
    have hmem : (puts (x i).links F).Sublist (E.map Prod.fst) := by
      refine (puts_sublist _ _).trans (List.Sublist.map Prod.fst ?_)
      rw [← hall, links_ofFn]
      exact List.sublist_flatten_of_mem (List.mem_ofFn.mpr ⟨i, rfl⟩)
    obtain ⟨t', clusters', hexp', hrefs, htables, -, -, hbuilt⟩ :=
      CascThread.expand_spec (h i).2.2 (hnd.sublist hmem)
    obtain ⟨rfl, rfl⟩ := Prod.mk.inj (Option.some.inj ((hexp i).symm.trans hexp'))
    rw [(h i).1, (h i).2.1] at hbuilt
    exact ⟨hrefs.trans (h i).1, htables.trans (h i).2.1, hbuilt⟩
  refine ⟨e, y, ⟨hexp, fun i => (hexpand i).1, fun i => (hexpand i).2.2, hunite⟩, fun i => ?_⟩
  obtain ⟨c, c', -, -, hy⟩ := hunite i
  have hyi := hready' (y i) (List.mem_ofFn.mpr ⟨i, rfl⟩)
  rw [hall] at hyi
  rw [hy] at hyi ⊢
  exact ⟨(hexpand i).1, (hexpand i).2.1, hyi⟩

/-- **All rounds**, as many as one likes. -/
theorem exists_rounds (hE : links (List.ofFn t) = E) (hnd : (E.map Prod.fst).Nodup) (h : ∀ i, (t i).Ready F) :
    ∃ (x : ℕ → Fin n → CascThread) (e : ℕ → Fin n → CascThread × List Cluster), x 0 = t
      ∧ ∀ m, AtRound t (frontier E F m) (x m) ∧ IsRound t (frontier E F m) (x m) (e m) (x (m + 1)) := by
  have hstep : ∀ m (x : {x // AtRound t (frontier E F m) x}), ∃ (e : Fin n → CascThread × List Cluster)
      (y : {y // AtRound t (frontier E F (m + 1)) y}), IsRound t (frontier E F m) x.1 e y.1 := fun m x => by
    obtain ⟨e, y, hround, hy⟩ := x.2.next hE hnd
    exact ⟨e, ⟨y, hy⟩, hround⟩
  choose e y hround using hstep
  let x : ∀ m, {x // AtRound t (frontier E F m) x} := fun m =>
    Nat.rec ⟨t, fun i => ⟨rfl, rfl, h i⟩⟩ (fun m x => y m x) m
  exact ⟨fun m => (x m).1, fun m => e m (x m), rfl, fun m => ⟨(x m).2, hround m (x m)⟩⟩

end Rounds

/-! ### The way of a thread -/

/-- The temporary tables that a thread creates. -/
def CascOp.temps (op : CascOp) (args : CascArgs) (stride offset : ℕ) : List Table :=
  (op.call args stride offset).names.map fun name => Table.init tempSize false (args.memory offset name)

namespace CascTask

variable {n : ℕ} {op : CascOp} {args : CascArgs} {σ : Fin n → CascTask} {s : CascTask}

/-- The child. -/
lemma between_child {rest : List BCluster} {ht ht' : BTree BCluster}
    (h : rest.foldlM Gather.consumeGather ht = some ht') :
    Between (next op args .own) σ { s with pc := .child rest, hashTable := ht }
      { s with pc := .child [], hashTable := ht' } := by
  induction rest generalizing ht with
  | nil =>
      obtain rfl := Option.some.inj h
      exact .refl
  | cons cluster rest ih =>
      rw [List.foldlM_cons] at h
      obtain ⟨u, hu, hrest⟩ := Option.bind_eq_some_iff.mp h
      refine .head ?_ (ih hrest)
      simp only [next, hu, Option.bind_eq_bind, Option.bind_some]

/-- The temporary tables. -/
lemma between_create {names : List CString} {tables : List Table} :
    Between (next op args .own) σ { s with pc := .create names, thread := { s.thread with tables := tables } }
      { s with pc := .create [], thread := { s.thread with
          tables := tables ++ names.map fun name => Table.init tempSize false (args.memory s.offset name) } } := by
  induction names generalizing tables with
  | nil =>
      rw [List.map_nil, List.append_nil]
      exact .refl
  | cons name names ih =>
      refine .head (b := { s with pc := .create names, thread := { s.thread with
        tables := tables ++ [Table.init tempSize false (args.memory s.offset name)] } }) rfl ?_
      rw [List.map_cons, List.append_cons tables _ (List.map _ names)]
      exact ih

/-- The pointers to the hash tables. -/
lemma between_tables {m : ℕ} (hm : m ≤ n) :
    Between (next op args .own) σ { s with pc := .findTables 0, hashTables := [] }
      { s with pc := .findTables m, hashTables := pointers .hashTable m } := by
  induction m with
  | zero => exact .refl
  | succ m ih =>
      refine (ih (Nat.le_of_succ_le hm)).tail ?_
      have hlt : m < n := hm
      simp only [next, hlt, if_true, Replies.own, Option.bind_eq_bind, Option.bind_some, pointers_succ]

/-- The reference table. -/
lemma between_consume {rest : List RefBlock} {t t' : CascThread} {hts : List (BTree BCluster)}
    (hs : s.hashTables = pointers .hashTable n) (hσ : (List.ofFn σ).map hashTable = hts)
    (h : rest.foldlM (CascThread.consumeRefs op hts args.chunkSize n) t = some t') :
    Between (next op args .own) σ { s with pc := .consume rest, thread := t }
      { s with pc := .consume [], thread := t' } := by
  induction rest generalizing t with
  | nil =>
      obtain rfl := Option.some.inj h
      exact .refl
  | cons block rest ih =>
      rw [List.foldlM_cons] at h
      obtain ⟨u, hu, hrest⟩ := Option.bind_eq_some_iff.mp h
      refine .head ?_ (ih hrest)
      simp only [next, hs, mapM_deref, hσ, hu, Option.bind_eq_bind, Option.bind_some]

/-- The pointers to the lists. -/
lemma between_lists {m : ℕ} (hm : m ≤ n) :
    Between (next op args .own) σ { s with pc := .findLists 0, blacklists := [], nextFrontiers := [] }
      { s with
        pc := .findLists m, blacklists := pointers .blacklist m, nextFrontiers := pointers .nextFrontier m } := by
  induction m with
  | zero => exact .refl
  | succ m ih =>
      refine (ih (Nat.le_of_succ_le hm)).tail ?_
      have hlt : m < n := hm
      simp only [next, hlt, if_true, Replies.own, Option.bind_eq_bind, Option.bind_some, pointers_succ]

/-- A phase in the loop. -/
lemma alone_inLoop (hs : s.Has n n) {steps : ℕ} {a b : CascState}
    (h : Alone (CascState.next fun _ => false) (fun i => ⟨.test, (σ i).thread, []⟩) steps a b) :
    Alone (next op args .own) σ steps (s.inLoop a) (s.inLoop b) := by
  have hnext : ∀ a, next op args .own σ (s.inLoop a)
      = (CascState.next (fun _ => false) (fun i => ⟨.test, (σ i).thread, []⟩) a).map (Move.map s.inLoop) :=
    fun a => next_loop (s := s.inLoop a) ⟨hs.1, hs.2, hs.3⟩ rfl
  induction steps generalizing a with
  | zero =>
      have ha : CascState.next (fun _ => false) (fun i => ⟨.test, (σ i).thread, []⟩) a = some (.wait b) := h
      rw [Alone, hnext, ha]
      rfl
  | succ steps ih =>
      obtain ⟨a', ha', hrest⟩ := h
      exact ⟨s.inLoop a', by rw [hnext, ha']; rfl, ih hrest⟩

/-- Behind the test of the loop the current frontier stays as it is up to the next barrier. -/
lemma between_current {k : ℕ} {a b : CascTask} (ha : a.In n k) (hk : 4 ≤ k) (heven : k % 2 = 0)
    (h : Between (next op args .own) σ a b) : b.thread.current = a.thread.current ∧ b.rounds = a.rounds := by
  induction h with
  | refl => exact ⟨rfl, rfl⟩
  | @tail b c hb hwork ih =>
      refine And.imp (fun hc => Eq.trans hc ih.1) (fun hc => Eq.trans hc ih.2) ?_
      have hin : b.In n k := ((phased op args).between_view ha hb).1
      obtain ⟨pc, offset, hashTable, hashTables, blacklists, nextFrontiers, thread, rounds⟩ := b
      cases pc with
      | loop pc =>
          obtain ⟨-, hpc, hhas⟩ : 3 ≤ k ∧ pc.In (k - 1) ∧ _ := hin
          rw [next_loop hhas rfl] at hwork
          obtain ⟨m, hm, hwork⟩ := Option.map_eq_some_iff.mp hwork
          cases m with
          | wait t => cases hwork
          | work t =>
              obtain rfl := Move.work.inj hwork
              exact CascState.next_current hpc (by omega) (by omega) hm
      | _ =>
          have hsmall : k ≤ 2 := by
            have := hin.1
            omega
          omega

/-! ### The course -/

/-- The rounds of a thread in front of round `m`. -/
def before (e : ℕ → Fin n → CascThread × List Cluster) (m : ℕ) (i : Fin n) : List (List Cluster) :=
  (List.range m).map fun j => (e j i).2

lemma before_succ (e : ℕ → Fin n → CascThread × List Cluster) (m : ℕ) (i : Fin n) :
    before e (m + 1) i = before e m i ++ [(e m i).2] := by
  rw [before, List.range_succ, List.map_append]
  rfl

/-- **The way of all threads**, with their hash tables and temporary tables, what they have consumed, and what they are
in front of each round and in the middle of it. -/
def course (hts : Fin n → BTree BCluster) (tables : Fin n → List Table) (t : Fin n → CascThread)
    (x : ℕ → Fin n → CascThread) (e : ℕ → Fin n → CascThread × List Cluster) : ℕ → Fin n → CascTask
  | 0, i => init i
  | 1, i => ⟨.findTables 0, i, hts i, [], [], [], CascThread.init (tables i), []⟩
  | 2, i => ⟨.findLists 0, i, hts i, pointers .hashTable n, [], [], t i, []⟩
  | 3, i => ⟨.loop (.first 0), i, hts i, pointers .hashTable n, pointers .blacklist n, pointers .nextFrontier n,
      t i, []⟩
  | k + 4, i => inLoop ⟨.loop .test, i, hts i, pointers .hashTable n, pointers .blacklist n, pointers .nextFrontier n,
        t i, []⟩
      (if k % 2 = 0 then ⟨.test, x (k / 2) i, before e (k / 2) i⟩
        else ⟨.empty, (e (k / 2) i).1, before e (k / 2 + 1) i⟩)

section Ways

variable {hts : Fin n → BTree BCluster} {tables : Fin n → List Table} {t : Fin n → CascThread}
  {x : ℕ → Fin n → CascThread} {e : ℕ → Fin n → CascThread × List Cluster} {i : Fin n}

lemma course_test (m : ℕ) (i : Fin n) : course hts tables t x e (2 * m + 4) i
    = ⟨.loop .test, i, hts i, pointers .hashTable n, pointers .blacklist n, pointers .nextFrontier n, x m i,
      before e m i⟩ := by
  simp only [course, Nat.mul_mod_right, if_true, Nat.mul_div_cancel_left m Nat.two_pos, inLoop]

lemma course_empty (m : ℕ) (i : Fin n) : course hts tables t x e (2 * m + 1 + 4) i
    = ⟨.loop .empty, i, hts i, pointers .hashTable n, pointers .blacklist n, pointers .nextFrontier n, (e m i).1,
      before e (m + 1) i⟩ := by
  have hmod : (2 * m + 1) % 2 = 1 := by omega
  have hdiv : (2 * m + 1) / 2 = m := by omega
  simp only [course, hmod, one_ne_zero, if_false, hdiv, inLoop]

/-- Up to the first barrier. -/
lemma alone_tables (hhts : (Gather.scan BCluster.start args.chunkSize n op.clusters i).foldlM Gather.consumeGather
      BTree.init = some (hts i))
    (htables : tables i = op.temps args n i) :
    ∃ steps, Alone (next op args .own) σ steps (course hts tables t x e 0 i) (course hts tables t x e 1 i) := by
  have hchild : Between (next op args .own) σ (init i)
      { init i with pc := .create (op.call args n i).names, hashTable := hts i } :=
    .head rfl ((between_child (s := init i) hhts).tail rfl)
  refine Between.alone (hchild.trans (between_create (s := { init i with hashTable := hts i }))) ⟨0, ?_⟩
  rw [List.nil_append, course, htables]
  rfl

/-- Up to the second barrier. -/
lemma alone_consume (hσ : (List.ofFn σ).map hashTable = List.ofFn hts)
    (ht : (Gather.scan RefBlock.start args.chunkSize n op.blocks i).foldlM
      (CascThread.consumeRefs op (List.ofFn hts) args.chunkSize n) (CascThread.init (tables i)) = some (t i)) :
    ∃ steps, Alone (next op args .own) σ steps (course hts tables t x e 1 i) (course hts tables t x e 2 i) := by
  have hfind : Between (next op args .own) σ _ _ := between_tables (s := course hts tables t x e 1 i) le_rfl
  have hfound : next op args .own σ { course hts tables t x e 1 i with
      pc := .findTables n, hashTables := pointers .hashTable n } = some (.work { course hts tables t x e 1 i with
        pc := .consume (Gather.scan RefBlock.start args.chunkSize n op.blocks i),
        hashTables := pointers .hashTable n }) := by
    simp only [next, lt_irrefl, if_false]
    rfl
  have hconsume : Between (next op args .own) σ _ _ :=
    between_consume (s := { course hts tables t x e 1 i with hashTables := pointers .hashTable n }) rfl hσ ht
  exact Between.alone ((hfind.tail hfound).trans hconsume) ⟨2, _, rfl, _, rfl, rfl⟩

/-- Up to the third barrier. -/
lemma alone_lists : ∃ steps, Alone (next op args .own) σ steps (course hts tables t x e 2 i)
    (course hts tables t x e 3 i) := by
  have hfind : Between (next op args .own) σ _ _ := between_lists (s := course hts tables t x e 2 i) le_rfl
  refine hfind.alone ⟨0, ?_⟩
  simp only [Alone, next, lt_irrefl, if_false]
  rfl

/-- Up to the loop. -/
lemma alone_first {c c' : Bittable} (hunion : frontiersUnion (List.ofFn fun j => (t j).next) (t i).current = some c)
    (hfilter : filterBlacklists (List.ofFn fun j => (t j).blacklist) c = some c')
    (hx : x 0 i = { t i with current := c' }) :
    ∃ steps, Alone (next op args .own) (course hts tables t x e 3) steps (course hts tables t x e 3 i)
      (course hts tables t x e (2 * 0 + 4) i) := by
  have hfirst : ∃ steps, Alone (CascState.next fun _ => false) (fun j => (⟨.test, t j, []⟩ : CascState)) steps
      ⟨.first 0, t i, []⟩ ⟨.test, { t i with current := c' }, []⟩ := CascState.alone_first hunion hfilter
  obtain ⟨steps, hsteps⟩ := hfirst
  refine ⟨steps, ?_⟩
  rw [course_test, hx]
  exact alone_inLoop (σ := course hts tables t x e 3) (s := course hts tables t x e 3 i) ⟨rfl, rfl, rfl⟩ hsteps

/-- The first half of a round. -/
lemma alone_expand (m : ℕ) (hsize : 0 < (x m i).current.size) (hexpand : (x m i).expand = some (e m i)) :
    ∃ steps, Alone (next op args .own) (course hts tables t x e (2 * m + 4)) steps
      (course hts tables t x e (2 * m + 4) i) (course hts tables t x e (2 * m + 1 + 4) i) := by
  have hfirst : ∃ steps, Alone (CascState.next fun _ => false) (fun j => (⟨.test, x m j, []⟩ : CascState)) steps
      ⟨.test, x m i, before e m i⟩ ⟨.empty, (e m i).1, before e m i ++ [(e m i).2]⟩ :=
    CascState.alone_expand hsize hexpand
  obtain ⟨steps, hsteps⟩ := hfirst
  refine ⟨steps, ?_⟩
  have hσ : (fun j => (⟨.test, (course hts tables t x e (2 * m + 4) j).thread, []⟩ : CascState))
      = fun j => ⟨.test, x m j, []⟩ := funext fun j => by rw [course_test]
  rw [course_test, course_empty, before_succ]
  exact alone_inLoop (σ := course hts tables t x e (2 * m + 4)) (s := course hts tables t x e 3 i) ⟨rfl, rfl, rfl⟩
    (hσ ▸ hsteps)

/-- The second half of a round. -/
lemma alone_unite (m : ℕ) {c c' : Bittable} (hclear : (e m i).1.current.clear = some c)
    (hunion : frontiersUnion (List.ofFn fun j => (e m j).1.next) c = some c')
    (hx : x (m + 1) i = { (e m i).1 with current := c' }) :
    ∃ steps, Alone (next op args .own) (course hts tables t x e (2 * m + 1 + 4)) steps
      (course hts tables t x e (2 * m + 1 + 4) i) (course hts tables t x e (2 * (m + 1) + 4) i) := by
  have hsecond : ∃ steps, Alone (CascState.next fun _ => false) (fun j => (⟨.test, (e m j).1, []⟩ : CascState)) steps
      ⟨.empty, (e m i).1, before e (m + 1) i⟩ ⟨.test, { (e m i).1 with current := c' }, before e (m + 1) i⟩ :=
    CascState.alone_unite hclear hunion
  obtain ⟨steps, hsteps⟩ := hsecond
  refine ⟨steps, ?_⟩
  have hσ : (fun j => (⟨.test, (course hts tables t x e (2 * m + 1 + 4) j).thread, []⟩ : CascState))
      = fun j => ⟨.test, (e m j).1, []⟩ := funext fun j => by rw [course_empty]
  rw [course_test, course_empty, hx]
  exact alone_inLoop (σ := course hts tables t x e (2 * m + 1 + 4)) (s := course hts tables t x e 3 i) ⟨rfl, rfl, rfl⟩
    (hσ ▸ hsteps)

end Ways

/-- What a thread has processed in a round, by the frontier. -/
lemma processed_eq {t : CascThread} {F : Finset ℕ} {clusters : List Cluster} {m : ℕ} (hrefs : s.thread.refs = t.refs)
    (hrounds : s.rounds.getD m [] = clusters)
    (hids : clusters.map Cluster.ids = t.refs.map fun block => blockPuts t.tables block F) :
    s.processed m = t.links.filter fun e => decide (e.2 ∈ F) := by
  have hblock : ∀ block : RefBlock, (block.edges.filter fun e => decide (e.1 ∈ blockPuts t.tables block F))
      = if serves t.tables (block.start / tableBlockSize) = true then block.edges.filter fun e => decide (e.2 ∈ F)
        else [] := by
    intro block
    rw [blockPuts]
    split_ifs
    · refine List.filter_congr fun e he => decide_eq_decide.mpr ⟨fun hput => ?_, fun htarget => ?_⟩
      · obtain ⟨target, hedge, htarget⟩ := mem_puts.mp hput
        rwa [List.inj_on_of_nodup_map block.nodup_edges he hedge rfl]
      · exact mem_puts.mpr ⟨e.2, he, htarget⟩
    · simp
  have hzip : ∀ (refs : List RefBlock) (clusters : List Cluster),
      clusters.map Cluster.ids = refs.map (fun block => blockPuts t.tables block F) →
      List.zipWith (fun block cluster => block.edges.filter fun e => decide (e.1 ∈ Cluster.ids cluster)) refs clusters
        = refs.map fun block => block.edges.filter fun e => decide (e.1 ∈ blockPuts t.tables block F) := by
    intro refs
    induction refs with
    | nil => intro clusters _; rfl
    | cons block refs ih =>
        intro clusters hmap
        cases clusters with
        | nil => cases hmap
        | cons cluster clusters =>
            rw [List.map_cons, List.map_cons, List.cons.injEq] at hmap
            rw [List.zipWith_cons_cons, List.map_cons, ih clusters hmap.2, hmap.1]
  rw [processed, hrefs, hrounds, hzip t.refs clusters hids, CascThread.links, List.filter_flatMap, ← List.flatMap_def]
  simp only [hblock]
  induction t.refs with
  | nil => rfl
  | cons block refs ih =>
      rw [List.flatMap_cons, List.filter_cons, ih]
      split_ifs with hserves
      · rw [List.flatMap_cons]
      · rfl

end CascTask

/-! ### What all runs have in common -/

/-- What the code relies on: clusters of the blocks of the expanded tables, of which there is one for each column, and
distinct blocks of the reference table. -/
structure CascOp.Valid (op : CascOp) : Prop where
  expansion : Expansion op.expanded op.clusters
  columns : op.columns.length = op.expanded.length
  expanded_ne : op.expanded ≠ []
  starts : (op.blocks.map RefBlock.start).Nodup
  start_lt : ∀ block ∈ op.blocks, block.start < 2 ^ 32

/-- The store before the task: a registry, and a database with tables under the hashes of `taken`. -/
structure Store.Holds (store : Store) (taken : Set ℕ) : Prop where
  registry : ∃ M, Keyed store.registry.registry M
  tables : Occupied store.db taken

/-- The task is at its end: all threads leave the loop together, after the same rounds, and with as many barriers behind
them. -/
def TaskConfig.Ended {n : ℕ} (c : TaskConfig n) (rounds waits : ℕ) : Prop :=
  ∀ i, (c.procs i).waiting = false ∧ (c.procs i).reached = waits ∧ (c.procs i).state.pc = .loop .test
    ∧ (c.procs i).state.thread.current.size = 0 ∧ (c.procs i).state.rounds.length = rounds

/-- The references that all threads have processed in a round. -/
def TaskConfig.processed {n : ℕ} (c : TaskConfig n) (m : ℕ) : List (ℕ × ℕ) :=
  (List.ofFn fun i => (c.procs i).state.processed m).flatten

/-- **What is to be expected of all runs** with `n` threads: a thread in front of round `m` has the frontier `F m`, and
every run can be continued to an end, always after as many steps, at which so many rounds have been gone through, and
have processed these references. -/
structure RunsTo (op : CascOp) (args : CascArgs) (n : ℕ) (store : Store) (F : ℕ → Finset ℕ) (rounds : ℕ)
    (triples : ℕ → List (ℕ × ℕ)) : Prop where
  tests : ∀ steps c, Steps (TaskStep op args) steps (TaskConfig.init n store) c →
    ∀ i, (c.procs i).state.pc = .loop .test → ∀ id, (c.procs i).state.thread.current.existsId id
      = some (decide (id ∈ F (c.procs i).state.rounds.length))
  ends : ∃ total waits, ∀ steps c, Steps (TaskStep op args) steps (TaskConfig.init n store) c →
    ∃ rest c', total = steps + rest ∧ Steps (TaskStep op args) rest c c' ∧ c'.Ended rounds waits
      ∧ ∀ m, (c'.processed m).Perm (triples m)

namespace CascOp

/-- The references that take part. -/
def edges (op : CascOp) : List (ℕ × ℕ) := hitEdges (reaches op.clusters) op.blocks

/-- The frontiers: the roots, then what leads to them. -/
def frontier (op : CascOp) : ℕ → Finset ℕ := Furious.frontier op.edges (roots [(op.blocks, [])])

variable {op : CascOp} {args : CascArgs} {n : ℕ} {store : Store} {taken : Set ℕ}

/-- What a thread has when it has consumed its references. -/
structure Consumed (op : CascOp) (args : CascArgs) (i : Fin n) (t : CascThread) : Prop where
  refs : t.refs = Gather.scan RefBlock.start args.chunkSize n op.blocks i
  current : t.current = Bittable.init
  found : Found (t.next, t.blacklist) (t.refs.flatMap RefBlock.edges)
  fills : Fills op.expanded t.tables (entries op.clusters (t.refs.flatMap RefBlock.edges))

/-- **The rounds** of threads that have consumed their references. -/
structure Rounds (op : CascOp) (args : CascArgs) (t : Fin n → CascThread) (x : ℕ → Fin n → CascThread)
    (e : ℕ → Fin n → CascThread × List Cluster) : Prop where
  consumed : ∀ i, op.Consumed args i (t i)
  start : ∀ m, AtRound t (op.frontier m) (x m)
  round : ∀ m, IsRound t (op.frontier m) (x m) (e m) (x (m + 1))

lemma references_blocks (op : CascOp) : references [(op.blocks, [])] = op.blocks.flatMap RefBlock.edges := by
  rw [references_eq, List.flatMap_singleton]

lemma edges_sublist (op : CascOp) : op.edges.Sublist (references [(op.blocks, [])]) := by
  rw [references_blocks]
  exact List.Sublist.flatMap List.filter_sublist _

namespace Valid

variable (h : op.Valid)

include h

lemma nodup_edges : (op.edges.map Prod.fst).Nodup := by
  refine List.Nodup.sublist (op.edges_sublist.map Prod.fst) ?_
  rw [references_blocks]
  exact nodup_sources h.starts

omit h in
/-- There are always entities that are not on the frontier. -/
lemma frontier_ne (m : ℕ) : op.frontier m ≠ Finset.range (2 ^ 32) := by
  cases m with
  | zero => exact roots_ne _
  | succ m =>
      intro hall
      have hmem : invalidId ∈ op.frontier (m + 1) := hall ▸ Finset.mem_range.mpr (by decide)
      obtain ⟨target, hedge, -⟩ := mem_puts.mp (List.mem_toFinset.mp hmem)
      exact lt_irrefl _ (source_lt (mem_sources.mpr ⟨target, op.edges_sublist.subset hedge⟩))

/-- **The frontiers come to an end.** -/
lemma exists_rounds : ∃ rounds, op.frontier rounds = ∅ ∧ ∀ m < rounds, op.frontier m ≠ ∅ := by
  have hfun : ∀ s t t', (s, t) ∈ op.edges → (s, t') ∈ op.edges → t = t' := fun s t t' hs hs' =>
    congrArg Prod.snd (List.inj_on_of_nodup_map h.nodup_edges hs hs' rfl)
  have hroot : ∀ r ∈ (↑(roots [(op.blocks, [])]) : Set ℕ), ∀ t, (r, t) ∉ op.edges := fun r hr t hrt =>
    (Finset.mem_sdiff.mp (Finset.mem_coe.mp hr)).2 (mem_sources.mpr ⟨t, op.edges_sublist.subset hrt⟩)
  have hend := exists_layer_eq_empty hfun hroot (sources op.edges) fun s t hst => mem_sources.mpr ⟨t, hst⟩
  have hempty : ∃ m, op.frontier m = ∅ :=
    ⟨_, Finset.coe_eq_empty.mp ((coe_frontier _ _ _).trans hend)⟩
  classical
  exact ⟨Nat.find hempty, Nat.find_spec hempty, fun m hm => Nat.find_min hempty hm⟩

/-- **The hash tables** of the threads have the clusters where these are looked for. -/
lemma exists_hashTables (args : CascArgs) (hn : 1 ≤ n) (hle : n ≤ 2 ^ 31) : ∃ hts : Fin n → BTree BCluster,
    (∀ i : Fin n, (Gather.scan BCluster.start args.chunkSize n op.clusters i).foldlM Gather.consumeGather BTree.init
      = some (hts i)) ∧ ∀ b < numBlocks, Serves (List.ofFn hts) op.clusters args.chunkSize n b := by
  obtain ⟨hashTables, hmap, hserves⟩ := serves_all h.expansion args.chunkSize hn hle
  have hrange : List.range n = List.ofFn fun i : Fin n => i.val := by
    rw [List.ofFn_eq_map, List.map_coe_finRange_eq_range]
  rw [hrange] at hmap
  obtain ⟨hts, rfl, hhts⟩ := CascState.mapM_ofFn hmap
  exact ⟨hts, hhts, hserves⟩

/-- The blocks of the references, divided among the threads. -/
lemma parts_perm (args : CascArgs) (hn : 1 ≤ n) (hle : n ≤ 2 ^ 31) :
    (List.ofFn fun i : Fin n => Gather.scan RefBlock.start args.chunkSize n op.blocks i).flatten.Perm op.blocks :=
  scan_perm h.start_lt args.chunkSize hn hle

omit h in
lemma scan_nodup (h : op.Valid) (args : CascArgs) (i : Fin n) :
    ((Gather.scan RefBlock.start args.chunkSize n op.blocks i).map RefBlock.start).Nodup :=
  h.starts.sublist (List.filter_sublist.map _)

/-- **What the threads have consumed**, before the first frontier. -/
lemma exists_consumed (args : CascArgs) {hts : Fin n → BTree BCluster}
    (hserves : ∀ b < numBlocks, Serves (List.ofFn hts) op.clusters args.chunkSize n b) :
    ∃ t : Fin n → CascThread, ∀ i : Fin n, (Gather.scan RefBlock.start args.chunkSize n op.blocks i).foldlM
        (CascThread.consumeRefs op (List.ofFn hts) args.chunkSize n) (CascThread.init (op.temps args n i)) = some (t i)
      ∧ op.Consumed args i (t i) := by
  have hthread : ∀ i : Fin n, ∃ t : CascThread, (Gather.scan RefBlock.start args.chunkSize n op.blocks i).foldlM
      (CascThread.consumeRefs op (List.ofFn hts) args.chunkSize n) (CascThread.init (op.temps args n i))
      = some t ∧ op.Consumed args i t := fun i => by
    have hfills : Fills op.expanded (op.temps args n i) [] := by
      refine List.forall₂_iff_get.mpr ⟨?_, fun j hj hj' => ?_⟩
      · rw [CascOp.temps, List.length_map, ExpandCall.names, List.length_map]
        exact h.columns.symm
      · rw [List.get_eq_getElem, List.get_eq_getElem]
        simp only [CascOp.temps, List.getElem_map]
        exact Expanded.Filled.empty _ (Table.Empty.init _)
    obtain ⟨t, ht, hrefs, hcurrent, hfound, hfills'⟩ :=
      consumeRefs_spec h.expansion hserves (h.scan_nodup args i) hfills
    exact ⟨t, ht, hrefs, hcurrent, by rw [hrefs]; exact hfound, by rw [hrefs]; exact hfills'⟩
  choose t ht using hthread
  exact ⟨t, ht⟩

/-- The references that take part, divided among the threads. -/
lemma edges_perm (args : CascArgs) (hn : 1 ≤ n) (hle : n ≤ 2 ^ 31) :
    (List.ofFn fun i : Fin n => hitEdges (reaches op.clusters)
      (Gather.scan RefBlock.start args.chunkSize n op.blocks i)).flatten.Perm op.edges := by
  have hparts := ((h.parts_perm args hn hle).filter fun block => block.hits (reaches op.clusters)).flatMap_right
    RefBlock.edges
  rw [List.filter_flatten, List.map_ofFn, List.flatMap_def, List.map_flatten, List.flatten_flatten, List.map_map,
    List.map_ofFn] at hparts
  exact hparts

lemma links_perm (args : CascArgs) (hn : 1 ≤ n) (hle : n ≤ 2 ^ 31) {t : Fin n → CascThread}
    (ht : ∀ i, op.Consumed args i (t i)) : (links (List.ofFn t)).Perm op.edges := by
  have hlinks : ∀ i : Fin n, (t i).links
      = hitEdges (reaches op.clusters) (Gather.scan RefBlock.start args.chunkSize n op.blocks i) := fun i =>
    links_of_fills h.expanded_ne (h.scan_nodup args i) (ht i).refs ((ht i).refs ▸ (ht i).fills)
  rw [links_ofFn]
  exact congrArg (fun l => (List.ofFn l).flatten) (funext hlinks) ▸ h.edges_perm args hn hle

/-- **The first frontier** that all threads make. -/
lemma exists_first (args : CascArgs) (hn : 1 ≤ n) (hle : n ≤ 2 ^ 31) {t : Fin n → CascThread}
    (ht : ∀ i, op.Consumed args i (t i)) :
    ∃ c c', (∀ i, frontiersUnion (List.ofFn fun j => (t j).next) (t i).current = some c)
      ∧ filterBlacklists (List.ofFn fun j => (t j).blacklist) c = some c' ∧ Denotes c' (op.frontier 0) := by
  have hall : List.Forall₂ Found (List.ofFn fun i => ((t i).next, (t i).blacklist))
      (List.ofFn fun i : Fin n => (Gather.scan RefBlock.start args.chunkSize n op.blocks i).flatMap RefBlock.edges) :=
    List.forall₂_iff_get.mpr ⟨by rw [List.length_ofFn, List.length_ofFn], fun i hi hi' => by
      rw [List.get_eq_getElem, List.get_eq_getElem, List.getElem_ofFn, List.getElem_ofFn]
      exact (ht _).refs ▸ (ht _).found⟩
  obtain ⟨c, c', hunion, hfilter, hden⟩ := union_filter_spec hall
  rw [List.map_ofFn] at hunion hfilter
  refine ⟨c, c', fun i => by rw [(ht i).current]; exact hunion, hfilter, ?_⟩
  have hperm : (List.ofFn fun i : Fin n =>
      (Gather.scan RefBlock.start args.chunkSize n op.blocks i).flatMap RefBlock.edges).flatten.Perm
      (references [(op.blocks, [])]) := by
    have hparts := (h.parts_perm args hn hle).flatMap_right RefBlock.edges
    rw [List.flatMap_def, List.map_flatten, List.flatten_flatten, List.map_map, List.map_ofFn] at hparts
    rw [references_blocks]
    exact hparts
  rw [sources_perm hperm, targets_perm hperm] at hden
  exact hden

omit h in
/-- Behind an empty frontier there is none. -/
lemma frontier_eq_empty {rounds m : ℕ} (hend : op.frontier rounds = ∅) (hm : rounds ≤ m) : op.frontier m = ∅ := by
  rw [← Finset.coe_eq_empty] at hend ⊢
  rw [frontier, coe_frontier] at hend ⊢
  exact layer_eq_empty hend hm

/-- What all threads process on their way. -/
lemma course_processed (hn : 1 ≤ n) (hle : n ≤ 2 ^ 31) {hts : Fin n → BTree BCluster} (tables : Fin n → List Table)
    {t : Fin n → CascThread} {x : ℕ → Fin n → CascThread} {e : ℕ → Fin n → CascThread × List Cluster} {rounds : ℕ}
    (hrounds : op.Rounds args t x e) (hend : op.frontier rounds = ∅) (m : ℕ) :
    ((List.ofFn fun i => (CascTask.course hts tables t x e (2 * rounds + 4) i).processed m).flatten).Perm
      (op.edges.filter fun e => decide (e.2 ∈ op.frontier m)) := by
  have hprocessed : ∀ i, (CascTask.course hts tables t x e (2 * rounds + 4) i).processed m
      = (t i).links.filter fun e => decide (e.2 ∈ op.frontier m) := fun i => by
    rw [CascTask.course_test]
    by_cases hm : m < rounds
    · refine CascTask.processed_eq (hrounds.start rounds i).1 ?_ (Cluster.Built.map_ids ((hrounds.round m).built i))
      rw [CascTask.before, List.getD_eq_getElem?_getD, List.getElem?_map, List.getElem?_range hm]
      rfl
    · -- there is no such round
      have hnone : (CascTask.before e rounds i).getD m [] = [] := by
        rw [CascTask.before, List.getD_eq_getElem?_getD, List.getElem?_eq_none]
        · rfl
        · rw [List.length_map, List.length_range]
          exact not_lt.mp hm
      rw [CascTask.processed, hnone, List.zipWith_nil_right, frontier_eq_empty hend (not_lt.mp hm)]
      simp
  have hlinks := h.links_perm args hn hle hrounds.consumed
  rw [links_ofFn] at hlinks
  have hall := hlinks.filter fun e => decide (e.2 ∈ op.frontier m)
  rw [List.filter_flatten, List.map_ofFn] at hall
  exact congrArg (fun l => (List.ofFn l).flatten) (funext hprocessed) ▸ hall

/-- **The course of all threads**, with their rounds. -/
theorem exists_course (args : CascArgs) (hn : 1 ≤ n) (hle : n ≤ 2 ^ 31) {rounds : ℕ}
    (hbefore : ∀ m < rounds, op.frontier m ≠ ∅) :
    ∃ (hts : Fin n → BTree BCluster) (tables : Fin n → List Table) (t : Fin n → CascThread)
      (x : ℕ → Fin n → CascThread) (e : ℕ → Fin n → CascThread × List Cluster),
      Course (CascTask.next op args .own) (2 * rounds + 4) (CascTask.course hts tables t x e)
      ∧ op.Rounds args t x e := by
  obtain ⟨hts, hhts, hserves⟩ := h.exists_hashTables args hn hle
  obtain ⟨t, ht⟩ := h.exists_consumed args hserves
  obtain ⟨c, c', hunion, hfilter, hden⟩ := h.exists_first args hn hle fun i => (ht i).2
  -- the threads in front of the first round
  have hperm : (links (List.ofFn fun i => { t i with current := c' })).Perm op.edges := by
    have hlinks := h.links_perm args hn hle fun i => (ht i).2
    rw [links_ofFn] at hlinks ⊢
    exact hlinks
  obtain ⟨x, e, hx, hrounds⟩ := Furious.exists_rounds rfl ((hperm.map Prod.fst).nodup_iff.mpr h.nodup_edges) fun i =>
    ⟨hden, ⟨_, (ht i).2.found.roots⟩, _, (ht i).2.fills.agree⟩
  have hfrontier : ∀ m, Furious.frontier (links (List.ofFn fun i => { t i with current := c' })) (op.frontier 0) m
      = op.frontier m := frontier_perm hperm _
  simp only [hfrontier] at hrounds
  have hround : ∀ m, IsRound t (op.frontier m) (x m) (e m) (x (m + 1)) := fun m =>
    ⟨(hrounds m).2.expand, (hrounds m).2.refs, (hrounds m).2.built, (hrounds m).2.unite⟩
  refine ⟨hts, fun i => op.temps args n i, t, x, e, fun k hk i => ?_, fun i => (ht i).2, fun m => (hrounds m).1, hround⟩
  rcases k with _ | _ | _ | _ | k
  · exact CascTask.alone_tables (hhts i) rfl
  · refine CascTask.alone_consume ?_ (ht i).1
    rw [List.map_ofFn]
    rfl
  · exact CascTask.alone_lists
  · exact CascTask.alone_first (hunion i) hfilter (congrFun hx i)
  · obtain ⟨m, rfl | rfl⟩ : ∃ m, k = 2 * m ∨ k = 2 * m + 1 := ⟨k / 2, by omega⟩
    · refine CascTask.alone_expand m ?_ ((hround m).expand i)
      rw [((hrounds m).1 i).2.2.current.size_eq_card_iff.mpr (frontier_ne m)]
      exact Finset.card_pos.mpr (Finset.nonempty_iff_ne_empty.mpr (hbefore m (by omega)))
    · obtain ⟨d, d', hclear, hunite, hy⟩ := (hround m).unite i
      exact CascTask.alone_unite m hclear hunite hy

/-- **All runs** go the way of all threads: at the test of the loop a thread has the frontier of its round, and every
run leads to the end of the way. -/
theorem exists_runs (args : CascArgs) (hn : 1 ≤ n) (hle : n ≤ 2 ^ 31) (hstore : store.Holds taken)
    (hapart : op.Apart args n taken) {rounds : ℕ} (hend : op.frontier rounds = ∅)
    (hbefore : ∀ m < rounds, op.frontier m ≠ ∅) :
    ∃ (hts : Fin n → BTree BCluster) (tables : Fin n → List Table) (t : Fin n → CascThread)
      (x : ℕ → Fin n → CascThread) (e : ℕ → Fin n → CascThread × List Cluster), op.Rounds args t x e
      ∧ (∀ steps c, Steps (TaskStep op args) steps (TaskConfig.init n store) c →
        ∀ i, (c.procs i).state.pc = .loop .test →
          ∃ m, (c.procs i).state.thread.current = (x m i).current ∧ (c.procs i).state.rounds = CascTask.before e m i)
      ∧ ∃ total, ∀ steps c, Steps (TaskStep op args) steps (TaskConfig.init n store) c →
        ∃ rest store', total = steps + rest ∧ Steps (TaskStep op args) rest c
          ⟨store', together (2 * rounds + 4) (CascTask.course hts tables t x e (2 * rounds + 4))⟩ := by
  obtain ⟨hts, tables, t, x, e, hcourse, hrounds⟩ := h.exists_course args hn hle hbefore
  set σ := CascTask.course hts tables t x e with hσ
  have hphased := CascTask.phased (n := n) op args
  have hzero : ∀ i, (σ 0 i).In n 0 := fun i => ⟨rfl, rfl, rfl, rfl⟩
  have hsize : ∀ i, (x rounds i).current.size = 0 := fun i => by
    rw [(hrounds.start rounds i).2.2.current.size, hend]
    rfl
  have hstop : ∀ i, CascTask.next op args .own (σ (2 * rounds + 4)) (σ (2 * rounds + 4) i) = none := fun i => by
    rw [hσ, CascTask.course_test, CascTask.next_loop ⟨rfl, rfl, rfl⟩ rfl]
    simp only [CascState.next, hsize i, lt_irrefl, if_false, Option.map_none]
  obtain ⟨M, hM⟩ := hstore.registry
  have hsupplied := Supplied.init hM hstore.tables hapart
  obtain ⟨total, htotal⟩ := hphased.course_steps hzero hcourse
  refine ⟨hts, tables, t, x, e, hrounds, fun steps c hrun i hpc => ?_, total, fun steps c hrun => ?_⟩
  · obtain ⟨hphase, hlocated⟩ := hphased.located hzero hcourse hstop (InPhase.together hzero) .together
      (hsupplied.advances_run hapart hrun).1
    have hin := hphase.phase i
    simp only [CascTask.In, hpc, CascPc.In] at hin
    obtain ⟨m, hm⟩ : ∃ m, (c.procs i).reached = 2 * m + 4 := ⟨(c.procs i).reached / 2 - 2, by omega⟩
    -- the thread has the frontier with which it came to the test
    have hsame : (c.procs i).state.thread.current = (σ (2 * m + 4) i).thread.current
        ∧ (c.procs i).state.rounds = (σ (2 * m + 4) i).rounds := by
      rw [← hm]
      cases hwait : (c.procs i).waiting with
      | true => exact ⟨by rw [hlocated.comes i hwait], by rw [hlocated.comes i hwait]⟩
      | false =>
          exact CascTask.between_current (hphased.course_phase hzero hcourse (hlocated.le i) i) (by omega) (by omega)
            (hlocated.goes i hwait)
    rw [hσ, CascTask.course_test] at hsame
    exact ⟨m, hsame⟩
  · obtain ⟨hadvances, hsupplied'⟩ := hsupplied.advances_run hapart hrun
    obtain ⟨rest, hrest, hsteps⟩ := hphased.ends hzero htotal hstop hadvances
    obtain ⟨store', hsteps'⟩ := hsupplied'.taskStep_run hapart hsteps
    exact ⟨rest, store', hrest, hsteps'⟩

omit h in
/-- The end of the way. -/
lemma ended {hts : Fin n → BTree BCluster} (tables : Fin n → List Table) {t : Fin n → CascThread}
    {x : ℕ → Fin n → CascThread} {e : ℕ → Fin n → CascThread × List Cluster} {rounds : ℕ}
    (hrounds : op.Rounds args t x e) (hend : op.frontier rounds = ∅) (store : Store) :
    TaskConfig.Ended ⟨store, together (2 * rounds + 4) (CascTask.course hts tables t x e (2 * rounds + 4))⟩ rounds
      (2 * rounds + 4) := by
  intro i
  have hsize : (x rounds i).current.size = 0 := by
    rw [(hrounds.start rounds i).2.2.current.size, hend]
    rfl
  simp only [together, CascTask.course_test, true_and]
  exact ⟨hsize, by rw [CascTask.before, List.length_map, List.length_range]⟩

/-- **What is to be expected** of all runs. -/
theorem runsTo (args : CascArgs) (hn : 1 ≤ n) (hle : n ≤ 2 ^ 31) (hstore : store.Holds taken)
    (hapart : op.Apart args n taken) {rounds : ℕ} (hend : op.frontier rounds = ∅)
    (hbefore : ∀ m < rounds, op.frontier m ≠ ∅) :
    RunsTo op args n store op.frontier rounds fun m => op.edges.filter fun e => decide (e.2 ∈ op.frontier m) := by
  obtain ⟨hts, tables, t, x, e, hrounds, htests, total, hends⟩ :=
    h.exists_runs args hn hle hstore hapart hend hbefore
  refine ⟨fun steps c hrun i hpc id => ?_, total, 2 * rounds + 4, fun steps c hrun => ?_⟩
  · obtain ⟨m, hcurrent, hm⟩ := htests steps c hrun i hpc
    have hlength : (c.procs i).state.rounds.length = m := by
      rw [hm, CascTask.before, List.length_map, List.length_range]
    rw [hcurrent, hlength]
    exact (hrounds.start m i).2.2.current.existsId id
  · obtain ⟨rest, store', hrest, hsteps⟩ := hends steps c hrun
    exact ⟨rest, _, hrest, hsteps, ended tables hrounds hend store', h.course_processed hn hle tables hrounds hend⟩

end Valid

end CascOp

/-! ### A name that is in the way -/

section Barred

variable {n : ℕ} {op : CascOp} {args : CascArgs} {store store' : Store} {taken : Set ℕ} {s : CascTask}
  {threads : Fin n → CascTask} {m : Move CascTask} {c c' : TaskConfig n} {i : Fin n} {name : CString} {steps : ℕ}

/-- No thread removes a table. -/
lemma CascTask.effect_occupied (hocc : Occupied store.db taken) (h : s.effect op args n store = some store') :
    ∃ taken', taken ⊆ taken' ∧ Occupied store'.db taken' := by
  have hquiet : store' = store → ∃ taken', taken ⊆ taken' ∧ Occupied store'.db taken' := by
    rintro rfl
    exact ⟨taken, subset_rfl, hocc⟩
  have hinsert : ∀ kind, (do
      let registry ← store.registry.insert (op.key args n kind s.offset) (kind, s.offset)
      some { store with registry := registry }) = some store' →
      ∃ taken', taken ⊆ taken' ∧ Occupied store'.db taken' := by
    intro kind h
    obtain ⟨registry, -, h⟩ := Option.bind_eq_some_iff.mp h
    obtain rfl := Option.some.inj h
    exact ⟨taken, subset_rfl, hocc⟩
  rw [CascTask.effect] at h
  cases hpc : s.pc with
  | create rest =>
      cases rest with
      | nil =>
          rw [hpc] at h
          exact hquiet (Option.some.inj h).symm
      | cons name rest =>
          rw [hpc] at h
          obtain ⟨⟨db, q⟩, hcreate, h⟩ := Option.bind_eq_some_iff.mp h
          obtain rfl := Option.some.inj h
          exact ⟨_, Set.subset_insert _ _, (hocc.created hcreate).2⟩
  | register | registerBlacklist | registerFrontier =>
      rw [hpc] at h
      exact hinsert _ h
  | _ =>
      rw [hpc] at h
      exact hquiet (Option.some.inj h).symm

/-- A table that is in the way is not passed by. -/
lemma CascTask.next_pending (hocc : Occupied store.db taken) (htaken : hash name ∈ taken)
    (hname : name ∈ s.pc.pending (op.call args n s.offset).names)
    (h : CascTask.next op args (store.replies op args n) threads s = some m) :
    ∃ s', m = .work s' ∧ name ∈ s'.pc.pending (op.call args n s'.offset).names ∧ s'.offset = s.offset := by
  rw [CascTask.next] at h
  cases hpc : s.pc with
  | register =>
      rw [hpc] at h hname
      exact ⟨_, (Option.some.inj h).symm, hname, rfl⟩
  | child rest =>
      rw [hpc] at h hname
      cases rest with
      | nil => exact ⟨_, (Option.some.inj h).symm, hname, rfl⟩
      | cons cluster rest =>
          obtain ⟨hashTable, -, h⟩ := Option.bind_eq_some_iff.mp h
          exact ⟨_, (Option.some.inj h).symm, hname, rfl⟩
  | create rest =>
      rw [hpc] at h hname
      cases rest with
      | nil => cases hname
      | cons other rest =>
          obtain ⟨table, hcreate, h⟩ := Option.bind_eq_some_iff.mp h
          rcases List.mem_cons.mp hname with rfl | hname
          · obtain ⟨⟨db, q⟩, hcreate, -⟩ := Option.bind_eq_some_iff.mp hcreate
            exact absurd htaken (hocc.created hcreate).1
          · exact ⟨_, (Option.some.inj h).symm, hname, rfl⟩
  | _ =>
      rw [hpc] at hname
      cases hname

/-- A thread has yet to create a table under a name whose hash is taken. -/
structure TaskConfig.Barred (op : CascOp) (args : CascArgs) (i : Fin n) (name : CString) (c : TaskConfig n) : Prop where
  taken : ∃ taken, Occupied c.store.db taken ∧ hash name ∈ taken
  running : (c.procs i).waiting = false
  offset : (c.procs i).state.offset = i
  pending : name ∈ (c.procs i).state.pc.pending (op.call args n i).names

/-- **It stays in the way.** -/
lemma TaskConfig.Barred.step (h : c.Barred op args i name) (hstep : TaskStep op args c c') :
    c'.Barred op args i name := by
  obtain ⟨j, p, hmove, hprocs, hstore⟩ := hstep
  obtain ⟨taken, hocc, htaken⟩ := h.taken
  have htaken' : ∃ taken, Occupied c'.store.db taken ∧ hash name ∈ taken := by
    split_ifs at hstore
    · rw [Option.some.inj hstore]
      exact ⟨taken, hocc, htaken⟩
    · obtain ⟨taken', hsub, hocc'⟩ := CascTask.effect_occupied hocc hstore.symm
      exact ⟨taken', hocc', hsub htaken⟩
  rcases eq_or_ne i j with rfl | hij
  · cases hmove with
    | leave hwait hall =>
        rw [h.running] at hwait
        cases hwait
    | move hrun hnext =>
        have hpending := h.pending
        rw [← h.offset] at hpending
        obtain ⟨s', rfl, hpending', hoffset⟩ := CascTask.next_pending hocc htaken hpending hnext
        rw [hoffset, h.offset] at hpending'
        refine ⟨htaken', ?_, ?_, ?_⟩ <;> rw [hprocs, Function.update_self]
        · rfl
        · exact hoffset.trans h.offset
        · exact hpending'
  · refine ⟨htaken', ?_, ?_, ?_⟩ <;> rw [hprocs, Function.update_of_ne hij]
    · exact h.running
    · exact h.offset
    · exact h.pending

lemma TaskConfig.Barred.run (h : c.Barred op args i name) (hrun : Steps (TaskStep op args) steps c c') :
    c'.Barred op args i name := by
  induction steps generalizing c with
  | zero =>
      obtain rfl : c = c' := hrun
      exact h
  | succ steps ih =>
      obtain ⟨d, hd, hrest⟩ := hrun
      exact ih (h.step hd) hrest

/-- **No run comes to an end** if a table of a thread is in the way. -/
lemma not_runsTo {F : ℕ → Finset ℕ} {rounds : ℕ} {triples : ℕ → List (ℕ × ℕ)} (hocc : Occupied store.db taken)
    (hname : name ∈ (op.call args n i).names) (htaken : hash name ∈ taken) :
    ¬ RunsTo op args n store F rounds triples := by
  intro h
  obtain ⟨total, waits, hends⟩ := h.ends
  obtain ⟨rest, c, -, hrun, hended, -⟩ := hends 0 _ rfl
  have hbarred : (TaskConfig.init n store).Barred op args i name := ⟨⟨taken, hocc, htaken⟩, rfl, rfl, hname⟩
  have hpending := (hbarred.run hrun).pending
  rw [(hended i).2.2.1] at hpending
  cases hpending

end Barred

/-! ### Many threads and one -/

/-- **Many threads run to what one thread runs to.** For every reference table and all clusters of expanded components,
if no names are in the way: whatever the chunk size and the number of threads, and in whichever order these take their
steps, they have the same frontier in front of the same round, they leave the loop after the same number of rounds and
barriers, and in each round all of them together process the references that a single thread processes. -/
theorem cascade_threads {op : CascOp} (hop : op.Valid) {n chunkSize : ℕ} (_hchunk : 1 ≤ chunkSize) (hn : 1 ≤ n)
    (hle : n ≤ 2 ^ 31) {memory memory' : ℕ → CString → Address → UInt8} {store store' : Store} {taken taken' : Set ℕ}
    (hstore : store.Holds taken) (hapart : op.Apart ⟨chunkSize, memory⟩ n taken) (hstore' : store'.Holds taken')
    (hapart' : op.Apart ⟨1, memory'⟩ 1 taken') :
    ∃ F rounds triples, RunsTo op ⟨chunkSize, memory⟩ n store F rounds triples
      ∧ RunsTo op ⟨1, memory'⟩ 1 store' F rounds triples := by
  obtain ⟨rounds, hend, hbefore⟩ := hop.exists_rounds
  exact ⟨op.frontier, rounds, _, hop.runsTo _ hn hle hstore hapart hend hbefore,
    hop.runsTo _ le_rfl (by decide) hstore' hapart' hend hbefore⟩

/-- A cascading gather for one column. -/
def beltGather (expanded : List Expanded) (clusters : List BCluster) (blocks : List RefBlock) : CascOp where
  gatherId := 3
  subplanId := 0
  columns := [beltStaff]
  expanded := expanded
  clusters := clusters
  blocks := blocks

/-- A cascading gather with two references to the entity 7. -/
def twoReferences (expanded : List Expanded) (clusters : List BCluster) : CascOp :=
  beltGather expanded clusters
    [RefBlock.single 1 7 (by decide) (by decide), RefBlock.single 2 7 (by decide) (by decide)]

section BeltGather

variable {expanded : List Expanded} {clusters : List BCluster} {blocks : List RefBlock} {e : Expanded} {taken : Set ℕ}

lemma beltGather_valid (h : Expansion [e] clusters) (hstarts : (blocks.map RefBlock.start).Nodup)
    (hlt : ∀ block ∈ blocks, block.start < 2 ^ 32) : (beltGather [e] clusters blocks).Valid where
  expansion := h
  columns := rfl
  expanded_ne := List.cons_ne_nil _ _
  starts := hstarts
  start_lt := hlt

lemma twoReferences_valid (h : Expansion [e] clusters) : (twoReferences [e] clusters).Valid := by
  refine beltGather_valid h (show [256, 512].Nodup by decide) fun block hblock => ?_
  rcases List.mem_cons.mp hblock with rfl | hblock
  · exact show 256 < 2 ^ 32 by decide
  · obtain rfl := List.mem_singleton.mp hblock
    exact show 512 < 2 ^ 32 by decide

lemma twoReferences_edges (h : reaches clusters 7 = true) :
    (twoReferences expanded clusters).edges = [(256, 7), (512, 7)] := by
  have hhits : ∀ b hb, (RefBlock.single b 7 hb (by decide)).hits (reaches clusters) = true := fun b hb => by
    rw [RefBlock.hits, RefBlock.edges_single, List.any_cons, h]
    rfl
  rw [CascOp.edges, hitEdges, twoReferences, beltGather, List.filter_cons_of_pos (hhits 1 _),
    List.filter_cons_of_pos (hhits 2 _), List.filter_nil, List.flatMap_cons, List.flatMap_singleton,
    RefBlock.edges_single, RefBlock.edges_single]
  rfl

/-- The names of two threads, and those of a single one. -/
lemma beltGather_apart (memory : ℕ → CString → Address → UInt8) {n : ℕ} (hn : n = 1 ∨ n = 2)
    (h : ∀ name ∈ tempNames (List.ofFn fun i : Fin n => (beltGather expanded clusters blocks).call ⟨1, memory⟩ n i),
      hash name ∉ taken) : (beltGather expanded clusters blocks).Apart ⟨1, memory⟩ n taken := by
  have hnames : ∀ n ∈ [1, 2], ((tempNames (List.ofFn fun i : Fin n =>
      ⟨3, 0, [beltStaff], true, 1, i.val, n⟩)).map hash).Nodup := by decide +kernel
  have hkeys : ∀ n ∈ [1, 2], ∀ kind ∈ [Shown.hashTable, .blacklist, .nextFrontier],
      ∀ kind' ∈ [Shown.hashTable, .blacklist, .nextFrontier], ∀ i i' : Fin n,
        hash (registryKey kind 3 0 1 i n) = hash (registryKey kind' 3 0 1 i' n) → kind = kind' ∧ i = i' := by
    decide +kernel
  have hmem : ∀ kind : Shown, kind ∈ [Shown.hashTable, .blacklist, .nextFrontier] := fun kind => by
    cases kind <;> decide
  have hn' : n ∈ [1, 2] := by
    rcases hn with rfl | rfl <;> decide
  exact ⟨⟨hnames n hn', h⟩, fun kind kind' => hkeys n hn' kind (hmem kind) kind' (hmem kind')⟩

/-- In a new database nothing is in the way. -/
lemma beltGather_apart_init (memory : ℕ → CString → Address → UInt8) {n : ℕ} (hn : n = 1 ∨ n = 2) :
    (beltGather expanded clusters blocks).Apart ⟨1, memory⟩ n {i | ∃ name ∈ (∅ : NameMap ℕ), hash name = i} :=
  beltGather_apart memory hn fun name _ => hash_notMem_init name

end BeltGather

/-- The store in front of the first task. -/
def Store.init : Store := ⟨Database.init, HtRegistry.init⟩

lemma Store.init_holds : Store.init.Holds {i | ∃ name ∈ (∅ : NameMap ℕ), hash name = i} :=
  ⟨⟨∅, Keyed.init⟩, Database.Named.init.occupied⟩

theorem cascade_threads_two : ∃ (op : CascOp) (store : Store), op.edges = [(256, 7), (512, 7)]
    ∧ ∃ F rounds triples, RunsTo op ⟨1, fun _ _ _ => 0⟩ 2 store F rounds triples
      ∧ RunsTo op ⟨1, fun _ _ _ => 255⟩ 1 store F rounds triples := by
  obtain ⟨t, bc, hreach, hexp⟩ := exists_expansion
  exact ⟨_, Store.init, twoReferences_edges hreach, cascade_threads (twoReferences_valid hexp) le_rfl one_le_two
    (by decide) Store.init_holds (beltGather_apart_init _ (Or.inr rfl)) Store.init_holds
    (beltGather_apart_init _ (Or.inl rfl))⟩

/-- In the second frame the temporary tables of the first one are in the way, if there are two threads again; the names
of a single thread are other ones. -/
theorem not_cascade_threads : ∃ (op : CascOp) (args : CascArgs) (db : Database), op.Valid ∧ args.chunkSize = 1
    ∧ FramesRun [op.call args 2 0, op.call args 2 1] 1 Database.init db
    ∧ ∀ registry : HtRegistry Pointer, (∃ M, Keyed registry.registry M) →
      (∃ F rounds triples, RunsTo op args 1 ⟨db, registry⟩ F rounds triples)
      ∧ ¬ ∃ F rounds triples, RunsTo op args 2 ⟨db, registry⟩ F rounds triples := by
  obtain ⟨t, bc, -, hexp⟩ := exists_expansion
  have hop := twoReferences_valid hexp
  have hfresh : (twoReferences [⟨t, fun _ => 4096⟩] [bc]).Apart ⟨1, fun _ _ _ => 0⟩ 2 _ :=
    beltGather_apart_init _ (Or.inr rfl)
  obtain ⟨db, hrun⟩ := Database.Named.init.occupied.exists_frameRun hfresh.tables
  have hocc := Database.Named.init.occupied.frameRun hrun
  refine ⟨_, ⟨1, fun _ _ _ => 0⟩, db, hop, rfl, .succ (.zero _) hrun .refl, fun registry hregistry => ⟨?_, ?_⟩⟩
  · have hothers : ∀ name ∈ tempNames [⟨3, 0, [beltStaff], true, 1, 0, 1⟩], hash name
        ∉ (tempNames [⟨3, 0, [beltStaff], true, 1, 0, 2⟩, ⟨3, 0, [beltStaff], true, 1, 1, 2⟩]).map hash := by
      decide +kernel
    obtain ⟨rounds, hend, hbefore⟩ := hop.exists_rounds
    refine ⟨_, rounds, _, hop.runsTo _ le_rfl (by decide) ⟨hregistry, hocc⟩ ?_ hend hbefore⟩
    refine beltGather_apart _ (Or.inl rfl) fun name hname => ?_
    rintro (hinit | htaken)
    · exact hash_notMem_init name hinit
    · exact hothers name hname htaken
  · rintro ⟨F, rounds, triples, hruns⟩
    exact not_runsTo (i := 0) hocc List.mem_cons_self (Or.inr List.mem_cons_self) hruns

end Furious
