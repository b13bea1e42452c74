import Furious.Data.Bittable

/-!
The roots of a reference table.

A reference table relates entities, the sources, to others, their targets. Each thread goes
through some blocks of the table and keeps two bittables: the candidates for roots and the
sources, which are black listed. From those of all threads each thread then makes the set
of the roots, which is the first frontier of the cascade.

* `RefBlock`: a block of a reference table, `RefBlock.edges`: its enabled references;
* `findRootsAndBlacklist`, `frontiersUnion`, `filterBlacklists`: the functions of the runtime,
  and `firstFrontier`: how they are put together;
* `findRootsAndBlacklist_spec`: one block, `union_filter_spec`: any number of threads;
* `roots_of_partition`: **the roots do not depend on the partition**.
-/

namespace Furious

/-! ### Reference tables -/

/-- A table block of references; the reference of the place `i` is `data i`. -/
structure RefBlock where
  start : ℕ
  enabled : Bitmap
  data : ℕ → ℕ
  start_dvd : tableBlockSize ∣ start
  enabled_length : enabled.bits.length = tableBlockSize
  source_lt : ∀ i, enabled.test i = true → start + i < invalidId
  data_lt : ∀ i, data i < 2 ^ 32

namespace RefBlock

/-- The enabled references of a block, as pairs of a source and its target. -/
def edges (block : RefBlock) : List (ℕ × ℕ) :=
  ((List.range tableBlockSize).filter fun i => block.enabled.test i).map fun i =>
    (block.start + i, block.data i)

end RefBlock

/-- The sources of references. -/
def sources (edges : List (ℕ × ℕ)) : Finset ℕ := (edges.map Prod.fst).toFinset

/-- The targets of references. -/
def targets (edges : List (ℕ × ℕ)) : Finset ℕ := (edges.map Prod.snd).toFinset

/-! ### The functions of the runtime -/

/-- The body of the loop of `find_roots_and_blacklist`, on the roots and the black list. -/
def findRootsStep (block : RefBlock) (s : Bittable × Bittable) (i : ℕ) : Option (Bittable × Bittable) := do
  let isSet ← block.enabled.isSet i
  if isSet = true then do
    let blacklist ← s.2.add (block.start + i)
    let roots ← s.1.remove (block.start + i)
    let exists_ ← blacklist.existsId (block.data i)
    if exists_ = true then some (roots, blacklist) else do
      let roots ← roots.add (block.data i)
      some (roots, blacklist)
  else some s

/-- `find_roots_and_blacklist`. -/
def findRootsAndBlacklist (s : Bittable × Bittable) (block : RefBlock) : Option (Bittable × Bittable) :=
  (List.range tableBlockSize).foldlM (findRootsStep block) s

/-- `filter_blacklists`. -/
def filterBlacklists (partialLists : List Bittable) (currentFrontier : Bittable) : Option Bittable :=
  partialLists.foldlM Bittable.difference currentFrontier

/-- `frontiers_union`. -/
def frontiersUnion (nextFrontiers : List Bittable) (currentFrontier : Bittable) : Option Bittable :=
  nextFrontiers.foldlM Bittable.union currentFrontier

/-- What a thread does with its blocks. -/
def findPart (blocks : List RefBlock) : Option (Bittable × Bittable) :=
  blocks.foldlM findRootsAndBlacklist (Bittable.init, Bittable.init)

/-- The first frontier, from the blocks of each thread. -/
def firstFrontier (parts : List (List RefBlock)) : Option Bittable := do
  let found ← parts.mapM findPart
  let current ← frontiersUnion (found.map Prod.fst) Bittable.init
  filterBlacklists (found.map Prod.snd) current

/-! ### Their effect on sets -/

variable {block : RefBlock} {edges : List (ℕ × ℕ)} {id : ℕ}

lemma mem_sources : id ∈ sources edges ↔ ∃ target, (id, target) ∈ edges := by
  simp [sources]

lemma mem_targets : id ∈ targets edges ↔ ∃ source, (source, id) ∈ edges := by
  simp [targets]

@[simp] lemma sources_append (l r : List (ℕ × ℕ)) : sources (l ++ r) = sources l ∪ sources r := by
  simp [sources]

/-- The roots and the black list after the references `edges`. -/
structure Found (s : Bittable × Bittable) (edges : List (ℕ × ℕ)) : Prop where
  roots : Denotes s.1 (targets edges \ sources edges)
  blacklist : Denotes s.2 (sources edges)

/-- **One reference.** -/
lemma findRootsStep_spec {s : Bittable × Bittable} (h : Found s edges) (block : RefBlock) {i : ℕ}
    (hi : i < tableBlockSize) :
    ∃ s', findRootsStep block s i = some s' ∧ Found s' (edges ++
      if block.enabled.test i = true then [(block.start + i, block.data i)] else []) := by
  have hset : block.enabled.isSet i = some (block.enabled.test i) :=
    Bitmap.isSet_eq (block.enabled_length ▸ hi)
  cases ht : block.enabled.test i with
  | false =>
      refine ⟨s, ?_, by simpa using h⟩
      simp only [findRootsStep, hset, ht, Option.bind_eq_bind, Option.bind_some, Bool.false_eq_true, if_false]
  | true =>
      have hlt : block.start + i < 2 ^ 32 := lt_trans (block.source_lt i ht) (by decide)
      obtain ⟨blacklist, hadd, hblack⟩ := h.blacklist.add hlt
      obtain ⟨roots, hrem, hroots⟩ := h.roots.remove (block.start + i)
      have hex := hblack.existsId (block.data i)
      have hsources : sources (edges ++ [(block.start + i, block.data i)])
          = insert (block.start + i) (sources edges) := by
        ext j
        simp [sources]
      have htargets : targets (edges ++ [(block.start + i, block.data i)])
          = insert (block.data i) (targets edges) := by
        ext j
        simp [targets]
      by_cases hin : block.data i ∈ insert (block.start + i) (sources edges)
      · refine ⟨(roots, blacklist), ?_, ?_, ?_⟩
        · simp only [findRootsStep, hset, ht, hadd, hrem, hex, decide_eq_true hin, Option.bind_eq_bind,
            Option.bind_some, if_true]
        · have hsdiff : targets (edges ++ [(block.start + i, block.data i)])
              \ sources (edges ++ [(block.start + i, block.data i)])
              = (targets edges \ sources edges).erase (block.start + i) := by
            rw [hsources, htargets, Finset.insert_sdiff_of_mem _ hin, Finset.sdiff_insert]
          rw [if_pos rfl, hsdiff]
          exact hroots
        · rw [if_pos rfl, hsources]
          exact hblack
      · obtain ⟨roots', hadd', hroots'⟩ := hroots.add (block.data_lt i)
        refine ⟨(roots', blacklist), ?_, ?_, ?_⟩
        · simp only [findRootsStep, hset, ht, hadd, hrem, hex, decide_eq_false hin, hadd',
            Option.bind_eq_bind, Option.bind_some, if_true, Bool.false_eq_true, if_false]
        · have hsdiff : targets (edges ++ [(block.start + i, block.data i)])
              \ sources (edges ++ [(block.start + i, block.data i)])
              = insert (block.data i) ((targets edges \ sources edges).erase (block.start + i)) := by
            rw [hsources, htargets, Finset.insert_sdiff_of_notMem _ hin, Finset.sdiff_insert]
          rw [if_pos rfl, hsdiff]
          exact hroots'
        · rw [if_pos rfl, hsources]
          exact hblack

/-- **`find_roots_and_blacklist`** takes the references of the block into account. -/
theorem findRootsAndBlacklist_spec {s : Bittable × Bittable} (h : Found s edges) (block : RefBlock) :
    ∃ s', findRootsAndBlacklist s block = some s' ∧ Found s' (edges ++ block.edges) := by
  refine foldlM_spec (fun done s => Found s (edges ++ (done.filter fun i => block.enabled.test i).map
    fun i => (block.start + i, block.data i))) (List.range tableBlockSize) (by simpa using h)
    fun done i rest s hl hs => ?_
  have hi : i ∈ List.range tableBlockSize := hl ▸ by simp
  obtain ⟨s', hstep, hs'⟩ := findRootsStep_spec hs block (List.mem_range.mp hi)
  refine ⟨s', hstep, ?_⟩
  rw [List.filter_append, List.map_append, ← List.append_assoc]
  cases ht : block.enabled.test i with
  | false => simpa [ht] using hs'
  | true => simpa [ht] using hs'

/-- The blocks of a thread. -/
lemma findPart_spec (blocks : List RefBlock) :
    ∃ s, findPart blocks = some s ∧ Found s (blocks.flatMap RefBlock.edges) := by
  refine foldlM_spec (fun done s => Found s (done.flatMap RefBlock.edges)) blocks
    ⟨Denotes.init, Denotes.init⟩ fun done block rest s _ hs => ?_
  obtain ⟨s', hstep, hs'⟩ := findRootsAndBlacklist_spec hs block
  exact ⟨s', hstep, by simpa using hs'⟩

/-- **`frontiers_union`.** -/
theorem frontiersUnion_spec {current : Bittable} {S : Finset ℕ} (h : Denotes current S)
    (lists : List Bittable) (sets : List (Finset ℕ)) (hl : List.Forall₂ Denotes lists sets) :
    ∃ bt, frontiersUnion lists current = some bt ∧ Denotes bt (sets.foldl (· ∪ ·) S) := by
  induction hl generalizing current S with
  | nil => exact ⟨current, rfl, h⟩
  | cons hT _ ih =>
      obtain ⟨bt, hunion, hbt⟩ := h.union hT
      obtain ⟨bt', hrest, hbt'⟩ := ih hbt
      refine ⟨bt', ?_, hbt'⟩
      rw [frontiersUnion, List.foldlM_cons, hunion]
      exact hrest

/-- **`filter_blacklists`.** -/
theorem filterBlacklists_spec {current : Bittable} {S : Finset ℕ} (h : Denotes current S)
    (lists : List Bittable) (sets : List (Finset ℕ)) (hl : List.Forall₂ Denotes lists sets) :
    ∃ bt, filterBlacklists lists current = some bt ∧ Denotes bt (sets.foldl (· \ ·) S) := by
  induction hl generalizing current S with
  | nil => exact ⟨current, rfl, h⟩
  | cons hT _ ih =>
      obtain ⟨bt, hdiff, hbt⟩ := h.difference hT
      obtain ⟨bt', hrest, hbt'⟩ := ih hbt
      refine ⟨bt', ?_, hbt'⟩
      rw [filterBlacklists, List.foldlM_cons, hdiff]
      exact hrest

lemma mem_foldl_union {S : Finset ℕ} {sets : List (Finset ℕ)} :
    id ∈ sets.foldl (· ∪ ·) S ↔ id ∈ S ∨ ∃ T ∈ sets, id ∈ T := by
  induction sets generalizing S with
  | nil => simp
  | cons T sets ih => simp [ih, or_assoc]

lemma mem_foldl_sdiff {S : Finset ℕ} {sets : List (Finset ℕ)} :
    id ∈ sets.foldl (· \ ·) S ↔ id ∈ S ∧ ∀ T ∈ sets, id ∉ T := by
  induction sets generalizing S with
  | nil => simp
  | cons T sets ih => simp [ih, and_assoc]

lemma mapM_findPart (parts : List (List RefBlock)) : ∃ found, parts.mapM findPart = some found
    ∧ List.Forall₂ Found found (parts.map fun blocks => blocks.flatMap RefBlock.edges) := by
  obtain ⟨found, hfound, hall⟩ := mapM_spec (fun blocks s => Found s (blocks.flatMap RefBlock.edges))
    fun blocks (_ : blocks ∈ parts) => findPart_spec blocks
  exact ⟨found, hfound, List.forall₂_map_right_iff.mpr hall.flip⟩

/-- The candidates of all threads without the sources of all threads: a source of one thread is
taken out of the candidates of all of them. -/
lemma foldl_roots (parts : List (List (ℕ × ℕ))) :
    (parts.map sources).foldl (· \ ·) ((parts.map fun E => targets E \ sources E).foldl (· ∪ ·) ∅)
      = targets parts.flatten \ sources parts.flatten := by
  ext id
  rw [mem_foldl_sdiff, mem_foldl_union, Finset.mem_sdiff]
  simp only [List.mem_map, exists_exists_and_eq_and, forall_exists_index, and_imp,
    forall_apply_eq_imp_iff₂, Finset.notMem_empty, false_or, Finset.mem_sdiff, mem_sources,
    mem_targets, List.mem_flatten]
  constructor
  · rintro ⟨⟨E, hE, ⟨source, hedge⟩, -⟩, hblack⟩
    refine ⟨⟨source, E, hE, hedge⟩, ?_⟩
    rintro ⟨target, E', hE', hedge'⟩
    exact hblack E' hE' ⟨target, hedge'⟩
  · rintro ⟨⟨source, E, hE, hedge⟩, hnot⟩
    refine ⟨⟨E, hE, ⟨source, hedge⟩, ?_⟩, fun E' hE' => ?_⟩
    · rintro ⟨target, hedge'⟩
      exact hnot ⟨target, E, hE, hedge'⟩
    · rintro ⟨target, hedge'⟩
      exact hnot ⟨target, E', hE', hedge'⟩

/-- **The first frontier**, from what the threads have found. -/
theorem union_filter_spec {found : List (Bittable × Bittable)} {parts : List (List (ℕ × ℕ))}
    (h : List.Forall₂ Found found parts) : ∃ current bt,
      frontiersUnion (found.map Prod.fst) Bittable.init = some current
      ∧ filterBlacklists (found.map Prod.snd) current = some bt
      ∧ Denotes bt (targets parts.flatten \ sources parts.flatten) := by
  obtain ⟨current, hunion, hcurrent⟩ := frontiersUnion_spec Denotes.init (found.map Prod.fst)
    (parts.map fun E => targets E \ sources E)
    (List.forall₂_map_left_iff.mpr (List.forall₂_map_right_iff.mpr (h.imp fun _ _ hf => hf.roots)))
  obtain ⟨bt, hfilter, hbt⟩ := filterBlacklists_spec hcurrent (found.map Prod.snd) (parts.map sources)
    (List.forall₂_map_left_iff.mpr (List.forall₂_map_right_iff.mpr (h.imp fun _ _ hf => hf.blacklist)))
  exact ⟨current, bt, hunion, hfilter, foldl_roots parts ▸ hbt⟩

lemma firstFrontier_spec (parts : List (List RefBlock)) : ∃ bt, firstFrontier parts = some bt
    ∧ Denotes bt (targets (parts.flatten.flatMap RefBlock.edges)
      \ sources (parts.flatten.flatMap RefBlock.edges)) := by
  obtain ⟨found, hfound, hall⟩ := mapM_findPart parts
  obtain ⟨current, bt, hunion, hfilter, hbt⟩ := union_filter_spec hall
  refine ⟨bt, ?_, ?_⟩
  · simp only [firstFrontier, hfound, hunion, hfilter, Option.bind_eq_bind, Option.bind_some]
  · have hflat : (parts.map fun blocks => blocks.flatMap RefBlock.edges).flatten
        = parts.flatten.flatMap RefBlock.edges := by
      rw [← List.flatMap_def, ← List.flatMap_assoc, List.flatMap_id']
    rwa [hflat] at hbt

/-- The references of a table do not depend on the order of its blocks. -/
lemma sources_perm {l r : List (ℕ × ℕ)} (h : l.Perm r) : sources l = sources r :=
  List.toFinset_eq_of_perm _ _ (h.map _)

lemma targets_perm {l r : List (ℕ × ℕ)} (h : l.Perm r) : targets l = targets r :=
  List.toFinset_eq_of_perm _ _ (h.map _)

/-- **The roots.** However the blocks of a table are divided among threads, and in whichever order
each thread goes through its blocks, the first frontier has the targets of the enabled references
of the table that are not sources. -/
theorem roots_of_partition (table : List RefBlock) (parts : List (List RefBlock))
    (h : parts.flatten.Perm table) : ∃ bt, firstFrontier parts = some bt
      ∧ bt.size = (targets (table.flatMap RefBlock.edges) \ sources (table.flatMap RefBlock.edges)).card
        % 2 ^ 32
      ∧ ∀ id, bt.existsId id = some (decide
        (id ∈ targets (table.flatMap RefBlock.edges) \ sources (table.flatMap RefBlock.edges))) := by
  obtain ⟨bt, hbt, hden⟩ := firstFrontier_spec parts
  have hperm := h.flatMap_right RefBlock.edges
  rw [sources_perm hperm, targets_perm hperm] at hden
  exact ⟨bt, hbt, hden.size, hden.existsId⟩

lemma getD_replicate_false (n i : ℕ) : (List.replicate n false).getD i false = false := by
  rw [List.getD_eq_getElem?_getD, List.getElem?_replicate]
  split <;> rfl

/-- A block with one reference. -/
def RefBlock.single (b target : ℕ) (hb : b * tableBlockSize < invalidId) (ht : target < 2 ^ 32) :
    RefBlock where
  start := b * tableBlockSize
  enabled :=
    { bits := true :: List.replicate 255 false
      numSet := 1
      numSet_eq := by rw [List.count_cons_self, List.count_replicate]; rfl }
  data := fun _ => target
  start_dvd := Dvd.intro_left b rfl
  enabled_length := by rw [List.length_cons, List.length_replicate]
  source_lt := by
    intro i hi
    cases i with
    | zero => rwa [Nat.add_zero]
    | succ i =>
        rw [Bitmap.test, List.getD_cons_succ, getD_replicate_false] at hi
        cases hi
  data_lt := fun _ => ht

lemma RefBlock.start_single {b target : ℕ} (hb : b * tableBlockSize < invalidId) (ht : target < 2 ^ 32) :
    (RefBlock.single b target hb ht).start = b * tableBlockSize := rfl

lemma RefBlock.edges_single {b target : ℕ} (hb : b * tableBlockSize < invalidId) (ht : target < 2 ^ 32) :
    (RefBlock.single b target hb ht).edges = [(b * tableBlockSize, target)] := by
  have hrest : ∀ i ∈ (List.range 255).map Nat.succ,
      (RefBlock.single b target hb ht).enabled.test i = false := by
    intro i hi
    obtain ⟨j, -, rfl⟩ := List.mem_map.mp hi
    exact getD_replicate_false 255 j
  have hfilter : (List.range tableBlockSize).filter
      (fun i => (RefBlock.single b target hb ht).enabled.test i) = [0] := by
    rw [show tableBlockSize = 255 + 1 from rfl, List.range_succ_eq_map, List.filter_cons_of_pos (by rfl),
      List.filter_eq_nil_iff.mpr fun i hi => by rw [hrest i hi]; exact Bool.false_ne_true]
  rw [RefBlock.edges, hfilter, List.map_singleton, RefBlock.single, Nat.add_zero]

/-- Two threads: the candidate of the first one is a source of the second one. -/
theorem roots_of_partition_two : ∃ bt,
    firstFrontier [[RefBlock.single 0 256 (by decide) (by decide)],
      [RefBlock.single 1 7 (by decide) (by decide)]] = some bt
    ∧ bt.existsId 7 = some true ∧ bt.existsId 256 = some false := by
  obtain ⟨bt, hbt, -, hex⟩ := roots_of_partition
    [RefBlock.single 1 7 (by decide) (by decide), RefBlock.single 0 256 (by decide) (by decide)]
    [[RefBlock.single 0 256 (by decide) (by decide)], [RefBlock.single 1 7 (by decide) (by decide)]]
    (List.Perm.swap _ _ _)
  simp only [List.flatMap_cons, List.flatMap_nil, RefBlock.edges_single] at hex
  exact ⟨bt, hbt, (hex 7).trans (by decide), (hex 256).trans (by decide)⟩

end Furious
