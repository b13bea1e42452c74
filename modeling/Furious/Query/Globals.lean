import Furious.Query.Meaning

/-!
Globals in a query.

Globals that are added to a match of components give the system more arguments, and no other entities; but
behind two of them or more, only entities in the last block are left. A match of globals only belongs to no
entity. No row of its cluster is enabled, so any filter stops it.

* `SystemCall.withoutGlobals`: a call without its globals;
* `globals_add`: **globals that are added** to a match;
* `globals_only`: **a match of globals only**.
-/

namespace Furious

/-! ### Globals that are added -/

/-- An argument is for a component. -/
def Arg.isComponent : Arg → Bool
  | .component _ => true
  | .global _ => false

/-- A call without its globals. -/
def SystemCall.withoutGlobals (call : SystemCall) : SystemCall := { call with args := call.args.filter Arg.isComponent }

/-- The components of a match. -/
def locals (cs : List CompMatch) : List CompMatch := cs.filter fun c => !c.isGlobal

lemma leading_locals (cs : List CompMatch) : leading (locals cs) = 0 :=
  leading_of_locals fun _ hc => by simpa using (List.mem_filter.mp hc).2

section Added

variable {db : QueryDb} {cs : List CompMatch} {c : CompMatch} {e : ℕ} {args : List Arg} {arg : Arg}

/-- An argument is of the kind of what is matched. -/
lemma isComponent_matched (h : db.matched e c = some arg) : arg.isComponent = !c.isGlobal := by
  rw [QueryDb.matched] at h
  cases hc : c.isGlobal with
  | true =>
      rw [hc, if_pos rfl] at h
      obtain ⟨ptr, -, rfl⟩ := Option.map_eq_some_iff.mp h
      rfl
  | false =>
      rw [hc, if_neg Bool.false_ne_true] at h
      split_ifs at h
      obtain ⟨ptr, -, rfl⟩ := Option.map_eq_some_iff.mp h
      rfl

/-- **The arguments without the globals** are those of the components. -/
lemma matchedArgs_locals (h : db.matchedArgs cs e = some args) :
    db.matchedArgs (locals cs) e = some (args.filter Arg.isComponent) := by
  rw [QueryDb.matchedArgs_eq_some_iff] at h ⊢
  induction h with
  | nil => exact .nil
  | cons hhead htail ih =>
      rename_i c arg cs args
      have hkind := isComponent_matched hhead
      cases hc : c.isGlobal with
      | true =>
          rw [hc] at hkind
          rw [locals, List.filter_cons_of_neg (by rw [hc]; exact Bool.false_ne_true),
            List.filter_cons_of_neg (by rw [hkind]; exact Bool.false_ne_true)]
          exact ih
      | false =>
          rw [hc] at hkind
          rw [locals, List.filter_cons_of_pos (by rw [hc]; rfl), List.filter_cons_of_pos (by rw [hkind]; rfl)]
          exact .cons hhead ih

/-- Globals that are there can be added. -/
lemma exists_matchedArgs (hglobals : ∀ c ∈ cs, c.isGlobal = true → (db.globals c.type).isSome = true)
    (h : db.matchedArgs (locals cs) e = some args) :
    ∃ args', db.matchedArgs cs e = some args' ∧ args'.filter Arg.isComponent = args := by
  have hall : ∀ c ∈ cs, ∃ arg, db.matched e c = some arg := by
    intro c hc
    cases hglobal : c.isGlobal with
    | true =>
        obtain ⟨ptr, hptr⟩ := Option.isSome_iff_exists.mp (hglobals c hc hglobal)
        exact ⟨.global ptr, by rw [QueryDb.matched, hglobal, if_pos rfl, hptr, Option.map_some]⟩
    | false => exact QueryDb.exists_matched h (List.mem_filter.mpr ⟨hc, by rw [hglobal]; rfl⟩)
  obtain ⟨args', hargs', -⟩ := mapM_spec (fun _ _ => True) fun c hc => by
    obtain ⟨arg, harg⟩ := hall c hc
    exact ⟨arg, harg, trivial⟩
  refine ⟨args', hargs', ?_⟩
  have hlocal := matchedArgs_locals hargs'
  exact Option.some.inj (hlocal.symm.trans h)

/-- **A global is given** at its place. -/
lemma getElem?_global (h : db.matchedArgs cs e = some args) {i : ℕ} (hi : cs[i]? = some c) (hc : c.isGlobal = true) :
    ∃ ptr, db.globals c.type = some ptr ∧ args[i]? = some (.global ptr) := by
  have hall := QueryDb.matchedArgs_eq_some_iff.mp h
  obtain ⟨hlt, hget⟩ := List.getElem?_eq_some_iff.mp hi
  have harg := hall.get hlt (hall.length_eq ▸ hlt)
  rw [List.get_eq_getElem, hget, QueryDb.matched, hc, if_pos rfl] at harg
  obtain ⟨ptr, hptr, heq⟩ := Option.map_eq_some_iff.mp harg
  exact ⟨ptr, hptr, List.getElem?_eq_some_iff.mpr ⟨hall.length_eq ▸ hlt, heq.symm⟩⟩

/-- **What a match has without some of its arguments.** -/
lemma matches_drop {stmt stmt' : Stmt} {m : EntityMatch} {drop : List Arg → List Arg} (hm : stmt.ematches = [m])
    (hm' : stmt'.ematches = [{ m with cmatches := cs }]) (hfrom : m.fromExpand = false)
    (hdrop : ∀ args, db.matchedArgs m.cmatches e = some args
      ↔ ∃ args', db.matchedArgs cs e = some args' ∧ drop args' = args)
    (hfuncs : ∀ f ∈ m.filterFunc, ∀ args, db.matchedArgs cs e = some args →
      db.predicates f args = db.predicates f (drop args)) :
    stmt.Matches db e args ↔ ∃ args', stmt'.Matches db e args' ∧ drop args' = args := by
  have hmain : stmt.main = m := by rw [Stmt.main, hm]; rfl
  have hmain' : stmt'.main = { m with cmatches := cs } := by rw [Stmt.main, hm']; rfl
  constructor
  · rintro ⟨hargs, htags, hfun, -⟩
    obtain ⟨args', hargs', rfl⟩ := (hdrop args).mp (hmain ▸ hargs)
    have htags' : m.Tags db e := hmain ▸ htags
    refine ⟨args', ⟨hmain' ▸ hargs', hmain' ▸ htags', fun m' hmem f hf => ?_, fun m' hmem hexpand => ?_⟩, rfl⟩
    · obtain rfl := List.mem_singleton.mp (hm' ▸ hmem)
      rw [hfuncs f hf args' hargs']
      exact hfun m (hm ▸ List.mem_cons_self) f hf
    · obtain rfl := List.mem_singleton.mp (hm' ▸ hmem)
      exact absurd hexpand (by rw [hfrom]; exact Bool.false_ne_true)
  · rintro ⟨args', ⟨hargs', htags, hfun, -⟩, rfl⟩
    rw [hmain'] at hargs' htags
    have hdropped := (hdrop _).mpr ⟨args', hargs', rfl⟩
    refine ⟨hmain ▸ hdropped, hmain ▸ (htags : m.Tags db e), fun m' hmem f hf => ?_, fun m' hmem hexpand => ?_⟩
    · obtain rfl := List.mem_singleton.mp (hm ▸ hmem)
      have hmem' : ({ m' with cmatches := cs } : EntityMatch) ∈ stmt'.ematches := by
        rw [hm']
        exact List.mem_cons_self
      rw [← hfuncs f hf args' hargs']
      exact hfun _ hmem' f hf
    · obtain rfl := List.mem_singleton.mp (hm ▸ hmem)
      exact absurd hexpand (by rw [hfrom]; exact Bool.false_ne_true)

/-- The calls of two queries, where the second one has more arguments. -/
lemma perm_drop {drop : List Arg → List Arg} {P R : ℕ → List Arg → Prop} {made made' : List SystemCall}
    (hmade : (made.map SystemCall.entity).Nodup) (hmade' : (made'.map SystemCall.entity).Nodup)
    (hmem : ∀ call, call ∈ made ↔ P call.entity call.args) (hmem' : ∀ call, call ∈ made' ↔ R call.entity call.args)
    (hP : ∀ e args, P e args ↔ ∃ args', R e args' ∧ drop args' = args) :
    (made'.map fun call => { call with args := drop call.args }).Perm made := by
  have hentity : (made'.map fun call => { call with args := drop call.args }).map SystemCall.entity
      = made'.map SystemCall.entity := by
    rw [List.map_map]
    rfl
  rw [List.perm_ext_iff_of_nodup (List.Nodup.of_map SystemCall.entity (hentity ▸ hmade')) (List.Nodup.of_map _ hmade)]
  intro call
  rw [List.mem_map, hmem, hP]
  constructor
  · rintro ⟨call', hcall', rfl⟩
    exact ⟨_, (hmem' call').mp hcall', rfl⟩
  · rintro ⟨args', hp, hargs⟩
    refine ⟨⟨call.entity, args'⟩, (hmem' _).mpr hp, ?_⟩
    rw [hargs]

end Added

section Parsed

variable {start start' : Option (List TypeArg)} {calls calls' : List Call} {decl decl' : SystemDecl}
  {priorities priorities' : List ℕ} {stmt stmt' : Stmt} {m : EntityMatch} {cs : List CompMatch} {db : QueryDb}
  {thread : Thread}

/-- **Globals that are added** to a match of components, wherever they stand, give the system their addresses and leave
its calls as they are; behind two of them or more, only the calls for the last block are left. -/
theorem globals_add (hargs : ∀ args ∈ clauses start calls, args.length < 2 ^ 32)
    (h : parse (.query start calls decl priorities) = .ok stmt) (hvalid : validate stmt = .ok ())
    (hargs' : ∀ args ∈ clauses start' calls', args.length < 2 ^ 32)
    (h' : parse (.query start' calls' decl' priorities') = .ok stmt') (hvalid' : validate stmt' = .ok ())
    (hm : stmt.ematches = [m]) (hm' : stmt'.ematches = [{ m with cmatches := cs }]) (hcs : locals cs = m.cmatches)
    (hne : m.cmatches ≠ []) (honly : m.OnlyTags) (hsize : stmt.numNodes ≤ maxSubplanNodes)
    (hsize' : stmt'.numNodes ≤ maxSubplanNodes) (hdb : db.Reached) (hthread : thread.Valid)
    (hglobals : ∀ c ∈ cs, c.isGlobal = true → (db.globals c.type).isSome = true)
    (hfuncs : ∀ f ∈ m.filterFunc, ∀ args, db.predicates f args = db.predicates f (args.filter Arg.isComponent)) :
    ∃ plan plan' n, subplanInit stmt = some plan ∧ subplanInit stmt' = some plan' ∧ ∀ depth, n ≤ depth →
      ∃ made made', runTask db plan thread depth = some made ∧ runTask db plan' thread depth = some made'
        ∧ (made'.map SystemCall.withoutGlobals).Perm
          (made.filter fun call => leading cs ≤ 1 ∨ call.entity / tableBlockSize = lastBlock)
        ∧ ∀ call ∈ made', ∀ (i : ℕ) (c : CompMatch), cs[i]? = some c → c.isGlobal = true →
          ∃ ptr, db.globals c.type = some ptr ∧ call.args[i]? = some (.global ptr) := by
  obtain ⟨main, expand, hacc, -, -⟩ := accepted_of_parse hargs h hvalid
  obtain ⟨main', expand', hacc', -, -⟩ := accepted_of_parse hargs' h' hvalid'
  have hmain : stmt.main = m := by rw [Stmt.main, hm]; rfl
  have hmain' : stmt'.main = { m with cmatches := cs } := by rw [Stmt.main, hm']; rfl
  have hfrom : m.fromExpand = false := by rw [← hmain, hacc.main_eq, hacc.main_expand]
  obtain ⟨c, hc⟩ := List.exists_mem_of_ne_nil _ hne
  have hlocal : ∃ c ∈ cs, c.isGlobal = false := by
    rw [← hcs] at hc
    obtain ⟨hmem, hnot⟩ := List.mem_filter.mp hc
    exact ⟨c, hmem, by rwa [Bool.not_eq_true'] at hnot⟩
  have hlocals : ∀ c ∈ m.cmatches, c.isGlobal = false := fun c hmem => by
    rw [← hcs] at hmem
    have hnot := (List.mem_filter.mp hmem).2
    rwa [Bool.not_eq_true'] at hnot
  have hlead : leading stmt.main.cmatches ≤ 1 := by
    rw [hmain, ← hcs, leading_locals]
    exact Nat.zero_le 1
  have hone : ∀ m' ∈ stmt.ematches, m' = m := fun m' hmem => List.mem_singleton.mp (hm ▸ hmem)
  have hone' : ∀ m' ∈ stmt'.ematches, m' = { m with cmatches := cs } := fun m' hmem =>
    List.mem_singleton.mp (hm' ▸ hmem)
  obtain ⟨plan, hplan, -, n, hn⟩ := hacc.meaning (onlyGlobals_eq_false (hmain ▸ ⟨c, hc, hlocals c hc⟩))
    (fun m' hmem => hone m' hmem ▸ honly)
    (fun m' hmem hexpand => absurd hexpand (by rw [hone m' hmem, hfrom]; exact Bool.false_ne_true)) hsize hdb.sound
    hthread
  obtain ⟨plan', hplan', -, n', hn'⟩ := hacc'.meaning (onlyGlobals_eq_false (hmain' ▸ hlocal))
    (fun m' hmem => hone' m' hmem ▸ honly)
    (fun m' hmem hexpand => absurd hexpand (by rw [hone' m' hmem, hfrom]; exact Bool.false_ne_true)) hsize' hdb.sound
    hthread
  refine ⟨plan, plan', max n n', hplan, hplan', fun depth hdepth => ?_⟩
  obtain ⟨made, hmade, hnodup, hmem⟩ := hn depth ((le_max_left _ _).trans hdepth)
  obtain ⟨made', hmade', hnodup', hmem'⟩ := hn' depth ((le_max_right _ _).trans hdepth)
  refine ⟨made, made', hmade, hmade', ?_, fun call hcall i c hi hglobal => ?_⟩
  · have hdrop (e : ℕ) (args : List Arg) : db.matchedArgs m.cmatches e = some args
        ↔ ∃ args', db.matchedArgs cs e = some args' ∧ args'.filter Arg.isComponent = args := by
      rw [← hcs]
      refine ⟨exists_matchedArgs hglobals, ?_⟩
      rintro ⟨args', hargs', rfl⟩
      exact matchedArgs_locals hargs'
    refine perm_drop (P := fun e args => (leading cs ≤ 1 ∨ e / tableBlockSize = lastBlock)
        ∧ thread.Takes (e / tableBlockSize) ∧ stmt.Matches db e args)
      (R := fun e args => (leading cs ≤ 1 ∨ e / tableBlockSize = lastBlock)
        ∧ thread.Takes (e / tableBlockSize) ∧ stmt'.Matches db e args)
      ((List.filter_sublist.map _).nodup hnodup) hnodup' (fun call => ?_) (fun call => ?_) fun e args => ?_
    · rw [List.mem_filter, decide_eq_true_iff, hmem, and_iff_right (Or.inl hlead), and_comm]
    · rw [hmem', hmain', and_left_comm]
    · rw [matches_drop hm hm' hfrom (hdrop e) fun f hf args _ => hfuncs f hf args]
      simp only [← exists_and_left, and_assoc]
  · have hmatch := ((hmem' call).mp hcall).2.2.args_eq
    rw [hmain'] at hmatch
    exact getElem?_global hmatch hi hglobal

/-- The statement of `match<A>().foreach<S>()`. -/
def localStmt : Stmt :=
  ⟨.foreach, [⟨[⟨⟨"A"⟩, false, false⟩], [], [], [], [], [], false, ""⟩], ⟨⟨"S"⟩, [⟨⟨"A"⟩, false, false⟩], 0⟩,
    defaultPriority⟩

lemma parse_localStmt : parse (.query (some [⟨⟨"A"⟩, none⟩]) [] ⟨⟨"S"⟩, [⟨⟨⟨"A"⟩, none⟩, false⟩], 0⟩ [])
    = .ok localStmt := rfl

/-- The components of `match<Global<G>, A, Global<H>>().foreach<T>()`. -/
def mixedMatches : List CompMatch := [⟨⟨"G"⟩, true, true⟩, ⟨⟨"A"⟩, false, false⟩, ⟨⟨"H"⟩, true, true⟩]

/-- Its statement. -/
def mixedStmt : Stmt :=
  ⟨.foreach, [⟨mixedMatches, [], [], [], [], [], false, ""⟩], ⟨⟨"T"⟩, mixedMatches, 0⟩, defaultPriority⟩

lemma parse_mixedStmt : parse (.query (some [⟨⟨"G"⟩, some "Global"⟩, ⟨⟨"A"⟩, none⟩, ⟨⟨"H"⟩, some "Global"⟩]) []
    ⟨⟨"T"⟩, [⟨⟨⟨"G"⟩, some "Global"⟩, true⟩, ⟨⟨⟨"A"⟩, none⟩, false⟩, ⟨⟨⟨"H"⟩, some "Global"⟩, true⟩], 0⟩ [])
    = .ok mixedStmt := rfl

/-- What the mixed query matches. -/
lemma matches_mixedStmt {t : Table} {data : Address} (henabled : t.enabledAt 3 = true) (hdata : t.place 3 = some data) :
    mixedStmt.Matches (QueryDb.ofTable t fun _ => some 64) 3 [.global 64, .component data, .global 64] where
  args_eq := by
    simp [mixedStmt, mixedMatches, Stmt.main, QueryDb.matchedArgs, QueryDb.matched, QueryDb.ofTable, henabled, hdata]
  tags := by simp [mixedStmt, Stmt.main, EntityMatch.Tags]
  functions := by simp [mixedStmt, EntityMatch.Functions]
  expands := by simp [mixedStmt]

/-- A database with globals, and with the components of the entities 3 and 1280. -/
lemma exists_two : ∃ (t : Table) (data : Address), (QueryDb.ofTable t fun _ => some 64).Reached ∧ t.numComponents = 2
    ∧ t.enabledAt 3 = true ∧ t.place 3 = some data := by
  obtain ⟨t, hist, h, hM⟩ := TableRun.exists_of_map (fun _ _ => True) [.create 3, .create 1280]
    (f := fun r => (r.1.numComponents, r.1.enabledAt 3, (r.1.place 3).isSome)) (x := (2, true, true))
    (by decide +kernel)
  obtain ⟨htwo, henabled, hplace⟩ : t.numComponents = 2 ∧ t.enabledAt 3 = true ∧ (t.place 3).isSome = true := by
    simpa using hM
  obtain ⟨data, hdata⟩ := Option.isSome_iff_exists.mp hplace
  exact ⟨t, data, QueryDb.reached_ofTable h fun _ => some 64, htwo, henabled, hdata⟩

/-- Two globals, of which one stands before the component; the first of three threads. -/
theorem globals_add_two : ∃ t : Table, (QueryDb.ofTable t fun _ => some 64).Reached ∧ t.numComponents = 2
    ∧ ∃ plan plan' n, subplanInit localStmt = some plan ∧ subplanInit mixedStmt = some plan'
      ∧ ∀ depth, n ≤ depth → ∃ made made',
        runTask (QueryDb.ofTable t fun _ => some 64) plan ⟨2, 0, 3⟩ depth = some made
        ∧ runTask (QueryDb.ofTable t fun _ => some 64) plan' ⟨2, 0, 3⟩ depth = some made'
        ∧ (made'.map SystemCall.withoutGlobals).Perm
          (made.filter fun call => leading mixedMatches ≤ 1 ∨ call.entity / tableBlockSize = lastBlock)
        ∧ (∀ call ∈ made', ∀ (i : ℕ) (c : CompMatch), mixedMatches[i]? = some c → c.isGlobal = true →
          ∃ ptr, (some 64 : Option ℕ) = some ptr ∧ call.args[i]? = some (.global ptr))
        ∧ 3 ∈ made'.map SystemCall.entity := by
  obtain ⟨t, data, hreached, htwo, henabled, hdata⟩ := exists_two
  have hthread : Thread.Valid ⟨2, 0, 3⟩ := ⟨by decide, by decide, by decide⟩
  obtain ⟨plan, plan', n, hplan, hplan', hn⟩ := globals_add (by simp [clauses, expands]) parse_localStmt rfl
    (by simp [clauses, expands]) parse_mixedStmt rfl rfl rfl rfl (List.cons_ne_nil _ _) ⟨rfl, rfl⟩ (by decide)
    (by decide) hreached hthread (fun _ _ _ => rfl) (by simp)
  -- the call for the entity 3, by the meaning of the query
  obtain ⟨main, expand, hacc, -, -⟩ := accepted_of_parse (by simp [clauses, expands]) parse_mixedStmt rfl
  obtain ⟨plan₁, hplan₁, -, n₁, hn₁⟩ := hacc.meaning (by decide) (by simp [mixedStmt, EntityMatch.OnlyTags])
    (by simp [mixedStmt]) (by decide) hreached.sound hthread
  obtain rfl := Option.some.inj (hplan'.symm.trans hplan₁)
  refine ⟨t, hreached, htwo, plan, plan', max n n₁, hplan, hplan', fun depth hdepth => ?_⟩
  obtain ⟨made, made', hmade, hmade', hperm, hglobals⟩ := hn depth ((le_max_left _ _).trans hdepth)
  obtain ⟨made₁, hmade₁, -, hcalls⟩ := hn₁ depth ((le_max_right _ _).trans hdepth)
  obtain rfl := Option.some.inj (hmade'.symm.trans hmade₁)
  have htakes : Thread.Takes ⟨2, 0, 3⟩ (3 / tableBlockSize) := by decide
  have hcall : (⟨3, [.global 64, .component data, .global 64]⟩ : SystemCall) ∈ made' :=
    (hcalls _).mpr ⟨htakes, .inl (by decide), matches_mixedStmt henabled hdata⟩
  exact ⟨made, made', hmade, hmade', hperm, hglobals, List.mem_map_of_mem hcall⟩

end Parsed

/-! ### Globals only -/

/-- A match has no filters. -/
def EntityMatch.Unfiltered (m : EntityMatch) : Prop := m.hasTags = [] ∧ m.hasNotTags = [] ∧ m.filterFunc = []

instance : DecidablePred EntityMatch.Unfiltered := fun m =>
  inferInstanceAs (Decidable (m.hasTags = [] ∧ m.hasNotTags = [] ∧ m.filterFunc = []))

section Only

variable {db : QueryDb} {stmt : Stmt} {main : EntityMatch} {expand : Option EntityMatch} {t : PlanTree}

/-- A filter of globals has no rows. -/
lemma globalRow_above (t : PlanTree) (types : List UnaryType) :
    db.globalRow (t.above types) = if types = [] then db.globalRow t else none := by
  induction types using List.reverseRecOn with
  | nil => rfl
  | append_singleton types type ih =>
      rw [PlanTree.above, List.foldl_append, List.foldl_cons, List.foldl_nil,
        if_neg (List.append_ne_nil_of_right_ne_nil _ (List.cons_ne_nil _ _))]
      rfl

lemma unfiltered_iff (honly : main.OnlyTags) : main.Unfiltered ↔ main.predicates = [] ∧ main.filters false = [] := by
  rw [filters_eq honly, EntityMatch.predicates, List.map_eq_nil_iff, List.append_eq_nil_iff, List.map_eq_nil_iff,
    List.map_eq_nil_iff, EntityMatch.Unfiltered]
  exact ⟨fun h => ⟨h.2.2, h.2.1, h.1⟩, fun h => ⟨h.2.2, h.2.1, h.1⟩⟩

variable (db) in
/-- **The row of a match of globals only.** -/
lemma Stmt.Accepted.globalRow_tree (h : stmt.Accepted main expand) (honly : main.OnlyTags) (hm : main.cmatches ≠ [])
    (hglobals : onlyGlobals main.cmatches = true) (hexpand : ∀ m ∈ expand, m.cmatches = []) (ht : stmt.tree = some t) :
    db.globalRow t = if expand = none ∧ main.Unfiltered then db.matchedArgs main.cmatches 0 else none := by
  obtain ⟨u, hu, rfl⟩ := h.tree_cases hm hexpand ht
  obtain ⟨v, hv, rfl⟩ := Option.map_eq_some_iff.mp hu
  obtain ⟨j, hjoined, rfl⟩ := h.exists_joined db hv
  cases expand with
  | none =>
      rw [Option.elim_none, globalRow_above, globalRow_above, hjoined.globals hglobals 0, ← ite_and]
      exact if_congr (by rw [unfiltered_iff honly, and_iff_right rfl]) rfl rfl
  | some m =>
      have hnone : ¬ (some m = none ∧ main.Unfiltered) := fun hnone => Option.some_ne_none m hnone.1
      rw [Option.elim_some, globalRow_above, if_neg hnone]
      exact ite_self _

end Only

section Parsed

variable {start : Option (List TypeArg)} {calls : List Call} {decl : SystemDecl} {priorities : List ℕ} {stmt : Stmt}
  {db : QueryDb} {thread : Thread}

/-- **A match of globals only**: the first thread calls the system, once, if all globals are there; but with a tag, a
function or an expand no thread calls it. -/
theorem globals_only (hargs : ∀ args ∈ clauses start calls, args.length < 2 ^ 32)
    (h : parse (.query start calls decl priorities) = .ok stmt) (hvalid : validate stmt = .ok ())
    (hne : stmt.main.cmatches ≠ []) (hglobals : ∀ c ∈ stmt.main.cmatches, c.isGlobal = true)
    (honly : ∀ m ∈ stmt.ematches, m.OnlyTags) (hexpand : ∀ m ∈ stmt.ematches, m.fromExpand = true → m.cmatches = [])
    (hsize : stmt.numNodes ≤ maxSubplanNodes) (hdb : db.Reached) (hthread : thread.Valid) :
    ∃ plan, subplanInit stmt = some plan ∧ Settles (fun _ => True) (generate stmt)
      ∧ ∃ n, ∀ depth, n ≤ depth → runTask db plan thread depth
        = some (if thread.offset = 0 ∧ stmt.ematches = [stmt.main] ∧ stmt.main.Unfiltered then
            ((db.matchedArgs stmt.main.cmatches 0).map fun args => ⟨0, args⟩).toList else []) := by
  obtain ⟨main, expand, hacc, -, -⟩ := accepted_of_parse hargs h hvalid
  have hmain := hacc.main_eq
  rw [hmain] at hne hglobals ⊢
  have honlyGlobals : onlyGlobals main.cmatches = true := List.all_eq_true.mpr hglobals
  obtain ⟨t, ht⟩ := hacc.exists_tree (.inl hne)
  have hcells : ∀ m ∈ expand, m.cmatches = [] := fun m hmem =>
    hexpand m (hacc.mem_ematches.mpr (.inr hmem)) (hacc.expand_expand m hmem)
  obtain ⟨hplain, hcols, -⟩ := hacc.tree_spec db honly hne hcells ht
  obtain ⟨plan, hplan, hruns, hsettles⟩ := hacc.exists_runs hne hsize ht hplain hcols
  have hglobal : t.isGlobal = true := by rw [PlanTree.isGlobal, hcols, allGlobals_columns, honlyGlobals]
  have hrow := hacc.globalRow_tree db (honly main (hacc.mem_ematches.mpr (.inl rfl))) hne honlyGlobals hcells ht
  have hone : stmt.ematches = [main] ↔ expand = none := by
    rw [hacc.ematches_eq]
    cases expand <;> simp
  refine ⟨plan, hplan, hsettles, 2 * t.size + 2, fun depth hdepth => ?_⟩
  obtain ⟨made, hmade, hperm⟩ := runTask_spec hdb.sound hruns hthread hdepth
  rw [hmade]
  refine congrArg some ?_
  rw [QueryDb.threadCalls, if_pos hglobal, QueryDb.globalCalls, hrow] at hperm
  by_cases hfirst : thread.offset = 0
  · by_cases hplain : expand = none ∧ main.Unfiltered
    · rw [if_pos hfirst, if_pos hplain, ← Option.toList_map] at hperm
      rw [if_pos ⟨hfirst, hone.mpr hplain.1, hplain.2⟩]
      cases hcall : (db.matchedArgs main.cmatches 0).map (SystemCall.mk 0) with
      | none =>
          rw [hcall] at hperm
          exact List.perm_nil.mp hperm
      | some call =>
          rw [hcall] at hperm
          exact List.perm_singleton.mp hperm
    · rw [if_pos hfirst, if_neg hplain] at hperm
      rw [if_neg fun h => hplain ⟨hone.mp h.2.1, h.2.2⟩]
      exact List.perm_nil.mp hperm
  · rw [if_neg hfirst] at hperm
    rw [if_neg fun h => hfirst h.1]
    exact List.perm_nil.mp hperm

/-- The statement of `match<Global<G>, Global<H>>().foreach<S>()`. -/
def globalStmt : Stmt :=
  ⟨.foreach, [⟨[⟨⟨"G"⟩, false, true⟩, ⟨⟨"H"⟩, true, true⟩], [], [], [], [], [], false, ""⟩],
    ⟨⟨"S"⟩, [⟨⟨"G"⟩, false, true⟩, ⟨⟨"H"⟩, true, true⟩], 0⟩, defaultPriority⟩

lemma parse_globalStmt : parse (.query (some [⟨⟨"G"⟩, some "Global"⟩, ⟨⟨"H"⟩, some "Global"⟩]) []
    ⟨⟨"S"⟩, [⟨⟨⟨"G"⟩, some "Global"⟩, false⟩, ⟨⟨⟨"H"⟩, some "Global"⟩, true⟩], 0⟩ []) = .ok globalStmt := rfl

/-- The first of three threads. -/
theorem globals_only_two : ∃ t : Table, (QueryDb.ofTable t fun _ => some 64).Reached ∧ t.numComponents = 2
    ∧ ∃ plan, subplanInit globalStmt = some plan ∧ Settles (fun _ => True) (generate globalStmt)
      ∧ ∃ n, ∀ depth, n ≤ depth → runTask (QueryDb.ofTable t fun _ => some 64) plan ⟨2, 0, 3⟩ depth
        = some (if 0 = 0 ∧ globalStmt.ematches = [globalStmt.main] ∧ globalStmt.main.Unfiltered then
            (((QueryDb.ofTable t fun _ => some 64).matchedArgs globalStmt.main.cmatches 0).map
              fun args => ⟨0, args⟩).toList else []) := by
  obtain ⟨t, hist, h, hM⟩ := TableRun.exists_of_map (fun _ _ => True) [.create 3, .create 1280]
    (f := fun r => r.1.numComponents) (x := 2) (by decide +kernel)
  have hreached := QueryDb.reached_ofTable h fun _ => some 64
  exact ⟨t, hreached, hM, globals_only (by simp [clauses, expands]) parse_globalStmt rfl (List.cons_ne_nil _ _)
    (by decide) (by simp [globalStmt, EntityMatch.OnlyTags]) (by simp [globalStmt]) (by decide) hreached
    ⟨by decide, by decide, by decide⟩⟩

end Parsed

end Furious
