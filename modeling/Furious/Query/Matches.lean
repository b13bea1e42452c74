import Furious.Query.Tasks
import Mathlib.Data.List.TakeWhile

/-!
What a match of components and globals gives.

The components and globals of a match are joined from left to right. A fetch is put together with what is next
to it whatever its block is, but not a cross join of fetches: behind two globals or more a component is joined
by its block.

* `QueryDb.matched`, `QueryDb.matchedArgs`: the arguments for an entity;
* `leading`: the globals before the first component;
* `joined_spec`: **the rows of a match**;
* `EntityMatch.Tags`, `EntityMatch.Functions`: the filters of a match;
* `row_above`, `filters_pass`, `predicates_pass`: the rows that they leave.
-/

namespace Furious

/-! ### Arguments -/

namespace QueryDb

variable (db : QueryDb)

/-- What is given for a component of an entity, or for a global. -/
def matched (e : ℕ) (c : CompMatch) : Option Arg :=
  if c.isGlobal = true then (db.globals c.type).map .global
  else if (db.tables c.type).enabledAt e = true then ((db.tables c.type).place e).map .component else none

/-- What is given for all components and globals. -/
def matchedArgs (cs : List CompMatch) (e : ℕ) : Option (List Arg) := cs.mapM (db.matched e)

end QueryDb

/-- **One argument for each of them.** -/
lemma QueryDb.matchedArgs_eq_some_iff {db : QueryDb} {cs : List CompMatch} {e : ℕ} {args : List Arg} :
    db.matchedArgs cs e = some args ↔ List.Forall₂ (fun c arg => db.matched e c = some arg) cs args := by
  induction cs generalizing args with
  | nil => exact Option.some_inj.trans (eq_comm.trans List.forall₂_nil_left_iff.symm)
  | cons c cs ih =>
      rw [QueryDb.matchedArgs, List.mapM_cons, List.forall₂_cons_left_iff, Option.bind_eq_bind,
        Option.bind_eq_some_iff]
      refine exists_congr fun arg => ?_
      rw [exists_and_left, Option.bind_eq_bind, Option.bind_eq_some_iff]
      refine and_congr_right fun _ => exists_congr fun rest => ?_
      rw [← ih, QueryDb.matchedArgs]
      exact and_congr_right fun _ => Option.some_inj.trans eq_comm

lemma QueryDb.exists_matched {db : QueryDb} {cs : List CompMatch} {e : ℕ} {args : List Arg} {c : CompMatch}
    (h : db.matchedArgs cs e = some args) (hc : c ∈ cs) : ∃ arg, db.matched e c = some arg := by
  have hall := QueryDb.matchedArgs_eq_some_iff.mp h
  obtain ⟨i, hi, rfl⟩ := List.getElem_of_mem hc
  exact ⟨_, hall.get hi (hall.length_eq ▸ hi)⟩

/-- The number of globals before the first component. -/
def leading (cs : List CompMatch) : ℕ := (cs.takeWhile CompMatch.isGlobal).length

/-- There are globals only. -/
def onlyGlobals (cs : List CompMatch) : Bool := cs.all CompMatch.isGlobal

lemma leading_of_locals {cs : List CompMatch} (h : ∀ c ∈ cs, c.isGlobal = false) : leading cs = 0 := by
  cases cs with
  | nil => rfl
  | cons c rest =>
      rw [leading, List.takeWhile_cons_of_neg (by rw [h c List.mem_cons_self]; exact Bool.false_ne_true)]
      rfl

lemma leading_snoc (cs : List CompMatch) (c : CompMatch) :
    leading (cs ++ [c]) = if onlyGlobals cs = true ∧ c.isGlobal = true then leading cs + 1 else leading cs := by
  rw [leading, leading, onlyGlobals, List.takeWhile_append]
  by_cases hall : cs.all CompMatch.isGlobal = true
  · have hself : cs.takeWhile CompMatch.isGlobal = cs :=
      List.takeWhile_eq_self_iff.mpr (List.all_eq_true.mp hall)
    rw [hself, if_pos rfl, List.length_append]
    cases hc : c.isGlobal with
    | true =>
        rw [List.takeWhile_cons_of_pos hc, if_pos ⟨hall, rfl⟩]
        rfl
    | false =>
        rw [List.takeWhile_cons_of_neg (by rw [hc]; exact Bool.false_ne_true), if_neg fun h => by cases h.2]
        rfl
  · have hne : (cs.takeWhile CompMatch.isGlobal).length ≠ cs.length := by
      intro hlen
      have hself := (List.takeWhile_prefix CompMatch.isGlobal).eq_of_length hlen
      exact hall (List.all_eq_true.mpr (List.takeWhile_eq_self_iff.mp hself))
    rw [if_neg hne, if_neg fun h => hall h.1]

lemma leading_of_onlyGlobals {cs : List CompMatch} (h : onlyGlobals cs = true) : leading cs = cs.length := by
  rw [leading, List.takeWhile_eq_self_iff.mpr (List.all_eq_true.mp h)]

lemma onlyGlobals_snoc (cs : List CompMatch) (c : CompMatch) :
    onlyGlobals (cs ++ [c]) = (onlyGlobals cs && c.isGlobal) := by
  rw [onlyGlobals, List.all_append, List.all_cons, List.all_nil, Bool.and_true, onlyGlobals]

lemma allGlobals_columns (cs : List CompMatch) : allGlobals (cs.map CompMatch.column) = onlyGlobals cs := by
  rw [allGlobals, onlyGlobals, List.all_map]
  refine congrArg cs.all (funext fun c => ?_)
  rw [Function.comp_apply, CompMatch.column]
  cases c.isGlobal <;> rfl

/-! ### Joined components -/

section Joined

variable {db : QueryDb} {c : CompMatch} {cs : List CompMatch} {e : ℕ}

lemma plain_tree (c : CompMatch) : PlanTree.Plain c.tree := by
  rw [CompMatch.tree]
  cases hc : c.isGlobal with
  | true => exact ⟨c.column, rfl, by rw [CompMatch.column, hc]; rfl⟩
  | false => exact ⟨c.column, rfl, .inl (by rw [CompMatch.column, hc]; rfl)⟩

lemma isFetch_tree (c : CompMatch) : c.tree.isFetch = c.isGlobal := by
  rw [CompMatch.tree]
  cases c.isGlobal <;> rfl

lemma isGlobal_tree (c : CompMatch) : PlanTree.isGlobal c.tree = c.isGlobal := by
  have hcols : PlanTree.columns c.tree = [c.column] := rfl
  rw [PlanTree.isGlobal, hcols, allGlobals, List.all_cons, List.all_nil, Bool.and_true, CompMatch.column]
  cases c.isGlobal <;> rfl

variable (db) in
lemma matchedArgs_snoc (cs : List CompMatch) (c : CompMatch) (e : ℕ) : db.matchedArgs (cs ++ [c]) e = (do
    let args ← db.matchedArgs cs e
    let arg ← db.matched e c
    some (args ++ [arg])) := by
  rw [QueryDb.matchedArgs, QueryDb.matchedArgs, List.mapM_append]
  congr 1
  funext args
  rw [List.mapM_cons, List.mapM_nil]
  cases db.matched e c <;> rfl

/-- The row of a component. -/
lemma row_tree (hc : c.isGlobal = false) (e : ℕ) : db.row c.tree e = (db.matched e c).map fun arg => [arg] := by
  have htree : c.tree = .leaf .scan [c.column] := by rw [CompMatch.tree, hc]; rfl
  have htable : db.tableOf c.column = db.tables c.type := by
    rw [QueryDb.tableOf, CompMatch.column, hc]
    rfl
  rw [htree, QueryDb.row, List.head?_cons, Option.bind_eq_bind, Option.bind_some, htable, QueryDb.matched, hc,
    if_neg Bool.false_ne_true]
  split_ifs
  · cases (db.tables c.type).place e <;> rfl
  · rfl

/-- The row of a global. -/
lemma globalRow_tree (hc : c.isGlobal = true) (e : ℕ) :
    db.globalRow c.tree = (db.matched e c).map fun arg => [arg] := by
  have htree : c.tree = .leaf .fetch [c.column] := by rw [CompMatch.tree, hc]; rfl
  rw [htree, QueryDb.globalRow, List.head?_cons, Option.bind_eq_bind, Option.bind_some, QueryDb.matched, hc,
    if_pos rfl]
  show ((db.globals c.type).bind fun ptr => some [Arg.global ptr]) = _
  cases db.globals c.type <;> rfl

/-- A component or a global, next to something. -/
lemma row_or_tree (c : CompMatch) (e : ℕ) :
    (db.row c.tree e).or (db.globalRow c.tree) = (db.matched e c).map fun arg => [arg] := by
  cases hc : c.isGlobal with
  | true =>
      rw [QueryDb.row_of_isGlobal (plain_tree c) (by rw [isGlobal_tree, hc]), Option.none_or, globalRow_tree hc]
  | false =>
      rw [QueryDb.globalRow_of_not_isGlobal (plain_tree c) (by rw [isGlobal_tree, hc]), Option.or_none, row_tree hc]

/-- **The tree of some components and globals.** -/
structure JoinedTree (db : QueryDb) (cs : List CompMatch) (t : PlanTree) : Prop where
  plain : t.Plain
  isGlobal : t.isGlobal = onlyGlobals cs
  isFetch : t.isFetch = (onlyGlobals cs && decide (cs.length = 1))
  globals : onlyGlobals cs = true → ∀ e, db.globalRow t = db.matchedArgs cs e
  rows : onlyGlobals cs = false → ∀ e, db.row t e
    = if leading cs ≤ 1 ∨ e / tableBlockSize = lastBlock then db.matchedArgs cs e else none

lemma JoinedTree.single (c : CompMatch) : JoinedTree db [c] c.tree := by
  have honly : onlyGlobals [c] = c.isGlobal := by rw [onlyGlobals, List.all_cons, List.all_nil, Bool.and_true]
  have hargs : ∀ e, db.matchedArgs [c] e = (db.matched e c).map fun arg => [arg] := fun e => by
    rw [QueryDb.matchedArgs, List.mapM_cons, List.mapM_nil]
    cases db.matched e c <;> rfl
  refine ⟨plain_tree c, by rw [isGlobal_tree, honly], ?_, fun h e => ?_, fun h e => ?_⟩
  · rw [isFetch_tree, honly, List.length_singleton, decide_eq_true rfl, Bool.and_true]
  · rw [hargs, globalRow_tree (honly ▸ h)]
  · have hlead : leading [c] ≤ 1 := (List.takeWhile_prefix CompMatch.isGlobal).length_le
    rw [hargs, if_pos (.inl hlead), row_tree (honly ▸ h)]

/-- What is there of a tree, next to something. -/
lemma JoinedTree.row_or {t : PlanTree} (h : JoinedTree db cs t) (hlead : leading cs ≤ 1) (e : ℕ) :
    (db.row t e).or (db.globalRow t) = db.matchedArgs cs e := by
  cases honly : onlyGlobals cs with
  | true => rw [QueryDb.row_of_isGlobal h.plain (h.isGlobal.trans honly), Option.none_or, h.globals honly e]
  | false =>
      rw [QueryDb.globalRow_of_not_isGlobal h.plain (h.isGlobal.trans honly), Option.or_none, h.rows honly,
        if_pos (.inl hlead)]

/-- **A component or a global is joined** to those before it. -/
lemma JoinedTree.snoc {t : PlanTree} (h : JoinedTree db cs t) (hcs : cs ≠ []) (c : CompMatch)
    (hroom : (t.columns ++ c.tree.columns).length ≤ maxOperatorNumColumns) :
    JoinedTree db (cs ++ [c]) (t.joinComponent c) := by
  have hlen : (cs ++ [c]).length ≠ 1 := by
    rw [List.length_append, List.length_singleton]
    have := List.length_pos_iff.mpr hcs
    omega
  have hlone : t.isFetch = true ↔ onlyGlobals cs = true ∧ leading cs = 1 := by
    rw [h.isFetch, Bool.and_eq_true, decide_eq_true_iff]
    exact and_congr_right fun honly => by rw [leading_of_onlyGlobals honly]
  have hargs := matchedArgs_snoc db cs c
  by_cases hcross : t.isFetch = true ∨ c.isGlobal = true
  · -- next to a fetch
    have htree : t.joinComponent c = .binary .crossJoin t c.tree := by
      rw [PlanTree.joinComponent, isFetch_tree, if_pos (by rwa [Bool.or_eq_true])]
    have hside : t.isGlobal = true ∨ PlanTree.isGlobal c.tree = true := by
      rw [h.isGlobal, isGlobal_tree]
      exact hcross.imp_left fun hfetch => (hlone.mp hfetch).1
    have hglobal : PlanTree.isGlobal (.binary .crossJoin t c.tree) = onlyGlobals (cs ++ [c]) := by
      rw [PlanTree.isGlobal, PlanTree.columns_crossJoin, PlanTree.isGlobal_append, h.isGlobal, isGlobal_tree,
        onlyGlobals_snoc]
    rw [htree]
    refine ⟨⟨h.plain, plain_tree c, hroom, hside⟩, hglobal, ?_, fun honly e => ?_, fun honly e => ?_⟩
    · rw [decide_eq_false hlen, Bool.and_false]
      rfl
    · rw [onlyGlobals_snoc, Bool.and_eq_true] at honly
      rw [QueryDb.globalRow, h.globals honly.1 e, globalRow_tree honly.2 e, hargs]
      cases db.matchedArgs cs e <;> cases db.matched e c <;> rfl
    · have hnot : ¬ (t.isGlobal = true ∧ PlanTree.isGlobal c.tree = true) := by
        rw [h.isGlobal, isGlobal_tree, ← Bool.and_eq_true, ← onlyGlobals_snoc, honly]
        exact Bool.false_ne_true
      rw [h.isGlobal, isGlobal_tree] at hnot
      have hlead : leading (cs ++ [c]) = leading cs := by rw [leading_snoc, if_neg hnot]
      rw [QueryDb.row, row_or_tree, hlead, hargs]
      have hrow : (db.row t e).or (db.globalRow t)
          = if leading cs ≤ 1 ∨ e / tableBlockSize = lastBlock then db.matchedArgs cs e else none := by
        cases hcs' : onlyGlobals cs with
        | true =>
            have hone : leading cs ≤ 1 := by
              rcases hcross with hfetch | hc
              · exact (hlone.mp hfetch).2.le
              · exact absurd ⟨hcs', hc⟩ hnot
            rw [h.row_or hone, if_pos (.inl hone)]
        | false =>
            rw [QueryDb.globalRow_of_not_isGlobal h.plain (h.isGlobal.trans hcs'), Option.or_none, h.rows hcs']
      rw [hrow]
      simp only [h.isGlobal, isGlobal_tree, if_neg hnot]
      split_ifs
      · cases db.matchedArgs cs e <;> cases db.matched e c <;> rfl
      · rfl
  · -- by the block
    obtain ⟨hfetch, hc⟩ := not_or.mp hcross
    have hcomp : c.isGlobal = false := Bool.not_eq_true _ ▸ hc
    have htree : t.joinComponent c = .binary .join t c.tree := by
      rw [PlanTree.joinComponent, isFetch_tree, if_neg (by rwa [Bool.or_eq_true])]
    have honly' : onlyGlobals (cs ++ [c]) = false := by rw [onlyGlobals_snoc, hcomp, Bool.and_false]
    have hglobal : PlanTree.isGlobal (.binary .join t c.tree) = onlyGlobals (cs ++ [c]) := by
      rw [PlanTree.isGlobal, PlanTree.columns_join, PlanTree.isGlobal_append, h.isGlobal, isGlobal_tree,
        onlyGlobals_snoc]
    have hlead : leading (cs ++ [c]) = leading cs := by rw [leading_snoc, if_neg fun h => hc h.2]
    rw [htree]
    refine ⟨⟨h.plain, plain_tree c, hroom⟩, hglobal, ?_, fun honly => ?_, fun _ e => ?_⟩
    · rw [decide_eq_false hlen, Bool.and_false]
      rfl
    · rw [honly'] at honly
      cases honly
    · have hnot : ¬ (t.isGlobal = true ∧ PlanTree.isGlobal c.tree = true) := by
        rw [isGlobal_tree]
        exact fun h => hc h.2
      have hcglobal : db.globalRow c.tree = none :=
        QueryDb.globalRow_of_not_isGlobal (plain_tree c) (by rw [isGlobal_tree, hcomp])
      rw [QueryDb.row, if_neg hnot, hcglobal, ite_self, Option.or_none, row_tree hcomp, hlead, hargs]
      have hrow : (db.row t e).or (if e / tableBlockSize = lastBlock then db.globalRow t else none)
          = if leading cs ≤ 1 ∨ e / tableBlockSize = lastBlock then db.matchedArgs cs e else none := by
        cases hcs' : onlyGlobals cs with
        | true =>
            -- more than one global
            have hmany : ¬ leading cs ≤ 1 := by
              intro hle
              have hpos : 0 < leading cs := by
                rw [leading_of_onlyGlobals hcs']
                exact List.length_pos_iff.mpr hcs
              exact hfetch (hlone.mpr ⟨hcs', by omega⟩)
            rw [QueryDb.row_of_isGlobal h.plain (h.isGlobal.trans hcs'), Option.none_or, h.globals hcs' e]
            exact if_congr (by simp only [hmany, false_or]) rfl rfl
        | false =>
            rw [QueryDb.globalRow_of_not_isGlobal h.plain (h.isGlobal.trans hcs'), ite_self, Option.or_none,
              h.rows hcs']
      rw [hrow]
      split_ifs
      · cases db.matchedArgs cs e <;> cases db.matched e c <;> rfl
      · rfl

variable (db) in
/-- **The rows of a match.** -/
theorem joined_spec (c : CompMatch) (cs : List CompMatch) (hroom : (c :: cs).length ≤ maxOperatorNumColumns) :
    JoinedTree db (c :: cs) (cs.foldl PlanTree.joinComponent c.tree) := by
  induction cs using List.reverseRecOn with
  | nil => exact JoinedTree.single c
  | append_singleton cs d ih =>
      rw [List.foldl_append, List.foldl_cons, List.foldl_nil]
      have hlen : (c :: cs).length + 1 ≤ maxOperatorNumColumns := by
        rw [List.length_cons, List.length_append, List.length_singleton] at hroom
        rw [List.length_cons]
        omega
      refine (ih (Nat.le_of_succ_le hlen)).snoc (List.cons_ne_nil _ _) d ?_
      rw [Subplan.columns_components, List.length_append, List.length_append, List.length_map]
      rw [List.length_cons] at hlen
      have hone : (PlanTree.columns c.tree).length = 1 ∧ (PlanTree.columns d.tree).length = 1 := ⟨rfl, rfl⟩
      omega

end Joined

/-! ### Filters -/

section Filters

variable {db : QueryDb} {t : PlanTree} {types : List UnaryType}

/-- Code is generated for a filter. -/
def Applies (cols : List FccColumn) : UnaryType → Prop
  | .tagFilter tag _ onColumn => checkTagFilter tag onColumn cols = .ok []
  | .predicateFilter _ => checkPredicateFilter cols = .ok []
  | .componentFilter _ _ _ | .foreach _ => False

lemma plain_above (ht : t.Plain) (h : ∀ type ∈ types, Applies t.columns type) : (t.above types).Plain := by
  induction types generalizing t with
  | nil => exact ht
  | cons type types ih =>
      have hplain : PlanTree.Plain (.unary type t) := by
        have htype := h type List.mem_cons_self
        cases type with
        | tagFilter tag opType onColumn => exact ⟨ht, htype⟩
        | predicateFilter funcDecl => exact ⟨ht, htype⟩
        | componentFilter filterType opType onColumn => exact htype.elim
        | foreach system => exact htype.elim
      exact ih hplain fun type' htype' => h type' (List.mem_cons_of_mem _ htype')

/-- **The rows that some filters leave.** -/
lemma row_above (t : PlanTree) (types : List UnaryType) (e : ℕ) : db.row (t.above types) e
    = (db.row t e).filter fun args => types.all fun type => db.passes type t.columns e args := by
  induction types generalizing t with
  | nil =>
      show db.row t e = _
      cases db.row t e <;> rfl
  | cons type types ih =>
      rw [PlanTree.above, List.foldl_cons, ← PlanTree.above, ih, QueryDb.row, Option.filter_filter]
      simp only [List.all_cons, PlanTree.columns_unary]

end Filters

/-! ### Tags and functions -/

/-- An entity has the tags of a match, and none of those that it must not have. -/
def EntityMatch.Tags (db : QueryDb) (m : EntityMatch) (id : ℕ) : Prop :=
  (∀ tag ∈ m.hasTags, db.hasTag tag id = true) ∧ ∀ tag ∈ m.hasNotTags, db.hasTag tag id = false

/-- The filter functions of a match return true. -/
def EntityMatch.Functions (db : QueryDb) (m : EntityMatch) (args : List Arg) : Prop :=
  ∀ funcDecl ∈ m.filterFunc, db.predicates funcDecl args = true

/-- There are no filters by components, for which there is no code. -/
def EntityMatch.OnlyTags (m : EntityMatch) : Prop := m.hasComponents = [] ∧ m.hasNotComponents = []

section Tags

variable {db : QueryDb} {m : EntityMatch} {cols : List FccColumn} {e : ℕ} {args : List Arg}

lemma filters_eq (hm : m.OnlyTags) (onColumn : Bool) :
    m.filters onColumn = m.hasNotTags.map (fun tag => .tagFilter tag .hasNot onColumn)
      ++ m.hasTags.map (fun tag => .tagFilter tag .has onColumn) := by
  rw [EntityMatch.filters, hm.1, hm.2, List.map_nil, List.map_nil, List.append_nil, List.append_nil]

/-- Code is generated for filters by tags. -/
lemma applies_filters (hm : m.OnlyTags) {onColumn : Bool}
    (hcols : onColumn = true → cols.head?.map FccColumn.type = some .id) :
    ∀ type ∈ m.filters onColumn, Applies cols type := by
  have htag (tag : String) : checkTagFilter tag onColumn cols = .ok [] := if_neg fun h => h.2 (hcols h.1)
  intro type htype
  rw [filters_eq hm, List.mem_append] at htype
  rcases htype with htype | htype
  · obtain ⟨tag, -, rfl⟩ := List.mem_map.mp htype
    exact htag tag
  · obtain ⟨tag, -, rfl⟩ := List.mem_map.mp htype
    exact htag tag

/-- **The filters by tags**, of an entity or of what is referred to. -/
lemma filters_pass (hm : m.OnlyTags) (onColumn : Bool) :
    ((m.filters onColumn).all fun type => db.passes type cols e args) = true
      ↔ m.Tags db (if onColumn = true then db.target ((cols.head?.map FccColumn.refName).getD "") args else e) := by
  rw [filters_eq hm, List.all_append, Bool.and_eq_true, List.all_map, List.all_map, List.all_eq_true,
    List.all_eq_true, EntityMatch.Tags, and_comm]
  refine and_congr (forall₂_congr fun tag _ => ?_) (forall₂_congr fun tag _ => ?_)
  · show (db.hasTag tag _ == decide (FilterOpType.has = .has)) = true ↔ _
    rw [beq_iff_eq, decide_eq_true rfl]
  · show (db.hasTag tag _ == decide (FilterOpType.hasNot = .has)) = true ↔ _
    rw [beq_iff_eq, decide_eq_false fun h => by cases h]

lemma predicates_pass : (m.predicates.all fun type => db.passes type cols e args) = true ↔ m.Functions db args := by
  rw [EntityMatch.predicates, List.all_map, List.all_eq_true]
  rfl

lemma checkNoIds_ok {message : String} (h : ∀ col ∈ cols, col.type ≠ .id) : checkNoIds message cols = .ok [] := by
  have hnone : cols.find? (fun col => col.type = .id) = none := List.find?_eq_none.mpr fun col hcol heq =>
    h col hcol (of_decide_eq_true heq)
  rw [checkNoIds, hnone]

/-- Code is generated for filter functions on components and globals. -/
lemma applies_predicates (hcols : ∀ col ∈ cols, col.type ≠ .id) : ∀ type ∈ m.predicates, Applies cols type := by
  intro type htype
  obtain ⟨funcDecl, -, rfl⟩ := List.mem_map.mp htype
  exact checkNoIds_ok hcols

end Tags

end Furious
