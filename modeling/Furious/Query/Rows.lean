import Furious.Compiler.Codegen
import Furious.Query.Exec

/-!
The rows of a plan.

What an operator hands on is, entity by entity, a row with one argument for each of its columns. Operators
that have fetched globals only hand on one row, which belongs to no entity.

* `PlanTree.Plain`: a plan without gathers, for which code is generated;
* `QueryDb.row`, `QueryDb.globalRow`: **what a plan means**;
* `QueryDb.globalRow_of_not_isGlobal`, `QueryDb.row_of_isGlobal`: a plan has rows of one of the two kinds.
-/

namespace Furious

/-! ### Plans -/

/-- The number of the block that begins behind all ids but those of the last block; clusters without a block
are kept under it. -/
abbrev lastBlock : ℕ := invalidBlockStart / tableBlockSize

namespace PlanTree

/-- The plan has fetched globals only. -/
def isGlobal (t : PlanTree) : Bool := allGlobals t.columns

/-- A plan of scans, fetches, filters and joins that is accepted, and in which one side of a cross join has
fetched globals only. -/
def Plain : PlanTree → Prop
  | .leaf .scan cols => ∃ col, cols = [col] ∧ (col.type = .component ∨ col.type = .id)
  | .leaf .fetch cols => ∃ col, cols = [col] ∧ col.type = .global
  | .unary (.tagFilter tag _ onColumn) t => Plain t ∧ checkTagFilter tag onColumn (columns t) = .ok []
  | .unary (.predicateFilter _) t => Plain t ∧ checkPredicateFilter (columns t) = .ok []
  | .unary (.componentFilter _ _ _) _ | .unary (.foreach _) _ => False
  | .binary .join l r => Plain l ∧ Plain r ∧ (columns l ++ columns r).length ≤ maxOperatorNumColumns
  | .binary .leftFilterJoin l r => Plain l ∧ Plain r
  | .binary .crossJoin l r => Plain l ∧ Plain r ∧ (columns l ++ columns r).length ≤ maxOperatorNumColumns
      ∧ (isGlobal l = true ∨ isGlobal r = true)
  | .binary .gather _ _ | .binary .cascadingGather _ _ => False

lemma columns_unary (type : UnaryType) (t : PlanTree) : columns (.unary type t) = t.columns := rfl

lemma columns_join (l r : PlanTree) : columns (.binary .join l r) = l.columns ++ r.columns := rfl

lemma columns_leftFilterJoin (l r : PlanTree) : columns (.binary .leftFilterJoin l r) = l.columns := rfl

lemma columns_crossJoin (l r : PlanTree) : columns (.binary .crossJoin l r) = l.columns ++ r.columns := rfl

lemma isGlobal_append (l r : PlanTree) : allGlobals (l.columns ++ r.columns) = (l.isGlobal && r.isGlobal) :=
  List.all_append

/-- There is room for the columns. -/
lemma Plain.length_columns_le {t : PlanTree} (h : t.Plain) : t.columns.length ≤ maxOperatorNumColumns := by
  induction t with
  | leaf type cols =>
      cases type with
      | scan =>
          obtain ⟨col, rfl, -⟩ := h
          exact (by decide : 1 ≤ maxOperatorNumColumns)
      | fetch =>
          obtain ⟨col, rfl, -⟩ := h
          exact (by decide : 1 ≤ maxOperatorNumColumns)
  | unary type t ih =>
      cases type with
      | tagFilter tag opType onColumn => exact ih h.1
      | predicateFilter decl => exact ih h.1
      | componentFilter filterType opType onColumn => exact h.elim
      | foreach system => exact h.elim
  | binary type l r ihl ihr =>
      cases type with
      | join => exact h.2.2
      | leftFilterJoin => exact ihl h.1
      | crossJoin => exact h.2.2.1
      | gather => exact h.elim
      | cascadingGather => exact h.elim

end PlanTree

/-! ### What a plan means -/

namespace QueryDb

variable (db : QueryDb)

/-- An entity has the tag. -/
def hasTag (tag : String) (id : ℕ) : Bool := ((db.tags tag).existsId id).getD false

/-- The entity that a reference refers to. -/
def target (refName : String) : List Arg → ℕ
  | .component ptr :: _ => (db.refs refName).table.load Reftable.entityIdSize ptr
  | _ => 0

/-- A row passes a filter. -/
def passes (type : UnaryType) (cols : List FccColumn) (entity : ℕ) (args : List Arg) : Bool :=
  match type with
  | .tagFilter tag opType onColumn =>
      let id := if onColumn = true then db.target ((cols.head?.map FccColumn.refName).getD "") args else entity
      db.hasTag tag id == decide (opType = .has)
  | .predicateFilter funcDecl => db.predicates funcDecl args
  | .componentFilter _ _ _ | .foreach _ => true

/-- The row of globals. -/
def globalRow : PlanTree → Option (List Arg)
  | .leaf .fetch cols => do
      let col ← cols.head?
      let ptr ← db.globals col.componentType
      some [.global ptr]
  | .binary .crossJoin l r => do
      let a ← globalRow l
      let b ← globalRow r
      some (a ++ b)
  | _ => none

/-- **The row of an entity.** A join finds what has globals only next to the last block. -/
def row : PlanTree → ℕ → Option (List Arg)
  | .leaf .scan cols, e => do
      let col ← cols.head?
      let ptr ← if (db.tableOf col).enabledAt e = true then (db.tableOf col).place e else none
      some [.component ptr]
  | .leaf .fetch _, _ => none
  | .unary type t, e => (row t e).filter (db.passes type (PlanTree.columns t) e)
  | .binary .join l r, e =>
      if PlanTree.isGlobal l = true ∧ PlanTree.isGlobal r = true then none
      else do
        let a ← (row l e).or (if e / tableBlockSize = lastBlock then db.globalRow l else none)
        let b ← (row r e).or (if e / tableBlockSize = lastBlock then db.globalRow r else none)
        some (a ++ b)
  | .binary .leftFilterJoin l r, e => (row l e).filter fun _ => (row r e).isSome
  | .binary .crossJoin l r, e => do
      let a ← (row l e).or (db.globalRow l)
      let b ← (row r e).or (db.globalRow r)
      if PlanTree.isGlobal l = true ∧ PlanTree.isGlobal r = true then none else some (a ++ b)
  | .binary .gather _ _, _ | .binary .cascadingGather _ _, _ => none

variable {db} {t : PlanTree}

lemma globalRow_of_not_isGlobal (h : t.Plain) (hg : t.isGlobal = false) : db.globalRow t = none := by
  induction t with
  | leaf type cols =>
      cases type with
      | scan => rfl
      | fetch =>
          obtain ⟨col, rfl, hcol⟩ := h
          have hall : PlanTree.isGlobal (.leaf .fetch [col]) = true := by
            simp [PlanTree.isGlobal, allGlobals, PlanTree.columns, OpTree.value, hcol]
          rw [hall] at hg
          cases hg
  | unary type t ih => rfl
  | binary type l r ihl ihr =>
      cases type with
      | crossJoin =>
          rw [PlanTree.isGlobal, PlanTree.columns_crossJoin, PlanTree.isGlobal_append, Bool.and_eq_false_iff] at hg
          rw [globalRow]
          rcases hg with hg | hg
          · rw [ihl h.1 hg]
            rfl
          · rw [ihr h.2.1 hg]
            cases db.globalRow l <;> rfl
      | _ => rfl

lemma row_of_isGlobal (h : t.Plain) (hg : t.isGlobal = true) (e : ℕ) : db.row t e = none := by
  induction t with
  | leaf type cols =>
      cases type with
      | scan =>
          obtain ⟨col, rfl, hcol⟩ := h
          have hall : PlanTree.isGlobal (.leaf .scan [col]) = false := by
            rcases hcol with hcol | hcol <;> simp [PlanTree.isGlobal, allGlobals, PlanTree.columns, OpTree.value, hcol]
          rw [hall] at hg
          cases hg
      | fetch => rfl
  | unary type t ih =>
      cases type with
      | tagFilter tag opType onColumn => rw [row, ih h.1 hg, Option.filter_none]
      | predicateFilter decl => rw [row, ih h.1 hg, Option.filter_none]
      | componentFilter filterType opType onColumn => exact h.elim
      | foreach system => exact h.elim
  | binary type l r ihl ihr =>
      cases type with
      | join =>
          rw [PlanTree.isGlobal, PlanTree.columns_join, PlanTree.isGlobal_append, Bool.and_eq_true] at hg
          rw [row, if_pos hg]
      | leftFilterJoin => rw [row, ihl h.1 hg, Option.filter_none]
      | crossJoin =>
          rw [PlanTree.isGlobal, PlanTree.columns_crossJoin, PlanTree.isGlobal_append, Bool.and_eq_true] at hg
          rw [row]
          simp only [if_pos hg]
          cases (db.row l e).or (db.globalRow l) <;> cases (db.row r e).or (db.globalRow r) <;> rfl
      | gather => exact h.elim
      | cascadingGather => exact h.elim

end QueryDb

end Furious
