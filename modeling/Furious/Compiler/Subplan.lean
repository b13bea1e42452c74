import Furious.Compiler.Acceptance
import Furious.Compiler.Operators

/-!
The operator trees of the statements.

* `Stmt.tree`: the tree that a statement should get;
* `Builds`: a part of the tree has been made; `planMatch_builds`, `subplanInit_eq`: **what is made of a
  statement**.
-/

namespace Furious

/-! ### The tree of a statement -/

/-- A tree of operators. -/
abbrev PlanTree : Type := OpTree LeafType UnaryType BinaryType (List FccColumn)

/-- The columns of an operator with one child. -/
def upColumns (_ : UnaryType) (cols : List FccColumn) : List FccColumn := cols

/-- The columns of an operator with two children. -/
def joinColumns : BinaryType → List FccColumn → List FccColumn → List FccColumn
  | .join, left, right | .crossJoin, left, right => left ++ right
  | .leftFilterJoin, left, _ => left
  | .gather, child, _ | .cascadingGather, child, _ => child.map FccColumn.toReference

namespace PlanTree

/-- The columns of a tree. -/
def columns (t : PlanTree) : List FccColumn := OpTree.value upColumns joinColumns t

/-- The root is a fetch. -/
def isFetch : PlanTree → Bool
  | .leaf .fetch _ => true
  | _ => false

/-- Some operators with one child, one above the other. -/
def above (t : PlanTree) (types : List UnaryType) : PlanTree := types.foldl (fun t type => .unary type t) t

end PlanTree

/-- The column of a matched component. -/
def CompMatch.column (c : CompMatch) : FccColumn :=
  ⟨if c.isGlobal then .global else .component, c.type, "", c.accessMode⟩

/-- The operator of a matched component. -/
def CompMatch.tree (c : CompMatch) : PlanTree := .leaf (if c.isGlobal then .fetch else .scan) [c.column]

/-- A component is joined to those before it. -/
def PlanTree.joinComponent (t : PlanTree) (c : CompMatch) : PlanTree :=
  .binary (if t.isFetch || c.tree.isFetch then .crossJoin else .join) t c.tree

namespace EntityMatch

/-- The filters by tags and components. -/
def filters (m : EntityMatch) (onColumn : Bool) : List UnaryType :=
  m.hasNotTags.map (fun tag => .tagFilter tag .hasNot onColumn)
    ++ m.hasTags.map (fun tag => .tagFilter tag .has onColumn)
    ++ m.hasNotComponents.map (fun type => .componentFilter type .hasNot onColumn)
    ++ m.hasComponents.map (fun type => .componentFilter type .has onColumn)

/-- The filters by functions. -/
def predicates (m : EntityMatch) : List UnaryType := m.filterFunc.map .predicateFilter

/-- The tree of the components. -/
def componentTree (m : EntityMatch) : Option PlanTree :=
  match m.cmatches with
  | [] => none
  | c :: cs => some ((cs.foldl PlanTree.joinComponent c.tree).above (m.filters false))

/-- The references of an expand. -/
def refScan (m : EntityMatch) : PlanTree := .leaf .scan [⟨.id, ⟨""⟩, m.refName, .read⟩]

/-- The tree of an entity match. -/
def localTree (m main : EntityMatch) : Option PlanTree :=
  if m.fromExpand then
    some (m.componentTree.elim (m.refScan.above (m.filters true))
      fun t => .binary (if Subplan.isCascading main m then .cascadingGather else .gather) t m.refScan)
  else m.componentTree

/-- The tree of an entity match, joined to the tree of those before it. -/
def joinedTree (m main : EntityMatch) (root : Option PlanTree) : Option PlanTree :=
  root.elim (m.localTree main) fun r =>
    (m.localTree main).map (.binary (if m.cmatches = [] then .leftFilterJoin else .join) r)

/-- An iteration over the entity matches. -/
def addTree (main : EntityMatch) (root : Option PlanTree) (m : EntityMatch) : Option PlanTree :=
  (m.joinedTree main root).map fun t => t.above m.predicates

end EntityMatch

/-- **The tree of a statement**, below its `foreach`. -/
def Stmt.tree (stmt : Stmt) : Option PlanTree :=
  stmt.ematches.reverse.foldl (EntityMatch.addTree (stmt.ematches.getLastD EntityMatch.init)) none

/-! ### What the operators become -/

/-- A subplan of trees that are not yet part of each other, the last one first. -/
def stackPlan (ts : List PlanTree) (sync : Bool) : Subplan :=
  ⟨stackCells upColumns joinColumns fccInvalidId ts, sync, 0⟩

/-- **What is made**: some trees, with the root of the last one, if the array has room for them. -/
def Builds (x : Option (Subplan × ℕ)) (ts : List PlanTree) (sync : Bool) : Prop :=
  x = if stackSize ts ≤ maxSubplanNodes then some (stackPlan ts sync, stackSize ts - 1) else none

namespace Builds

variable {x : Option (Subplan × ℕ)} {f : Subplan × ℕ → Option (Subplan × ℕ)} {ts ts' : List PlanTree}
  {sync sync' : Bool}

/-- **One step after another.** -/
lemma bind (hx : Builds x ts sync) (hle : stackSize ts ≤ stackSize ts')
    (hf : stackSize ts ≤ maxSubplanNodes → Builds (f (stackPlan ts sync, stackSize ts - 1)) ts' sync') :
    Builds (x >>= f) ts' sync' := by
  rw [Builds] at hx
  by_cases hroom : stackSize ts ≤ maxSubplanNodes
  · rw [hx, if_pos hroom]
    exact hf hroom
  · rw [hx, if_neg hroom, Builds, if_neg (by omega)]
    rfl

end Builds

namespace Subplan

variable {ts below : List PlanTree} {sync : Bool}

lemma length_nodes_stackPlan (ts : List PlanTree) (sync : Bool) : (stackPlan ts sync).nodes.length = stackSize ts :=
  length_stackCells _ _ _ _

lemma createOperator_eq {plan : Subplan} (body : Body LeafType UnaryType BinaryType)
    (hroom : plan.nodes.length < maxSubplanNodes) : plan.createOperator body
      = some (⟨plan.nodes ++ [⟨body, fccInvalidId, []⟩], plan.requiresSync, plan.root⟩, plan.nodes.length) :=
  if_pos hroom

/-- Columns for the last operator. -/
lemma addColumns_last {nodes : List Operator} {op : Operator} {cols : List FccColumn} {root id : ℕ}
    (hid : id = nodes.length) (hcols : (op.value ++ cols).length ≤ maxOperatorNumColumns) :
    (Subplan.mk (nodes ++ [op]) sync root).addColumns id cols
      = some ⟨nodes ++ [{ op with value := op.value ++ cols }], sync, root⟩ := by
  have hget : (nodes ++ [op])[id]? = some op := getElem?_of_eq rfl hid
  rw [addColumns, columns, hget, Option.map_some, Option.getD_some, if_pos hcols, modify_of_eq _ _ _ _ hid]

/-- The columns of the root of a tree. -/
lemma columns_root {pre post : List Operator} {t : PlanTree} {o p i root : ℕ}
    (hi : i + 1 = pre.length + t.size) :
    (Subplan.mk (pre ++ t.cells upColumns joinColumns o p ++ post) sync root).columns i = t.columns := by
  rw [columns, (root_of_cells pre post t p p hi).1]
  rfl

lemma createLeaf_builds (ts : List PlanTree) (sync : Bool) (type : LeafType) (column : FccColumn) :
    Builds ((stackPlan ts sync).createLeaf type column) (.leaf type [column] :: ts) sync := by
  have hsize : stackSize (OpTree.leaf type [column] :: ts : List PlanTree) = stackSize ts + 1 := rfl
  have hlen := length_nodes_stackPlan ts sync
  rw [Builds, hsize, createLeaf]
  by_cases hroom : stackSize ts < maxSubplanNodes
  · rw [createOperator_eq _ (hlen ▸ hroom), if_pos (show stackSize ts + 1 ≤ maxSubplanNodes from hroom)]
    dsimp only [Option.bind_eq_bind, Option.bind_some]
    have hcols : (([] : List FccColumn) ++ [column]).length ≤ maxOperatorNumColumns :=
      show 1 ≤ maxOperatorNumColumns by decide
    rw [addColumns_last rfl hcols, hlen]
    rfl
  · rw [createOperator, if_neg (by rwa [hlen]), if_neg (show ¬ stackSize ts + 1 ≤ maxSubplanNodes from hroom)]
    rfl

lemma createUnary_builds {t : PlanTree} (sync : Bool) (type : UnaryType) {child : ℕ}
    (hchild : child = stackSize (t :: below) - 1) (hcols : t.columns.length ≤ maxOperatorNumColumns) :
    Builds ((stackPlan (t :: below) sync).createUnary type child) (.unary type t :: below) sync := by
  obtain ⟨n, hn⟩ : ∃ n, stackSize (t :: below) = n := ⟨_, rfl⟩
  have hpos := t.size_pos
  have hsum : stackSize below + t.size = n := hn
  have hsize : stackSize (OpTree.unary type t :: below : List PlanTree) = n + 1 := by
    rw [← hn]
    rfl
  have hlen : (stackPlan (t :: below) sync).nodes.length = n := (length_nodes_stackPlan _ _).trans hn
  have hbelow : (stackCells upColumns joinColumns fccInvalidId below).length = stackSize below :=
    length_stackCells _ _ _ _
  rw [Builds, hsize, createUnary]
  by_cases hroom : n < maxSubplanNodes
  · rw [createOperator_eq _ (hlen ▸ hroom), if_pos (show n + 1 ≤ maxSubplanNodes from hroom), hlen]
    dsimp only [Option.bind_eq_bind, Option.bind_some]
    rw [setParent, if_pos (by omega)]
    dsimp only [Option.bind_some]
    have hi : child + 1 = (stackCells upColumns joinColumns fccInvalidId below).length + t.size := by omega
    rw [show (stackPlan (t :: below) sync).nodes = stackCells upColumns joinColumns fccInvalidId below
      ++ t.cells upColumns joinColumns (stackSize below) fccInvalidId from rfl,
      (root_of_cells _ _ t fccInvalidId n hi).2, copyColumns, columns_root hi,
      addColumns_last (by rw [List.length_append, hbelow, OpTree.length_cells, hsum])
        (by rwa [List.nil_append]), hchild, hn]
    have hplan : stackPlan (.unary type t :: below) sync
        = ⟨stackCells upColumns joinColumns fccInvalidId below ++ t.cells upColumns joinColumns (stackSize below) n
            ++ [⟨.unary type (n - 1), fccInvalidId, t.columns⟩], sync, 0⟩ := by
      rw [stackPlan, stackCells_unary, hn]
      rfl
    rw [hplan]
    rfl
  · rw [createOperator, if_neg (by rwa [hlen]), if_neg (show ¬ n + 1 ≤ maxSubplanNodes from hroom)]
    rfl

/-- What the second operand adds to the columns. -/
def copied (copyRight : Bool) (left right : List FccColumn) : List FccColumn :=
  bif copyRight then left ++ right else left

/-- An operator with two children, that has copied their columns. -/
lemma createBinary_eq {l r : PlanTree} (sync : Bool) (type : BinaryType) {left right n : ℕ} (copyRight : Bool)
    (hn : stackSize (r :: l :: below) = n)
    (hleft : left = stackSize (l :: below) - 1) (hright : right = n - 1) (hroom : n < maxSubplanNodes)
    (hcols : (copied copyRight l.columns r.columns).length ≤ maxOperatorNumColumns) :
    (stackPlan (r :: l :: below) sync).createBinary type left right copyRight
      = some (⟨stackCells upColumns joinColumns fccInvalidId below
          ++ l.cells upColumns joinColumns (stackSize below) n
          ++ r.cells upColumns joinColumns (stackSize (l :: below)) n
          ++ [⟨.binary type left right, fccInvalidId, copied copyRight l.columns r.columns⟩], sync, 0⟩, n) := by
  have hposl := l.size_pos
  have hposr := r.size_pos
  have hsuml : stackSize (l :: below) = stackSize below + l.size := rfl
  have hsum : stackSize below + l.size + r.size = n := hn
  obtain ⟨base, hbase⟩ : ∃ base, stackCells upColumns joinColumns fccInvalidId below = base := ⟨_, rfl⟩
  have hbelow : base.length = stackSize below := hbase ▸ length_stackCells _ _ _ _
  obtain ⟨ls, hls⟩ : ∃ ls, l.cells upColumns joinColumns (stackSize below) = ls := ⟨_, rfl⟩
  obtain ⟨rs, hrs⟩ : ∃ rs, r.cells upColumns joinColumns (stackSize (l :: below)) = rs := ⟨_, rfl⟩
  have hlenl (p : ℕ) : (ls p).length = l.size := hls ▸ OpTree.length_cells _ _ _ _ _
  have hlenr (p : ℕ) : (rs p).length = r.size := hrs ▸ OpTree.length_cells _ _ _ _ _
  have hil : left + 1 = base.length + l.size := by omega
  have hir : right + 1 = (base ++ ls n).length + r.size := by
    rw [List.length_append, hlenl]
    omega
  have hplan : stackPlan (r :: l :: below) sync = ⟨base ++ ls fccInvalidId ++ rs fccInvalidId, sync, 0⟩ := by
    rw [← hbase, ← hls, ← hrs]
    rfl
  have hlen : (base ++ ls fccInvalidId ++ rs fccInvalidId).length = n := by
    rw [List.length_append, List.length_append, hlenl, hlenr, hbelow, hsum]
  rw [hls, hrs, hbase]
  -- both operands get the parent `n`
  have hparentl (post : List Operator) :
      (base ++ ls fccInvalidId ++ post).modify left (Cell.reparent n) = base ++ ls n ++ post := by
    rw [← hls]
    exact (root_of_cells base post l fccInvalidId n hil).2
  have hparentr (post : List Operator) :
      (base ++ ls n ++ rs fccInvalidId ++ post).modify right (Cell.reparent n) = base ++ ls n ++ rs n ++ post := by
    rw [← hrs]
    exact (root_of_cells (base ++ ls n) post r fccInvalidId n hir).2
  -- and give their columns
  have hcolsl (post : List Operator) : (Subplan.mk (base ++ ls n ++ post) sync 0).columns left = l.columns := by
    rw [← hls]
    exact columns_root hil
  have hcolsr (post : List Operator) :
      (Subplan.mk (base ++ ls n ++ rs n ++ post) sync 0).columns right = r.columns := by
    rw [← hrs]
    exact columns_root hir
  have hfirst : (([] : List FccColumn) ++ l.columns).length ≤ maxOperatorNumColumns := by
    rw [List.nil_append]
    cases copyRight with
    | true =>
        have hboth : (l.columns ++ r.columns).length ≤ maxOperatorNumColumns := hcols
        rw [List.length_append] at hboth
        omega
    | false => exact hcols
  have hid : n = (base ++ ls n ++ rs n).length := by
    rw [List.length_append, List.length_append, hlenl, hlenr, hbelow, hsum]
  rw [hplan, createBinary, createOperator_eq _ (hlen ▸ hroom)]
  dsimp only [Option.bind_eq_bind, Option.bind_some]
  rw [hlen, setParent, if_pos (by omega)]
  dsimp only [Option.bind_some]
  rw [setParent, if_pos (by omega)]
  dsimp only [Option.bind_some]
  rw [List.append_assoc (base ++ ls fccInvalidId), hparentl, ← List.append_assoc, hparentr, copyColumns]
  rw [List.append_assoc (base ++ ls n), hcolsl, ← List.append_assoc, addColumns_last hid hfirst]
  dsimp only [Option.bind_some]
  rw [List.nil_append]
  cases copyRight with
  | true =>
      dsimp only [cond_true]
      rw [copyColumns, hcolsr, addColumns_last hid hcols]
      rfl
  | false => rfl

lemma createBinary_none {plan : Subplan} {type : BinaryType} {left right : ℕ} {copyRight : Bool}
    (hroom : ¬ plan.nodes.length < maxSubplanNodes) : plan.createBinary type left right copyRight = none := by
  rw [createBinary, createOperator, if_neg hroom]
  rfl

/-- The operators with two children that join their columns. -/
lemma createBinary_builds {l r : PlanTree} (sync : Bool) (type : BinaryType) {left right : ℕ} (copyRight : Bool)
    (hleft : left = stackSize (l :: below) - 1) (hright : right = stackSize (r :: l :: below) - 1)
    (hjoin : joinColumns type l.columns r.columns = copied copyRight l.columns r.columns)
    (hcols : (joinColumns type l.columns r.columns).length ≤ maxOperatorNumColumns) :
    Builds ((stackPlan (r :: l :: below) sync).createBinary type left right copyRight)
      (.binary type l r :: below) sync := by
  obtain ⟨n, hn⟩ : ∃ n, stackSize (r :: l :: below) = n := ⟨_, rfl⟩
  have hsize : stackSize (OpTree.binary type l r :: below : List PlanTree) = n + 1 := by
    rw [← hn, stackSize, OpTree.size, stackSize, stackSize]
    omega
  rw [Builds, hsize]
  by_cases hroom : n < maxSubplanNodes
  · rw [createBinary_eq sync type copyRight hn hleft (hn ▸ hright) hroom (hjoin ▸ hcols),
      if_pos (show n + 1 ≤ maxSubplanNodes from hroom), stackPlan, stackCells_binary, ← hleft, ← hright, hn,
      ← hjoin]
    rfl
  · rw [createBinary_none (by rwa [length_nodes_stackPlan, hn]),
      if_neg (show ¬ n + 1 ≤ maxSubplanNodes from hroom)]

/-- The operators with a child and a reference table. -/
lemma createGathered_builds {l r : PlanTree} (sync : Bool) (type : BinaryType) {left right : ℕ}
    (hleft : left = stackSize (l :: below) - 1) (hright : right = stackSize (r :: l :: below) - 1)
    (hjoin : joinColumns type l.columns r.columns = l.columns.map FccColumn.toReference)
    (hcols : l.columns.length ≤ maxOperatorNumColumns) :
    Builds (do
        let (plan, id) ← (stackPlan (r :: l :: below) sync).createGathered type left right
        some ({ plan with requiresSync := true }, id))
      (.binary type l r :: below) true := by
  obtain ⟨n, hn⟩ : ∃ n, stackSize (r :: l :: below) = n := ⟨_, rfl⟩
  have hsize : stackSize (OpTree.binary type l r :: below : List PlanTree) = n + 1 := by
    rw [← hn, stackSize, OpTree.size, stackSize, stackSize]
    omega
  rw [Builds, hsize, createGathered]
  by_cases hroom : n < maxSubplanNodes
  · rw [createBinary_eq sync type false hn hleft (hn ▸ hright) hroom hcols,
      if_pos (show n + 1 ≤ maxSubplanNodes from hroom), stackPlan, stackCells_binary, ← hleft, ← hright, hn]
    have hid : n = (stackCells upColumns joinColumns fccInvalidId below
        ++ l.cells upColumns joinColumns (stackSize below) n
        ++ r.cells upColumns joinColumns (stackSize (l :: below)) n).length := by
      rw [List.length_append, List.length_append, length_stackCells, OpTree.length_cells, OpTree.length_cells, ← hn]
      rfl
    dsimp only [Option.bind_eq_bind, Option.bind_some, toReferences]
    rw [modify_of_eq _ _ _ _ hid, Nat.add_sub_cancel]
    have hvalue : joinColumns type (l.value upColumns joinColumns) (r.value upColumns joinColumns)
        = (copied false l.columns r.columns).map FccColumn.toReference := hjoin
    rw [hvalue]
  · rw [createBinary_none (by rwa [length_nodes_stackPlan, hn]),
      if_neg (show ¬ n + 1 ≤ maxSubplanNodes from hroom)]
    rfl

/-- **The loop rule**: `P` is what is known of the tree when `l` is left. -/
lemma foldlM_builds {α : Type} (P : List α → PlanTree → Prop) {f : Subplan × ℕ → α → Option (Subplan × ℕ)}
    {g : PlanTree → α → PlanTree} (hsize : ∀ t a, t.size ≤ (g t a).size)
    (hstep : ∀ a l t, P (a :: l) t → stackSize (t :: below) ≤ maxSubplanNodes →
      Builds (f (stackPlan (t :: below) sync, stackSize (t :: below) - 1) a) (g t a :: below) sync ∧ P l (g t a))
    (l : List α) {t : PlanTree} (ht : P l t) (hroom : stackSize (t :: below) ≤ maxSubplanNodes) :
    Builds (l.foldlM f (stackPlan (t :: below) sync, stackSize (t :: below) - 1)) (l.foldl g t :: below) sync := by
  have hmono (l : List α) (t : PlanTree) : t.size ≤ (l.foldl g t).size := by
    induction l generalizing t with
    | nil => exact le_rfl
    | cons a l ih => exact (hsize t a).trans (ih (g t a))
  induction l generalizing t with
  | nil =>
      rw [Builds, List.foldl_nil, if_pos hroom]
      rfl
  | cons a l ih =>
      obtain ⟨hbuilds, hP⟩ := hstep a l t ht hroom
      rw [List.foldlM_cons]
      exact hbuilds.bind (Nat.add_le_add_left (hmono l (g t a)) _) fun hroom => ih hP hroom

lemma size_above (t : PlanTree) (types : List UnaryType) : (t.above types).size = t.size + types.length := by
  induction types generalizing t with
  | nil => rfl
  | cons type types ih =>
      rw [PlanTree.above, List.foldl_cons, ← PlanTree.above, ih, OpTree.size, List.length_cons]
      omega

lemma columns_above (t : PlanTree) (types : List UnaryType) : (t.above types).columns = t.columns := by
  induction types generalizing t with
  | nil => rfl
  | cons type types ih =>
      rw [PlanTree.above, List.foldl_cons, ← PlanTree.above, ih]
      rfl

/-- **Filters.** -/
lemma above_builds (types : List UnaryType) {t : PlanTree} {id : ℕ} (hid : id = stackSize (t :: below) - 1)
    (hcols : t.columns.length ≤ maxOperatorNumColumns) (hroom : stackSize (t :: below) ≤ maxSubplanNodes) :
    Builds (types.foldlM (fun st type => st.1.createUnary type st.2) (stackPlan (t :: below) sync, id))
      (t.above types :: below) sync := by
  subst hid
  refine foldlM_builds (fun _ t => t.columns.length ≤ maxOperatorNumColumns) (fun t type => Nat.le_succ _) ?_
    types hcols hroom
  intro type types t ht _
  exact ⟨createUnary_builds sync type rfl ht, ht⟩

lemma applyFilters_eq (onColumn : Bool) (m : EntityMatch) (plan : Subplan) (root : ℕ) :
    applyFilters onColumn m plan root
      = (m.filters onColumn).foldlM (fun st type => st.1.createUnary type st.2) (plan, root) := by
  simp only [EntityMatch.filters, List.foldlM_append, List.foldlM_map, bind_assoc]
  rfl

lemma applyPredicateFilters_eq (m : EntityMatch) (plan : Subplan) (root : ℕ) :
    applyPredicateFilters m plan root
      = m.predicates.foldlM (fun st type => st.1.createUnary type st.2) (plan, root) := by
  rw [EntityMatch.predicates, List.foldlM_map]
  rfl

lemma createSource_builds (ts : List PlanTree) (sync : Bool) (c : CompMatch) :
    Builds ((stackPlan ts sync).createSource c) (c.tree :: ts) sync := by
  rw [createSource, CompMatch.tree, CompMatch.column]
  cases c.isGlobal with
  | true => exact createLeaf_builds ts sync _ _
  | false => exact createLeaf_builds ts sync _ _

/-- The root of a tree is a fetch or not. -/
lemma isFetch_root {pre post : List Operator} {t : PlanTree} {o p i root : ℕ} (hi : i + 1 = pre.length + t.size) :
    (Subplan.mk (pre ++ t.cells upColumns joinColumns o p ++ post) sync root).isFetch i = t.isFetch := by
  rw [isFetch, (root_of_cells pre post t p p hi).1]
  cases t with
  | leaf type cols => cases type <;> rfl
  | unary type t => rfl
  | binary type l r => rfl

/-- Another component. -/
lemma addComponent_builds {t : PlanTree} (c : CompMatch) (hcols : t.columns.length + 1 ≤ maxOperatorNumColumns)
    (hroom : stackSize (t :: below) ≤ maxSubplanNodes) :
    Builds (addComponent (stackPlan (t :: below) sync, stackSize (t :: below) - 1) c)
      (t.joinComponent c :: below) sync := by
  have hvalid : stackSize (t :: below) - 1 ≠ fccInvalidId := by
    rw [maxSubplanNodes] at hroom
    rw [fccInvalidId]
    omega
  have hpos := t.size_pos
  have hlen : (stackCells upColumns joinColumns fccInvalidId below).length = stackSize below :=
    length_stackCells _ _ _ _
  have hsize : stackSize (t :: below) = stackSize below + t.size := rfl
  have hsize' : stackSize (c.tree :: t :: below) = stackSize (t :: below) + 1 := rfl
  have hleft : (stackPlan (c.tree :: t :: below) sync).isFetch (stackSize (t :: below) - 1) = t.isFetch :=
    isFetch_root (by omega)
  have hright : (stackPlan (c.tree :: t :: below) sync).isFetch (stackSize (c.tree :: t :: below) - 1)
      = c.tree.isFetch := by
    have hroot : (Subplan.mk (stackCells upColumns joinColumns fccInvalidId (t :: below)
        ++ c.tree.cells upColumns joinColumns (stackSize (t :: below)) fccInvalidId ++ []) sync 0).isFetch
        (stackSize (c.tree :: t :: below) - 1) = c.tree.isFetch :=
      isFetch_root (by rw [length_stackCells, hsize']; rfl)
    rwa [List.append_nil] at hroot
  rw [addComponent]
  dsimp only
  rw [if_neg hvalid]
  refine (createSource_builds (t :: below) sync c).bind ?_ fun _ => ?_
  · have hjoined : stackSize (t.joinComponent c :: below) = stackSize below + (t.size + 1 + 1) := rfl
    omega
  dsimp only
  rw [hleft, hright, PlanTree.joinComponent]
  have hsum : (t.columns ++ c.tree.columns).length ≤ maxOperatorNumColumns := by
    rw [List.length_append]
    exact hcols
  cases t.isFetch || c.tree.isFetch with
  | true => exact createBinary_builds sync .crossJoin true rfl rfl rfl hsum
  | false => exact createBinary_builds sync .join true rfl rfl rfl hsum

lemma columns_joinComponent (t : PlanTree) (c : CompMatch) :
    (t.joinComponent c).columns = t.columns ++ [c.column] := by
  rw [PlanTree.joinComponent]
  cases t.isFetch || c.tree.isFetch <;> rfl

lemma columns_components (cs : List CompMatch) (t : PlanTree) :
    (cs.foldl PlanTree.joinComponent t).columns = t.columns ++ cs.map CompMatch.column := by
  induction cs generalizing t with
  | nil => exact (List.append_nil _).symm
  | cons c cs ih =>
      rw [List.foldl_cons, ih, columns_joinComponent, List.map_cons, List.append_assoc, List.singleton_append]

lemma size_components (cs : List CompMatch) (t : PlanTree) :
    (cs.foldl PlanTree.joinComponent t).size = t.size + 2 * cs.length := by
  induction cs generalizing t with
  | nil => rfl
  | cons c cs ih =>
      have hsize : (t.joinComponent c).size = t.size + 1 + 1 := rfl
      rw [List.foldl_cons, ih, hsize, List.length_cons]
      omega

lemma ne_fccInvalidId {n : ℕ} (h : n ≤ maxSubplanNodes) : n - 1 ≠ fccInvalidId := by
  rw [maxSubplanNodes] at h
  rw [fccInvalidId]
  omega

lemma planComponents_none {m : EntityMatch} (hm : m.cmatches = []) (plan : Subplan) :
    planComponents m plan = some (plan, fccInvalidId) := by
  rw [planComponents, hm]
  rfl

/-- **The components of an entity match.** -/
lemma planComponents_builds {m : EntityMatch} {t : PlanTree} (ts : List PlanTree) (sync : Bool)
    (ht : m.componentTree = some t) (hlen : m.cmatches.length ≤ maxOperatorNumColumns) :
    Builds (planComponents m (stackPlan ts sync)) (t :: ts) sync := by
  rw [EntityMatch.componentTree] at ht
  cases hm : m.cmatches with
  | nil =>
      rw [hm] at ht
      cases ht
  | cons c cs =>
      rw [hm] at ht hlen
      obtain rfl := Option.some.inj ht
      obtain ⟨chain, hchain⟩ : ∃ chain, cs.foldl PlanTree.joinComponent c.tree = chain := ⟨_, rfl⟩
      have hcols : chain.columns = c.column :: cs.map CompMatch.column := by
        rw [← hchain, columns_components]
        rfl
      have hloop : Builds ((c :: cs).foldlM addComponent (stackPlan ts sync, fccInvalidId)) (chain :: ts) sync := by
        rw [List.foldlM_cons, ← hchain]
        have hfirst : addComponent (stackPlan ts sync, fccInvalidId) c = (stackPlan ts sync).createSource c := by
          rw [addComponent]
          dsimp only
          rw [if_pos rfl]
        rw [hfirst]
        refine (createSource_builds ts sync c).bind ?_ fun hroom => ?_
        · rw [stackSize, stackSize, size_components]
          omega
        · refine foldlM_builds (fun l t => t.columns.length + l.length ≤ maxOperatorNumColumns) ?_ ?_ cs ?_ hroom
          · intro t c
            rw [PlanTree.joinComponent, OpTree.size]
            omega
          · intro c l t ht hroom
            rw [List.length_cons] at ht
            refine ⟨addComponent_builds c (by omega) hroom, ?_⟩
            rw [columns_joinComponent, List.length_append, List.length_singleton]
            omega
          · rw [List.length_cons] at hlen
            exact (Nat.add_comm _ _).trans_le hlen
      rw [planComponents, hm, hchain]
      refine hloop.bind ?_ fun hroom => ?_
      · rw [stackSize, stackSize, size_above]
        omega
      · dsimp only
        rw [if_neg (ne_fccInvalidId hroom), applyFilters_eq]
        refine above_builds (m.filters false) rfl ?_ hroom
        rw [hcols, List.length_cons, List.length_map]
        exact hlen

/-- **What an expand adds to its components.** -/
lemma planExpand_builds {main m : EntityMatch} {t : PlanTree} (ts : List PlanTree) (sync : Bool)
    (hcols : t.columns.length ≤ maxOperatorNumColumns) (hroom : stackSize (t :: ts) ≤ maxSubplanNodes)
    (hm : m.fromExpand = true) :
    Builds (planExpand main m (stackPlan (t :: ts) sync) (stackSize (t :: ts) - 1))
      (.binary (if isCascading main m then .cascadingGather else .gather) t m.refScan :: ts) true := by
  have hle : stackSize (m.refScan :: t :: ts) ≤ stackSize
      (OpTree.binary (if isCascading main m then .cascadingGather else .gather) t m.refScan :: ts : List PlanTree) := by
    rw [stackSize, stackSize, stackSize, OpTree.size]
    omega
  rw [planExpand, hm, Bool.not_true, if_neg Bool.false_ne_true]
  refine (createLeaf_builds (t :: ts) sync _ _).bind hle fun _ => ?_
  dsimp only
  rw [if_neg (ne_fccInvalidId hroom)]
  cases isCascading main m with
  | true => exact createGathered_builds sync .cascadingGather rfl rfl rfl hcols
  | false => exact createGathered_builds sync .gather rfl rfl rfl hcols

/-- An expand without components. -/
lemma planExpand_none_builds {main m : EntityMatch} (ts : List PlanTree) (sync : Bool) (hm : m.fromExpand = true) :
    Builds (planExpand main m (stackPlan ts sync) fccInvalidId) (m.refScan.above (m.filters true) :: ts) sync := by
  rw [planExpand, hm, Bool.not_true, if_neg Bool.false_ne_true]
  refine (createLeaf_builds ts sync _ _).bind ?_ fun hroom => ?_
  · rw [stackSize, stackSize, size_above]
    exact Nat.add_le_add_left (Nat.le_add_right 1 _) _
  · dsimp only
    rw [if_pos rfl, applyFilters_eq]
    exact above_builds (m.filters true) rfl (show 1 ≤ maxOperatorNumColumns by decide) hroom

lemma componentTree_eq_none_iff {m : EntityMatch} : m.componentTree = none ↔ m.cmatches = [] := by
  rw [EntityMatch.componentTree]
  cases m.cmatches with
  | nil => exact ⟨fun _ => rfl, fun _ => rfl⟩
  | cons c cs => exact ⟨fun h => (Option.some_ne_none _ h).elim, fun h => (List.cons_ne_nil _ _ h).elim⟩

/-- The columns of the components of an entity match. -/
lemma columns_componentTree {m : EntityMatch} {t : PlanTree} (ht : m.componentTree = some t) :
    t.columns = m.cmatches.map CompMatch.column := by
  rw [EntityMatch.componentTree] at ht
  cases hm : m.cmatches with
  | nil =>
      rw [hm] at ht
      cases ht
  | cons c cs =>
      rw [hm] at ht
      obtain rfl := Option.some.inj ht
      rw [columns_above, columns_components]
      rfl

/-- The place of a root at the bottom. -/
def rootId : Option PlanTree → ℕ
  | none => fccInvalidId
  | some r => r.size - 1

lemma rootId_some (r : PlanTree) : rootId (some r) = stackSize [r] - 1 := by rw [rootId, stackSize_singleton]

/-- What has been made of an entity match is joined. -/
lemma joinRoot_builds {root : Option PlanTree} {t : PlanTree} (nonComponent : Bool) (sync : Bool)
    (hcols : (root.elim 0 fun r => r.columns.length) + (bif nonComponent then 0 else t.columns.length)
      ≤ maxOperatorNumColumns)
    (hroom : stackSize (t :: root.toList) ≤ maxSubplanNodes) :
    Builds (joinRoot nonComponent (stackPlan (t :: root.toList) sync) (rootId root)
        (stackSize (t :: root.toList) - 1))
      [root.elim t (.binary (if nonComponent then .leftFilterJoin else .join) · t)] sync := by
  cases root with
  | none =>
      rw [joinRoot, rootId, if_pos rfl, Builds]
      exact (if_pos hroom).symm
  | some r =>
      have hr : stackSize [r] ≤ maxSubplanNodes := (Nat.le_add_right _ _).trans hroom
      rw [joinRoot, rootId_some, if_neg (ne_fccInvalidId hr)]
      cases nonComponent with
      | true =>
          exact createBinary_builds sync .leftFilterJoin false rfl rfl rfl hcols
      | false =>
          refine createBinary_builds sync .join true rfl rfl rfl ?_
          rw [joinColumns, List.length_append]
          exact hcols

/-- The columns of an entity match. -/
lemma columns_localTree {main m : EntityMatch} {t : PlanTree} (ht : m.localTree main = some t)
    (hm : m.cmatches ≠ []) :
    t.columns = m.cmatches.map fun c => bif m.fromExpand then c.column.toReference else c.column := by
  cases hc : m.componentTree with
  | none => exact (hm (componentTree_eq_none_iff.mp hc)).elim
  | some u =>
      have hcols := columns_componentTree hc
      rw [EntityMatch.localTree, hc] at ht
      cases hexpand : m.fromExpand with
      | true =>
          rw [hexpand, if_pos rfl] at ht
          obtain rfl := Option.some.inj ht
          have hmap : (u.columns.map FccColumn.toReference) = m.cmatches.map fun c => c.column.toReference := by
            rw [hcols, List.map_map]
            rfl
          refine Eq.trans ?_ hmap
          rw [Option.elim_some]
          cases isCascading main m <;> rfl
      | false =>
          rw [hexpand, if_neg Bool.false_ne_true] at ht
          obtain rfl := Option.some.inj ht
          exact hcols

/-- Whether a subplan must be gathered. -/
def syncs (m : EntityMatch) (sync : Bool) : Bool := sync || (m.fromExpand && !m.cmatches.isEmpty)

/-- The end of an iteration, behind the tree `t` of the entity match. -/
lemma joinMatch_builds (m : EntityMatch) (root : Option PlanTree) (t : PlanTree) (nonComponent : Bool) (sync : Bool)
    (hcols : (root.elim 0 fun r => r.columns.length) + (bif nonComponent then 0 else t.columns.length)
      ≤ maxOperatorNumColumns)
    (ht : t.columns.length ≤ maxOperatorNumColumns) (hroom : stackSize (t :: root.toList) ≤ maxSubplanNodes) :
    Builds (do
        let (plan, root) ← joinRoot nonComponent (stackPlan (t :: root.toList) sync) (rootId root)
          (stackSize (t :: root.toList) - 1)
        applyPredicateFilters m plan root)
      [(root.elim t (.binary (if nonComponent then .leftFilterJoin else .join) · t)).above m.predicates] sync := by
  refine (joinRoot_builds nonComponent sync hcols hroom).bind ?_ fun hroom => ?_
  · rw [stackSize_singleton, stackSize_singleton, size_above]
    exact Nat.le_add_right _ _
  · dsimp only
    rw [applyPredicateFilters_eq]
    refine above_builds m.predicates rfl ?_ hroom
    cases root with
    | none => exact ht
    | some r =>
        cases nonComponent with
        | true => exact hcols
        | false =>
            have happend : (r.columns ++ t.columns).length ≤ maxOperatorNumColumns := by
              rw [List.length_append]
              exact hcols
            exact happend

lemma stackSize_joined (m : EntityMatch) (root : Option PlanTree) (t : PlanTree) (type : BinaryType) :
    stackSize (t :: root.toList) ≤ stackSize [(root.elim t (.binary type · t)).above m.predicates] := by
  cases root with
  | none =>
      rw [Option.toList_none, stackSize_singleton, stackSize_singleton, size_above]
      exact Nat.le_add_right _ _
  | some r =>
      rw [Option.toList_some, stackSize, stackSize_singleton, stackSize_singleton, size_above, Option.elim_some,
        OpTree.size]
      omega

/-- **An entity match**: its tree, joined to that of those before it, is made. -/
lemma planMatch_builds {main m : EntityMatch} {t : PlanTree} (root : Option PlanTree) (sync : Bool)
    (ht : m.localTree main = some t)
    (hcols : (root.elim 0 fun r => r.columns.length) + m.cmatches.length ≤ maxOperatorNumColumns) :
    Builds (planMatch main (stackPlan root.toList sync, rootId root) m)
      [(root.elim t (.binary (if m.cmatches = [] then .leftFilterJoin else .join) · t)).above m.predicates]
      (syncs m sync) := by
  have hsize := stackSize_joined m root t
  rw [planMatch]
  dsimp only
  by_cases hm : m.cmatches = []
  · have hc := componentTree_eq_none_iff.mpr hm
    have hexpand : m.fromExpand = true := by
      by_contra hexpand
      rw [EntityMatch.localTree, if_neg hexpand, hc] at ht
      cases ht
    rw [EntityMatch.localTree, if_pos hexpand, hc] at ht
    obtain rfl := Option.some.inj ht
    rw [planComponents_none hm, if_pos hm, syncs, hm, List.isEmpty_nil, Bool.not_true, Bool.and_false, Bool.or_false]
    refine (planExpand_none_builds root.toList sync hexpand).bind (hsize _) fun hroom => ?_
    refine joinMatch_builds m root _ true sync ((Nat.le_add_right _ _).trans hcols) ?_ hroom
    have hscan : (m.refScan.above (m.filters true)).columns.length ≤ maxOperatorNumColumns := by
      rw [columns_above]
      exact show 1 ≤ maxOperatorNumColumns by decide
    exact hscan
  · cases hc : m.componentTree with
    | none => exact (hm (componentTree_eq_none_iff.mp hc)).elim
    | some u =>
        have hempty : m.cmatches.isEmpty = false := List.isEmpty_eq_false_iff.mpr hm
        have hlen : m.cmatches.length ≤ maxOperatorNumColumns := (Nat.le_add_left _ _).trans hcols
        have hu : u.columns.length = m.cmatches.length := by rw [columns_componentTree hc, List.length_map]
        have htlen : t.columns.length = m.cmatches.length := by rw [columns_localTree ht hm, List.length_map]
        have hle : stackSize (u :: root.toList) ≤ stackSize (t :: root.toList) := by
          refine Nat.add_le_add_left ?_ _
          rw [EntityMatch.localTree, hc] at ht
          by_cases hexpand : m.fromExpand = true
          · rw [if_pos hexpand] at ht
            obtain rfl := Option.some.inj ht
            rw [Option.elim_some, OpTree.size]
            omega
          · rw [if_neg hexpand] at ht
            obtain rfl := Option.some.inj ht
            exact Nat.le_refl _
        rw [if_neg hm, syncs, hempty, Bool.not_false, Bool.and_true]
        refine (planComponents_builds root.toList sync hc hlen).bind (hle.trans (hsize _)) fun hroom => ?_
        dsimp only
        rw [decide_eq_false (ne_fccInvalidId hroom)]
        have hjoin (hroom : stackSize (t :: root.toList) ≤ maxSubplanNodes) (sync : Bool) :=
          joinMatch_builds m root t false sync (by rw [cond_false, htlen]; exact hcols) (htlen.trans_le hlen) hroom
        rw [EntityMatch.localTree, hc] at ht
        by_cases hexpand : m.fromExpand = true
        · rw [if_pos hexpand] at ht
          obtain rfl := Option.some.inj ht
          rw [hexpand, Bool.or_true]
          exact (planExpand_builds root.toList sync (hu.trans_le hlen) hroom hexpand).bind (hsize _)
            fun hroom => hjoin hroom true
        · rw [if_neg hexpand] at ht
          obtain rfl := Option.some.inj ht
          rw [Bool.eq_false_of_not_eq_true hexpand, Bool.or_false, planExpand,
            Bool.eq_false_of_not_eq_true hexpand, Bool.not_false, if_pos rfl]
          exact hjoin hroom sync

/-- The match of a query, when it has no components: a filter function has nothing to stand above. -/
lemma planMatch_none {main : EntityMatch} (hm : main.cmatches = []) (hexpand : main.fromExpand = false) :
    planMatch main (stackPlan [] false, fccInvalidId) main
      = if main.filterFunc = [] then some (stackPlan [] false, fccInvalidId) else none := by
  rw [planMatch]
  dsimp only
  rw [planComponents_none hm]
  dsimp only [Option.bind_eq_bind, Option.bind_some]
  rw [planExpand, hexpand, Bool.not_false, if_pos rfl]
  dsimp only [Option.bind_some]
  rw [joinRoot, if_pos rfl]
  dsimp only [Option.bind_some]
  rw [applyPredicateFilters]
  cases main.filterFunc with
  | nil => rfl
  | cons decl decls => rfl

end Subplan

/-- A statement as the front end accepts it: the match of the query is the last entity match, and an expand
is before it. -/
structure Stmt.Accepted (stmt : Stmt) (main : EntityMatch) (expand : Option EntityMatch) : Prop where
  operation_eq : stmt.operationType = .foreach
  ematches_eq : stmt.ematches = expand.toList ++ [main]
  main_expand : main.fromExpand = false
  expand_expand : ∀ e ∈ expand, e.fromExpand = true
  columns_le : main.cmatches.length + (expand.elim 0 fun e => e.cmatches.length) ≤ maxOperatorNumColumns

namespace Stmt.Accepted

variable {stmt : Stmt} {main : EntityMatch} {expand : Option EntityMatch}

lemma tree_eq (h : stmt.Accepted main expand) : stmt.tree
    = expand.elim (main.componentTree.map (·.above main.predicates))
        (EntityMatch.addTree main (main.componentTree.map (·.above main.predicates))) := by
  have hlast : stmt.ematches.getLastD EntityMatch.init = main := by
    rw [h.ematches_eq, List.getLastD_concat]
  have hmain : EntityMatch.addTree main none main = main.componentTree.map (·.above main.predicates) := by
    rw [EntityMatch.addTree, EntityMatch.joinedTree, Option.elim_none, EntityMatch.localTree, h.main_expand,
      if_neg Bool.false_ne_true]
  rw [Stmt.tree, hlast, h.ematches_eq, List.reverse_append, List.reverse_singleton, List.singleton_append,
    List.foldl_cons, hmain]
  cases expand <;> rfl

lemma addTree_eq {m : EntityMatch} {root : Option PlanTree} {t : PlanTree} (ht : m.localTree main = some t) :
    EntityMatch.addTree main root m
      = some ((root.elim t (.binary (if m.cmatches = [] then .leftFilterJoin else .join) · t)).above
          m.predicates) := by
  rw [EntityMatch.addTree, EntityMatch.joinedTree, ht]
  cases root <;> rfl

lemma exists_localTree (h : stmt.Accepted main expand) {e : EntityMatch} (he : e ∈ expand) :
    ∃ t, e.localTree main = some t := by
  rw [EntityMatch.localTree, if_pos (h.expand_expand e he)]
  exact ⟨_, rfl⟩

/-- The columns of the match. -/
lemma columns_main {t : PlanTree} (ht : main.componentTree.map (·.above main.predicates) = some t) :
    t.columns = main.cmatches.map CompMatch.column := by
  obtain ⟨u, hu, rfl⟩ := Option.map_eq_some_iff.mp ht
  rw [Subplan.columns_above, Subplan.columns_componentTree hu]

/-- The match is made. -/
lemma main_builds (h : stmt.Accepted main expand) {t : PlanTree}
    (ht : main.componentTree.map (·.above main.predicates) = some t) :
    Builds (Subplan.planMatch main (stackPlan [] false, fccInvalidId) main) [t] false := by
  obtain ⟨u, hu, rfl⟩ := Option.map_eq_some_iff.mp ht
  have hlocal : main.localTree main = some u := by
    rw [EntityMatch.localTree, h.main_expand, if_neg Bool.false_ne_true, hu]
  have hlen : 0 + main.cmatches.length ≤ maxOperatorNumColumns := by
    rw [Nat.zero_add]
    exact (Nat.le_add_right _ _).trans h.columns_le
  have hbuilds := Subplan.planMatch_builds none false hlocal hlen
  rwa [Subplan.syncs, h.main_expand, Bool.false_and, Bool.or_false] at hbuilds

/-- **The entity matches become the tree of the statement.** -/
lemma root_builds (h : stmt.Accepted main expand) {t : PlanTree} (ht : stmt.tree = some t)
    (hfilter : main.cmatches = [] → main.filterFunc = []) :
    ∃ sync, Builds (stmt.ematches.reverse.foldlM (Subplan.planMatch main) (stackPlan [] false, fccInvalidId))
      [t] sync := by
  rw [h.tree_eq] at ht
  rw [h.ematches_eq, List.reverse_append, List.reverse_singleton, List.singleton_append, List.foldlM_cons]
  cases expand with
  | none =>
      have hmain := h.main_builds ht
      refine ⟨false, hmain.bind le_rfl fun hroom => ?_⟩
      exact (if_pos hroom).symm
  | some e =>
      obtain ⟨l, hl⟩ := h.exists_localTree rfl
      rw [Option.elim_some, addTree_eq hl] at ht
      obtain rfl := Option.some.inj ht
      rw [Option.toList_some, List.reverse_singleton]
      simp only [List.foldlM_cons, List.foldlM_nil, bind_pure]
      cases hc : main.componentTree.map (·.above main.predicates) with
      | none =>
          have hm := Subplan.componentTree_eq_none_iff.mp (Option.map_eq_none_iff.mp hc)
          have hcols : 0 + e.cmatches.length ≤ maxOperatorNumColumns := by
            rw [Nat.zero_add]
            exact (Nat.le_add_left _ _).trans h.columns_le
          rw [Subplan.planMatch_none hm h.main_expand, if_pos (hfilter hm)]
          exact ⟨_, Subplan.planMatch_builds none false hl hcols⟩
      | some u =>
          have hcols : u.columns.length + e.cmatches.length ≤ maxOperatorNumColumns := by
            rw [columns_main hc, List.length_map]
            exact h.columns_le
          have hexpand := Subplan.planMatch_builds (some u) false hl hcols
          have hsize := (Nat.le_add_right _ _).trans (Subplan.stackSize_joined e (some u) l
            (if e.cmatches = [] then .leftFilterJoin else .join))
          rw [Subplan.rootId_some] at hexpand
          exact ⟨_, (h.main_builds hc).bind hsize fun _ => hexpand⟩

/-- The columns of a statement: the components of the match, and the expanded ones as references. -/
lemma columns_tree (h : stmt.Accepted main expand) {t : PlanTree} (ht : stmt.tree = some t)
    (hcomps : main.cmatches ≠ [] ∨ ∃ e ∈ expand, e.cmatches ≠ []) :
    t.columns = main.cmatches.map CompMatch.column
      ++ expand.elim [] fun e => e.cmatches.map fun c => c.column.toReference := by
  rw [h.tree_eq] at ht
  cases expand with
  | none =>
      rw [Option.elim_none, List.append_nil]
      exact columns_main ht
  | some e =>
      obtain ⟨l, hl⟩ := h.exists_localTree rfl
      rw [Option.elim_some, addTree_eq hl] at ht
      obtain rfl := Option.some.inj ht
      have hexpand : e.fromExpand = true := h.expand_expand e rfl
      rw [Subplan.columns_above, Option.elim_some]
      cases hc : main.componentTree.map (·.above main.predicates) with
      | none =>
          have hm := Subplan.componentTree_eq_none_iff.mp (Option.map_eq_none_iff.mp hc)
          have he : e.cmatches ≠ [] := by
            rcases hcomps with hmain | ⟨e', hmem, he⟩
            · exact (hmain hm).elim
            · rwa [Option.mem_some_iff.mp hmem]
          rw [Option.elim_none, Subplan.columns_localTree hl he, hm, hexpand]
          rfl
      | some u =>
          rw [Option.elim_some, ← columns_main hc]
          by_cases he : e.cmatches = []
          · rw [if_pos he, he]
            exact (List.append_nil _).symm
          · rw [if_neg he]
            have hlocal := Subplan.columns_localTree hl he
            rw [hexpand] at hlocal
            exact congrArg (u.columns ++ ·) hlocal

lemma length_columns_le (h : stmt.Accepted main expand) {t : PlanTree} (ht : stmt.tree = some t) :
    t.columns.length ≤ maxOperatorNumColumns := by
  by_cases hcomps : main.cmatches ≠ [] ∨ ∃ e ∈ expand, e.cmatches ≠ []
  · rw [h.columns_tree ht hcomps, List.length_append, List.length_map]
    have hle := h.columns_le
    cases expand with
    | none => exact hle
    | some e =>
        rw [Option.elim_some, List.length_map]
        exact hle
  · -- only the ids of the references are left
    push Not at hcomps
    obtain ⟨hmain, hexpand⟩ := hcomps
    have hc := Subplan.componentTree_eq_none_iff.mpr hmain
    rw [h.tree_eq, hc, Option.map_none] at ht
    cases expand with
    | none => cases ht
    | some e =>
        have he := Subplan.componentTree_eq_none_iff.mpr (hexpand e rfl)
        have hl : e.localTree main = some (e.refScan.above (e.filters true)) := by
          rw [EntityMatch.localTree, if_pos (h.expand_expand e rfl), he, Option.elim_none]
        rw [Option.elim_some, addTree_eq hl] at ht
        obtain rfl := Option.some.inj ht
        rw [Subplan.columns_above, Option.elim_none, Subplan.columns_above]
        exact show 1 ≤ maxOperatorNumColumns by decide

/-- **The subplan of a statement**: its tree, if there is room for it. -/
theorem subplanInit_eq (h : stmt.Accepted main expand) {t : PlanTree} (ht : stmt.tree = some t)
    (hfilter : main.cmatches = [] → main.filterFunc = []) :
    ∃ sync, subplanInit stmt = if t.size + 1 ≤ maxSubplanNodes then
        some ⟨OpTree.cells upColumns joinColumns (.unary (.foreach stmt.system) t) 0 fccInvalidId, sync, t.size⟩
      else none := by
  obtain ⟨sync, hroot⟩ := h.root_builds ht hfilter
  have hlast : stmt.ematches.getLastD EntityMatch.init = main := by
    rw [h.ematches_eq, List.getLastD_concat]
  have hplan : Builds (stmt.ematches.reverse.foldlM (Subplan.planMatch main) (stackPlan [] false, fccInvalidId)
      >>= fun st => st.1.createForeach st.2 stmt.system) [.unary (.foreach stmt.system) t] sync := by
    refine hroot.bind (Nat.add_le_add_left (Nat.le_succ _) _) fun hroom => ?_
    rw [Subplan.createForeach, if_pos (Subplan.ne_fccInvalidId hroom)]
    exact Subplan.createUnary_builds sync _ rfl (h.length_columns_le ht)
  refine ⟨sync, ?_⟩
  have hinit : subplanInit stmt
      = (stmt.ematches.reverse.foldlM (Subplan.planMatch main) (stackPlan [] false, fccInvalidId)
      >>= fun st => st.1.createForeach st.2 stmt.system).map fun st => { st.1 with root := st.2 } := by
    rw [subplanInit, hlast, h.operation_eq, stackPlan, stackCells]
    cases stmt.ematches.reverse.foldlM (Subplan.planMatch main) (⟨[], false, 0⟩, fccInvalidId) with
    | none => rfl
    | some st =>
        dsimp only [Option.bind_eq_bind, Option.bind_some]
        cases st.1.createForeach st.2 stmt.system <;> rfl
  rw [hinit, hplan, stackSize_singleton, OpTree.size]
  split_ifs with hroom
  · rfl
  · rfl

lemma componentTree_isSome (hm : main.cmatches ≠ []) : ∃ u, main.componentTree = some u := by
  cases hc : main.componentTree with
  | none => exact (hm (Subplan.componentTree_eq_none_iff.mp hc)).elim
  | some u => exact ⟨u, rfl⟩

/-- A statement has a tree where it has components to match, or an expand. -/
lemma exists_tree (h : stmt.Accepted main expand) (hsome : main.cmatches ≠ [] ∨ expand ≠ none) :
    ∃ t, stmt.tree = some t := by
  rw [h.tree_eq]
  cases expand with
  | none =>
      obtain ⟨u, hu⟩ := componentTree_isSome (hsome.resolve_right fun h => h rfl)
      rw [Option.elim_none, hu]
      exact ⟨_, rfl⟩
  | some e =>
      obtain ⟨l, hl⟩ := h.exists_localTree rfl
      rw [Option.elim_some, addTree_eq hl]
      exact ⟨_, rfl⟩

/-- Without any component, and without an expand, the `foreach` has itself as its child. -/
lemma subplanInit_loop (h : stmt.Accepted main none) (hm : main.cmatches = []) (hfilter : main.filterFunc = []) :
    subplanInit stmt = some ⟨[⟨.unary (.foreach stmt.system) 0, fccInvalidId, []⟩], false, 0⟩ := by
  have hlast : stmt.ematches.getLastD EntityMatch.init = main := by
    rw [h.ematches_eq, List.getLastD_concat]
  have hmatch := Subplan.planMatch_none hm h.main_expand
  rw [if_pos hfilter] at hmatch
  rw [subplanInit, hlast, h.operation_eq, h.ematches_eq, Option.toList_none, List.nil_append,
    List.reverse_singleton, List.foldlM_cons, show (⟨[], false, 0⟩ : Subplan) = stackPlan [] false from rfl, hmatch]
  rfl

/-- Without components in the match, its filter functions are written to a place outside of the array. -/
lemma subplanInit_filter (h : stmt.Accepted main expand) (hm : main.cmatches = [])
    (hfilter : main.filterFunc ≠ []) : subplanInit stmt = none := by
  have hlast : stmt.ematches.getLastD EntityMatch.init = main := by
    rw [h.ematches_eq, List.getLastD_concat]
  have hmatch := Subplan.planMatch_none hm h.main_expand
  rw [if_neg hfilter] at hmatch
  rw [subplanInit, hlast, h.operation_eq, h.ematches_eq, List.reverse_append, List.reverse_singleton,
    List.singleton_append, List.foldlM_cons, show (⟨[], false, 0⟩ : Subplan) = stackPlan [] false from rfl, hmatch]
  rfl

end Stmt.Accepted

end Furious
