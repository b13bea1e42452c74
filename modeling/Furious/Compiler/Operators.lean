import Furious.Compiler.Stmt
import Furious.Library.Postorder

/-!
The operators that are made of a statement.

The operators of a subplan are the cells of an array of fixed size, and know each other by their
places. They are made from the last entity match of the statement, the `match` of the query, to the
first one, its `expand`; what is made reads and writes through the places alone.

* `Operator`, `Subplan`: the data;
* `Subplan.createOperator`, `Subplan.setParent`, `Subplan.addColumns`: the accesses; `none` is one outside of
  an array;
* `subplanInit`: as in the source.

What an operator is called is left out.
-/

namespace Furious

/-! ### Operators -/

/-- `FCC_MAX_SUBPLAN_NODES`. -/
def maxSubplanNodes : ℕ := 32

/-- `FCC_MAX_OPERATOR_NUM_COLUMNS`; so many components may a system and a match have, and so many tags a
match. -/
def maxOperatorNumColumns : ℕ := 16

/-- `FCC_INVALID_ID`. -/
def fccInvalidId : ℕ := 2 ^ 32 - 1

/-- `fcc_column_type_t`. -/
inductive ColumnType where
  | id
  | component
  | reference
  | global
deriving DecidableEq, Repr

/-- `fcc_column_t`. -/
structure FccColumn where
  type : ColumnType
  componentType : FccType
  refName : String
  accessMode : AccessMode
deriving DecidableEq, Repr

/-- What is gathered are references. -/
def FccColumn.toReference (c : FccColumn) : FccColumn := { c with type := .reference }

/-- `fcc_filter_op_type_t`. -/
inductive FilterOpType where
  | has
  | hasNot
deriving DecidableEq, Repr

/-- The types of the operators without a child. -/
inductive LeafType where
  | scan
  | fetch
deriving DecidableEq, Repr

/-- The types of the operators with one child, and what else they have. -/
inductive UnaryType where
  | tagFilter (tag : String) (opType : FilterOpType) (onColumn : Bool)
  | predicateFilter (funcDecl : FccDecl)
  | componentFilter (filterType : FccType) (opType : FilterOpType) (onColumn : Bool)
  | foreach (system : System)
deriving DecidableEq, Repr

/-- The types of the operators with two children, that are a left and a right one, or a child and a
reference table. -/
inductive BinaryType where
  | join
  | leftFilterJoin
  | crossJoin
  | gather
  | cascadingGather
deriving DecidableEq, Repr

/-- `fcc_operator_t`; its `m_id` is its place. -/
abbrev Operator : Type := Cell LeafType UnaryType BinaryType (List FccColumn)

/-- `fcc_subplan_t`. -/
structure Subplan where
  nodes : List Operator
  requiresSync : Bool
  root : ℕ
deriving DecidableEq, Repr

/-- `fcc_access_mode_t` of a matched component. -/
def CompMatch.accessMode (c : CompMatch) : AccessMode := if c.isReadOnly then .read else .readWrite

namespace Subplan

/-- `create_operator`, with the data of the operator. -/
def createOperator (plan : Subplan) (body : Body LeafType UnaryType BinaryType) : Option (Subplan × ℕ) :=
  if plan.nodes.length < maxSubplanNodes then
    some ({ plan with nodes := plan.nodes ++ [⟨body, fccInvalidId, []⟩] }, plan.nodes.length)
  else none

/-- The columns of an operator. -/
def columns (plan : Subplan) (id : ℕ) : List FccColumn := (plan.nodes[id]?.map Cell.value).getD []

/-- Columns are added to an operator. -/
def addColumns (plan : Subplan) (id : ℕ) (cols : List FccColumn) : Option Subplan :=
  if (plan.columns id ++ cols).length ≤ maxOperatorNumColumns then
    some { plan with nodes := plan.nodes.modify id fun op => { op with value := op.value ++ cols } }
  else none

/-- `copy_columns`. -/
def copyColumns (plan : Subplan) (dst src : ℕ) : Option Subplan := plan.addColumns dst (plan.columns src)

/-- `m_nodes[child].m_parent = id`. -/
def setParent (plan : Subplan) (child id : ℕ) : Option Subplan :=
  if child < maxSubplanNodes then some { plan with nodes := plan.nodes.modify child (Cell.reparent id) } else none

/-- An operator without a child. -/
def createLeaf (plan : Subplan) (type : LeafType) (column : FccColumn) : Option (Subplan × ℕ) := do
  let (plan, id) ← plan.createOperator (.leaf type)
  let plan ← plan.addColumns id [column]
  some (plan, id)

/-- `create_scan` of a component table. -/
def createScan (plan : Subplan) (component : FccType) (accessMode : AccessMode) : Option (Subplan × ℕ) :=
  plan.createLeaf .scan ⟨.component, component, "", accessMode⟩

/-- `create_scan` of a reference table. -/
def createRefScan (plan : Subplan) (refName : String) : Option (Subplan × ℕ) :=
  plan.createLeaf .scan ⟨.id, ⟨""⟩, refName, .read⟩

/-- `create_fetch`. -/
def createFetch (plan : Subplan) (globalType : FccType) (accessMode : AccessMode) : Option (Subplan × ℕ) :=
  plan.createLeaf .fetch ⟨.global, globalType, "", accessMode⟩

/-- An operator with one child. -/
def createUnary (plan : Subplan) (type : UnaryType) (child : ℕ) : Option (Subplan × ℕ) := do
  let (plan, id) ← plan.createOperator (.unary type child)
  let plan ← plan.setParent child id
  let plan ← plan.copyColumns id child
  some (plan, id)

/-- `create_predicate_filter`. -/
def createPredicateFilter (plan : Subplan) (child : ℕ) (filterFunc : FccDecl) : Option (Subplan × ℕ) :=
  plan.createUnary (.predicateFilter filterFunc) child

/-- `create_tag_filter`. -/
def createTagFilter (plan : Subplan) (child : ℕ) (tag : String) (opType : FilterOpType) (onColumn : Bool) :
    Option (Subplan × ℕ) :=
  plan.createUnary (.tagFilter tag opType onColumn) child

/-- `create_component_filter`. -/
def createComponentFilter (plan : Subplan) (child : ℕ) (component : FccType) (opType : FilterOpType)
    (onColumn : Bool) : Option (Subplan × ℕ) :=
  plan.createUnary (.componentFilter component opType onColumn) child

/-- `create_foreach`. Without a child its index of a child stays zero. -/
def createForeach (plan : Subplan) (child : ℕ) (system : System) : Option (Subplan × ℕ) :=
  if child ≠ fccInvalidId then plan.createUnary (.foreach system) child
  else plan.createOperator (.unary (.foreach system) 0)

/-- An operator with two children, that copies the columns of the second one if `copyRight`. -/
def createBinary (plan : Subplan) (type : BinaryType) (left right : ℕ) (copyRight : Bool) :
    Option (Subplan × ℕ) := do
  let (plan, id) ← plan.createOperator (.binary type left right)
  let plan ← plan.setParent left id
  let plan ← plan.setParent right id
  let plan ← plan.copyColumns id left
  let plan ← bif copyRight then plan.copyColumns id right else some plan
  some (plan, id)

/-- `create_join`. -/
def createJoin (plan : Subplan) (left right : ℕ) : Option (Subplan × ℕ) :=
  plan.createBinary .join left right true

/-- `create_leftfilter_join`. -/
def createLeftFilterJoin (plan : Subplan) (left right : ℕ) : Option (Subplan × ℕ) :=
  plan.createBinary .leftFilterJoin left right false

/-- `create_cross_join`. -/
def createCrossJoin (plan : Subplan) (left right : ℕ) : Option (Subplan × ℕ) :=
  plan.createBinary .crossJoin left right true

/-- The columns of an operator become references. -/
def toReferences (plan : Subplan) (id : ℕ) : Subplan :=
  { plan with nodes := plan.nodes.modify id fun op => { op with value := op.value.map FccColumn.toReference } }

/-- An operator with a child and a reference table, that has the columns of its child as references. -/
def createGathered (plan : Subplan) (type : BinaryType) (child refTable : ℕ) : Option (Subplan × ℕ) := do
  let (plan, id) ← plan.createBinary type child refTable false
  some (plan.toReferences id, id)

/-- `create_gather`. -/
def createGather (plan : Subplan) (child refTable : ℕ) : Option (Subplan × ℕ) :=
  plan.createGathered .gather child refTable

/-- `create_cascading_gather`. -/
def createCascadingGather (plan : Subplan) (child refTable : ℕ) : Option (Subplan × ℕ) :=
  plan.createGathered .cascadingGather child refTable

/-! ### `subplan_init` -/

/-- `apply_predicate_filters`. -/
def applyPredicateFilters (m : EntityMatch) (plan : Subplan) (root : ℕ) : Option (Subplan × ℕ) :=
  m.filterFunc.foldlM (fun st decl => st.1.createPredicateFilter st.2 decl) (plan, root)

/-- `apply_filters`, and with `onColumn`, `apply_filters_reference`. -/
def applyFilters (onColumn : Bool) (m : EntityMatch) (plan : Subplan) (root : ℕ) : Option (Subplan × ℕ) := do
  let st ← m.hasNotTags.foldlM (fun st tag => st.1.createTagFilter st.2 tag .hasNot onColumn) (plan, root)
  let st ← m.hasTags.foldlM (fun st tag => st.1.createTagFilter st.2 tag .has onColumn) st
  let st ← m.hasNotComponents.foldlM (fun st type => st.1.createComponentFilter st.2 type .hasNot onColumn) st
  m.hasComponents.foldlM (fun st type => st.1.createComponentFilter st.2 type .has onColumn) st

/-- The operator of a matched component. -/
def createSource (plan : Subplan) (c : CompMatch) : Option (Subplan × ℕ) :=
  if c.isGlobal then plan.createFetch c.type c.accessMode else plan.createScan c.type c.accessMode

/-- An operator is a fetch. -/
def isFetch (plan : Subplan) (id : ℕ) : Bool := plan.nodes[id]?.map Cell.body = some (.leaf .fetch)

/-- An iteration over the components of a match. -/
def addComponent (st : Subplan × ℕ) (c : CompMatch) : Option (Subplan × ℕ) :=
  let (plan, localRoot) := st
  if localRoot = fccInvalidId then plan.createSource c
  else do
    let (plan, right) ← plan.createSource c
    if plan.isFetch localRoot || plan.isFetch right then plan.createCrossJoin localRoot right
    else plan.createJoin localRoot right

/-- What is expanded is written where it is matched. The types are compared by their names, whose length
`fcc_type_name` asserts to be less than `FCC_MAX_TYPE_NAME`; the assertion is left out. -/
def isCascading (main m : EntityMatch) : Bool :=
  m.cmatches.any fun c => main.cmatches.any fun d => !d.isReadOnly && c.type.name = d.type.name

/-- What an expand adds: its components are gathered by the references; without components, the references
are filtered. -/
def planExpand (main m : EntityMatch) (plan : Subplan) (localRoot : ℕ) : Option (Subplan × ℕ) :=
  if !m.fromExpand then some (plan, localRoot) else do
  let (plan, refScan) ← plan.createRefScan m.refName
  if localRoot = fccInvalidId then applyFilters true m plan refScan
  else if isCascading main m then do
    let (plan, localRoot) ← plan.createCascadingGather localRoot refScan
    some ({ plan with requiresSync := true }, localRoot)
  else do
    let (plan, localRoot) ← plan.createGather localRoot refScan
    some ({ plan with requiresSync := true }, localRoot)

/-- The components of an entity match, with its filters for them. -/
def planComponents (m : EntityMatch) (plan : Subplan) : Option (Subplan × ℕ) := do
  let (plan, localRoot) ← m.cmatches.foldlM addComponent (plan, fccInvalidId)
  if localRoot = fccInvalidId then some (plan, localRoot) else applyFilters false m plan localRoot

/-- What has been made of an entity match is joined to what has been made before. -/
def joinRoot (nonComponent : Bool) (plan : Subplan) (root localRoot : ℕ) : Option (Subplan × ℕ) :=
  if root = fccInvalidId then some (plan, localRoot)
  else if nonComponent then plan.createLeftFilterJoin root localRoot
  else plan.createJoin root localRoot

/-- An iteration of `subplan_init` over the entity matches; `main` is the last one of them. -/
def planMatch (main : EntityMatch) (st : Subplan × ℕ) (m : EntityMatch) : Option (Subplan × ℕ) := do
  let (plan, root) := st
  let (plan, componentRoot) ← planComponents m plan
  let (plan, localRoot) ← planExpand main m plan componentRoot
  let (plan, root) ← joinRoot (componentRoot = fccInvalidId) plan root localRoot
  applyPredicateFilters m plan root

end Subplan

/-- `subplan_init`. -/
def subplanInit (stmt : Stmt) : Option Subplan := do
  let main := stmt.ematches.getLastD EntityMatch.init
  let (plan, root) ← stmt.ematches.reverse.foldlM (Subplan.planMatch main) (⟨[], false, 0⟩, fccInvalidId)
  match stmt.operationType with
  | .unknown => some { plan with root := root }
  | .foreach => do
      let (plan, root) ← plan.createForeach root stmt.system
      some { plan with root := root }

end Furious
