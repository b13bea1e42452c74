import Mathlib.Tactic

/-!
The statements of the compiler, as the frontend hands them to the planner.

A statement is a list of entity matches, the system that runs on the matched
entities, a priority and a place. Types, filter functions and predicates are
handles into the host compiler's syntax tree; the planner reads of a type only
its printed name.

* `CompMatch`, `EntityMatch`, `System`, `Stmt`: the records;
* `System.Writes`, `System.Accesses`, `System.PureReader`: how a system uses a
  component type.
-/

namespace Furious

/-- A type of the program under compilation, as far as the planner sees it: the
name that `fcc_type_name` prints. -/
structure FccType where
  name : String
deriving DecidableEq, Repr

/-- How a component is accessed (`fcc_access_mode_t`). -/
inductive AccessMode where
  | read
  | readWrite
deriving DecidableEq, Repr

/-- A matched component or global (`fcc_component_match_t`). -/
structure CompMatch where
  type : FccType
  isReadOnly : Bool
  isGlobal : Bool
deriving DecidableEq, Repr

/-- A system and the components it takes (`fcc_system_t`). -/
structure System where
  systemType : FccType
  cmatches : List CompMatch
  id : ℤ
deriving DecidableEq, Repr

/-- The handle of a filter function (`fcc_decl_t`). -/
structure FccDecl where
  name : String
deriving DecidableEq, Repr

/-- One match of a statement, with its filters (`fcc_entity_match_t`). -/
structure EntityMatch where
  cmatches : List CompMatch
  hasComponents : List FccType
  hasNotComponents : List FccType
  hasTags : List String
  hasNotTags : List String
  filterFunc : List FccDecl
  fromExpand : Bool
  refName : String
deriving DecidableEq, Repr

/-- `fcc_entity_match_init`. -/
def EntityMatch.init : EntityMatch := ⟨[], [], [], [], [], [], false, ""⟩

/-- The operation of a statement (`fcc_operation_type_t`). -/
inductive OperationType where
  | unknown
  | foreach
deriving DecidableEq, Repr

/-- A statement (`fcc_stmt_t`). -/
structure Stmt where
  operationType : OperationType
  ematches : List EntityMatch
  system : System
  priority : ℕ
deriving DecidableEq, Repr

/-! ### How a system uses a component type -/

/-- The system takes the type in a writable position. -/
def System.Writes (s : System) (name : String) : Prop :=
  ∃ c ∈ s.cmatches, c.type.name = name ∧ c.isReadOnly = false

/-- The system takes the type in some position. -/
def System.Accesses (s : System) (name : String) : Prop :=
  ∃ c ∈ s.cmatches, c.type.name = name

/-- The system takes the type, and only in read-only positions. -/
def System.PureReader (s : System) (name : String) : Prop :=
  s.Accesses name ∧ ¬ s.Writes name

/-- A pure reader takes the type in a read-only position. -/
lemma System.PureReader.exists_readOnly {s : System} {name : String} (h : s.PureReader name) :
    ∃ c ∈ s.cmatches, c.type.name = name ∧ c.isReadOnly = true := by
  obtain ⟨⟨c, hc, hn⟩, hw⟩ := h
  refine ⟨c, hc, hn, ?_⟩
  cases hro : c.isReadOnly with
  | true => rfl
  | false => exact absurd ⟨c, hc, hn, hro⟩ hw

end Furious
