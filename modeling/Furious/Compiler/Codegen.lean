import Furious.Compiler.OperatorTree
import Furious.Library.Fuel

/-!
The generation of code for the operators of a subplan.

An operator is produced by producing what it is made of, and what it gets from there is consumed by the
operators above it. What is printed is left out; the visits of the operators take its place.

* `consume`, `produce`, `generate`: as in the source, to a depth of the recursion;
* `settles_produce`: **a tree is produced**;
* `generate_settles_iff`: **for which statements code is generated**.
-/

namespace Furious

/-- What ends a visit early. -/
inductive Stop where
  | report (report : Report)
  -- the recursion is deeper than is given
  | depth
  -- an access outside of an array
  | fault
deriving DecidableEq, Repr

/-- A visit of an operator. -/
inductive Visit where
  | produce (id : ℕ) (parallelStream : Bool)
  | consume (id caller : ℕ)
deriving DecidableEq, Repr

/-- `FCC_CONTEXT_REPORT_COMPILATION_ERROR` about a column. -/
def reportColumn (message : String) : Except Stop (List Visit) :=
  .error (.report (.compilation .invalidColumnType message))

/-- The loops over the columns that report ids of references. -/
def checkNoIds (message : String) (cols : List FccColumn) : Except Stop (List Visit) :=
  match cols.find? fun col => col.type = .id with
  | some col => reportColumn (message ++ "\"" ++ col.refName ++ "\"")
  | none => .ok []

/-- What a gather reports about the columns of its child: an id, or what is not read only. -/
def checkGathered (idMessage modeMessage : String) (cols : List FccColumn) : Except Stop (List Visit) :=
  match cols.find? fun col => col.type = .id || col.accessMode ≠ .read with
  | some col =>
      if col.type = .id then reportColumn (idMessage ++ "\"" ++ col.refName ++ "\"")
      else reportColumn (modeMessage ++ "\"" ++ col.componentType.name ++ "\"")
  | none => .ok []

/-- `produce_gather`, about its child. -/
def checkGather : List FccColumn → Except Stop (List Visit) :=
  checkGathered
    "<Gather> operator target component cannot be a                         reference column type: "
    "<Gather> operator target component must have                                            access mode READ: "

/-- `produce_cascading_gather`, about its child. -/
def checkCascadingGather : List FccColumn → Except Stop (List Visit) :=
  checkGathered
    "<Gather> operator target component cannot                                           be a reference column type: "
    "<Gather> operator target component                                            must have access mode READ: "

/-- `consume_foreach`, before it goes on. -/
def checkForeach : List FccColumn → Except Stop (List Visit) :=
  checkNoIds "<ForEach> operator cannot                                           be applied to reference column type: "

/-- `consume_predicate_filter`, before it goes on. -/
def checkPredicateFilter : List FccColumn → Except Stop (List Visit) :=
  checkNoIds
    "<PredicateFilter> operator cannot be applied to                                            reference column type: "

/-- `consume_tag_filter`, before it goes on: on a column, the first one must be an id. -/
def checkTagFilter (tag : String) (onColumn : Bool) (cols : List FccColumn) : Except Stop (List Visit) :=
  if onColumn = true ∧ cols.head?.map FccColumn.type ≠ some .id then
    reportColumn ("Cannot apply filter tag \"" ++ tag ++
      "\" on column                                           on a non-reference column type")
  else .ok []

/-- `consume`, with what it calls for the types of operators. -/
def consume (nodes : List Operator) : ℕ → ℕ → ℕ → Except Stop (List Visit)
  | 0, _, _ => .error .depth
  | depth + 1, id, caller =>
      match nodes[id]? with
      | none => .error .fault
      | some op => andThen (.ok [.consume id caller]) <|
          match op.body with
          -- `consume_scan`, `consume_fetch`
          | .leaf _ => .ok []
          | .unary (.foreach _) _ => andThen (checkForeach op.value)
              (if op.parent ≠ fccInvalidId then consume nodes depth op.parent id else .ok [])
          | .unary (.tagFilter tag _ onColumn) _ => andThen (checkTagFilter tag onColumn op.value)
              (consume nodes depth op.parent id)
          | .unary (.predicateFilter _) _ => andThen (checkPredicateFilter op.value)
              (consume nodes depth op.parent id)
          | .unary (.componentFilter _ _ _) _ => andThen (reportColumn "Component filter not yet implemented")
              (consume nodes depth op.parent id)
          -- what comes from the left is kept for what comes from the right
          | .binary .join left _ | .binary .leftFilterJoin left _ =>
              if caller = left then .ok [] else consume nodes depth op.parent id
          | .binary .crossJoin _ _ | .binary .gather _ _ | .binary .cascadingGather _ _ => .ok []

/-- The columns of the child of a gather. -/
def childColumns (nodes : List Operator) (child : ℕ) : List FccColumn := (nodes[child]?.map Cell.value).getD []

/-- `produce`, with what it calls for the types of operators. -/
def produce (nodes : List Operator) : ℕ → ℕ → Bool → Except Stop (List Visit)
  | 0, _, _ => .error .depth
  | depth + 1, id, parallelStream =>
      match nodes[id]? with
      | none => .error .fault
      | some op => andThen (.ok [.produce id parallelStream]) <|
          match op.body with
          -- `produce_scan`, `produce_fetch`
          | .leaf _ => consume nodes depth op.parent id
          | .unary (.foreach _) child => produce nodes depth child true
          | .unary _ child => produce nodes depth child parallelStream
          | .binary .join left right | .binary .leftFilterJoin left right =>
              andThen (produce nodes depth left parallelStream) (produce nodes depth right parallelStream)
          | .binary .crossJoin left right =>
              andThen (andThen (produce nodes depth left parallelStream) (produce nodes depth right parallelStream))
                (consume nodes depth op.parent id)
          | .binary .gather child refTable =>
              andThen (produce nodes depth child parallelStream) <|
              andThen (checkGather (childColumns nodes child)) <|
              andThen (produce nodes depth refTable parallelStream) (consume nodes depth op.parent id)
          | .binary .cascadingGather child refTable =>
              andThen (produce nodes depth child true) <|
              andThen (checkCascadingGather (childColumns nodes child)) <|
              andThen (produce nodes depth refTable parallelStream) (consume nodes depth op.parent id)

/-- The code of a statement: its subplan is made, and its root is produced. -/
def generate (stmt : Stmt) (depth : ℕ) : Except Stop (List Visit) :=
  match subplanInit stmt with
  | none => .error .fault
  | some plan => produce plan.nodes depth plan.root true

/-- What is not an end of the generation. -/
def Stop.Bad (stop : Stop) : Prop := stop = .depth ∨ stop = .fault

/-! ### The recursion ends on a tree -/

lemma not_bad_report (report : Report) : ¬ Stop.Bad (.report report) := by
  rintro (h | h) <;> cases h

lemma settles_reportColumn (message : String) : Settles Stop.Bad fun _ => reportColumn message :=
  settles_const fun _ he => Except.error.inj he ▸ not_bad_report _

lemma settles_ok (visits : List Visit) : Settles Stop.Bad fun _ => (.ok visits : Except Stop (List Visit)) :=
  settles_const fun _ he => by cases he

lemma settles_checkNoIds (message : String) (cols : List FccColumn) :
    Settles Stop.Bad fun _ => checkNoIds message cols := by
  rw [checkNoIds]
  split
  · exact settles_reportColumn _
  · exact settles_ok []

lemma settles_checkGathered (idMessage modeMessage : String) (cols : List FccColumn) :
    Settles Stop.Bad fun _ => checkGathered idMessage modeMessage cols := by
  rw [checkGathered]
  split
  · split
    · exact settles_reportColumn _
    · exact settles_reportColumn _
  · exact settles_ok []

lemma settles_checkTagFilter (tag : String) (onColumn : Bool) (cols : List FccColumn) :
    Settles Stop.Bad fun _ => checkTagFilter tag onColumn cols := by
  rw [checkTagFilter]
  split
  · exact settles_reportColumn _
  · exact settles_ok []

section Tree

variable {nodes : List Operator}

/-- **An operator with one child** hands over what it gets to its parent. -/
lemma settles_consume_unary {i p child : ℕ} {type : UnaryType} {cols : List FccColumn}
    (hi : nodes[i]? = some ⟨.unary type child, p, cols⟩)
    (hparent : Settles Stop.Bad fun d => consume nodes d p i) (caller : ℕ) :
    Settles Stop.Bad fun d => consume nodes d i caller := by
  cases type with
  | foreach system =>
      refine settles_of_succ (fun n => by rw [consume, hi]) (settles_andThen (settles_ok _) ?_)
      refine settles_andThen (settles_checkNoIds _ _) ?_
      dsimp only
      split_ifs with hp
      · exact hparent
      · exact settles_ok []
  | tagFilter tag opType onColumn =>
      refine settles_of_succ (fun n => by rw [consume, hi]) (settles_andThen (settles_ok _) ?_)
      exact settles_andThen (settles_checkTagFilter _ _ _) hparent
  | predicateFilter decl =>
      refine settles_of_succ (fun n => by rw [consume, hi]) (settles_andThen (settles_ok _) ?_)
      exact settles_andThen (settles_checkNoIds _ _) hparent
  | componentFilter filterType opType onColumn =>
      refine settles_of_succ (fun n => by rw [consume, hi]) (settles_andThen (settles_ok _) ?_)
      exact settles_andThen (settles_reportColumn _) hparent

/-- **An operator with two children** keeps what it gets, or hands it over. -/
lemma settles_consume_binary {i p left right : ℕ} {type : BinaryType} {cols : List FccColumn}
    (hi : nodes[i]? = some ⟨.binary type left right, p, cols⟩)
    (hparent : Settles Stop.Bad fun d => consume nodes d p i) (caller : ℕ) :
    Settles Stop.Bad fun d => consume nodes d i caller := by
  have hjoin : Settles Stop.Bad fun d => if caller = left then .ok [] else consume nodes d p i := by
    split_ifs with hleft
    · exact settles_ok []
    · exact hparent
  cases type with
  | join => exact settles_of_succ (fun n => by rw [consume, hi]) (settles_andThen (settles_ok _) hjoin)
  | leftFilterJoin => exact settles_of_succ (fun n => by rw [consume, hi]) (settles_andThen (settles_ok _) hjoin)
  | crossJoin => exact settles_of_succ (fun n => by rw [consume, hi]) (settles_andThen (settles_ok _) (settles_ok []))
  | gather => exact settles_of_succ (fun n => by rw [consume, hi]) (settles_andThen (settles_ok _) (settles_ok []))
  | cascadingGather =>
      exact settles_of_succ (fun n => by rw [consume, hi]) (settles_andThen (settles_ok _) (settles_ok []))

/-- **A tree is produced**, when what it hands over to the operator above it is consumed. -/
theorem settles_produce {t : PlanTree} {o p : ℕ} (h : LaidOut upColumns joinColumns nodes t o p)
    (hparent : Settles Stop.Bad fun d => consume nodes d p (o + t.size - 1)) (parallelStream : Bool) :
    Settles Stop.Bad fun d => produce nodes d (o + t.size - 1) parallelStream := by
  induction t generalizing o p parallelStream with
  | leaf type cols =>
      exact settles_of_succ (fun n => by rw [OpTree.size, Nat.add_sub_cancel, produce, h.leaf])
        (settles_andThen (settles_ok _) hparent)
  | unary type t ih =>
      obtain ⟨hroot, ht⟩ := h.unary
      have hid : o + (OpTree.unary type t).size - 1 = o + t.size := by rw [OpTree.size]; omega
      rw [hid] at hparent
      have hchild (parallelStream : Bool) := ih ht (settles_consume_unary hroot hparent _) parallelStream
      refine settles_of_succ (fun n => by rw [hid, produce, hroot]) (settles_andThen (settles_ok _) ?_)
      cases type with
      | foreach system => exact hchild true
      | _ => exact hchild parallelStream
  | binary type l r ihl ihr =>
      obtain ⟨hroot, hl, hr⟩ := h.binary
      have hid : o + (OpTree.binary type l r).size - 1 = o + l.size + r.size := by rw [OpTree.size]; omega
      rw [hid] at hparent
      have hleft (parallelStream : Bool) := ihl hl (settles_consume_binary hroot hparent _) parallelStream
      have hright (parallelStream : Bool) := ihr hr (settles_consume_binary hroot hparent _) parallelStream
      refine settles_of_succ (fun n => by rw [hid, produce, hroot]) (settles_andThen (settles_ok _) ?_)
      cases type with
      | join => exact settles_andThen (hleft _) (hright _)
      | leftFilterJoin => exact settles_andThen (hleft _) (hright _)
      | crossJoin => exact settles_andThen (settles_andThen (hleft _) (hright _)) hparent
      | gather =>
          exact settles_andThen (hleft _) (settles_andThen (settles_checkGathered _ _ _)
            (settles_andThen (hright _) hparent))
      | cascadingGather =>
          exact settles_andThen (hleft _) (settles_andThen (settles_checkGathered _ _ _)
            (settles_andThen (hright _) hparent))

end Tree

/-! ### For which statements code is generated -/

/-- An operator that is its own child. -/
lemma produce_loop (system : System) (p : ℕ) (cols : List FccColumn) (depth : ℕ) (parallelStream : Bool) :
    produce [⟨.unary (.foreach system) 0, p, cols⟩] depth 0 parallelStream = .error .depth := by
  induction depth generalizing parallelStream with
  | zero => rfl
  | succ depth ih =>
      rw [produce, List.getElem?_cons_zero]
      dsimp only
      rw [ih]
      rfl

namespace Stmt.Accepted

variable {stmt : Stmt} {main : EntityMatch} {expand : Option EntityMatch}

/-- The tree of a statement is produced. -/
lemma settles_generate (h : stmt.Accepted main expand) {t : PlanTree} (ht : stmt.tree = some t)
    (hfilter : main.cmatches = [] → main.filterFunc = []) (hsize : stmt.numNodes ≤ maxSubplanNodes) :
    Settles Stop.Bad (generate stmt) := by
  obtain ⟨sync, hinit⟩ := h.subplanInit_eq ht hfilter
  rw [h.size_tree ht hfilter, if_pos hsize] at hinit
  obtain ⟨nodes, hnodes⟩ : ∃ nodes,
      OpTree.cells upColumns joinColumns (.unary (.foreach stmt.system) t) 0 fccInvalidId = nodes := ⟨_, rfl⟩
  have hlaid : LaidOut upColumns joinColumns nodes (.unary (.foreach stmt.system) t) 0 fccInvalidId :=
    hnodes ▸ laidOut_self _ _ _ _
  obtain ⟨hroot, hchild⟩ := hlaid.unary
  rw [Nat.zero_add] at hroot hchild
  rw [hnodes] at hinit
  -- the `foreach` has nothing above it
  have hforeach (caller : ℕ) : Settles Stop.Bad fun d => consume nodes d t.size caller := by
    refine settles_of_succ (fun n => by rw [consume, hroot]) (settles_andThen (settles_ok _) ?_)
    refine settles_andThen (settles_checkNoIds _ _) ?_
    dsimp only
    simp only [ne_eq, not_true_eq_false, if_false]
    exact settles_ok []
  have hproduce := settles_produce hchild (hforeach _) true
  have hgenerate (depth : ℕ) : generate stmt depth = produce nodes depth t.size true := by
    rw [generate, hinit]
  refine settles_of_succ (fun n => ?_) (settles_andThen (settles_ok [.produce t.size true]) hproduce)
  rw [hgenerate, produce, hroot, Nat.zero_add]

end Stmt.Accepted

section Parsed

variable {start : Option (List TypeArg)} {calls : List Call} {decl : SystemDecl} {priorities : List ℕ} {stmt : Stmt}

/-- **The generation of code ends**, for an accepted statement with room for its operators, where its match has
components, or where it has an expand and its match no filter functions. -/
theorem generate_settles_iff (hargs : ∀ args ∈ clauses start calls, args.length < 2 ^ 32)
    (h : parse (.query start calls decl priorities) = .ok stmt) (hvalid : validate stmt = .ok ())
    (hsize : stmt.numNodes ≤ maxSubplanNodes) :
    Settles Stop.Bad (generate stmt)
      ↔ stmt.main.cmatches ≠ [] ∨ (2 ≤ stmt.ematches.length ∧ stmt.main.filterFunc = []) := by
  obtain ⟨main, expand, hacc, -, -⟩ := accepted_of_parse hargs h hvalid
  rw [hacc.main_eq]
  have hlen : 2 ≤ stmt.ematches.length ↔ expand ≠ none := by
    rw [hacc.ematches_eq]
    cases expand with
    | none => simp
    | some e => simp
  rw [hlen]
  constructor
  · rintro ⟨n, hn⟩
    have hbad := hn n le_rfl
    by_contra hnone
    push Not at hnone
    obtain ⟨hm, hexpand⟩ := hnone
    by_cases hfilter : main.filterFunc = []
    · -- the `foreach` is its own child
      obtain rfl : expand = none := by
        by_contra hsome
        exact hexpand hsome hfilter
      rw [generate, hacc.subplanInit_loop hm hfilter] at hbad
      exact hbad _ (produce_loop _ _ _ _ _) (.inl rfl)
    · rw [generate, hacc.subplanInit_filter hm hfilter] at hbad
      exact hbad _ rfl (.inr rfl)
  · rintro (hm | ⟨hexpand, hfilter⟩)
    · obtain ⟨t, ht⟩ := hacc.exists_tree (.inl hm)
      exact hacc.settles_generate ht (fun hnil => (hm hnil).elim) hsize
    · obtain ⟨t, ht⟩ := hacc.exists_tree (.inr hexpand)
      exact hacc.settles_generate ht (fun _ => hfilter) hsize

end Parsed

/-- `expandQuery` with a const `B`. -/
theorem generate_settles_iff_const : Settles Stop.Bad (generate (expandStmt true))
    ↔ (expandStmt true).main.cmatches ≠ []
      ∨ (2 ≤ (expandStmt true).ematches.length ∧ (expandStmt true).main.filterFunc = []) :=
  generate_settles_iff (by simp [clauses, expands]) (parse_expandQuery true) rfl (by decide)

/-- `match<>().foreach<S>()`, where `S::run` takes no components. -/
theorem generate_no_end : ¬ ∀ (start : Option (List TypeArg)) (calls : List Call) (decl : SystemDecl)
    (priorities : List ℕ) (stmt : Stmt), (∀ args ∈ clauses start calls, args.length < 2 ^ 32) →
    parse (.query start calls decl priorities) = .ok stmt → validate stmt = .ok () →
    stmt.numNodes ≤ maxSubplanNodes → Settles Stop.Bad (generate stmt) := by
  intro h
  have hsettles := h (some []) [] ⟨⟨"S"⟩, [], 0⟩ []
    ⟨.foreach, [EntityMatch.init], ⟨⟨"S"⟩, [], 0⟩, defaultPriority⟩ (by simp [clauses, expands]) rfl rfl (by decide)
  obtain ⟨n, hn⟩ := hsettles
  exact hn n le_rfl _ (produce_loop _ _ _ _ _) (.inl rfl)

end Furious
