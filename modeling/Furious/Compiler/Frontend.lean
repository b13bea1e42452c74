import Furious.Compiler.Priorities
import Furious.Library.Loops
import Furious.Library.Memory

/-!
The front end of the compiler.

A query is written from its `match` on to its `foreach`, and is visited the other way round. The
parameters of the system are given to its clauses from the last one on, by the numbers of types
that they name.

* `Source`: what is written;
* `Parse`, `processMatch`, `processExpand`, `processForeach`, `parse`: the statement that the
  front end makes of it;
* `validate`: `fcc_validate`, and `Source.visit`: what becomes of an expression of a script;
* `parse_spec`, `validate_reads`: **what the front end makes of a query, and which statements are valid**.

What is reported stops the compiler. The order of the `run` method and the types that a clause
names are not compared.
-/

namespace Furious

/-! ### What is written -/

/-- A type in a query or in the signature of a system; `template` is the class template that it is made
of, if it is. -/
structure TypeArg where
  type : FccType
  template : Option String
deriving DecidableEq, Repr

/-- `Global<T>`. -/
def TypeArg.Global (t : TypeArg) : Prop := t.template = some "Global"

instance (t : TypeArg) : Decidable t.Global := inferInstanceAs (Decidable (t.template = some "Global"))

/-- A parameter of a system, behind the context and the id of the entity. -/
structure Param where
  arg : TypeArg
  isConst : Bool
deriving DecidableEq, Repr

/-- What is passed to `filter`. -/
inductive FilterArg where
  | func (decl : FccDecl)
  | variable
  | other
deriving DecidableEq, Repr

/-- The calls between a `match` and its `foreach`. A tag that is no literal is `none`. -/
inductive Call where
  | filter (arg : FilterArg)
  | hasTag (tag : Option String)
  | hasNotTag (tag : Option String)
  | hasComponent (type : FccType)
  | hasNotComponent (type : FccType)
  | expand (args : List TypeArg) (refName : String)
deriving DecidableEq, Repr

/-- A system, with the number that it gets. -/
structure SystemDecl where
  systemType : FccType
  params : List Param
  id : ℤ
deriving DecidableEq, Repr

/-- An expression of a script: `match<…>()…foreach<…>(…)`, in the order in which it is written, or an
object of its type that no `foreach` has made. A query need not begin with a `match`. -/
inductive Source where
  | query (start : Option (List TypeArg)) (calls : List Call) (system : SystemDecl) (priorities : List ℕ)
  | object
deriving DecidableEq, Repr

/-! ### Reports -/

/-- `fcc_parsing_error_type_t`. -/
inductive ParsingErrorType where
  | unsupportedTypeModifier
  | unsupportedVarDeclarations
  | expectedStringLiteral
  | unsupportedStatement
deriving DecidableEq, Repr

/-- `fcc_compilation_error_type_t`. -/
inductive CompilationErrorType where
  | systemInvalidNumberComponents
  | invalidAccessModeOnExpand
  | invalidColumnType
deriving DecidableEq, Repr

/-- What stops the compiler. -/
inductive Report where
  | parsing (type : ParsingErrorType) (message : String)
  | compilation (type : CompilationErrorType) (message : String)
  | permaAssert (message : String)
  -- a read behind the end of an array
  | fault
deriving DecidableEq, Repr

/-- `report_parsing_error`: the error type that it is given is not the one that it reports. -/
def reportParsingError (_ : ParsingErrorType) (message : String) : Report :=
  .parsing .unsupportedTypeModifier message

/-! ### The adders -/

/-- `FCC_MAX_FILTER_FUNC`. -/
def maxFilterFunc : ℕ := 8

/-- `FCC_MAX_TAG_NAME` and `FCC_MAX_REF_NAME`. -/
def maxName : ℕ := 256

/-- `FDB_COPY_AND_CHECK_STR`. -/
def copyAndCheck (text : String) : Except Report String :=
  if text.utf8ByteSize < maxName then .ok text else .error (.permaAssert "String exceeds maximum capacity")

/-- An element is added to an array. -/
def addBelow {α : Type} (limit : ℕ) (message : String) (l : List α) (a : α) : Except Report (List α) :=
  if l.length < limit then .ok (l ++ [a]) else .error (.permaAssert message)

/-- `fcc_system_add_cmatch`. -/
def System.addCmatch (s : System) (c : CompMatch) : Except Report System := do
  let cmatches ← addBelow maxOperatorNumColumns "Maximum number of components in system exceeded" s.cmatches c
  .ok { s with cmatches := cmatches }

namespace EntityMatch

/-- `fcc_entity_match_add_cmatch`. -/
def addCmatch (e : EntityMatch) (c : CompMatch) : Except Report EntityMatch := do
  let cmatches ← addBelow maxOperatorNumColumns "Maximum number of components in match exceeded" e.cmatches c
  .ok { e with cmatches := cmatches }

/-- `fcc_entity_match_add_has_comp`. -/
def addHasComp (e : EntityMatch) (type : FccType) : Except Report EntityMatch := do
  let types ← addBelow maxOperatorNumColumns "Maximum number of has components in match exceeded"
    e.hasComponents type
  .ok { e with hasComponents := types }

/-- `fcc_entity_match_add_has_not_comp`. -/
def addHasNotComp (e : EntityMatch) (type : FccType) : Except Report EntityMatch := do
  let types ← addBelow maxOperatorNumColumns "Maximum number of has not components in match exceeded"
    e.hasNotComponents type
  .ok { e with hasNotComponents := types }

/-- `fcc_entity_match_add_has_tag`. -/
def addHasTag (e : EntityMatch) (tag : String) : Except Report EntityMatch := do
  let tags ← addBelow maxOperatorNumColumns "Maximum number of has tags in match exceeded" e.hasTags tag
  let _ ← copyAndCheck tag
  .ok { e with hasTags := tags }

/-- `fcc_entity_match_add_has_not_tag`. -/
def addHasNotTag (e : EntityMatch) (tag : String) : Except Report EntityMatch := do
  let tags ← addBelow maxOperatorNumColumns "Maximum number of has not tags in match exceeded" e.hasNotTags tag
  let _ ← copyAndCheck tag
  .ok { e with hasNotTags := tags }

/-- `fcc_entity_match_add_filter`. -/
def addFilter (e : EntityMatch) (decl : FccDecl) : Except Report EntityMatch := do
  let decls ← addBelow maxFilterFunc "Maximum number of filter funcs in match exceeded" e.filterFunc decl
  .ok { e with filterFunc := decls }

end EntityMatch

/-! ### The visit -/

/-- `is_global`. -/
def TypeArg.isGlobal (t : TypeArg) : Except Report Bool :=
  match t.template with
  | none => .ok false
  | some name =>
      if name = "Global" then .ok true
      else .error (reportParsingError .unsupportedTypeModifier name)

/-- The statement that is being made: its entity matches are `done ++ [current]`. -/
structure Parse where
  done : List EntityMatch
  current : EntityMatch
  system : System
deriving DecidableEq, Repr

/-- An iteration of `process_match`: the parameter `i` of the system becomes one of the current match,
and its scope is the one that the clause has written. -/
def matchParam (args : List TypeArg) (first : ℕ) (st : Parse) (i : ℕ) : Except Report Parse :=
  match st.system.cmatches[i]?, args[i - first]? with
  | some c, some arg => do
      let isGlobal ← arg.isGlobal
      let c := { c with isGlobal := isGlobal }
      let current ← st.current.addCmatch c
      .ok { st with
        current := current
        system := { st.system with cmatches := st.system.cmatches.set i c } }
  | _, _ => .error .fault

/-- The number of components in some entity matches. -/
def numComponents (ematches : List EntityMatch) : ℕ := (ematches.map fun e => e.cmatches.length).sum

/-- `process_match`. The numbers have 32 bits. -/
def processMatch (st : Parse) (args : List TypeArg) : Except Report Parse :=
  let numConsumed := numComponents st.done
  let numSystemArgs := st.system.cmatches.length
  let first := sub32 numSystemArgs (add32 numConsumed args.length)
  let stop := sub32 numSystemArgs numConsumed
  (List.range' first (stop - first)).foldlM (matchParam args first) st

/-- `process_expand`: what is written behind it, up to here, is about the referenced entities; the next
match begins. -/
def processExpand (st : Parse) (args : List TypeArg) (refName : String) : Except Report Parse := do
  let refName ← copyAndCheck refName
  let st ← processMatch { st with current := { st.current with refName := refName, fromExpand := true } } args
  .ok { st with
    done := st.done ++ [st.current]
    current := EntityMatch.init }

/-- `process_filter`. -/
def processFilter (st : Parse) : FilterArg → Except Report Parse
  | .func decl => do
      let current ← st.current.addFilter decl
      .ok { st with current := current }
  | .variable => .error (reportParsingError .unsupportedVarDeclarations "")
  | .other => .ok st

/-- `process_has_tag` and `process_has_not_tag`, with the adder and what they report. -/
def processTag (add : EntityMatch → String → Except Report EntityMatch) (message : String) (st : Parse) :
    Option String → Except Report Parse
  | some tag => do
      let current ← add st.current tag
      .ok { st with current := current }
  | none => .error (reportParsingError .expectedStringLiteral message)

/-- `process_has_tag`. -/
def processHasTag : Parse → Option String → Except Report Parse :=
  processTag EntityMatch.addHasTag "Non literal types are not allowed."

/-- `process_has_not_tag`. -/
def processHasNotTag : Parse → Option String → Except Report Parse :=
  processTag EntityMatch.addHasNotTag "Non literal types are not allowed"

/-- `process_has_component`. -/
def processHasComponent (st : Parse) (type : FccType) : Except Report Parse := do
  let current ← st.current.addHasComp type
  .ok { st with current := current }

/-- `process_has_not_component`. -/
def processHasNotComponent (st : Parse) (type : FccType) : Except Report Parse := do
  let current ← st.current.addHasNotComp type
  .ok { st with current := current }

/-- `FuriousExprVisitor::VisitCallExpr`, for the calls between a `match` and its `foreach`. -/
def processCall (st : Parse) : Call → Except Report Parse
  | .filter arg => processFilter st arg
  | .hasTag tag => processHasTag st tag
  | .hasNotTag tag => processHasNotTag st tag
  | .hasComponent type => processHasComponent st type
  | .hasNotComponent type => processHasNotComponent st type
  | .expand args refName => processExpand st args refName

/-- An iteration of `process_foreach`. -/
def foreachParam (s : System) (p : Param) : Except Report System := do
  let isGlobal ← p.arg.isGlobal
  s.addCmatch ⟨p.arg.type, p.isConst, isGlobal⟩

/-- `process_foreach`. -/
def processForeach (decl : SystemDecl) : Except Report Parse := do
  let system ← decl.params.foldlM foreachParam ⟨decl.systemType, [], decl.id⟩
  .ok ⟨[], EntityMatch.init, system⟩

/-- `FuriousExprVisitor::parse_expression`: the calls are visited from the last one on. An object without
a `foreach` has no system. -/
def parse : Source → Except Report Stmt
  | .query start calls decl priorities => do
      let st ← processForeach decl
      let st ← calls.reverse.foldlM processCall st
      let st ← start.elim (.ok st) (processMatch st)
      -- the first priority that is written is the last one that is visited
      .ok ⟨.foreach, st.done ++ [st.current], st.system, priorities.headD defaultPriority⟩
  | .object => .ok ⟨.unknown, [], ⟨⟨""⟩, [], 0⟩, defaultPriority⟩

/-! ### The validation -/

/-- What the first loop over the parameters in `fcc_validate` reports for the parameter `c` at `i`. The texts
of the validation are formats; the list of arguments that they are printed with is itself passed as one
argument, and what is printed for it is not modelled. -/
def reportExpanded (allowWrites allowGlobals : List Bool) (c : CompMatch) (i : ℕ) : Option Report :=
  if allowWrites[i]? = some false ∧ c.isReadOnly = false then
    some (.compilation .invalidAccessModeOnExpand
      "\"%s\" access mode after expand                                           must be read-only")
  else if allowGlobals[i]? = some false ∧ c.isGlobal = true then
    some (.compilation .invalidAccessModeOnExpand
      "\"%s\" scope modifier after                                           expand cannot be global")
  else none

/-- `fcc_validate`. -/
def validate (stmt : Stmt) : Except Report Unit :=
  let nmatches := stmt.ematches.length
  let ncomps := numComponents stmt.ematches
  -- the components of the last match first; both arrays are filled alike
  let allowed := stmt.ematches.reverse.flatMap fun e => e.cmatches.map fun _ => true
  let cmatches := stmt.system.cmatches
  if stmt.operationType = .unknown then .error (.parsing .unsupportedStatement "")
  else if nmatches = 0 then .error (.parsing .unsupportedStatement "At least one match must exist")
  else if nmatches > 2 then
    .error (.parsing .unsupportedStatement
      "More than 2 expands found. The maximum number of expands per statement is 1")
  else if ncomps ≠ cmatches.length then
    .error (.compilation .systemInvalidNumberComponents "Match: %u, System: %u")
  else
    match cmatches.zipIdx.findSome? fun c => reportExpanded allowed allowed c.1 c.2 with
    | some report => .error report
    | none =>
        if (cmatches.all fun c => c.isGlobal) = false
            ∧ (cmatches.any fun c => !c.isReadOnly && c.isGlobal) = true then
          .error (.compilation .invalidAccessModeOnExpand
            "\"%s\" read-write access mode on globals is                                              only allowed \"global-only\" systems")
        else .ok ()

namespace Source

/-- `FccASTVisitor::VisitFunctionDecl`, on an expression of the script. -/
def visit (src : Source) : Except Report Stmt := do
  let stmt ← parse src
  let _ ← validate stmt
  .ok stmt

/-- The statement goes into the plan. -/
def IsAccepted (src : Source) : Prop := ∃ stmt, src.visit = .ok stmt

/-- An error is reported for the statement. -/
def IsReported (src : Source) : Prop := ∃ report, report ≠ .fault ∧ src.visit = .error report

end Source

/-! ### What the clauses are given -/

/-- The types that the expands name, in the order in which they are written. -/
def expands (calls : List Call) : List (List TypeArg) :=
  calls.filterMap fun
    | .expand args _ => some args
    | _ => none

/-- What a clause is given of its `args`, when `n` of the `p` parameters have been given away: all, or
nothing where they do not suffice. -/
def share (p n : ℕ) (args : List TypeArg) : List TypeArg := if args.length + n ≤ p then args else []

/-- The types with parameters, in the clauses `clauses` of a query. -/
def used (p : ℕ) : List (List TypeArg) → List TypeArg
  | [] => []
  | args :: clauses => share p (used p clauses).length args ++ used p clauses

lemma used_length_le (p : ℕ) (clauses : List (List TypeArg)) : (used p clauses).length ≤ p := by
  induction clauses with
  | nil => exact Nat.zero_le p
  | cons args clauses ih =>
      rw [used, share]
      split_ifs with hfits
      · rwa [List.length_append]
      · exact ih

lemma share_length_le {p n : ℕ} (args : List TypeArg) (hn : n ≤ p) : (share p n args).length + n ≤ p := by
  rw [share]
  split_ifs with hfits
  · exact hfits
  · rwa [List.length_nil, Nat.zero_add]

/-- Where the clauses name no more types than there are parameters, all of them are used. -/
lemma used_eq_flatten {p : ℕ} {clauses : List (List TypeArg)} (h : clauses.flatten.length ≤ p) :
    used p clauses = clauses.flatten := by
  induction clauses with
  | nil => rfl
  | cons args clauses ih =>
      rw [List.flatten_cons, List.length_append] at h
      rw [used, ih (by omega), share, if_pos h, List.flatten_cons]

/-- A parameter with the scope that a clause has written for it. -/
def CompMatch.withScope (c : CompMatch) (t : TypeArg) : CompMatch := { c with isGlobal := decide t.Global }

lemma zipWith_take_left {α β γ : Type} (f : α → β → γ) (as : List α) (bs : List β) :
    List.zipWith f (as.take bs.length) bs = List.zipWith f as bs := by
  induction bs generalizing as with
  | nil => simp
  | cons b bs ih =>
      cases as with
      | nil => rfl
      | cons a as => rw [List.length_cons, List.take_succ_cons, List.zipWith_cons_cons, ih, List.zipWith_cons_cons]

/-- What the clause `args` gets from the parameters `cs`, when `n` of them have been given away. -/
def part (cs : List CompMatch) (n : ℕ) (args : List TypeArg) : List CompMatch :=
  List.zipWith CompMatch.withScope (cs.drop (cs.length - n - (share cs.length n args).length))
    (share cs.length n args)

/-- What the clauses get. -/
def parts (cs : List CompMatch) : List (List TypeArg) → List (List CompMatch)
  | [] => []
  | args :: clauses => part cs (used cs.length clauses).length args :: parts cs clauses

lemma length_parts (cs : List CompMatch) (clauses : List (List TypeArg)) :
    (parts cs clauses).length = clauses.length := by
  induction clauses with
  | nil => rfl
  | cons args clauses ih => rw [parts, List.length_cons, ih, List.length_cons]

lemma part_length {cs : List CompMatch} {n : ℕ} (args : List TypeArg) (hn : n ≤ cs.length) :
    (part cs n args).length = (share cs.length n args).length := by
  have hle := share_length_le args hn
  rw [part, List.length_zipWith, List.length_drop]
  omega

lemma length_flatten_parts (cs : List CompMatch) (clauses : List (List TypeArg)) :
    (parts cs clauses).flatten.length = (used cs.length clauses).length := by
  induction clauses with
  | nil => rfl
  | cons args clauses ih =>
      rw [parts, List.flatten_cons, List.length_append, part_length args (used_length_le _ _), ih, used,
        List.length_append]

/-- **What the clauses get together**: the last parameters, with the scopes that are written. -/
lemma parts_flatten (cs : List CompMatch) (clauses : List (List TypeArg)) :
    (parts cs clauses).flatten
      = List.zipWith CompMatch.withScope (cs.drop (cs.length - (used cs.length clauses).length))
          (used cs.length clauses) := by
  induction clauses with
  | nil => simp [parts, used]
  | cons args clauses ih =>
      obtain ⟨n, hn⟩ : ∃ n, (used cs.length clauses).length = n := ⟨_, rfl⟩
      obtain ⟨xs, hxs⟩ : ∃ xs, share cs.length n args = xs := ⟨_, rfl⟩
      have hnp : n ≤ cs.length := hn ▸ used_length_le _ _
      have hle : xs.length + n ≤ cs.length := hxs ▸ share_length_le args hnp
      rw [parts, List.flatten_cons, ih, part, used, hn, hxs, List.length_append, hn]
      -- the parameters of this clause are right before those of the others
      obtain ⟨first, hfirst⟩ : ∃ first, cs.length - n - xs.length = first := ⟨_, rfl⟩
      rw [hfirst]
      have hcut : cs.drop (cs.length - (xs.length + n))
          = (cs.drop first).take xs.length ++ cs.drop (cs.length - n) := calc
        cs.drop (cs.length - (xs.length + n)) = cs.drop first := by congr 1; omega
        _ = (cs.drop first).take xs.length ++ (cs.drop first).drop xs.length :=
            (List.take_append_drop _ _).symm
        _ = (cs.drop first).take xs.length ++ cs.drop (cs.length - n) := by
            rw [List.drop_drop, show first + xs.length = cs.length - n by omega]
      have htake : ((cs.drop first).take xs.length).length = xs.length := by
        rw [List.length_take, List.length_drop]
        omega
      rw [hcut, List.zipWith_append htake, zipWith_take_left]

lemma TypeArg.isGlobal_eq {t : TypeArg} {g : Bool} (h : t.isGlobal = .ok g) : g = decide t.Global := by
  obtain ⟨type, template⟩ := t
  cases template with
  | none =>
      obtain rfl := Except.ok.inj h
      rfl
  | some name =>
      rw [isGlobal] at h
      dsimp only at h
      split_ifs at h with hname
      · obtain rfl := Except.ok.inj h
        rw [hname]
        rfl

/-- What an adder that succeeds does. -/
lemma addBelow_ok {α : Type} {limit : ℕ} {message : String} {l l' : List α} {a : α}
    (h : addBelow limit message l a = .ok l') : l.length < limit ∧ l' = l ++ [a] := by
  rw [addBelow] at h
  split_ifs at h with hlt
  exact ⟨hlt, (Except.ok.inj h).symm⟩

lemma EntityMatch.addCmatch_ok {e e' : EntityMatch} {c : CompMatch} (h : e.addCmatch c = .ok e') :
    e' = { e with cmatches := e.cmatches ++ [c] } := by
  obtain ⟨l, hl, h⟩ := bind_ok h
  obtain rfl := (addBelow_ok hl).2
  exact (Except.ok.inj h).symm

lemma zipWith_take_succ {α β γ : Type} {f : α → β → γ} {as : List α} {bs : List β} {a : α} {b : β} {j : ℕ}
    (ha : as[j]? = some a) (hb : bs[j]? = some b) :
    (List.zipWith f as bs).take (j + 1) = (List.zipWith f as bs).take j ++ [f a b] := by
  have hget : (List.zipWith f as bs)[j]? = some (f a b) := by
    rw [List.getElem?_zipWith, ha, hb]
  rw [List.take_add_one, hget, Option.toList_some]

/-- **The loop of `process_match`**: the parameters from `first` on become those of the current match,
with the scopes of the types `args`. -/
lemma matchLoop_spec {args : List TypeArg} {first : ℕ} {st st' : Parse}
    (hlen : first + args.length ≤ st.system.cmatches.length)
    (h : (List.range' first args.length).foldlM (matchParam args first) st = .ok st') :
    st'.done = st.done
    ∧ st'.current = { st.current with
        cmatches := st.current.cmatches
          ++ List.zipWith CompMatch.withScope (st.system.cmatches.drop first) args }
    ∧ st'.system = { st.system with
        cmatches := st.system.cmatches.take first
          ++ List.zipWith CompMatch.withScope (st.system.cmatches.drop first) args
          ++ st.system.cmatches.drop (first + args.length) } := by
  obtain ⟨cs, hcs⟩ : ∃ cs, st.system.cmatches = cs := ⟨_, rfl⟩
  obtain ⟨zs, hzs⟩ : ∃ zs, List.zipWith CompMatch.withScope (cs.drop first) args = zs := ⟨_, rfl⟩
  rw [hcs] at hlen
  have hzlen : zs.length = args.length := by
    rw [← hzs, List.length_zipWith, List.length_drop]
    omega
  have hP := foldlM_ok_spec (fun done (s : Parse) => s.done = st.done
      ∧ s.current = { st.current with cmatches := st.current.cmatches ++ zs.take done.length }
      ∧ s.system = { st.system with
          cmatches := cs.take first ++ zs.take done.length ++ cs.drop (first + done.length) })
    _ ?_ ?_ h
  · obtain ⟨hdone, hcurrent, hsystem⟩ := hP
    rw [List.length_range', ← hzlen, List.take_length] at hcurrent hsystem
    rw [hcs, hzs, ← hzlen]
    exact ⟨hdone, hcurrent, hsystem⟩
  · refine ⟨rfl, by simp, ?_⟩
    rw [List.length_nil, List.take_zero, List.append_nil, Nat.add_zero, List.take_append_drop, ← hcs]
  · rintro done i rest s s' hrange ⟨hdone, hcurrent, hsystem⟩ hbody
    -- the iteration is about the parameter behind those that are done
    obtain ⟨hi, hlt⟩ : i = first + done.length ∧ done.length < args.length := by
      have hget := congrArg (fun l : List ℕ => l[done.length]?) hrange
      rw [List.getElem?_append_right le_rfl, Nat.sub_self, List.getElem?_cons_zero] at hget
      obtain ⟨hlt, hget⟩ := List.getElem?_eq_some_iff.mp hget
      rw [List.length_range'] at hlt
      rw [List.getElem_range', Nat.one_mul] at hget
      exact ⟨hget.symm, hlt⟩
    have hc : first + done.length < cs.length := by omega
    have htake : (cs.take first ++ zs.take done.length).length = first + done.length := by
      rw [List.length_append, List.length_take, List.length_take]
      omega
    have hdrop := List.drop_eq_getElem_cons hc
    have hread : s.system.cmatches[i]? = some cs[first + done.length] := by
      rw [hsystem, hi, List.getElem?_append_right htake.le, htake, Nat.sub_self, hdrop,
        List.getElem?_cons_zero]
    have harg : args[i - first]? = some args[done.length] := by
      rw [hi, Nat.add_sub_cancel_left, List.getElem?_eq_getElem hlt]
    simp only [matchParam, hread, harg] at hbody
    obtain ⟨g, hg, hbody⟩ := bind_ok hbody
    obtain ⟨e, he, hbody⟩ := bind_ok hbody
    obtain rfl := Except.ok.inj hbody
    obtain rfl := TypeArg.isGlobal_eq hg
    have hz : zs.take (done.length + 1) = zs.take done.length
        ++ [cs[first + done.length].withScope args[done.length]] := by
      rw [← hzs]
      refine zipWith_take_succ ?_ (List.getElem?_eq_getElem hlt)
      rw [List.getElem?_drop, List.getElem?_eq_getElem hc]
    rw [List.length_append, List.length_singleton, hz]
    refine ⟨hdone, ?_, ?_⟩
    · rw [EntityMatch.addCmatch_ok he, hcurrent, List.append_assoc]
      rfl
    · rw [hsystem, hi, List.set_append_right _ _ htake.le, htake, Nat.sub_self, hdrop, List.set_cons_zero]
      simp [CompMatch.withScope, Nat.add_assoc]

/-- The clauses `clauses` have been visited, of a query with the parameters of `system`. -/
structure Parse.Given (system : System) (clauses : List (List TypeArg)) (st : Parse) : Prop where
  system_eq : st.system = { system with
    cmatches := system.cmatches.take (system.cmatches.length - (used system.cmatches.length clauses).length)
      ++ (parts system.cmatches clauses).flatten }
  done_eq : (st.done.map fun e => e.cmatches) = (parts system.cmatches clauses).reverse
  done_expand : ∀ e ∈ st.done, e.fromExpand = true

/-- The next clause has not been visited. -/
structure Parse.Open (system : System) (clauses : List (List TypeArg)) (st : Parse) : Prop
    extends st.Given system clauses where
  current_eq : st.current.cmatches = []
  current_expand : st.current.fromExpand = false

/-- What is made of the parameters, before any clause. -/
lemma Parse.Open.init (system : System) : Parse.Open system [] ⟨[], EntityMatch.init, system⟩ where
  system_eq := by simp [used, parts]
  done_eq := rfl
  done_expand := by simp
  current_eq := rfl
  current_expand := rfl

/-- The number of components that the clauses have got. -/
lemma numComponents_eq {cs : List CompMatch} {clauses : List (List TypeArg)} {ematches : List EntityMatch}
    (h : (ematches.map fun e => e.cmatches) = (parts cs clauses).reverse) :
    numComponents ematches = (used cs.length clauses).length := by
  have hmap : (ematches.map fun e => e.cmatches.length) = (ematches.map fun e => e.cmatches).map List.length := by
    rw [List.map_map]
    rfl
  rw [numComponents, hmap, h, List.map_reverse, List.sum_reverse, ← List.length_flatten, length_flatten_parts]

section Match

variable {system : System} {clauses : List (List TypeArg)} {st : Parse} {args : List TypeArg}

lemma Parse.Given.length_eq (hst : st.Given system clauses) :
    st.system.cmatches.length = system.cmatches.length := by
  have hle := used_length_le system.cmatches.length clauses
  rw [hst.system_eq, List.length_append, List.length_take, length_flatten_parts]
  omega

/-- The loop of `process_match` is over the share of the clause: where there are not enough parameters, it
begins behind its end. -/
lemma processMatch_eq (hargs : args.length < 2 ^ 32) (hsystem : system.cmatches.length ≤ maxOperatorNumColumns)
    (hst : st.Given system clauses) {n first : ℕ} {xs : List TypeArg}
    (hn : (used system.cmatches.length clauses).length = n) (hxs : share system.cmatches.length n args = xs)
    (hfirst : system.cmatches.length - n - xs.length = first) :
    processMatch st args = (List.range' first xs.length).foldlM (matchParam xs first) st := by
  obtain ⟨p, hp⟩ : ∃ p, system.cmatches.length = p := ⟨_, rfl⟩
  have hnum := numComponents_eq hst.done_eq
  have hplen := hst.length_eq
  rw [maxOperatorNumColumns] at hsystem
  rw [hp] at hsystem hn hxs hfirst hnum hplen
  rw [hn] at hnum
  have hnp : n ≤ p := hn ▸ used_length_le p clauses
  have hstop : sub32 p n = p - n := by
    rw [sub32]
    omega
  simp only [processMatch, hnum, hplen, hstop]
  rw [share] at hxs
  split_ifs at hxs with hfits
  · have hsub : sub32 p (add32 n args.length) = first := by
      rw [sub32, add32]
      subst hxs
      omega
    rw [hsub, ← hxs, show p - n - first = args.length by subst hxs; omega]
  · have hlate : p - n ≤ sub32 p (add32 n args.length) := by
      rw [sub32, add32]
      omega
    rw [Nat.sub_eq_zero_of_le hlate, ← hxs]
    rfl

/-- **`process_match` on the clause `args`.** -/
lemma processMatch_spec {st' : Parse} (hargs : args.length < 2 ^ 32)
    (hsystem : system.cmatches.length ≤ maxOperatorNumColumns) (hst : st.Given system clauses)
    (hempty : st.current.cmatches = []) (h : processMatch st args = .ok st') :
    st'.done = st.done
    ∧ st'.current = { st.current with
        cmatches := part system.cmatches (used system.cmatches.length clauses).length args }
    ∧ st'.system = { system with
        cmatches := system.cmatches.take
            (system.cmatches.length - (used system.cmatches.length (args :: clauses)).length)
          ++ (parts system.cmatches (args :: clauses)).flatten } := by
  obtain ⟨cs, hcs⟩ : ∃ cs, system.cmatches = cs := ⟨_, rfl⟩
  obtain ⟨p, hp⟩ : ∃ p, cs.length = p := ⟨_, rfl⟩
  obtain ⟨n, hn⟩ : ∃ n, (used p clauses).length = n := ⟨_, rfl⟩
  obtain ⟨xs, hxs⟩ : ∃ xs, share p n args = xs := ⟨_, rfl⟩
  obtain ⟨first, hfirst⟩ : ∃ first, p - n - xs.length = first := ⟨_, rfl⟩
  have hnp : n ≤ p := hn ▸ used_length_le p clauses
  have hle : xs.length + n ≤ p := hxs ▸ share_length_le args hnp
  have hgiven := length_flatten_parts cs clauses
  obtain ⟨given, hgs⟩ : ∃ given, (parts cs clauses).flatten = given := ⟨_, rfl⟩
  have hplen := hst.length_eq
  have hsys := hst.system_eq
  have hloop : (used system.cmatches.length clauses).length = n → share system.cmatches.length n args = xs →
      system.cmatches.length - n - xs.length = first →
      processMatch st args = (List.range' first xs.length).foldlM (matchParam xs first) st :=
    fun hn hxs hfirst => processMatch_eq hargs hsystem hst hn hxs hfirst
  rw [hcs, hp] at hsys hplen hloop ⊢
  rw [hloop hn hxs hfirst] at h
  rw [hn, hgs] at hsys
  rw [hp, hn, hgs] at hgiven
  rw [used, parts, List.flatten_cons, hgs, hp, hn, hxs, List.length_append, hn, part, hp, hxs, hfirst,
    show p - (xs.length + n) = first by omega]
  obtain ⟨hdone, hcurrent, hsystem'⟩ := matchLoop_spec (by omega) h
  have hlen : (cs.take (p - n)).length = p - n := by
    rw [List.length_take]
    omega
  -- the loop reads parameters that no clause has got
  have htake : (st.system.cmatches.drop first).take xs.length = (cs.drop first).take xs.length := by
    rw [hsys, List.drop_append_of_le_length (by omega), List.drop_take,
      show p - n - first = xs.length by omega, List.take_append_of_le_length, List.take_take, min_self]
    rw [List.length_take, List.length_drop]
    omega
  have hzip : List.zipWith CompMatch.withScope (st.system.cmatches.drop first) xs
      = List.zipWith CompMatch.withScope (cs.drop first) xs := by
    rw [← zipWith_take_left, htake, zipWith_take_left]
  rw [hzip, hempty, List.nil_append] at hcurrent
  rw [hzip] at hsystem'
  refine ⟨hdone, hcurrent, ?_⟩
  rw [hsystem', hsys, List.take_append_of_le_length (by omega), List.take_take,
    show min first (p - n) = first by omega,
    List.drop_append_of_le_length (by omega), List.drop_take, show p - n - (first + xs.length) = 0 by omega,
    List.take_zero, List.nil_append, List.append_assoc]

end Match

/-- What a call other than an expand adds to is neither components nor matches. -/
lemma processCall_other {st st' : Parse} {call : Call} (hcall : ∀ args refName, call ≠ .expand args refName)
    (h : processCall st call = .ok st') :
    st'.done = st.done ∧ st'.system = st.system
    ∧ st'.current.cmatches = st.current.cmatches ∧ st'.current.fromExpand = st.current.fromExpand := by
  cases call with
  | filter arg =>
      cases arg with
      | func decl =>
          obtain ⟨e, he, h⟩ := bind_ok h
          obtain ⟨l, hl, he⟩ := bind_ok he
          obtain rfl := Except.ok.inj he
          obtain rfl := Except.ok.inj h
          exact ⟨rfl, rfl, rfl, rfl⟩
      | «variable» => cases h
      | other =>
          obtain rfl := Except.ok.inj h
          exact ⟨rfl, rfl, rfl, rfl⟩
  | hasTag tag =>
      cases tag with
      | some tag =>
          obtain ⟨e, he, h⟩ := bind_ok h
          obtain ⟨l, hl, he⟩ := bind_ok he
          obtain ⟨_, hcopy, he⟩ := bind_ok he
          obtain rfl := Except.ok.inj he
          obtain rfl := Except.ok.inj h
          exact ⟨rfl, rfl, rfl, rfl⟩
      | none => cases h
  | hasNotTag tag =>
      cases tag with
      | some tag =>
          obtain ⟨e, he, h⟩ := bind_ok h
          obtain ⟨l, hl, he⟩ := bind_ok he
          obtain ⟨_, hcopy, he⟩ := bind_ok he
          obtain rfl := Except.ok.inj he
          obtain rfl := Except.ok.inj h
          exact ⟨rfl, rfl, rfl, rfl⟩
      | none => cases h
  | hasComponent type =>
      obtain ⟨e, he, h⟩ := bind_ok h
      obtain ⟨l, hl, he⟩ := bind_ok he
      obtain rfl := Except.ok.inj he
      obtain rfl := Except.ok.inj h
      exact ⟨rfl, rfl, rfl, rfl⟩
  | hasNotComponent type =>
      obtain ⟨e, he, h⟩ := bind_ok h
      obtain ⟨l, hl, he⟩ := bind_ok he
      obtain rfl := Except.ok.inj he
      obtain rfl := Except.ok.inj h
      exact ⟨rfl, rfl, rfl, rfl⟩
  | expand args refName => exact (hcall args refName rfl).elim

/-- **A call of a query.** -/
lemma processCall_spec {system : System} {clauses : List (List TypeArg)} {st st' : Parse} {call : Call}
    (hargs : ∀ args ∈ expands [call], args.length < 2 ^ 32)
    (hsystem : system.cmatches.length ≤ maxOperatorNumColumns)
    (hst : st.Open system clauses) (h : processCall st call = .ok st') :
    st'.Open system (expands [call] ++ clauses) := by
  by_cases hcall : ∀ args refName, call ≠ .expand args refName
  · obtain ⟨hdone, hsys, hcmatches, hexpand⟩ := processCall_other hcall h
    have hnone : expands [call] = [] := by
      cases call with
      | expand args refName => exact (hcall args refName rfl).elim
      | _ => rfl
    rw [hnone, List.nil_append]
    exact {
      system_eq := hsys.trans hst.system_eq
      done_eq := by rw [hdone, hst.done_eq]
      done_expand := by rw [hdone]; exact hst.done_expand
      current_eq := hcmatches.trans hst.current_eq
      current_expand := hexpand.trans hst.current_expand }
  · push Not at hcall
    obtain ⟨args, refName, rfl⟩ := hcall
    obtain ⟨refName', hname, h⟩ := bind_ok h
    obtain ⟨u, hu, h⟩ := bind_ok h
    obtain rfl := Except.ok.inj h
    have hgiven : Parse.Given system clauses
        { st with current := { st.current with refName := refName', fromExpand := true } } :=
      ⟨hst.system_eq, hst.done_eq, hst.done_expand⟩
    obtain ⟨hdone, hcurrent, hsys⟩ :=
      processMatch_spec (hargs args List.mem_cons_self) hsystem hgiven hst.current_eq hu
    exact {
      system_eq := hsys
      done_eq := by
        rw [List.map_append, hdone, hst.done_eq, hcurrent]
        exact List.reverse_cons.symm
      done_expand := by
        intro e he
        rcases List.mem_append.mp he with he | he
        · rw [hdone] at he
          exact hst.done_expand e he
        · rw [List.mem_singleton.mp he, hcurrent]
      current_eq := rfl
      current_expand := rfl }

lemma expands_append (calls calls' : List Call) : expands (calls ++ calls') = expands calls ++ expands calls' :=
  List.filterMap_append

/-- The calls of a query, from the last one on. -/
lemma processCalls_spec {system : System} {calls : List Call} {st st' : Parse}
    (hargs : ∀ args ∈ expands calls, args.length < 2 ^ 32)
    (hsystem : system.cmatches.length ≤ maxOperatorNumColumns)
    (hst : st.Open system []) (h : calls.reverse.foldlM processCall st = .ok st') :
    st'.Open system (expands calls) := by
  have hrun := foldlM_ok_spec (fun done (s : Parse) => s.Open system (expands done.reverse))
    calls.reverse hst ?_ h
  · rwa [List.reverse_reverse] at hrun
  · intro done call rest s s' hcalls hs hstep
    have hmem : ∀ args ∈ expands [call], args.length < 2 ^ 32 := by
      intro args hmem
      refine hargs args ?_
      rw [← List.reverse_reverse calls, hcalls, List.reverse_append, List.reverse_cons, expands_append,
        expands_append]
      exact List.mem_append_left _ (List.mem_append_right _ hmem)
    rw [List.reverse_append, List.reverse_singleton, expands_append]
    exact processCall_spec hmem hsystem hs hstep

/-- `process_foreach` reads the parameters. -/
def Param.toMatch (p : Param) : CompMatch := ⟨p.arg.type, p.isConst, decide p.arg.Global⟩

lemma processForeach_spec {decl : SystemDecl} {st : Parse} (h : processForeach decl = .ok st) :
    st = ⟨[], EntityMatch.init, ⟨decl.systemType, decl.params.map Param.toMatch, decl.id⟩⟩
    ∧ decl.params.length ≤ maxOperatorNumColumns := by
  obtain ⟨system, hsystem, h⟩ := bind_ok h
  obtain rfl := Except.ok.inj h
  have hrun := foldlM_ok_spec (fun done (s : System) =>
      s = ⟨decl.systemType, done.map Param.toMatch, decl.id⟩ ∧ done.length ≤ maxOperatorNumColumns)
    decl.params ⟨rfl, Nat.zero_le _⟩ ?_ hsystem
  · exact ⟨by rw [hrun.1], hrun.2⟩
  · rintro done p rest s s' - ⟨rfl, -⟩ hbody
    obtain ⟨g, hg, hbody⟩ := bind_ok hbody
    obtain rfl := TypeArg.isGlobal_eq hg
    obtain ⟨l, hl, hbody⟩ := bind_ok hbody
    obtain rfl := Except.ok.inj hbody
    obtain ⟨hlt, rfl⟩ := addBelow_ok hl
    rw [List.length_map] at hlt
    exact ⟨by rw [List.map_append]; rfl, by rw [List.length_append]; exact hlt⟩

/-- The clauses of a query that name components; a query without a match is read like one whose match
names nothing. -/
def clauses (start : Option (List TypeArg)) (calls : List Call) : List (List TypeArg) :=
  start.getD [] :: expands calls

/-- A statement made of the clauses `clauses` and of a system with the parameters `cs`. -/
structure Stmt.Parsed (cs : List CompMatch) (clauses : List (List TypeArg)) (stmt : Stmt) : Prop where
  operation_eq : stmt.operationType = .foreach
  length_le : cs.length ≤ maxOperatorNumColumns
  cmatches_eq : (stmt.ematches.map fun e => e.cmatches) = (parts cs clauses).reverse
  system_eq : stmt.system.cmatches
    = cs.take (cs.length - (used cs.length clauses).length) ++ (parts cs clauses).flatten
  expand_eq : ∃ done e, stmt.ematches = done ++ [e] ∧ (∀ d ∈ done, d.fromExpand = true) ∧ e.fromExpand = false

lemma part_nil (cs : List CompMatch) (n : ℕ) : part cs n [] = [] := by
  rw [part, share, ite_self, List.zipWith_nil_right]

/-- **What the front end makes of a query.** -/
lemma parse_spec {start : Option (List TypeArg)} {calls : List Call} {decl : SystemDecl} {priorities : List ℕ}
    {stmt : Stmt} (hargs : ∀ args ∈ clauses start calls, args.length < 2 ^ 32)
    (h : parse (.query start calls decl priorities) = .ok stmt) :
    stmt.Parsed (decl.params.map Param.toMatch) (clauses start calls) := by
  obtain ⟨s₀, hs₀, h⟩ := bind_ok h
  obtain ⟨rfl, hlen⟩ := processForeach_spec hs₀
  obtain ⟨s₁, hs₁, h⟩ := bind_ok h
  obtain ⟨s₂, hs₂, h⟩ := bind_ok h
  obtain rfl := Except.ok.inj h
  obtain ⟨system, hsystem⟩ : ∃ system : System,
      ⟨decl.systemType, decl.params.map Param.toMatch, decl.id⟩ = system := ⟨_, rfl⟩
  obtain ⟨cs, hcs⟩ : ∃ cs, decl.params.map Param.toMatch = cs := ⟨_, rfl⟩
  have hsys : system.cmatches = cs := by rw [← hsystem, hcs]
  have hmax : cs.length ≤ maxOperatorNumColumns := by rwa [← hcs, List.length_map]
  rw [hsystem] at hs₁
  rw [hcs]
  have hopen : s₁.Open system (expands calls) :=
    processCalls_spec (fun args ha => hargs args (List.mem_cons_of_mem _ ha)) (hsys ▸ hmax)
      (Parse.Open.init system) hs₁
  -- a match that is missing is like one that names nothing
  have hmatch : s₂.done = s₁.done
      ∧ s₂.current.cmatches = part cs (used cs.length (expands calls)).length (start.getD [])
      ∧ s₂.current.fromExpand = false
      ∧ s₂.system.cmatches = cs.take (cs.length - (used cs.length (clauses start calls)).length)
          ++ (parts cs (clauses start calls)).flatten := by
    cases start with
    | none =>
        obtain rfl := Except.ok.inj hs₂
        refine ⟨rfl, ?_, hopen.current_expand, ?_⟩
        · rw [hopen.current_eq, Option.getD_none, part_nil]
        · have hnil : share cs.length (used cs.length (expands calls)).length [] = [] := by
            rw [share, ite_self]
          rw [hopen.system_eq, hsys, clauses, Option.getD_none, used, hnil, parts, part_nil]
          rfl
    | some args =>
        obtain ⟨hdone, hcurrent, hsys'⟩ := processMatch_spec (hargs args List.mem_cons_self) (hsys ▸ hmax)
          hopen.toGiven hopen.current_eq hs₂
        rw [hsys] at hcurrent hsys'
        refine ⟨hdone, by rw [hcurrent, Option.getD_some], ?_, by rw [hsys', clauses, Option.getD_some]⟩
        rw [hcurrent]
        exact hopen.current_expand
  obtain ⟨hdone, hcmatches, hexpand, hsys'⟩ := hmatch
  exact {
    operation_eq := rfl
    length_le := hmax
    cmatches_eq := by
      rw [List.map_append, hdone, hopen.done_eq, hsys, clauses, parts, List.reverse_cons, List.map_singleton,
        hcmatches]
    system_eq := hsys'
    expand_eq := ⟨s₂.done, s₂.current, rfl, by rw [hdone]; exact hopen.done_expand, hexpand⟩ }

/-! ### What the validation accepts -/

/-- A global is written next to components that are no globals. -/
def Mixed (cs : List CompMatch) : Prop :=
  (∃ c ∈ cs, c.isGlobal = true ∧ c.isReadOnly = false) ∧ ∃ c ∈ cs, c.isGlobal = false

/-- Everything is allowed to what is expanded. -/
lemma reportExpanded_eq_none {allowed : List Bool} (h : ∀ b ∈ allowed, b = true) (c : CompMatch) (i : ℕ) :
    reportExpanded allowed allowed c i = none := by
  have hne : allowed[i]? ≠ some false := by
    intro hi
    exact Bool.false_ne_true (h false (List.mem_of_getElem? hi))
  rw [reportExpanded, if_neg fun h => hne h.1, if_neg fun h => hne h.1]

/-- A part of the front end succeeds just where `P` holds, and reads behind the end of no array. -/
abbrev Reads {α : Type} (x : Except Report α) (P : Prop) : Prop := Answers (fun report => report ≠ .fault) x P

/-- **The statements that `fcc_validate` accepts.** -/
lemma validate_reads (stmt : Stmt) :
    Reads (validate stmt) (stmt.operationType ≠ .unknown ∧ stmt.ematches.length ≠ 0
      ∧ stmt.ematches.length ≤ 2 ∧ numComponents stmt.ematches = stmt.system.cmatches.length
      ∧ ¬ Mixed stmt.system.cmatches) := by
  have hallowed : ∀ b ∈ stmt.ematches.reverse.flatMap (fun e => e.cmatches.map fun _ => true), b = true := by
    intro b hb
    obtain ⟨e, -, hb⟩ := List.mem_flatMap.mp hb
    obtain ⟨c, -, rfl⟩ := List.mem_map.mp hb
    rfl
  have hnone : (stmt.system.cmatches.zipIdx.findSome? fun c =>
      reportExpanded (stmt.ematches.reverse.flatMap fun e => e.cmatches.map fun _ => true)
        (stmt.ematches.reverse.flatMap fun e => e.cmatches.map fun _ => true) c.1 c.2) = none :=
    List.findSome?_eq_none_iff.mpr fun c _ => reportExpanded_eq_none hallowed c.1 c.2
  have hmixed : ((stmt.system.cmatches.all fun c => c.isGlobal) = false
      ∧ (stmt.system.cmatches.any fun c => !c.isReadOnly && c.isGlobal) = true)
      ↔ Mixed stmt.system.cmatches := by
    rw [Mixed, List.all_eq_false, List.any_eq_true]
    simp only [Bool.and_eq_true, Bool.not_eq_true', Bool.not_eq_true]
    constructor
    · rintro ⟨hlocal, c, hc, hwrite, hglobal⟩
      exact ⟨⟨c, hc, hglobal, hwrite⟩, hlocal⟩
    · rintro ⟨⟨c, hc, hglobal, hwrite⟩, hlocal⟩
      exact ⟨hlocal, c, hc, hwrite, hglobal⟩
  rw [validate, hnone]
  dsimp only
  split_ifs with hop hzero hmany hcomps hconflict
  · exact (Answers.error nofun).congr (iff_of_false not_false fun h => h.1 hop)
  · exact (Answers.error nofun).congr (iff_of_false not_false fun h => h.2.1 hzero)
  · exact (Answers.error nofun).congr (iff_of_false not_false fun h => by omega)
  · exact (Answers.error nofun).congr (iff_of_false not_false fun h => hcomps h.2.2.2.1)
  · exact (Answers.error nofun).congr (iff_of_false not_false fun h => h.2.2.2.2 (hmixed.mp hconflict))
  · refine (Answers.ok ()).congr (iff_of_true trivial ⟨hop, hzero, by omega, Decidable.not_not.mp hcomps, ?_⟩)
    exact fun h => hconflict (hmixed.mpr h)

lemma validate_ok_iff (stmt : Stmt) :
    validate stmt = .ok () ↔ stmt.operationType ≠ .unknown ∧ stmt.ematches.length ≠ 0
      ∧ stmt.ematches.length ≤ 2 ∧ numComponents stmt.ematches = stmt.system.cmatches.length
      ∧ ¬ Mixed stmt.system.cmatches :=
  ⟨fun h => (validate_reads stmt).ok_iff.mp ⟨(), h⟩, fun h => (validate_reads stmt).ok_iff.mpr h |>.choose_spec⟩

end Furious
