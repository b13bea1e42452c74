import Furious.Compiler.Frontend

/-!
The statements that the front end accepts.

A query is read where its texts are literals, its lists fit into their arrays and its types are no
templates; what is read is validated.

* `Readable`, `parse_reads`: **the queries that can be read**;
* `Source.Good`: the statements that the documentation allows;
* `frontend_exact_iff`: **when just these are accepted**.
-/

namespace Furious

/-! ### What can be read -/

/-- A type that is made of no template but that of the globals. -/
def TypeArg.Plain (t : TypeArg) : Prop := t.template = none ∨ t.Global

/-- What a call between a `match` and its `foreach` adds to. -/
inductive Addition where
  | filterFunc
  | hasTag
  | hasNotTag
  | hasComponent
  | hasNotComponent
deriving DecidableEq, Repr

/-- The elements that there is room for. -/
def Addition.limit : Addition → ℕ
  | filterFunc => maxFilterFunc
  | _ => maxOperatorNumColumns

namespace Call

/-- The array that a call adds an element to. -/
def addition : Call → Option Addition
  | filter (.func _) => some .filterFunc
  | filter _ => none
  | hasTag _ => some .hasTag
  | hasNotTag _ => some .hasNotTag
  | hasComponent _ => some .hasComponent
  | hasNotComponent _ => some .hasNotComponent
  | expand _ _ => none

/-- The call is an `expand`. -/
def isExpand : Call → Bool
  | expand _ _ => true
  | _ => false

/-- What is passed to the call can be read: to a filter no variable, and a literal of fewer than 256 bytes
where a tag or a reference is named. -/
def Written : Call → Prop
  | filter arg => arg ≠ .variable
  | hasTag tag => ∃ text ∈ tag, text.utf8ByteSize < maxName
  | hasNotTag tag => ∃ text ∈ tag, text.utf8ByteSize < maxName
  | expand _ refName => refName.utf8ByteSize < maxName
  | _ => True

end Call

/-- The elements that `calls` add to the array `a` of one match: up to the next `expand`, where the calls
about the referenced entities begin. -/
def numAdded (a : Addition) (calls : List Call) : ℕ :=
  (calls.takeWhile fun call => !call.isExpand).countP fun call => call.addition = some a

/-- **A query that can be read.** -/
structure Readable (start : Option (List TypeArg)) (calls : List Call) (decl : SystemDecl) : Prop where
  params_length : decl.params.length ≤ maxOperatorNumColumns
  params_plain : ∀ p ∈ decl.params, p.arg.Plain
  written : ∀ call ∈ calls, call.Written
  numAdded_le : ∀ after, after <:+ calls → ∀ a, numAdded a after ≤ a.limit
  used_plain : ∀ t ∈ used decl.params.length (clauses start calls), t.Plain

/-- The elements that a match has in an array. -/
def EntityMatch.numIn (e : EntityMatch) : Addition → ℕ
  | .filterFunc => e.filterFunc.length
  | .hasTag => e.hasTags.length
  | .hasNotTag => e.hasNotTags.length
  | .hasComponent => e.hasComponents.length
  | .hasNotComponent => e.hasNotComponents.length

lemma numAdded_cons (a : Addition) (call : Call) (calls : List Call) :
    numAdded a (call :: calls)
      = if call.isExpand = true then 0 else numAdded a calls + if call.addition = some a then 1 else 0 := by
  rw [numAdded, List.takeWhile_cons]
  cases call.isExpand with
  | true => rfl
  | false => simp [numAdded, List.countP_cons]

/-- One more call fits where its array is not full. -/
lemma numAdded_le_cons {call : Call} {calls : List Call} :
    (∀ after, after <:+ call :: calls → ∀ a, numAdded a after ≤ a.limit)
      ↔ (∀ after, after <:+ calls → ∀ a, numAdded a after ≤ a.limit)
        ∧ ∀ a, call.addition = some a → numAdded a calls < a.limit := by
  constructor
  · intro h
    refine ⟨fun after hafter => h after (hafter.trans (List.suffix_cons _ _)), fun a ha => ?_⟩
    have hall := h _ List.suffix_rfl a
    have hother : call.isExpand = false := by
      cases call with
      | expand args refName => cases ha
      | _ => rfl
    rw [numAdded_cons, hother, if_pos ha] at hall
    exact hall
  · rintro ⟨hcalls, hcall⟩ after hafter a
    rcases List.suffix_cons_iff.mp hafter with rfl | hafter
    · have hle := hcalls calls List.suffix_rfl a
      rw [numAdded_cons]
      split_ifs with hexpand hadd
      · exact Nat.zero_le _
      · exact hcall a hadd
      · exact hle
    · exact hcalls after hafter a

lemma TypeArg.isGlobal_reads (t : TypeArg) : Reads t.isGlobal t.Plain := by
  obtain ⟨type, template⟩ := t
  cases template with
  | none => exact (Answers.ok false).congr (iff_of_true trivial (.inl rfl))
  | some name => exact (Answers.ite true nofun).congr (by simp [Plain, Global])

lemma addBelow_reads {α : Type} (limit : ℕ) (message : String) (l : List α) (a : α) :
    Reads (addBelow limit message l a) (l.length < limit) :=
  Answers.ite _ nofun

lemma copyAndCheck_reads (text : String) : Reads (copyAndCheck text) (text.utf8ByteSize < maxName) :=
  Answers.ite _ nofun

/-- The adders of tags. -/
lemma addTag_reads {tags : List String} {tag message : String}
    {f : List String → Except Report EntityMatch} (hf : ∀ l, ∃ e', f l = .ok e') :
    Reads (addBelow maxOperatorNumColumns message tags tag >>= fun tags => copyAndCheck tag >>= fun _ => f tags)
      (tags.length < maxOperatorNumColumns ∧ tag.utf8ByteSize < maxName) :=
  (addBelow_reads _ _ _ _).bind fun l _ => (copyAndCheck_reads tag).map fun _ => hf l

/-- An iteration of `process_match` that finds its parameter and its type. -/
lemma matchParam_reads {args : List TypeArg} {first i : ℕ} {st : Parse} {c : CompMatch} {arg : TypeArg}
    (hc : st.system.cmatches[i]? = some c) (harg : args[i - first]? = some arg)
    (hroom : st.current.cmatches.length < maxOperatorNumColumns) :
    Reads (matchParam args first st i) arg.Plain
    ∧ ∀ st', matchParam args first st i = .ok st' →
      st'.system.cmatches.length = st.system.cmatches.length
      ∧ st'.current.cmatches.length = st.current.cmatches.length + 1 := by
  simp only [matchParam, hc, harg]
  constructor
  · refine (arg.isGlobal_reads.bind (Q := True) fun g _ => ?_).congr (iff_of_eq (and_true _))
    refine ((addBelow_reads _ _ _ _).map fun _ => ⟨_, rfl⟩).map (fun _ => ⟨_, rfl⟩) |>.congr ?_
    exact iff_of_true hroom trivial
  · intro st' h
    obtain ⟨g, -, h⟩ := bind_ok h
    obtain ⟨e, he, h⟩ := bind_ok h
    obtain rfl := Except.ok.inj h
    rw [EntityMatch.addCmatch_ok he]
    simp

/-- **The loop of `process_match`**, from the type `j` on. -/
lemma matchLoop_reads {args : List TypeArg} {first k j : ℕ} {st : Parse} (hj : j + k = args.length)
    (hlen : first + args.length ≤ st.system.cmatches.length)
    (hroom : st.current.cmatches.length + k ≤ maxOperatorNumColumns) :
    Reads ((List.range' (first + j) k).foldlM (matchParam args first) st) (∀ t ∈ args.drop j, t.Plain) := by
  induction k generalizing j st with
  | zero =>
      refine (Answers.ok st).congr (iff_of_true trivial ?_)
      rw [List.drop_of_length_le (by omega)]
      exact fun t ht => by cases ht
  | succ k ih =>
      have hlt : j < args.length := by omega
      have hc : first + j < st.system.cmatches.length := by omega
      have harg : args[first + j - first]? = some args[j] := by
        rw [Nat.add_sub_cancel_left, List.getElem?_eq_getElem hlt]
      obtain ⟨hstep, hnext⟩ := matchParam_reads (List.getElem?_eq_getElem hc) harg (by omega)
      rw [List.range'_succ, List.foldlM_cons, List.drop_eq_getElem_cons hlt]
      refine (hstep.bind fun st' h => ?_).congr List.forall_mem_cons.symm
      obtain ⟨hsystem, hcurrent⟩ := hnext st' h
      exact ih (j := j + 1) (by omega) (by omega) (by omega)

section Calls

variable {system : System} {clauses : List (List TypeArg)} {st : Parse} {args : List TypeArg}

/-- **`process_match` reads the types that get parameters.** -/
lemma processMatch_reads (hargs : args.length < 2 ^ 32) (hsystem : system.cmatches.length ≤ maxOperatorNumColumns)
    (hst : st.Given system clauses) (hempty : st.current.cmatches = []) :
    Reads (processMatch st args)
      (∀ t ∈ share system.cmatches.length (used system.cmatches.length clauses).length args, t.Plain) := by
  have hle := share_length_le args (used_length_le system.cmatches.length clauses)
  have hplen := hst.length_eq
  rw [processMatch_eq hargs hsystem hst rfl rfl rfl]
  refine matchLoop_reads (j := 0) (Nat.zero_add _) (by omega) ?_
  rw [hempty, List.length_nil]
  omega

/-- **A call can be read** where what is passed to it can, its array is not full, and the types that get
parameters are no templates. -/
lemma processCall_reads {call : Call} (hargs : ∀ args ∈ expands [call], args.length < 2 ^ 32)
    (hsystem : system.cmatches.length ≤ maxOperatorNumColumns) (hst : st.Open system clauses) :
    Reads (processCall st call)
      (call.Written ∧ (∀ a, call.addition = some a → st.current.numIn a < a.limit)
        ∧ ∀ args ∈ expands [call],
          ∀ t ∈ share system.cmatches.length (used system.cmatches.length clauses).length args, t.Plain) := by
  cases call with
  | filter arg =>
      cases arg with
      | func decl =>
          refine Answers.congr (((addBelow_reads _ _ _ _).map fun _ => ⟨_, rfl⟩).map fun _ => ⟨_, rfl⟩) ?_
          simp [Call.Written, Call.addition, EntityMatch.numIn, Addition.limit, expands]
      | «variable» => exact (Answers.error nofun).congr (iff_of_false not_false fun h => h.1 rfl)
      | other => exact (Answers.ok st).congr (by simp [Call.Written, Call.addition, expands])
  | hasTag tag =>
      cases tag with
      | some tag =>
          refine Answers.congr ((addTag_reads fun _ => ⟨_, rfl⟩).map fun _ => ⟨_, rfl⟩) ?_
          simp [Call.Written, Call.addition, EntityMatch.numIn, Addition.limit, expands, and_comm]
      | none => exact (Answers.error nofun).congr (by simp [Call.Written])
  | hasNotTag tag =>
      cases tag with
      | some tag =>
          refine Answers.congr ((addTag_reads fun _ => ⟨_, rfl⟩).map fun _ => ⟨_, rfl⟩) ?_
          simp [Call.Written, Call.addition, EntityMatch.numIn, Addition.limit, expands, and_comm]
      | none => exact (Answers.error nofun).congr (by simp [Call.Written])
  | hasComponent type =>
      refine Answers.congr (((addBelow_reads _ _ _ _).map fun _ => ⟨_, rfl⟩).map fun _ => ⟨_, rfl⟩) ?_
      simp [Call.Written, Call.addition, EntityMatch.numIn, Addition.limit, expands]
  | hasNotComponent type =>
      refine Answers.congr (((addBelow_reads _ _ _ _).map fun _ => ⟨_, rfl⟩).map fun _ => ⟨_, rfl⟩) ?_
      simp [Call.Written, Call.addition, EntityMatch.numIn, Addition.limit, expands]
  | expand args refName =>
      have hgiven : ∀ name, Parse.Given system clauses
          { st with current := { st.current with refName := name, fromExpand := true } } :=
        fun _ => ⟨hst.system_eq, hst.done_eq, hst.done_expand⟩
      refine Answers.congr ((copyAndCheck_reads refName).bind fun name _ => Answers.map
        (processMatch_reads (hargs args List.mem_cons_self) hsystem (hgiven name) hst.current_eq)
        fun _ => ⟨_, rfl⟩) ?_
      simp [Call.Written, Call.addition, expands]

/-- What a call that is read adds to the current match. -/
lemma processCall_numIn {call : Call} {calls : List Call} {st' : Parse}
    (hst : ∀ a, st.current.numIn a = numAdded a calls) (h : processCall st call = .ok st') (a : Addition) :
    st'.current.numIn a = numAdded a (call :: calls) := by
  rw [numAdded_cons, ← hst a]
  cases call with
  | filter arg =>
      cases arg with
      | func decl =>
          obtain ⟨e, he, h⟩ := bind_ok h
          obtain ⟨l, hl, he⟩ := bind_ok he
          obtain rfl := Except.ok.inj he
          obtain rfl := Except.ok.inj h
          obtain ⟨-, rfl⟩ := addBelow_ok hl
          cases a <;> simp [EntityMatch.numIn, Call.isExpand, Call.addition]
      | «variable» => cases h
      | other =>
          obtain rfl := Except.ok.inj h
          cases a <;> simp [Call.isExpand, Call.addition]
  | hasTag tag =>
      cases tag with
      | some tag =>
          obtain ⟨e, he, h⟩ := bind_ok h
          obtain ⟨l, hl, he⟩ := bind_ok he
          obtain ⟨_, -, he⟩ := bind_ok he
          obtain rfl := Except.ok.inj he
          obtain rfl := Except.ok.inj h
          obtain ⟨-, rfl⟩ := addBelow_ok hl
          cases a <;> simp [EntityMatch.numIn, Call.isExpand, Call.addition]
      | none => cases h
  | hasNotTag tag =>
      cases tag with
      | some tag =>
          obtain ⟨e, he, h⟩ := bind_ok h
          obtain ⟨l, hl, he⟩ := bind_ok he
          obtain ⟨_, -, he⟩ := bind_ok he
          obtain rfl := Except.ok.inj he
          obtain rfl := Except.ok.inj h
          obtain ⟨-, rfl⟩ := addBelow_ok hl
          cases a <;> simp [EntityMatch.numIn, Call.isExpand, Call.addition]
      | none => cases h
  | hasComponent type =>
      obtain ⟨e, he, h⟩ := bind_ok h
      obtain ⟨l, hl, he⟩ := bind_ok he
      obtain rfl := Except.ok.inj he
      obtain rfl := Except.ok.inj h
      obtain ⟨-, rfl⟩ := addBelow_ok hl
      cases a <;> simp [EntityMatch.numIn, Call.isExpand, Call.addition]
  | hasNotComponent type =>
      obtain ⟨e, he, h⟩ := bind_ok h
      obtain ⟨l, hl, he⟩ := bind_ok he
      obtain rfl := Except.ok.inj he
      obtain rfl := Except.ok.inj h
      obtain ⟨-, rfl⟩ := addBelow_ok hl
      cases a <;> simp [EntityMatch.numIn, Call.isExpand, Call.addition]
  | expand args refName =>
      obtain ⟨_, -, h⟩ := bind_ok h
      obtain ⟨u, -, h⟩ := bind_ok h
      obtain rfl := Except.ok.inj h
      cases a <;> rfl

end Calls

/-- The types of the clauses of a query that get parameters, with one more call. -/
lemma used_plain_cons {p : ℕ} {call : Call} {calls : List Call} :
    (∀ t ∈ used p (expands (call :: calls)), t.Plain)
      ↔ (∀ t ∈ used p (expands calls), t.Plain)
        ∧ ∀ args ∈ expands [call], ∀ t ∈ share p (used p (expands calls)).length args, t.Plain := by
  cases call with
  | expand args refName =>
      have hexpands : expands (.expand args refName :: calls) = args :: expands calls := rfl
      rw [hexpands, used, List.forall_mem_append, and_comm]
      simp [expands]
  | _ => simp [expands]

section Query

variable {system : System} {calls : List Call} {st st' : Parse}

/-- The current match has what the calls have added. -/
lemma processCalls_numIn (hst : ∀ a, st.current.numIn a = 0) (h : calls.reverse.foldlM processCall st = .ok st')
    (a : Addition) : st'.current.numIn a = numAdded a calls := by
  have hrun := foldlM_ok_spec (fun done (s : Parse) => ∀ a, s.current.numIn a = numAdded a done.reverse)
    calls.reverse hst ?_ h
  · rw [hrun a, List.reverse_reverse]
  · intro done call rest s s' _ hs hstep a
    rw [List.reverse_append]
    exact processCall_numIn hs hstep a

/-- **The calls of a query that can be read**, by induction on what is written. -/
lemma processCalls_reads (hargs : ∀ args ∈ expands calls, args.length < 2 ^ 32)
    (hsystem : system.cmatches.length ≤ maxOperatorNumColumns) (hst : st.Open system [])
    (hfresh : ∀ a, st.current.numIn a = 0) :
    Reads (calls.reverse.foldlM processCall st) ((∀ call ∈ calls, call.Written)
      ∧ (∀ after, after <:+ calls → ∀ a, numAdded a after ≤ a.limit)
      ∧ ∀ t ∈ used system.cmatches.length (expands calls), t.Plain) := by
  induction calls with
  | nil =>
      refine (Answers.ok st).congr (iff_of_true trivial ⟨by simp, fun after hafter a => ?_, by simp [expands, used]⟩)
      rw [List.suffix_nil.mp hafter]
      exact Nat.zero_le _
  | cons call calls ih =>
      have hcall : ∀ args ∈ expands [call], args.length < 2 ^ 32 := fun args ha =>
        hargs args (expands_append [call] calls ▸ List.mem_append_left _ ha)
      have hcalls : ∀ args ∈ expands calls, args.length < 2 ^ 32 := fun args ha =>
        hargs args (expands_append [call] calls ▸ List.mem_append_right _ ha)
      have hlast : ∀ s, calls.reverse.foldlM processCall st = .ok s → Reads ([call].foldlM processCall s)
          (call.Written ∧ (∀ a, call.addition = some a → numAdded a calls < a.limit)
            ∧ ∀ args ∈ expands [call],
              ∀ t ∈ share system.cmatches.length (used system.cmatches.length (expands calls)).length args,
                t.Plain) := by
        intro s hs
        have hnum := processCalls_numIn hfresh hs
        rw [List.foldlM_cons]
        refine (Answers.map (processCall_reads hcall hsystem (processCalls_spec hcalls hsystem hst hs))
          fun _ => ⟨_, rfl⟩).congr ?_
        simp only [hnum]
      rw [List.reverse_cons, List.foldlM_append]
      refine ((ih hcalls).bind hlast).congr ?_
      rw [List.forall_mem_cons, numAdded_le_cons, used_plain_cons]
      tauto

/-- **The parameters of a system that can be read.** -/
lemma foreachParams_reads {params : List Param} {s : System} (hroom : s.cmatches.length ≤ maxOperatorNumColumns) :
    Reads (params.foldlM foreachParam s) (s.cmatches.length + params.length ≤ maxOperatorNumColumns
      ∧ ∀ p ∈ params, p.arg.Plain) := by
  induction params generalizing s with
  | nil => exact (Answers.ok s).congr (iff_of_true trivial ⟨hroom, by simp⟩)
  | cons p params ih =>
      rw [List.foldlM_cons]
      have hstep : Reads (foreachParam s p) (p.arg.Plain ∧ s.cmatches.length < maxOperatorNumColumns) :=
        p.arg.isGlobal_reads.bind fun g _ => (addBelow_reads _ _ _ _).map fun _ => ⟨_, rfl⟩
      have hrest : ∀ s', foreachParam s p = .ok s' → Reads (params.foldlM foreachParam s')
          (s.cmatches.length + 1 + params.length ≤ maxOperatorNumColumns ∧ ∀ p ∈ params, p.arg.Plain) := by
        intro s' h
        obtain ⟨g, -, h⟩ := bind_ok h
        obtain ⟨l, hl, h⟩ := bind_ok h
        obtain rfl := Except.ok.inj h
        obtain ⟨hlt, rfl⟩ := addBelow_ok hl
        rw [← List.length_singleton (a := (⟨p.arg.type, p.isConst, g⟩ : CompMatch)), ← List.length_append]
        refine ih ?_
        rw [List.length_append]
        exact hlt
      refine (hstep.bind hrest).congr ?_
      rw [List.forall_mem_cons, List.length_cons]
      constructor
      · rintro ⟨⟨hp, -⟩, hle, hps⟩
        exact ⟨by omega, hp, hps⟩
      · rintro ⟨hle, hp, hps⟩
        exact ⟨⟨hp, by omega⟩, by omega, hps⟩

/-- `process_foreach`. -/
lemma processForeach_reads (decl : SystemDecl) :
    Reads (processForeach decl) (decl.params.length ≤ maxOperatorNumColumns ∧ ∀ p ∈ decl.params, p.arg.Plain) := by
  have hparams : Reads (decl.params.foldlM foreachParam ⟨decl.systemType, [], decl.id⟩)
      (0 + decl.params.length ≤ maxOperatorNumColumns ∧ ∀ p ∈ decl.params, p.arg.Plain) :=
    foreachParams_reads (Nat.zero_le _)
  rw [Nat.zero_add] at hparams
  exact hparams.map fun _ => ⟨_, rfl⟩

end Query

/-- **What is read of a query.** -/
lemma parse_reads {start : Option (List TypeArg)} {calls : List Call} {decl : SystemDecl} {priorities : List ℕ}
    (hargs : ∀ args ∈ clauses start calls, args.length < 2 ^ 32) :
    Reads (parse (.query start calls decl priorities)) (Readable start calls decl) := by
  have hcalls : ∀ args ∈ expands calls, args.length < 2 ^ 32 :=
    fun args ha => hargs args (List.mem_cons_of_mem _ ha)
  obtain ⟨p, hp⟩ : ∃ p, decl.params.length = p := ⟨_, rfl⟩
  have hrest : ∀ s₀, processForeach decl = .ok s₀ → ∀ f : Parse → Stmt,
      Reads (calls.reverse.foldlM processCall s₀ >>= fun s₁ =>
          start.elim (.ok s₁) (processMatch s₁) >>= fun s₂ => .ok (f s₂))
        (((∀ call ∈ calls, call.Written) ∧ (∀ after, after <:+ calls → ∀ a, numAdded a after ≤ a.limit)
          ∧ ∀ t ∈ used p (expands calls), t.Plain)
        ∧ ∀ t ∈ share p (used p (expands calls)).length (start.getD []), t.Plain) := by
    intro s₀ hs₀ f
    obtain ⟨rfl, hlen⟩ := processForeach_spec hs₀
    obtain ⟨system, hsystem⟩ : ∃ system : System,
        ⟨decl.systemType, decl.params.map Param.toMatch, decl.id⟩ = system := ⟨_, rfl⟩
    have hsys : system.cmatches.length = p := by rw [← hsystem, List.length_map, hp]
    have hmax : system.cmatches.length ≤ maxOperatorNumColumns := by rwa [hsys, ← hp]
    rw [hsystem, ← hsys]
    refine (processCalls_reads hcalls hmax (Parse.Open.init system) fun a => by cases a <;> rfl).bind ?_
    intro s₁ hs₁
    have hopen := processCalls_spec hcalls hmax (Parse.Open.init system) hs₁
    refine Answers.map ?_ fun s₂ => ⟨f s₂, rfl⟩
    cases start with
    | none =>
        refine (Answers.ok s₁).congr (iff_of_true trivial ?_)
        simp [share]
    | some args => exact processMatch_reads (hargs args List.mem_cons_self) hmax hopen.toGiven hopen.current_eq
  have hused : (∀ t ∈ used p (clauses start calls), t.Plain)
      ↔ (∀ t ∈ share p (used p (expands calls)).length (start.getD []), t.Plain)
        ∧ ∀ t ∈ used p (expands calls), t.Plain := by
    rw [clauses, used, List.forall_mem_append]
  refine Answers.congr ((processForeach_reads decl).bind fun s₀ hs₀ => hrest s₀ hs₀ _) ?_
  constructor
  · rintro ⟨⟨hlen, hparams⟩, ⟨hwritten, hnum, hexpands⟩, hstart⟩
    exact ⟨hlen, hparams, hwritten, hnum, by rw [hp]; exact hused.mpr ⟨hstart, hexpands⟩⟩
  · rintro ⟨hlen, hparams, hwritten, hnum, hall⟩
    rw [hp] at hall
    obtain ⟨hstart, hexpands⟩ := hused.mp hall
    exact ⟨⟨hlen, hparams⟩, ⟨hwritten, hnum, hexpands⟩, hstart⟩

/-! ### What the documentation allows -/

/-- A written global is not next to a component, for the `names` that are given `params`. -/
def GlobalRule (names : List TypeArg) (params : List Param) : Prop :=
  ∀ q ∈ names.zip params, q.1.Global → q.2.isConst = false → ∀ name ∈ names, name.Global

/-- What is expanded, behind the first `m` of the `names`, is read only and no global. -/
def ExpandRule (m : ℕ) (names : List TypeArg) (params : List Param) : Prop :=
  ∀ q ∈ (names.zip params).drop m, q.2.isConst = true ∧ ¬ q.1.Global

namespace Source

/-- The clauses that name components. -/
def clauses : Source → List (List TypeArg)
  | query start calls _ _ => Furious.clauses start calls
  | object => []

/-- **The statements that should be accepted.** -/
def Good : Source → Prop
  | query start calls decl _ =>
      let names := (Furious.clauses start calls).flatten
      start.isSome = true ∧ (expands calls).length ≤ 1 ∧ names.length = decl.params.length
      ∧ ExpandRule (start.getD []).length names decl.params ∧ GlobalRule names decl.params
  | object => False

/-- The condition under which a statement is treated as it should be. One without an operation is. A query
that cannot be read has to break a rule. For one that can be read, it has two expands, or the clauses that fit
do not name as many types as there are parameters, or these break the rule for globals; or else it begins with
a match, every type that it names gets a parameter, and what is expanded is read only and no global. -/
def Sound : Source → Prop
  | query start calls decl priorities =>
      let names := (Furious.clauses start calls).flatten
      let fitting := used decl.params.length (Furious.clauses start calls)
      ¬ Readable start calls decl ∧ ¬ (query start calls decl priorities).Good
      ∨ Readable start calls decl
        ∧ (2 ≤ (expands calls).length ∨ fitting.length ≠ decl.params.length ∨ ¬ GlobalRule fitting decl.params
          ∨ start.isSome = true ∧ names.length = decl.params.length
            ∧ ExpandRule (start.getD []).length names decl.params)
  | object => True

end Source

/-- The parameters with their scopes, by the names that they get. -/
lemma zipWith_toMatch (names : List TypeArg) (params : List Param) :
    List.zipWith CompMatch.withScope (params.map Param.toMatch) names
      = (names.zip params).map fun q => q.2.toMatch.withScope q.1 := by
  induction names generalizing params with
  | nil => simp
  | cons name names ih =>
      cases params with
      | nil => rfl
      | cons p params => rw [List.map_cons, List.zipWith_cons_cons, ih, List.zip_cons_cons, List.map_cons]

/-- Where every parameter has a name, the rule for globals is what is validated. -/
lemma mixed_zipWith_iff {names : List TypeArg} {params : List Param} (hlen : names.length = params.length) :
    ¬ Mixed (List.zipWith CompMatch.withScope (params.map Param.toMatch) names) ↔ GlobalRule names params := by
  have hnames : (∃ q ∈ names.zip params, ¬ q.1.Global) ↔ ∃ name ∈ names, ¬ name.Global := by
    constructor
    · rintro ⟨q, hq, hlocal⟩
      exact ⟨q.1, (List.of_mem_zip hq).1, hlocal⟩
    · rintro ⟨name, hname, hlocal⟩
      rw [← List.map_fst_zip hlen.le] at hname
      obtain ⟨q, hq, rfl⟩ := List.mem_map.mp hname
      exact ⟨q, hq, hlocal⟩
  have hmixed : Mixed (List.zipWith CompMatch.withScope (params.map Param.toMatch) names)
      ↔ (∃ q ∈ names.zip params, q.1.Global ∧ q.2.isConst = false) ∧ ∃ name ∈ names, ¬ name.Global := by
    rw [zipWith_toMatch, Mixed, ← hnames]
    simp only [List.mem_map, exists_exists_and_eq_and, CompMatch.withScope, Param.toMatch, decide_eq_true_eq,
      decide_eq_false_iff_not]
  rw [hmixed, GlobalRule]
  constructor
  · intro h q hq hglobal hwrite name hname
    by_contra hlocal
    exact h ⟨⟨q, hq, hglobal, hwrite⟩, name, hname, hlocal⟩
  · rintro h ⟨⟨q, hq, hglobal, hwrite⟩, name, hname, hlocal⟩
    exact hlocal (h q hq hglobal hwrite name hname)

section Query

variable {start : Option (List TypeArg)} {calls : List Call} {decl : SystemDecl} {priorities : List ℕ} {stmt : Stmt}

/-- **The queries that are accepted.** -/
lemma validate_query_iff
    (hargs : ∀ args ∈ clauses start calls, args.length < 2 ^ 32)
    (h : parse (.query start calls decl priorities) = .ok stmt) :
    validate stmt = .ok () ↔ (expands calls).length ≤ 1
      ∧ (used decl.params.length (clauses start calls)).length = decl.params.length
      ∧ GlobalRule (used decl.params.length (clauses start calls)) decl.params := by
  have hp := parse_spec hargs h
  obtain ⟨names, hnames⟩ : ∃ names, used decl.params.length (clauses start calls) = names := ⟨_, rfl⟩
  have hcslen : (decl.params.map Param.toMatch).length = decl.params.length := List.length_map _
  have hcount : stmt.ematches.length = (expands calls).length + 1 := by
    have hlen := congrArg List.length hp.cmatches_eq
    rwa [List.length_map, List.length_reverse, length_parts, clauses, List.length_cons] at hlen
  have hcomps := numComponents_eq hp.cmatches_eq
  have hsys := hp.system_eq
  rw [parts_flatten, hcslen, hnames] at hsys
  rw [hcslen, hnames] at hcomps
  rw [validate_ok_iff, hp.operation_eq, hcount, hcomps, hnames]
  by_cases hall : names.length = decl.params.length
  · have hsys : stmt.system.cmatches
        = List.zipWith CompMatch.withScope (decl.params.map Param.toMatch) names := by
      rw [hsys, hall, Nat.sub_self, List.take_zero, List.nil_append, List.drop_zero]
    have hlen : stmt.system.cmatches.length = names.length := by
      rw [hsys, List.length_zipWith, hcslen, hall, min_self]
    rw [hlen, hsys, mixed_zipWith_iff hall]
    simp [hall]
  · have hlen : names.length ≠ stmt.system.cmatches.length := by
      have hle : names.length ≤ decl.params.length := hnames ▸ used_length_le _ _
      rw [hsys, List.length_append, List.length_take, List.length_zipWith, List.length_drop, hcslen]
      omega
    simp [hall, hlen]

/-- A query that should be accepted is valid. -/
lemma valid_of_good (hgood : (Source.query start calls decl priorities).Good) : (expands calls).length ≤ 1
    ∧ (used decl.params.length (clauses start calls)).length = decl.params.length
    ∧ GlobalRule (used decl.params.length (clauses start calls)) decl.params := by
  obtain ⟨-, hexpands, hlen, -, hglobal⟩ := hgood
  rw [used_eq_flatten hlen.le]
  exact ⟨hexpands, hlen, hglobal⟩

/-- **What becomes of a query**: it is accepted where it can be read and is valid. -/
lemma visit_reads (hargs : ∀ args ∈ clauses start calls, args.length < 2 ^ 32) :
    Reads (Source.query start calls decl priorities).visit
      (Readable start calls decl ∧ (expands calls).length ≤ 1
        ∧ (used decl.params.length (clauses start calls)).length = decl.params.length
        ∧ GlobalRule (used decl.params.length (clauses start calls)) decl.params) := by
  refine (parse_reads hargs).bind fun stmt h => Answers.map (f := fun _ => .ok stmt) ?_ fun _ => ⟨stmt, rfl⟩
  have hvalid := validate_reads stmt
  refine hvalid.congr (hvalid.ok_iff.symm.trans ?_)
  rw [← validate_query_iff hargs h]
  exact ⟨fun ⟨_, hok⟩ => hok, fun hok => ⟨(), hok⟩⟩

end Query

namespace Source

variable {src : Source}

/-- An object is reported. -/
lemma visit_object : Reads object.visit False := by
  rw [visit, parse]
  exact Answers.error nofun

/-- A statement that is not accepted is reported. -/
lemma isReported_iff (hargs : ∀ args ∈ src.clauses, args.length < 2 ^ 32) :
    src.IsReported ↔ ¬ src.IsAccepted := by
  obtain ⟨P, hP⟩ : ∃ P, Reads src.visit P := by
    cases src with
    | object => exact ⟨_, visit_object⟩
    | query start calls decl priorities => exact ⟨_, visit_reads hargs⟩
  constructor
  · rintro ⟨report, -, hreport⟩ ⟨stmt, hstmt⟩
    cases hreport.symm.trans hstmt
  · intro hnot
    cases hvisit : src.visit with
    | ok stmt => exact (hnot ⟨stmt, hvisit⟩).elim
    | error report => exact ⟨report, hP.error_mem report hvisit, hvisit⟩

end Source

/-- `match<A>().expand<B>("r").foreach<S>()`, where `S::run` takes an `A` and a `B`, that may be const. -/
def expandQuery (isConst : Bool) : Source :=
  .query (some [⟨⟨"A"⟩, none⟩]) [.expand [⟨⟨"B"⟩, none⟩] "r"]
    ⟨⟨"S"⟩, [⟨⟨⟨"A"⟩, none⟩, false⟩, ⟨⟨⟨"B"⟩, none⟩, isConst⟩], 0⟩ []

/-- The statement of `expandQuery`. -/
def expandStmt (isConst : Bool) : Stmt :=
  ⟨.foreach, [⟨[⟨⟨"B"⟩, isConst, false⟩], [], [], [], [], [], true, "r"⟩,
      ⟨[⟨⟨"A"⟩, false, false⟩], [], [], [], [], [], false, ""⟩],
    ⟨⟨"S"⟩, [⟨⟨"A"⟩, false, false⟩, ⟨⟨"B"⟩, isConst, false⟩], 0⟩, defaultPriority⟩

lemma parse_expandQuery (isConst : Bool) : parse (expandQuery isConst) = .ok (expandStmt isConst) := by
  cases isConst <;> rfl

end Furious
