import Furious.Compiler.Operators
import Furious.Library.Loops

/-!
The statements that get a subplan.

An operator takes a cell of the array of nodes, and has columns of its children. How many of them there are
is all that decides whether it is made, so that the operators of a statement can be counted without making
them.

* `Subplan.widths`, `Makes`: how many columns the operators have, and so many operators more;
  `Makes.bind`: **one after the other**;
* `EntityMatch.numNodes`, `Stmt.numOperators`, `Stmt.numColumns`: the counts;
* `Stmt.Plannable`: a statement with room, of which no operator stands on nothing;
* `isSome_subplanInit_iff`: **their operators are made, and those of no other statement**.
-/

namespace Furious

/-! ### The counts -/

/-- The number of filters by tags and components. -/
def EntityMatch.numFilters (m : EntityMatch) : ℕ :=
  m.hasNotTags.length + m.hasTags.length + m.hasNotComponents.length + m.hasComponents.length

/-- The number of operators of an entity match: a source for each component, one less to join them, and the
filters; and the references with what gathers them. -/
def EntityMatch.numNodes (m : EntityMatch) : ℕ :=
  (if m.cmatches = [] then bif m.fromExpand then 1 + m.numFilters else 0
    else 2 * m.cmatches.length - 1 + m.numFilters + bif m.fromExpand then 2 else 0)
  + m.filterFunc.length

/-- Nothing is made of the entity match but filters by functions: it has no component and no references. -/
def EntityMatch.Bare (m : EntityMatch) : Prop := m.cmatches = [] ∧ m.fromExpand = false

instance (m : EntityMatch) : Decidable m.Bare :=
  inferInstanceAs (Decidable (m.cmatches = [] ∧ m.fromExpand = false))

/-- The columns of an entity match that nothing comes before: its components, or the ids of its references. -/
def EntityMatch.numColumns (m : EntityMatch) : ℕ := if m.cmatches = [] then 1 else m.cmatches.length

/-- The entity matches that something is made of, the last one first. -/
def Stmt.matched (stmt : Stmt) : List EntityMatch := stmt.ematches.reverse.filter fun m => ¬ m.Bare

/-- The number of operators of a statement: those of its entity matches, one less to join them, and the
operation. -/
def Stmt.numOperators (stmt : Stmt) : ℕ :=
  (stmt.ematches.map EntityMatch.numNodes).sum + (stmt.matched.length - 1)
    + match stmt.operationType with
      | .unknown => 0
      | .foreach => 1

/-- The number of columns of a statement. What is joined to an entity match without components adds none. -/
def Stmt.numColumns (stmt : Stmt) : ℕ :=
  match stmt.matched with
  | [] => 0
  | m :: ms => m.numColumns + (ms.map fun m => m.cmatches.length).sum

/-- **A statement whose operators can be made**: there is room for them and for their columns, and there is
something below every join and every filter. -/
structure Stmt.Plannable (stmt : Stmt) : Prop where
  operators_le : stmt.numOperators ≤ maxSubplanNodes
  columns_le : stmt.numColumns ≤ maxOperatorNumColumns
  -- what is bare is behind what is not, and has no filter functions
  bare_last : stmt.ematches.Pairwise fun m m' => m.Bare → m'.Bare
  bare_filterFunc : ∀ m ∈ stmt.ematches, m.Bare → m.filterFunc = []

lemma Stmt.plannable_iff {stmt : Stmt} : stmt.Plannable ↔ stmt.numOperators ≤ maxSubplanNodes
    ∧ stmt.numColumns ≤ maxOperatorNumColumns ∧ (stmt.ematches.Pairwise fun m m' => m.Bare → m'.Bare)
    ∧ ∀ m ∈ stmt.ematches, m.Bare → m.filterFunc = [] :=
  ⟨fun h => ⟨h.1, h.2, h.3, h.4⟩, fun h => ⟨h.1, h.2.1, h.2.2.1, h.2.2.2⟩⟩

instance (stmt : Stmt) : Decidable stmt.Plannable := decidable_of_iff _ Stmt.plannable_iff.symm

/-! ### What an operator adds -/

namespace Subplan

/-- How many columns the operators have. -/
def widths (plan : Subplan) : List ℕ := plan.nodes.map fun op => op.value.length

lemma length_widths (plan : Subplan) : plan.widths.length = plan.nodes.length := List.length_map _

lemma length_columns (plan : Subplan) (id : ℕ) : (plan.columns id).length = plan.widths[id]?.getD 0 := by
  rw [columns, widths, List.getElem?_map]
  cases plan.nodes[id]? <;> rfl

lemma widths_modify (nodes : List Operator) (sync : Bool) (root i : ℕ) {f : Operator → Operator} {g : ℕ → ℕ}
    (hf : ∀ op, (f op).value.length = g op.value.length) :
    (Subplan.mk (nodes.modify i f) sync root).widths = (Subplan.mk nodes sync root).widths.modify i g := by
  apply List.ext_getElem?
  intro j
  simp only [widths, List.getElem?_map, List.getElem?_modify]
  cases nodes[j]? with
  | none => rfl
  | some op =>
      simp only [Option.map_some, Option.map_eq_map]
      split
      · rw [hf]
      · rfl

lemma createOperator_widths (plan : Subplan) (body : Body LeafType UnaryType BinaryType)
    (hroom : plan.widths.length < maxSubplanNodes) :
    ∃ plan', plan.createOperator body = some (plan', plan.widths.length) ∧ plan'.widths = plan.widths ++ [0] := by
  rw [length_widths] at hroom
  refine ⟨{ plan with nodes := plan.nodes ++ [⟨body, fccInvalidId, []⟩] }, ?_, ?_⟩
  · rw [createOperator, if_pos hroom, length_widths]
  · rw [widths, List.map_append]
    rfl

lemma createOperator_none (plan : Subplan) (body : Body LeafType UnaryType BinaryType)
    (hroom : ¬ plan.widths.length < maxSubplanNodes) : plan.createOperator body = none := by
  rw [length_widths] at hroom
  rw [createOperator, if_neg hroom]

lemma setParent_widths (plan : Subplan) (child id : ℕ) (h : child < maxSubplanNodes) :
    ∃ plan', plan.setParent child id = some plan' ∧ plan'.widths = plan.widths := by
  refine ⟨{ plan with nodes := plan.nodes.modify child (Cell.reparent id) }, by rw [setParent, if_pos h], ?_⟩
  have hmod := widths_modify plan.nodes plan.requiresSync plan.root child (f := Cell.reparent id) (g := fun n => n)
    fun op => rfl
  exact hmod.trans (List.modify_id _ _)

lemma setParent_invalid (plan : Subplan) (id : ℕ) : plan.setParent fccInvalidId id = none := if_neg (by decide)

/-- Columns for the last operator, that has `d` so far. -/
lemma addColumns_widths {plan : Subplan} {ws : List ℕ} {d : ℕ} (hws : plan.widths = ws ++ [d]) (cols : List FccColumn)
    (hcols : d + cols.length ≤ maxOperatorNumColumns) :
    ∃ plan', plan.addColumns ws.length cols = some plan' ∧ plan'.widths = ws ++ [d + cols.length] := by
  have hlen : (plan.columns ws.length ++ cols).length = d + cols.length := by
    rw [List.length_append, length_columns, hws, List.getElem?_concat_length, Option.getD_some]
  refine ⟨_, by rw [addColumns, if_pos (hlen.trans_le hcols)], ?_⟩
  rw [widths_modify _ _ _ _ (g := (· + cols.length)) fun op => List.length_append]
  change plan.widths.modify _ _ = _
  rw [hws, modify_of_eq _ _ _ _ rfl]

lemma addColumns_none {plan : Subplan} {ws : List ℕ} {d : ℕ} (hws : plan.widths = ws ++ [d]) (cols : List FccColumn)
    (hcols : ¬ d + cols.length ≤ maxOperatorNumColumns) : plan.addColumns ws.length cols = none := by
  have hlen : (plan.columns ws.length ++ cols).length = d + cols.length := by
    rw [List.length_append, length_columns, hws, List.getElem?_concat_length, Option.getD_some]
  rw [addColumns, if_neg (hlen ▸ hcols)]

/-! ### Operators one after the other -/

/-- An operator is the last one, and has `w` columns. -/
structure Top (plan : Subplan) (id w : ℕ) : Prop where
  id_eq : id + 1 = plan.widths.length
  room : plan.widths.length ≤ maxSubplanNodes
  width_eq : plan.widths[id]? = some w
  width_le : w ≤ maxOperatorNumColumns

/-- **What is made**: `k` operators, the last one with `w` columns, if there is room for them and the condition
`c` holds. -/
structure Makes (plan : Subplan) (x : Option (Subplan × ℕ)) (k w : ℕ) (c : Prop) : Prop where
  some_of : plan.widths.length + k ≤ maxSubplanNodes → c → ∃ plan' id, x = some (plan', id)
    ∧ plan.widths <+: plan'.widths ∧ plan'.widths.length = plan.widths.length + k ∧ plan'.Top id w
  none_of : ¬ (plan.widths.length + k ≤ maxSubplanNodes ∧ c) → x = none

lemma Top.ne_fccInvalidId {plan : Subplan} {id w : ℕ} (h : plan.Top id w) : id ≠ fccInvalidId := by
  have hroom := h.room
  rw [← h.id_eq, maxSubplanNodes] at hroom
  rw [fccInvalidId]
  omega

variable {plan : Subplan} {x : Option (Subplan × ℕ)} {k w : ℕ} {c : Prop}

/-- **One step after another.** -/
lemma Makes.bind {f : Subplan × ℕ → Option (Subplan × ℕ)} (hx : Makes plan x k w c) (k' w' : ℕ) (c' : Prop)
    (hf : ∀ plan' id, plan.widths <+: plan'.widths → plan'.Top id w → Makes plan' (f (plan', id)) k' w' c') :
    Makes plan (x >>= f) (k + k') w' (c ∧ c') := by
  by_cases hfirst : plan.widths.length + k ≤ maxSubplanNodes ∧ c
  · obtain ⟨plan₁, id₁, rfl, hpre, hlen, htop⟩ := hx.some_of hfirst.1 hfirst.2
    have hsecond := hf plan₁ id₁ hpre htop
    refine ⟨fun hroom hc => ?_, fun hnone => hsecond.none_of fun h => hnone ⟨by omega, hfirst.2, h.2⟩⟩
    obtain ⟨plan₂, id₂, hx₂, hpre₂, hlen₂, htop₂⟩ := hsecond.some_of (by omega) hc.2
    exact ⟨plan₂, id₂, hx₂, hpre.trans hpre₂, by omega, htop₂⟩
  · rw [hx.none_of hfirst]
    exact ⟨fun hroom hc => (hfirst ⟨by omega, hc.1⟩).elim, fun _ => rfl⟩

/-- The counts can be written in another way. -/
lemma Makes.of_eq {k' w' : ℕ} {c' : Prop} (h : Makes plan x k w c) (hk : k = k') (hw : w = w') (hc : c ↔ c') :
    Makes plan x k' w' c' := by
  subst hk hw
  exact propext hc ▸ h

/-- Nothing is made. -/
lemma Top.makes {id : ℕ} (h : plan.Top id w) : Makes plan (some (plan, id)) 0 w True where
  some_of _ _ := ⟨plan, id, rfl, List.prefix_refl _, rfl, h⟩
  none_of hnone := (hnone ⟨h.room, trivial⟩).elim

/-- **A loop of operators with one child.** -/
lemma Makes.foldlM {α : Type} {f : Subplan × ℕ → α → Option (Subplan × ℕ)} {d e : ℕ} (l : List α)
    (hf : ∀ a (plan : Subplan) id w, plan.Top id w → Makes plan (f (plan, id) a) d (w + e)
      (w + e ≤ maxOperatorNumColumns)) {id : ℕ} (htop : plan.Top id w) :
    Makes plan (l.foldlM f (plan, id)) (d * l.length) (w + e * l.length)
      (w + e * l.length ≤ maxOperatorNumColumns) := by
  induction l generalizing plan id w with
  | nil => exact htop.makes.of_eq rfl rfl (iff_of_true trivial htop.width_le)
  | cons a l ih =>
      rw [List.foldlM_cons]
      refine ((hf a plan id w htop).bind _ _ _ fun plan' id' _ htop' => ih htop').of_eq ?_ ?_ ?_
      · rw [List.length_cons, Nat.mul_succ, Nat.add_comm]
      · rw [List.length_cons, Nat.mul_succ]
        omega
      · rw [List.length_cons, Nat.mul_succ]
        omega

/-- An operator without a child. -/
lemma createLeaf_makes (plan : Subplan) (type : LeafType) (column : FccColumn) :
    Makes plan (plan.createLeaf type column) 1 1 True := by
  rw [createLeaf]
  by_cases hroom : plan.widths.length < maxSubplanNodes
  · obtain ⟨plan₁, h₁, hws₁⟩ := plan.createOperator_widths (.leaf type) hroom
    have hone : 0 + [column].length ≤ maxOperatorNumColumns := show 1 ≤ maxOperatorNumColumns by decide
    obtain ⟨plan₂, h₂, hws₂⟩ := addColumns_widths hws₁ [column] hone
    rw [h₁]
    dsimp only [Option.bind_eq_bind, Option.bind_some]
    rw [h₂]
    have hlen : plan₂.widths.length = plan.widths.length + 1 := by
      rw [hws₂, List.length_append, List.length_singleton]
    refine ⟨fun _ _ => ⟨plan₂, _, rfl, ⟨_, hws₂.symm⟩, hlen, hlen.symm, by omega, ?_, by decide⟩,
      fun hnone => (hnone ⟨hroom, trivial⟩).elim⟩
    rw [hws₂, List.getElem?_concat_length]
    rfl
  · rw [createOperator_none _ _ hroom]
    exact ⟨fun h => (hroom h).elim, fun _ => rfl⟩

/-- An operator with one child. -/
lemma createUnary_makes {child : ℕ} (type : UnaryType) (htop : plan.Top child w) :
    Makes plan (plan.createUnary type child) 1 w True := by
  have hchild := htop.id_eq
  rw [createUnary]
  by_cases hroom : plan.widths.length < maxSubplanNodes
  · obtain ⟨plan₁, h₁, hws₁⟩ := plan.createOperator_widths (.unary type child) hroom
    obtain ⟨plan₂, h₂, hws₂⟩ := plan₁.setParent_widths child plan.widths.length (by omega)
    have hcols : (plan₂.columns child).length = w := by
      rw [length_columns, hws₂, hws₁, List.getElem?_append_left (by omega), htop.width_eq, Option.getD_some]
    obtain ⟨plan₃, h₃, hws₃⟩ := addColumns_widths (hws₂.trans hws₁) (plan₂.columns child)
      (by rw [hcols, Nat.zero_add]; exact htop.width_le)
    rw [h₁]
    dsimp only [Option.bind_eq_bind, Option.bind_some]
    rw [h₂]
    dsimp only [Option.bind_some]
    rw [copyColumns, h₃]
    have hlen : plan₃.widths.length = plan.widths.length + 1 := by
      rw [hws₃, List.length_append, List.length_singleton]
    refine ⟨fun _ _ => ⟨plan₃, _, rfl, ⟨_, hws₃.symm⟩, hlen, hlen.symm, by omega, ?_, htop.width_le⟩,
      fun hnone => (hnone ⟨hroom, trivial⟩).elim⟩
    rw [hws₃, List.getElem?_concat_length, hcols, Nat.zero_add]
  · rw [createOperator_none _ _ hroom]
    exact ⟨fun h => (hroom h).elim, fun _ => rfl⟩

/-- There is no cell for what stands on nothing. -/
lemma createUnary_invalid (plan : Subplan) (type : UnaryType) : plan.createUnary type fccInvalidId = none := by
  rw [createUnary, createOperator]
  split_ifs
  · dsimp only [Option.bind_eq_bind, Option.bind_some]
    rw [setParent_invalid]
    rfl
  · rfl

/-- How many columns come of two children. -/
def both (copyRight : Bool) (wl wr : ℕ) : ℕ := wl + bif copyRight then wr else 0

/-- An operator with two children. -/
lemma createBinary_makes {left right wl wr : ℕ} (type : BinaryType) (copyRight : Bool)
    (hleft : plan.widths[left]? = some wl) (hright : plan.widths[right]? = some wr)
    (hwl : wl ≤ maxOperatorNumColumns) :
    Makes plan (plan.createBinary type left right copyRight) 1 (both copyRight wl wr)
      (both copyRight wl wr ≤ maxOperatorNumColumns) := by
  obtain ⟨hl, -⟩ := List.getElem?_eq_some_iff.mp hleft
  obtain ⟨hr, -⟩ := List.getElem?_eq_some_iff.mp hright
  rw [createBinary]
  by_cases hroom : plan.widths.length < maxSubplanNodes
  · obtain ⟨plan₁, h₁, hws₁⟩ := plan.createOperator_widths (.binary type left right) hroom
    obtain ⟨plan₂, h₂, hws₂⟩ := plan₁.setParent_widths left plan.widths.length (by omega)
    obtain ⟨plan₃, h₃, hws₃⟩ := plan₂.setParent_widths right plan.widths.length (by omega)
    have hws := hws₃.trans (hws₂.trans hws₁)
    have hcolsl : (plan₃.columns left).length = wl := by
      rw [length_columns, hws, List.getElem?_append_left hl, hleft, Option.getD_some]
    obtain ⟨plan₄, h₄, hws₄⟩ := addColumns_widths hws (plan₃.columns left)
      (by rw [hcolsl, Nat.zero_add]; exact hwl)
    rw [hcolsl, Nat.zero_add] at hws₄
    have hcolsr : (plan₄.columns right).length = wr := by
      rw [length_columns, hws₄, List.getElem?_append_left hr, hright, Option.getD_some]
    rw [h₁]
    dsimp only [Option.bind_eq_bind, Option.bind_some]
    rw [h₂]
    dsimp only [Option.bind_some]
    rw [h₃]
    dsimp only [Option.bind_some]
    rw [copyColumns, h₄]
    dsimp only [Option.bind_some]
    -- what is true of the last plan, however it is made
    have hdone (plan' : Subplan) (wid : ℕ) (hws' : plan'.widths = plan.widths ++ [wid])
        (hwid : wid ≤ maxOperatorNumColumns) : plan.widths <+: plan'.widths
        ∧ plan'.widths.length = plan.widths.length + 1 ∧ plan'.Top plan.widths.length wid := by
      have hlen : plan'.widths.length = plan.widths.length + 1 := by
        rw [hws', List.length_append, List.length_singleton]
      refine ⟨⟨_, hws'.symm⟩, hlen, hlen.symm, by omega, ?_, hwid⟩
      rw [hws', List.getElem?_concat_length]
    cases copyRight with
    | false =>
        exact ⟨fun _ hc => ⟨plan₄, _, rfl, hdone plan₄ wl hws₄ hwl⟩, fun hnone => (hnone ⟨hroom, hwl⟩).elim⟩
    | true =>
        dsimp only [cond_true]
        rw [copyColumns]
        have hsum : both true wl wr = wl + wr := rfl
        rw [hsum]
        by_cases hcols : wl + wr ≤ maxOperatorNumColumns
        · obtain ⟨plan₅, h₅, hws₅⟩ := addColumns_widths hws₄ (plan₄.columns right) (by rwa [hcolsr])
          rw [hcolsr] at hws₅
          rw [h₅]
          exact ⟨fun _ _ => ⟨plan₅, _, rfl, hdone plan₅ _ hws₅ hcols⟩, fun hnone => (hnone ⟨hroom, hcols⟩).elim⟩
        · rw [addColumns_none hws₄ _ (by rwa [hcolsr])]
          exact ⟨fun _ hc => (hcols hc).elim, fun _ => rfl⟩
  · rw [createOperator_none _ _ hroom]
    exact ⟨fun h => (hroom h).elim, fun _ => rfl⟩

lemma createBinary_invalid (plan : Subplan) (type : BinaryType) (left : ℕ) (copyRight : Bool) :
    plan.createBinary type left fccInvalidId copyRight = none := by
  rw [createBinary]
  cases h₁ : plan.createOperator (.binary type left fccInvalidId) with
  | none => rfl
  | some st =>
      dsimp only [Option.bind_eq_bind, Option.bind_some]
      cases h₂ : st.1.setParent left st.2 with
      | none => rfl
      | some plan₂ =>
          dsimp only [Option.bind_some]
          rw [setParent_invalid]
          rfl

lemma widths_toReferences (plan : Subplan) (id : ℕ) : (plan.toReferences id).widths = plan.widths := by
  have hmod := widths_modify plan.nodes plan.requiresSync plan.root id (g := fun n => n)
    (f := fun op => { op with value := op.value.map FccColumn.toReference }) fun op => List.length_map _
  exact hmod.trans (List.modify_id _ _)

/-- Whether it must be gathered does not matter. -/
lemma Makes.map {f : Subplan × ℕ → Subplan × ℕ} (h : Makes plan x k w c)
    (hf : ∀ plan id, (f (plan, id)).1.widths = plan.widths ∧ (f (plan, id)).2 = id) :
    Makes plan (x >>= fun st => some (f st)) k w c := by
  refine ⟨fun hroom hc => ?_, fun hnone => by rw [h.none_of hnone]; rfl⟩
  obtain ⟨plan', id, rfl, hpre, hlen, htop⟩ := h.some_of hroom hc
  obtain ⟨hws, hid⟩ := hf plan' id
  refine ⟨(f (plan', id)).1, (f (plan', id)).2, rfl, hws ▸ hpre, hws ▸ hlen, ?_⟩
  exact ⟨by rw [hid, hws, htop.id_eq], hws ▸ htop.room, by rw [hid, hws, htop.width_eq], htop.width_le⟩

/-- An operator with a child and a reference table. -/
lemma createGathered_makes {child refTable wr : ℕ} (type : BinaryType) (hchild : plan.widths[child]? = some w)
    (href : plan.widths[refTable]? = some wr) (hw : w ≤ maxOperatorNumColumns) :
    Makes plan (plan.createGathered type child refTable) 1 w True :=
  ((createBinary_makes type false hchild href hw).map (f := fun st => (st.1.toReferences st.2, st.2))
    fun plan id => ⟨plan.widths_toReferences id, rfl⟩).of_eq rfl rfl (iff_true_intro hw)

/-! ### The operators of an entity match -/

/-- A loop of filters. -/
lemma filters_makes {α : Type} (type : α → UnaryType) {id : ℕ} (l : List α) (htop : plan.Top id w) :
    Makes plan (l.foldlM (fun st a => st.1.createUnary (type a) st.2) (plan, id)) l.length w True := by
  refine (Makes.foldlM (f := fun st a => st.1.createUnary (type a) st.2) (d := 1) (e := 0) l ?_ htop).of_eq
    (Nat.one_mul _) (by rw [Nat.zero_mul, Nat.add_zero]) ?_
  · exact fun a plan id w htop => (createUnary_makes (type a) htop).of_eq rfl rfl (iff_of_true trivial htop.width_le)
  · exact iff_true_intro (by rw [Nat.zero_mul]; exact htop.width_le)

lemma applyPredicateFilters_makes (m : EntityMatch) {id : ℕ} (htop : plan.Top id w) :
    Makes plan (applyPredicateFilters m plan id) m.filterFunc.length w True :=
  filters_makes .predicateFilter m.filterFunc htop

lemma applyFilters_makes (onColumn : Bool) (m : EntityMatch) {id : ℕ} (htop : plan.Top id w) :
    Makes plan (applyFilters onColumn m plan id) m.numFilters w True := by
  rw [applyFilters]
  have hcomps (plan : Subplan) (id : ℕ) (htop : plan.Top id w) :=
    (filters_makes (fun type => .componentFilter type .hasNot onColumn) m.hasNotComponents htop).bind
      (f := fun st => m.hasComponents.foldlM (fun st type => st.1.createComponentFilter st.2 type .has onColumn) st)
      _ _ _ fun _ _ _ htop => filters_makes (fun type => .componentFilter type .has onColumn) m.hasComponents htop
  refine ((filters_makes (fun tag => .tagFilter tag .hasNot onColumn) m.hasNotTags htop).bind
    (m.hasTags.length + (m.hasNotComponents.length + m.hasComponents.length)) w True
    fun plan₁ id₁ _ h₁ => ?_).of_eq ?_ rfl (and_self_iff)
  · refine ((filters_makes (fun tag => .tagFilter tag .has onColumn) m.hasTags h₁).bind
      (m.hasNotComponents.length + m.hasComponents.length) w True
      fun plan₂ id₂ _ h₂ => ?_).of_eq rfl rfl (and_self_iff)
    exact (hcomps plan₂ id₂ h₂).of_eq rfl rfl (and_self_iff)
  · rw [EntityMatch.numFilters]
    omega

lemma createSource_makes (plan : Subplan) (comp : CompMatch) : Makes plan (plan.createSource comp) 1 1 True := by
  rw [createSource]
  split
  · exact createLeaf_makes plan _ _
  · exact createLeaf_makes plan _ _

/-- What an operator has, it keeps. -/
lemma width_extend {plan plan' : Subplan} {id : ℕ} (hpre : plan.widths <+: plan'.widths)
    (hid : plan.widths[id]? = some w) : plan'.widths[id]? = some w := by
  obtain ⟨ws, hws⟩ := hpre
  obtain ⟨hlt, -⟩ := List.getElem?_eq_some_iff.mp hid
  rw [← hws, List.getElem?_append_left hlt, hid]

/-- A component is joined to those before it. -/
lemma addComponent_makes (comp : CompMatch) {id : ℕ} (htop : plan.Top id w) :
    Makes plan (addComponent (plan, id) comp) 2 (w + 1) (w + 1 ≤ maxOperatorNumColumns) := by
  rw [addComponent]
  dsimp only
  rw [if_neg htop.ne_fccInvalidId]
  refine ((createSource_makes plan comp).bind 1 (w + 1) (w + 1 ≤ maxOperatorNumColumns)
    fun plan' right hpre hright => ?_).of_eq rfl rfl (by rw [true_and])
  have hleft := width_extend hpre htop.width_eq
  dsimp only
  split
  · exact createBinary_makes .crossJoin true hleft hright.width_eq htop.width_le
  · exact createBinary_makes .join true hleft hright.width_eq htop.width_le

/-- **The components of an entity match.** -/
lemma planComponents_makes (plan : Subplan) {m : EntityMatch} (hm : m.cmatches ≠ []) :
    Makes plan (planComponents m plan) (2 * m.cmatches.length - 1 + m.numFilters) m.cmatches.length
      (m.cmatches.length ≤ maxOperatorNumColumns) := by
  obtain ⟨comp, comps, hcons⟩ := List.exists_cons_of_ne_nil hm
  have hfirst : addComponent (plan, fccInvalidId) comp = plan.createSource comp := by
    rw [addComponent]
    dsimp only
    rw [if_pos rfl]
  have hloop := (createSource_makes plan comp).bind (f := fun st => comps.foldlM addComponent st) _ _ _
    fun _ _ _ htop => Makes.foldlM (d := 2) (e := 1) comps (fun comp _ _ _ htop => addComponent_makes comp htop) htop
  rw [planComponents, hcons, List.foldlM_cons, hfirst]
  refine (hloop.bind m.numFilters (1 + 1 * comps.length) True fun plan' id _ htop => ?_).of_eq ?_ ?_ ?_
  · dsimp only
    rw [if_neg htop.ne_fccInvalidId]
    exact applyFilters_makes false m htop
  · rw [List.length_cons]
    omega
  · rw [List.length_cons]
    omega
  · rw [List.length_cons, true_and, and_true, Nat.one_mul, Nat.add_comm]

/-- **What an expand adds to its components.** -/
lemma planExpand_makes (main : EntityMatch) {m : EntityMatch} {id : ℕ} (hm : m.fromExpand = true) (htop : plan.Top id w) :
    Makes plan (planExpand main m plan id) 2 w True := by
  rw [planExpand, hm, Bool.not_true, if_neg Bool.false_ne_true]
  refine ((createLeaf_makes plan .scan ⟨.id, ⟨""⟩, m.refName, .read⟩).bind 1 w True
    fun plan' refScan hpre href => ?_).of_eq rfl rfl (and_self_iff)
  have hchild := width_extend hpre htop.width_eq
  dsimp only
  rw [if_neg htop.ne_fccInvalidId]
  split
  · exact (createGathered_makes .cascadingGather hchild href.width_eq htop.width_le).map
      (f := fun st => ({ st.1 with requiresSync := true }, st.2)) fun plan id => ⟨rfl, rfl⟩
  · exact (createGathered_makes .gather hchild href.width_eq htop.width_le).map
      (f := fun st => ({ st.1 with requiresSync := true }, st.2)) fun plan id => ⟨rfl, rfl⟩

/-- An expand without components. -/
lemma planExpand_none_makes (plan : Subplan) (main : EntityMatch) {m : EntityMatch} (hm : m.fromExpand = true) :
    Makes plan (planExpand main m plan fccInvalidId) (1 + m.numFilters) 1 True := by
  rw [planExpand, hm, Bool.not_true, if_neg Bool.false_ne_true]
  refine ((createLeaf_makes plan .scan ⟨.id, ⟨""⟩, m.refName, .read⟩).bind m.numFilters 1 True
    fun plan' refScan _ href => ?_).of_eq rfl rfl (and_self_iff)
  dsimp only
  rw [if_pos rfl]
  exact applyFilters_makes true m href

/-! ### Entity matches one after the other -/

/-- Where the root is: nowhere, or at an operator with some columns. -/
def RootAt (plan : Subplan) (root : ℕ) : Option ℕ → Prop
  | none => root = fccInvalidId
  | some w => root ≠ fccInvalidId ∧ plan.widths[root]? = some w ∧ w ≤ maxOperatorNumColumns

lemma RootAt.extend {plan plan' : Subplan} {root : ℕ} {r : Option ℕ} (h : plan.RootAt root r)
    (hpre : plan.widths <+: plan'.widths) : plan'.RootAt root r := by
  cases r with
  | none => exact h
  | some w => exact ⟨h.1, width_extend hpre h.2.1, h.2.2⟩

lemma Top.rootAt {id : ℕ} (h : plan.Top id w) : plan.RootAt id (some w) :=
  ⟨h.ne_fccInvalidId, h.width_eq, h.width_le⟩

/-- What has been made of an entity match is joined, and filtered by functions. -/
lemma joinRoot_makes (m : EntityMatch) (nonComponent : Bool) {root localRoot : ℕ} {r : Option ℕ}
    (hroot : plan.RootAt root r) (htop : plan.Top localRoot w) :
    Makes plan (do
        let (plan, root) ← joinRoot nonComponent plan root localRoot
        applyPredicateFilters m plan root)
      ((r.elim 0 fun _ => 1) + m.filterFunc.length) (r.elim w fun wr => both (!nonComponent) wr w)
      ((r.elim w fun wr => both (!nonComponent) wr w) ≤ maxOperatorNumColumns) := by
  rw [joinRoot]
  cases r with
  | none =>
      rw [if_pos (show root = fccInvalidId from hroot)]
      exact (htop.makes.bind _ _ _ fun plan' id _ htop => applyPredicateFilters_makes m htop).of_eq rfl rfl
        (iff_of_true ⟨trivial, trivial⟩ htop.width_le)
  | some wr =>
      obtain ⟨hvalid, hwidth, hwr⟩ := hroot
      rw [if_neg hvalid]
      have hjoin : Makes plan (if nonComponent = true then plan.createLeftFilterJoin root localRoot
          else plan.createJoin root localRoot) 1 (both (!nonComponent) wr w)
          (both (!nonComponent) wr w ≤ maxOperatorNumColumns) := by
        cases nonComponent with
        | true => exact createBinary_makes .leftFilterJoin false hwidth htop.width_eq hwr
        | false => exact createBinary_makes .join true hwidth htop.width_eq hwr
      exact (hjoin.bind _ _ _ fun plan' id _ htop => applyPredicateFilters_makes m htop).of_eq rfl rfl
        (by rw [and_true, Option.elim_some])

/-- The columns when an entity match has been joined. -/
def joinedColumns (m : EntityMatch) (r : Option ℕ) : ℕ := r.elim m.numColumns (· + m.cmatches.length)

/-- **An entity match** that something is made of. -/
lemma planMatch_makes (main : EntityMatch) {m : EntityMatch} (hm : ¬ m.Bare) {root : ℕ} {r : Option ℕ}
    (hroot : plan.RootAt root r) :
    Makes plan (planMatch main (plan, root) m) (m.numNodes + r.elim 0 fun _ => 1) (joinedColumns m r)
      (joinedColumns m r ≤ maxOperatorNumColumns) := by
  rw [planMatch]
  dsimp only
  by_cases hcomps : m.cmatches = []
  · have hexpand : m.fromExpand = true := by
      by_contra hexpand
      exact hm ⟨hcomps, Bool.eq_false_of_not_eq_true hexpand⟩
    have hnone : planComponents m plan = some (plan, fccInvalidId) := by
      rw [planComponents, hcomps]
      rfl
    have hjoined : joinedColumns m r = r.elim 1 fun wr => both (!true) wr 1 := by
      rw [joinedColumns, EntityMatch.numColumns, if_pos hcomps, hcomps]
      rfl
    rw [hnone]
    dsimp only [Option.bind_eq_bind, Option.bind_some]
    refine ((planExpand_none_makes plan main hexpand).bind _ _ _ fun plan' localRoot hpre htop =>
      joinRoot_makes m true (hroot.extend hpre) htop).of_eq ?_ hjoined.symm ?_
    · rw [EntityMatch.numNodes, if_pos hcomps, hexpand, cond_true]
      omega
    · rw [hjoined, true_and]
  · have hjoined : joinedColumns m r = r.elim m.cmatches.length fun wr => both (!false) wr m.cmatches.length := by
      rw [joinedColumns, EntityMatch.numColumns, if_neg hcomps]
      rfl
    have hle : m.cmatches.length ≤ joinedColumns m r := by
      rw [hjoined]
      cases r with
      | none => exact le_refl _
      | some wr => exact Nat.le_add_left _ _
    -- an expand gathers what is made of the components
    have hexpand (plan : Subplan) (id : ℕ) (htop : plan.Top id m.cmatches.length) :
        Makes plan (planExpand main m plan id) (bif m.fromExpand then 2 else 0) m.cmatches.length True := by
      cases hfrom : m.fromExpand with
      | true => exact planExpand_makes main hfrom htop
      | false =>
          rw [planExpand, hfrom, Bool.not_false, if_pos rfl]
          exact htop.makes
    refine ((planComponents_makes plan hcomps).bind ((bif m.fromExpand then 2 else 0)
      + ((r.elim 0 fun _ => 1) + m.filterFunc.length)) (joinedColumns m r)
      (joinedColumns m r ≤ maxOperatorNumColumns) fun plan₁ id₁ hpre₁ h₁ => ?_).of_eq ?_ rfl ?_
    · dsimp only
      rw [decide_eq_false h₁.ne_fccInvalidId, hjoined]
      refine ((hexpand plan₁ id₁ h₁).bind _ _ _ fun plan₂ id₂ hpre₂ h₂ =>
        joinRoot_makes m false ((hroot.extend hpre₁).extend hpre₂) h₂).of_eq rfl rfl (by rw [true_and])
    · rw [EntityMatch.numNodes, if_neg hcomps]
      omega
    · exact and_iff_right_of_imp fun h => hle.trans h

/-- An entity match that nothing is made of: its filters by functions stand on the root, and nothing can be
joined. -/
lemma planMatch_bare (main : EntityMatch) {m : EntityMatch} (hm : m.Bare) (root : ℕ) :
    planMatch main (plan, root) m
      = if root = fccInvalidId ∧ m.filterFunc = [] then some (plan, fccInvalidId) else none := by
  obtain ⟨hcomps, hexpand⟩ := hm
  have hnone : planComponents m plan = some (plan, fccInvalidId) := by
    rw [planComponents, hcomps]
    rfl
  rw [planMatch]
  dsimp only
  rw [hnone]
  dsimp only [Option.bind_eq_bind, Option.bind_some]
  rw [planExpand, hexpand, Bool.not_false, if_pos rfl]
  dsimp only [Option.bind_some]
  rw [joinRoot]
  by_cases hroot : root = fccInvalidId
  · rw [if_pos hroot]
    dsimp only [Option.bind_some]
    rw [applyPredicateFilters]
    cases hfilter : m.filterFunc with
    | nil => rw [if_pos ⟨hroot, rfl⟩]; rfl
    | cons decl decls =>
        rw [List.foldlM_cons, createPredicateFilter, createUnary_invalid, if_neg fun h => List.cons_ne_nil _ _ h.2]
        rfl
  · rw [if_neg hroot, if_neg (fun h : root = fccInvalidId ∧ m.filterFunc = [] => hroot h.1), decide_eq_true rfl,
      if_pos rfl, createLeftFilterJoin, createBinary_invalid]
    rfl

lemma Makes.none {k w : ℕ} {c : Prop} (hc : ¬ c) : Makes plan none k w c :=
  ⟨fun _ h => (hc h).elim, fun _ => rfl⟩

/-- **The entity matches behind the first one** that something is made of. -/
lemma rest_makes (main : EntityMatch) (ms : List EntityMatch) {root : ℕ} (htop : plan.Top root w) :
    Makes plan (ms.foldlM (planMatch main) (plan, root)) ((ms.map EntityMatch.numNodes).sum + ms.length)
      (w + (ms.map fun m => m.cmatches.length).sum)
      (w + (ms.map fun m => m.cmatches.length).sum ≤ maxOperatorNumColumns ∧ ∀ m ∈ ms, ¬ m.Bare) := by
  induction ms generalizing plan w root with
  | nil => exact htop.makes.of_eq rfl rfl (iff_of_true trivial ⟨htop.width_le, fun _ hm => (List.not_mem_nil hm).elim⟩)
  | cons m ms ih =>
      rw [List.foldlM_cons]
      by_cases hm : m.Bare
      · rw [planMatch_bare main hm, if_neg fun h : root = fccInvalidId ∧ _ => htop.ne_fccInvalidId h.1]
        exact Makes.none fun h => h.2 m List.mem_cons_self hm
      · refine ((planMatch_makes main hm htop.rootAt).bind _ _ _ fun plan' root' _ htop' => ih htop').of_eq ?_ ?_ ?_
        · rw [List.map_cons, List.sum_cons, List.length_cons, Option.elim_some]
          omega
        · rw [List.map_cons, List.sum_cons, joinedColumns, Option.elim_some, Nat.add_assoc]
        · rw [List.map_cons, List.sum_cons, joinedColumns, Option.elim_some, List.forall_mem_cons, ← Nat.add_assoc]
          have hle := Nat.le_add_right (w + m.cmatches.length) (ms.map fun m => m.cmatches.length).sum
          exact ⟨fun h => ⟨h.2.1, hm, h.2.2⟩, fun h => ⟨hle.trans h.1, h.1, h.2.2⟩⟩

/-- What is bare comes first, and has no filter functions. -/
def BareFirst (ms : List EntityMatch) : Prop :=
  (ms.Pairwise fun m m' => m'.Bare → m.Bare) ∧ ∀ m ∈ ms, m.Bare → m.filterFunc = []

lemma bareFirst_cons_bare {m : EntityMatch} {ms : List EntityMatch} (hm : m.Bare) :
    BareFirst (m :: ms) ↔ m.filterFunc = [] ∧ BareFirst ms := by
  rw [BareFirst, BareFirst, List.pairwise_cons, List.forall_mem_cons]
  exact ⟨fun h => ⟨h.2.1 hm, h.1.2, h.2.2⟩, fun h => ⟨⟨fun _ _ _ => hm, h.2.1⟩, fun _ => h.1, h.2.2⟩⟩

lemma bareFirst_cons {m : EntityMatch} {ms : List EntityMatch} (hm : ¬ m.Bare) :
    BareFirst (m :: ms) ↔ ∀ m ∈ ms, ¬ m.Bare := by
  rw [BareFirst, List.pairwise_cons, List.forall_mem_cons]
  constructor
  · exact fun h m' hm' hbare => hm (h.1.1 m' hm' hbare)
  · intro h
    refine ⟨⟨fun m' hm' hbare => (h m' hm' hbare).elim, ?_⟩, fun hbare => (hm hbare).elim,
      fun m' hm' hbare => (h m' hm' hbare).elim⟩
    exact List.pairwise_of_forall_mem_list fun m₁ _ m₂ hm₂ hbare => (h m₂ hm₂ hbare).elim

/-- The loop over entity matches that nothing is made of. -/
lemma loop_bare (plan : Subplan) (main : EntityMatch) {ms : List EntityMatch} (hms : ∀ m ∈ ms, m.Bare) :
    ms.foldlM (planMatch main) (plan, fccInvalidId)
      = if ∀ m ∈ ms, m.filterFunc = [] then some (plan, fccInvalidId) else none := by
  induction ms with
  | nil => rfl
  | cons m ms ih =>
      obtain ⟨hm, hms⟩ := List.forall_mem_cons.mp hms
      rw [List.foldlM_cons, planMatch_bare main hm]
      by_cases hfilter : m.filterFunc = []
      · rw [if_pos ⟨rfl, hfilter⟩]
        dsimp only [Option.bind_eq_bind, Option.bind_some]
        rw [ih hms]
        simp only [List.forall_mem_cons, hfilter, true_and]
      · rw [if_neg fun h : fccInvalidId = fccInvalidId ∧ _ => hfilter h.2,
          if_neg fun h => hfilter (h m List.mem_cons_self)]
        rfl

/-- **The loop over the entity matches.** -/
lemma loop_makes (plan : Subplan) (main : EntityMatch) {ms rest : List EntityMatch} {m : EntityMatch}
    (hms : (ms.filter fun m => ¬ m.Bare) = m :: rest) :
    Makes plan (ms.foldlM (planMatch main) (plan, fccInvalidId))
      ((ms.map EntityMatch.numNodes).sum + rest.length)
      (m.numColumns + (rest.map fun m => m.cmatches.length).sum)
      (m.numColumns + (rest.map fun m => m.cmatches.length).sum ≤ maxOperatorNumColumns ∧ BareFirst ms) := by
  induction ms with
  | nil => cases hms
  | cons m' ms ih =>
      rw [List.foldlM_cons]
      by_cases hm : m'.Bare
      · rw [List.filter_cons_of_neg (by simpa using hm)] at hms
        have hnodes : m'.numNodes = m'.filterFunc.length := by
          rw [EntityMatch.numNodes, if_pos hm.1, hm.2, cond_false, Nat.zero_add]
        rw [planMatch_bare main hm, bareFirst_cons_bare hm]
        by_cases hfilter : m'.filterFunc = []
        · rw [if_pos ⟨rfl, hfilter⟩]
          dsimp only [Option.bind_eq_bind, Option.bind_some]
          refine (ih hms).of_eq ?_ rfl (by simp only [hfilter, true_and])
          rw [List.map_cons, List.sum_cons, hnodes, hfilter, List.length_nil, Nat.zero_add]
        · rw [if_neg fun h : fccInvalidId = fccInvalidId ∧ _ => hfilter h.2]
          exact Makes.none fun h => hfilter h.2.1
      · rw [List.filter_cons_of_pos (by simpa using hm)] at hms
        obtain ⟨rfl, hrest⟩ := List.cons.inj hms
        rw [bareFirst_cons hm]
        have hloop := (planMatch_makes (r := none) main hm (show plan.RootAt fccInvalidId none from rfl)).bind
          (f := fun st => ms.foldlM (planMatch main) st) _ _ _ fun plan' root _ htop => rest_makes main ms htop
        by_cases hall : ∀ m ∈ ms, ¬ m.Bare
        · -- all of the rest takes part
          have hself : (ms.filter fun m => ¬ m.Bare) = ms := List.filter_eq_self.mpr fun m hm => by simpa using hall m hm
          obtain rfl : ms = rest := hself.symm.trans hrest
          refine hloop.of_eq ?_ rfl ?_
          · rw [List.map_cons, List.sum_cons, Option.elim_none]
            omega
          · have hle := Nat.le_add_right m'.numColumns (ms.map fun m => m.cmatches.length).sum
            exact ⟨fun h => h.2, fun h => ⟨hle.trans h.1, h⟩⟩
        · have hnone : (planMatch main (plan, fccInvalidId) m' >>= ms.foldlM (planMatch main)) = none := by
            refine hloop.none_of fun h => hall h.2.2.2
          rw [hnone]
          exact Makes.none fun h => hall h.2

end Subplan

/-! ### Statements -/

lemma Subplan.Makes.isSome_iff {plan : Subplan} {x : Option (Subplan × ℕ)} {k w : ℕ} {c : Prop}
    (h : plan.Makes x k w c) : x.isSome = true ↔ plan.widths.length + k ≤ maxSubplanNodes ∧ c := by
  constructor
  · intro hsome
    by_contra hnone
    rw [h.none_of hnone] at hsome
    cases hsome
  · rintro ⟨hroom, hc⟩
    obtain ⟨plan', id, hx, -⟩ := h.some_of hroom hc
    rw [hx]
    rfl

lemma bareFirst_reverse {ms : List EntityMatch} : Subplan.BareFirst ms.reverse
    ↔ (ms.Pairwise fun m m' => m.Bare → m'.Bare) ∧ ∀ m ∈ ms, m.Bare → m.filterFunc = [] := by
  rw [Subplan.BareFirst, List.pairwise_reverse]
  simp only [List.mem_reverse]

lemma bare_of_matched {stmt : Stmt} (hbare : stmt.matched = []) {m : EntityMatch}
    (hm : m ∈ stmt.ematches.reverse) : m.Bare := by
  by_contra hmb
  have hmem : m ∈ stmt.matched := List.mem_filter.mpr ⟨hm, by simpa using hmb⟩
  rw [hbare] at hmem
  cases hmem

/-- Without other operators there is room for the `foreach`. -/
lemma plannable_of_bare {stmt : Stmt} (hbare : stmt.matched = []) :
    stmt.Plannable ↔ ∀ m ∈ stmt.ematches.reverse, m.filterFunc = [] := by
  have hall : ∀ m ∈ stmt.ematches, m.Bare := fun m hm => bare_of_matched hbare (List.mem_reverse.mpr hm)
  constructor
  · intro h m hm
    have hmem := List.mem_reverse.mp hm
    exact h.bare_filterFunc m hmem (hall m hmem)
  · intro h
    have hnodes : (stmt.ematches.map EntityMatch.numNodes).sum = 0 := by
      rw [List.sum_eq_zero_iff]
      intro n hn
      obtain ⟨m, hm, rfl⟩ := List.mem_map.mp hn
      obtain ⟨hcomps, hexpand⟩ := hall m hm
      rw [EntityMatch.numNodes, if_pos hcomps, hexpand, h m (List.mem_reverse.mpr hm)]
      rfl
    refine ⟨?_, ?_, ?_, fun m hm _ => h m (List.mem_reverse.mpr hm)⟩
    · rw [Stmt.numOperators, hnodes, hbare]
      cases stmt.operationType <;> decide
    · rw [Stmt.numColumns, hbare]
      decide
    · exact List.pairwise_of_forall_mem_list fun _ _ m hm _ => hall m hm

/-- **Which operators are made**: those of the plannable statements. -/
theorem isSome_subplanInit_iff (stmt : Stmt) : (subplanInit stmt).isSome = true ↔ stmt.Plannable := by
  rw [subplanInit]
  dsimp only
  cases hmatched : stmt.matched with
  | nil =>
      rw [Subplan.loop_bare _ _ fun m hm => bare_of_matched hmatched hm, plannable_of_bare hmatched]
      by_cases hfilter : ∀ m ∈ stmt.ematches.reverse, m.filterFunc = []
      · rw [if_pos hfilter]
        refine iff_of_true ?_ hfilter
        cases stmt.operationType <;> rfl
      · rw [if_neg hfilter]
        exact iff_of_false (fun h => Bool.false_ne_true h) hfilter
  | cons m rest =>
      have hloop := Subplan.loop_makes ⟨[], false, 0⟩ (stmt.ematches.getLastD EntityMatch.init) hmatched
      have hnodes : (stmt.ematches.reverse.map EntityMatch.numNodes).sum
          = (stmt.ematches.map EntityMatch.numNodes).sum := by
        rw [List.map_reverse, List.sum_reverse]
      rw [hnodes] at hloop
      rw [Stmt.plannable_iff, Stmt.numOperators, Stmt.numColumns, hmatched, ← bareFirst_reverse, List.length_cons,
        Nat.add_sub_cancel]
      obtain ⟨x, hx⟩ : ∃ x, stmt.ematches.reverse.foldlM
        (Subplan.planMatch (stmt.ematches.getLastD EntityMatch.init)) (⟨[], false, 0⟩, fccInvalidId) = x := ⟨_, rfl⟩
      rw [hx] at hloop ⊢
      cases stmt.operationType with
      | unknown =>
          have hsome : (x >>= fun st => some { st.1 with root := st.2 }).isSome = x.isSome := by cases x <;> rfl
          refine (Bool.eq_iff_iff.mp hsome).trans (hloop.isSome_iff.trans ?_)
          rw [show (Subplan.mk [] false 0).widths.length = 0 from rfl, Nat.zero_add, Nat.add_zero]
      | foreach =>
          have hforeach := hloop.bind (f := fun st => st.1.createForeach st.2 stmt.system) 1 _ True
            fun plan root _ htop => by
              dsimp only
              rw [Subplan.createForeach, if_pos htop.ne_fccInvalidId]
              exact Subplan.createUnary_makes (.foreach stmt.system) htop
          have hsome : (x >>= fun st => st.1.createForeach st.2 stmt.system >>= fun st =>
              some { st.1 with root := st.2 }).isSome
              = (x >>= fun st => st.1.createForeach st.2 stmt.system).isSome := by
            cases x with
            | none => rfl
            | some st =>
                dsimp only [Option.bind_eq_bind, Option.bind_some]
                cases st.1.createForeach st.2 stmt.system <;> rfl
          refine (Bool.eq_iff_iff.mp hsome).trans (hforeach.isSome_iff.trans ?_)
          rw [show (Subplan.mk [] false 0).widths.length = 0 from rfl, Nat.zero_add, and_true]

end Furious
