import Furious.Compiler.OperatorTree
import Furious.Compiler.Reflection

/-!
The variables that are declared for the operator trees.

The tables of the components, of the references and of the tags that the operators use are collected in a
walk over the trees, and are declared as variables under names that are made of theirs.

* `generateTableName`, `generateRefTableName`, `generateBittableName`: the names of the variables, and
  `isIdentifier_varName_iff`: which of them are identifiers;
* `extract`, `extractSubplans`: the walk, to a depth of the recursion;
* `PlanTree.vars`: what a tree uses, `PlanTree.reached`: what of it the walk comes to;
* `extract_lists`: **what the walk finds in a tree**, and `Stmt.Accepted.holds`: the trees of statements;
* `PlanTree.uses`, `InSight`: the places where something is used, and those below no repeated filter;
  `reachedAll_eq_seen`: **the walk comes to these**;
* `extract_declares_iff`: **when every variable is declared, once, and under a name of its own**.

The declarations of the component types, which are collected in the same walk, are left out. No name has a
byte that is zero.
-/

namespace Furious

/-! ### The names of the variables -/

/-- `tolower`, for one byte. -/
def lowerByte (c : UInt8) : UInt8 := if 65 ≤ c ∧ c ≤ 90 then c + 32 else c

/-- What becomes an underscore: `:<>,.` and the blank. -/
def specialBytes : List UInt8 := [58, 60, 62, 44, 46, 32]

/-- `replace_special`, for one byte. -/
def replaceByte (c : UInt8) : UInt8 := if c ∈ specialBytes then 95 else c

/-- Bytes that `sanitize_name` does not keep apart: the two cases of a letter, and the underscore and what becomes
one. -/
def Alike (c d : UInt8) : Prop :=
  lowerByte c = lowerByte d ∨ c ∈ 95 :: specialBytes ∧ d ∈ 95 :: specialBytes

lemma forall_byte {P : UInt8 → Prop} (h : ∀ n : Fin 256, P (UInt8.ofNat n)) (c : UInt8) : P c := by
  have hc := h ⟨c.toNat, c.toNat_lt⟩
  rwa [UInt8.ofNat_toNat] at hc

lemma replaceSpecial_eq_map (str : List UInt8) : replaceSpecial str = str.map replaceByte := by
  have hfold (specials : List UInt8) : specials.foldl (fun str special => str.map fun c =>
      if c = special then 95 else c) str
        = str.map fun c => specials.foldl (fun c special => if c = special then 95 else c) c := by
    induction specials generalizing str with
    | nil => exact (List.map_id str).symm
    | cons special specials ih =>
        rw [List.foldl_cons, ih, List.map_map]
        rfl
  have hbyte : ∀ c : UInt8, specialBytes.foldl (fun c special => if c = special then 95 else c) c = replaceByte c :=
    forall_byte (by decide +kernel)
  rw [replaceSpecial]
  exact (hfold specialBytes).trans (List.map_congr_left fun c _ => hbyte c)

lemma replaceByte_eq_iff (c d : UInt8) :
    replaceByte c = replaceByte d ↔ c = d ∨ c ∈ 95 :: specialBytes ∧ d ∈ 95 :: specialBytes := by
  rw [replaceByte, replaceByte]
  grind

lemma lowerByte_mem (c : UInt8) : lowerByte c ∈ 95 :: specialBytes ↔ c ∈ 95 :: specialBytes := by
  revert c
  exact forall_byte (by decide +kernel)

/-- **Which names become the same.** -/
lemma sanitizeName_eq_iff (a b : List UInt8) : sanitizeName a = sanitizeName b ↔ List.Forall₂ Alike a b := by
  have halike (c d : UInt8) : replaceByte (lowerByte c) = replaceByte (lowerByte d) ↔ Alike c d := by
    rw [replaceByte_eq_iff, lowerByte_mem, lowerByte_mem, Alike]
  rw [sanitizeName, sanitizeName, replaceSpecial_eq_map, replaceSpecial_eq_map, tolower, tolower, List.map_map,
    List.map_map, ← List.forall₂_eq_eq_eq, List.forall₂_map_left_iff, List.forall₂_map_right_iff]
  constructor
  · exact List.Forall₂.imp fun c d => (halike c d).mp
  · exact List.Forall₂.imp fun c d => (halike c d).mpr

/-- The bytes of a name. -/
def nameBytes (name : String) : List UInt8 := name.toByteArray.data.toList

lemma nameBytes_inj {a b : String} : nameBytes a = nameBytes b ↔ a = b := by
  rw [nameBytes, nameBytes, Array.toList_inj, ← ByteArray.ext_iff, String.toByteArray_inj]

/-- Names whose bytes are alike. -/
def AlikeNames (a b : String) : Prop := List.Forall₂ Alike (nameBytes a) (nameBytes b)

/-- The number of an operator behind a name. -/
def operatorSuffix (op : Option ℕ) : List UInt8 := op.elim [] fun id => nameBytes ("_" ++ toString id)

/-- `generate_table_name`. -/
def generateTableName (typeName : String) (op : Option ℕ) : List UInt8 :=
  nameBytes "table_" ++ sanitizeName (nameBytes typeName) ++ operatorSuffix op

/-- `generate_ref_table_name`. -/
def generateRefTableName (refName : String) (op : Option ℕ) : List UInt8 :=
  nameBytes "ref_" ++ generateTableName refName op

/-- `generate_bittable_name`. -/
def generateBittableName (tagName : String) (op : Option ℕ) : List UInt8 :=
  nameBytes "tagged_" ++ nameBytes tagName ++ operatorSuffix op

/-- What a variable is declared for: a component table, a reference table or a tag bittable. -/
inductive TableVar where
  | comp (name : String)
  | ref (name : String)
  | tag (name : String)
deriving DecidableEq, Repr

namespace TableVar

/-- The variable that is declared. -/
def varName : TableVar → List UInt8
  | comp name => generateTableName name none
  | ref name => generateRefTableName name none
  | tag name => generateBittableName name none

/-- The name of a tag. -/
def tagName : TableVar → Option String
  | tag name => some name
  | _ => none

/-- How a variable begins. -/
def start : TableVar → String
  | comp _ => "tab"
  | ref _ => "ref"
  | tag _ => "tag"

lemma take_varName (i : TableVar) : i.varName.take 3 = nameBytes i.start := by
  cases i <;> rfl

lemma start_eq_of_varName {i j : TableVar} (h : i.varName = j.varName) : i.start = j.start := by
  rw [← nameBytes_inj, ← take_varName, ← take_varName, h]

lemma varName_comp_iff (a b : String) : (comp a).varName = (comp b).varName ↔ AlikeNames a b := by
  rw [varName, varName, generateTableName, generateTableName, List.append_left_inj, List.append_right_inj,
    sanitizeName_eq_iff, AlikeNames]

lemma varName_ref_iff (a b : String) : (ref a).varName = (ref b).varName ↔ AlikeNames a b := by
  rw [varName, varName, generateRefTableName, generateRefTableName, List.append_right_inj]
  exact varName_comp_iff a b

lemma varName_tag_iff (a b : String) : (tag a).varName = (tag b).varName ↔ a = b := by
  rw [varName, varName, generateBittableName, generateBittableName, List.append_left_inj, List.append_right_inj,
    nameBytes_inj]

end TableVar

/-! ### Identifiers -/

/-- A letter, a digit or an underscore. -/
def IsWordByte (c : UInt8) : Prop := 48 ≤ c ∧ c ≤ 57 ∨ 65 ≤ c ∧ c ≤ 90 ∨ 97 ≤ c ∧ c ≤ 122 ∨ c = 95

instance : DecidablePred IsWordByte := fun c =>
  inferInstanceAs (Decidable (48 ≤ c ∧ c ≤ 57 ∨ 65 ≤ c ∧ c ≤ 90 ∨ 97 ≤ c ∧ c ≤ 122 ∨ c = 95))

/-- An identifier of the host language: it does not begin with a digit. -/
def IsIdentifier (name : List UInt8) : Prop :=
  (∃ c ∈ name.head?, ¬ (48 ≤ c ∧ c ≤ 57)) ∧ ∀ c ∈ name, IsWordByte c

/-- A name of which a variable can be made: in the name of a type or of a reference there may also be what
becomes an underscore. -/
def TableVar.Writable : TableVar → Prop
  | comp name => ∀ c ∈ nameBytes name, IsWordByte c ∨ c ∈ specialBytes
  | ref name => ∀ c ∈ nameBytes name, IsWordByte c ∨ c ∈ specialBytes
  | tag name => ∀ c ∈ nameBytes name, IsWordByte c

lemma forall_sanitizeName (str : List UInt8) :
    (∀ c ∈ sanitizeName str, IsWordByte c) ↔ ∀ c ∈ str, IsWordByte c ∨ c ∈ specialBytes := by
  have hbyte : ∀ c : UInt8, IsWordByte (replaceByte (lowerByte c)) ↔ IsWordByte c ∨ c ∈ specialBytes :=
    forall_byte (by decide +kernel)
  rw [sanitizeName, replaceSpecial_eq_map, tolower, List.map_map, List.forall_mem_map]
  exact forall₂_congr fun c _ => hbyte c

/-- **The variables that are identifiers.** -/
lemma isIdentifier_varName_iff (i : TableVar) : IsIdentifier i.varName ↔ i.Writable := by
  have hhead : ∃ c ∈ i.varName.head?, ¬ (48 ≤ c ∧ c ≤ 57) := by
    cases i with
    | comp name => exact ⟨116, rfl, by decide⟩
    | ref name => exact ⟨114, rfl, by decide⟩
    | tag name => exact ⟨116, rfl, by decide⟩
  have htable : ∀ c ∈ nameBytes "table_", IsWordByte c := by decide +kernel
  have href : ∀ c ∈ nameBytes "ref_", IsWordByte c := by decide +kernel
  have htagged : ∀ c ∈ nameBytes "tagged_", IsWordByte c := by decide +kernel
  have hcomp (name : String) : (∀ c ∈ generateTableName name none, IsWordByte c)
      ↔ ∀ c ∈ nameBytes name, IsWordByte c ∨ c ∈ specialBytes := by
    rw [generateTableName, operatorSuffix, Option.elim_none, List.append_nil, List.forall_mem_append,
      and_iff_right htable, forall_sanitizeName]
  rw [IsIdentifier, and_iff_right hhead]
  cases i with
  | comp name => exact hcomp name
  | ref name =>
      rw [TableVar.varName, generateRefTableName, List.forall_mem_append, and_iff_right href]
      exact hcomp name
  | tag name =>
      rw [TableVar.varName, generateBittableName, operatorSuffix, Option.elim_none, List.append_nil,
        List.forall_mem_append, and_iff_right htagged]
      rfl

/-! ### The walk -/

/-- `fcc_vars_extr_t`. -/
structure VarsExtr where
  comps : List String
  refs : List String
  tags : List String
deriving DecidableEq, Repr

/-- What the first column of an operator is before it has columns. -/
def FccColumn.zero : FccColumn := ⟨.id, ⟨""⟩, "", .read⟩

/-- What a scan uses. -/
def scanVar (cols : List FccColumn) : TableVar :=
  let column := cols.headD FccColumn.zero
  if column.type = .component then .comp column.componentType.name else .ref column.refName

namespace VarsExtr

/-- `fcc_vars_extr_init`. -/
def init : VarsExtr := ⟨[], [], []⟩

/-- What has been found. -/
def vars (v : VarsExtr) : List TableVar := v.comps.map .comp ++ v.refs.map .ref ++ v.tags.map .tag

/-- A component table, if it is not there yet. -/
def addComp (v : VarsExtr) (name : String) : VarsExtr :=
  if name ∈ v.comps then v else { v with comps := v.comps ++ [name] }

/-- A reference table, if it is not there yet. -/
def addRef (v : VarsExtr) (name : String) : VarsExtr :=
  if name ∈ v.refs then v else { v with refs := v.refs ++ [name] }

/-- A tag bittable. -/
def addTag (v : VarsExtr) (name : String) : VarsExtr := { v with tags := v.tags ++ [name] }

/-- `fcc_vars_extr_extract_scan`. -/
def extractScan (v : VarsExtr) (cols : List FccColumn) : VarsExtr :=
  let column := cols.headD FccColumn.zero
  if column.type = .component then v.addComp column.componentType.name else v.addRef column.refName

end VarsExtr

/-- `fcc_vars_extr_extract`, with what it calls for the types of operators; `none` is a read outside of the
array, or a recursion that is deeper than is given. -/
def extract (nodes : List Operator) : ℕ → ℕ → VarsExtr → Option VarsExtr
  | 0, _, _ => none
  | depth + 1, id, v =>
      match nodes[id]? with
      | none => none
      | some op =>
          match op.body with
          | .leaf .scan => some (v.extractScan op.value)
          | .leaf .fetch => some v
          | .unary (.foreach _) child | .unary (.predicateFilter _) child => extract nodes depth child v
          | .unary (.tagFilter tag _ _) child => extract nodes depth child (v.addTag tag)
          -- what is below a filter by a component that is already there is not visited
          | .unary (.componentFilter filterType _ _) child =>
              if filterType.name ∈ v.comps then some v else extract nodes depth child (v.addComp filterType.name)
          | .binary .join left right | .binary .leftFilterJoin left right | .binary .crossJoin left right => do
              let v ← extract nodes depth left v
              extract nodes depth right v
          | .binary .gather child refTable | .binary .cascadingGather child refTable => do
              let v ← extract nodes depth refTable v
              extract nodes depth child v

/-- `fcc_vars_extr_extract` for the subplans of the statements, as in `fcc_generate_code`. -/
def extractSubplans (depth : ℕ) (plans : List Subplan) : Option VarsExtr :=
  plans.foldlM (fun v plan => extract plan.nodes depth plan.root v) VarsExtr.init

/-! ### What is used, and what the walk comes to -/

namespace PlanTree

/-- What the operators of a tree use. -/
def vars : PlanTree → List TableVar
  | .leaf .scan cols => [scanVar cols]
  | .leaf .fetch _ => []
  | .unary (.foreach _) t | .unary (.predicateFilter _) t => vars t
  | .unary (.tagFilter tag _ _) t => .tag tag :: vars t
  | .unary (.componentFilter filterType _ _) t => .comp filterType.name :: vars t
  | .binary _ l r => vars l ++ vars r

/-- What the walk comes to in a tree, behind what it has come to before: everything but what is below a filter
by a component that it has come to before. -/
def reached : PlanTree → List TableVar → List TableVar
  | .leaf .scan cols, _ => [scanVar cols]
  | .leaf .fetch _, _ => []
  | .unary (.foreach _) t, before | .unary (.predicateFilter _) t, before => reached t before
  | .unary (.tagFilter tag _ _) t, before => .tag tag :: reached t (before ++ [.tag tag])
  | .unary (.componentFilter filterType _ _) t, before =>
      .comp filterType.name ::
        if .comp filterType.name ∈ before then [] else reached t (before ++ [.comp filterType.name])
  | .binary .join l r, before | .binary .leftFilterJoin l r, before | .binary .crossJoin l r, before =>
      reached l before ++ reached r (before ++ reached l before)
  | .binary .gather t refTable, before | .binary .cascadingGather t refTable, before =>
      reached refTable before ++ reached t (before ++ reached refTable before)

end PlanTree

/-- What the walk comes to in some trees, one after the other. -/
def reachedAll : List PlanTree → List TableVar → List TableVar
  | [], _ => []
  | t :: ts, before => t.reached before ++ reachedAll ts (before ++ t.reached before)

/-- The names of the tags. -/
def tagNames (vars : List TableVar) : List String := vars.filterMap TableVar.tagName

/-- What has been found is what the walk came to, each component and each reference once, and each tag each
time. -/
structure VarsExtr.Lists (v : VarsExtr) (met : List TableVar) : Prop where
  comps_iff : ∀ name, name ∈ v.comps ↔ .comp name ∈ met
  refs_iff : ∀ name, name ∈ v.refs ↔ .ref name ∈ met
  tags_eq : v.tags = tagNames met
  comps_nodup : v.comps.Nodup
  refs_nodup : v.refs.Nodup

namespace VarsExtr.Lists

variable {v : VarsExtr} {met : List TableVar}

lemma init : VarsExtr.init.Lists [] where
  comps_iff name := by simp [VarsExtr.init]
  refs_iff name := by simp [VarsExtr.init]
  tags_eq := rfl
  comps_nodup := List.nodup_nil
  refs_nodup := List.nodup_nil

lemma addComp (h : v.Lists met) (name : String) : (v.addComp name).Lists (met ++ [.comp name]) := by
  have htags : tagNames (met ++ [.comp name]) = v.tags := by simp [tagNames, TableVar.tagName, h.tags_eq]
  by_cases hmem : name ∈ v.comps
  · rw [VarsExtr.addComp, if_pos hmem]
    refine ⟨fun other => ?_, fun other => ?_, htags.symm, h.comps_nodup, h.refs_nodup⟩
    · simp only [h.comps_iff, List.mem_append, List.mem_singleton, TableVar.comp.injEq]
      exact ⟨.inl, fun hor => hor.elim id fun heq => heq ▸ (h.comps_iff name).mp hmem⟩
    · simp [h.refs_iff]
  · rw [VarsExtr.addComp, if_neg hmem]
    refine ⟨fun other => ?_, fun other => ?_, htags.symm, ?_, h.refs_nodup⟩
    · simp [h.comps_iff]
    · simp [h.refs_iff]
    · rw [← List.concat_eq_append]
      exact h.comps_nodup.concat hmem

lemma addRef (h : v.Lists met) (name : String) : (v.addRef name).Lists (met ++ [.ref name]) := by
  have htags : tagNames (met ++ [.ref name]) = v.tags := by simp [tagNames, TableVar.tagName, h.tags_eq]
  by_cases hmem : name ∈ v.refs
  · rw [VarsExtr.addRef, if_pos hmem]
    refine ⟨fun other => ?_, fun other => ?_, htags.symm, h.comps_nodup, h.refs_nodup⟩
    · simp [h.comps_iff]
    · simp only [h.refs_iff, List.mem_append, List.mem_singleton, TableVar.ref.injEq]
      exact ⟨.inl, fun hor => hor.elim id fun heq => heq ▸ (h.refs_iff name).mp hmem⟩
  · rw [VarsExtr.addRef, if_neg hmem]
    refine ⟨fun other => ?_, fun other => ?_, htags.symm, h.comps_nodup, ?_⟩
    · simp [h.comps_iff]
    · simp [h.refs_iff]
    · rw [← List.concat_eq_append]
      exact h.refs_nodup.concat hmem

lemma addTag (h : v.Lists met) (name : String) : (v.addTag name).Lists (met ++ [.tag name]) where
  comps_iff other := by simp [VarsExtr.addTag, h.comps_iff]
  refs_iff other := by simp [VarsExtr.addTag, h.refs_iff]
  tags_eq := by simp [VarsExtr.addTag, tagNames, TableVar.tagName, h.tags_eq]
  comps_nodup := h.comps_nodup
  refs_nodup := h.refs_nodup

lemma extractScan (h : v.Lists met) (cols : List FccColumn) : (v.extractScan cols).Lists (met ++ [scanVar cols]) := by
  rw [VarsExtr.extractScan, scanVar]
  split_ifs
  · exact h.addComp _
  · exact h.addRef _

lemma mem_vars_iff (h : v.Lists met) (i : TableVar) : i ∈ v.vars ↔ i ∈ met := by
  cases i with
  | comp name => simp [VarsExtr.vars, h.comps_iff]
  | ref name => simp [VarsExtr.vars, h.refs_iff]
  | tag name =>
      have htag : ∀ i : TableVar, i.tagName = some name ↔ i = .tag name := by
        intro i
        cases i <;> simp [TableVar.tagName]
      simp [VarsExtr.vars, h.tags_eq, tagNames, htag]

lemma nodup_vars_iff (h : v.Lists met) : v.vars.Nodup ↔ (tagNames met).Nodup := by
  have hcomps : (v.comps.map TableVar.comp).Nodup := h.comps_nodup.map fun _ _ => TableVar.comp.inj
  have hrefs : (v.refs.map TableVar.ref).Nodup := h.refs_nodup.map fun _ _ => TableVar.ref.inj
  have htags : (v.tags.map TableVar.tag).Nodup ↔ v.tags.Nodup :=
    List.nodup_map_iff fun _ _ => TableVar.tag.inj
  rw [VarsExtr.vars, List.nodup_append', List.nodup_append', htags, h.tags_eq]
  constructor
  · exact fun hnodup => hnodup.2.1
  · refine fun hnodup => ⟨⟨hcomps, hrefs, ?_⟩, hnodup, ?_⟩
    · intro i hcomp href
      obtain ⟨name, -, rfl⟩ := List.mem_map.mp hcomp
      obtain ⟨other, -, heq⟩ := List.mem_map.mp href
      cases heq
    · intro i hmem htag
      obtain ⟨name, -, rfl⟩ := List.mem_map.mp htag
      rcases List.mem_append.mp hmem with hmem | hmem
      · obtain ⟨other, -, heq⟩ := List.mem_map.mp hmem
        cases heq
      · obtain ⟨other, -, heq⟩ := List.mem_map.mp hmem
        cases heq

end VarsExtr.Lists

/-! ### The walk over a tree -/

section Tree

/-- The walk from an operator on, with what has been found before, finds `met`. -/
def Walks (nodes : List Operator) (id size : ℕ) (v : VarsExtr) (met : List TableVar) : Prop :=
  ∃ v' : VarsExtr, v'.Lists met ∧ ∀ depth, size ≤ depth → extract nodes depth id v = some v'

variable {nodes : List Operator} {id size : ℕ} {v : VarsExtr} {met : List TableVar}

/-- A walk that ends at an operator. -/
lemma walks_end {v' : VarsExtr} (hv : v'.Lists met) (hstep : ∀ n, extract nodes (n + 1) id v = some v') :
    Walks nodes id (size + 1) v met := by
  refine ⟨v', hv, fun depth hdepth => ?_⟩
  obtain ⟨n, rfl⟩ := Nat.exists_eq_add_of_le' (le_of_add_le_right hdepth)
  exact hstep n

/-- A walk that goes on at a child. -/
lemma walks_child {v₁ : VarsExtr} {child : ℕ} (h : Walks nodes child size v₁ met)
    (hstep : ∀ n, extract nodes (n + 1) id v = extract nodes n child v₁) : Walks nodes id (size + 1) v met := by
  obtain ⟨v', hlists, hchild⟩ := h
  refine ⟨v', hlists, fun depth hdepth => ?_⟩
  obtain ⟨n, rfl⟩ := Nat.exists_eq_add_of_le' (le_of_add_le_right hdepth)
  rw [hstep, hchild n (by omega)]

/-- A walk that goes on at one child and then at another. -/
lemma walks_children (id : ℕ) {first second size' : ℕ} {met₁ : List TableVar} (h : Walks nodes first size v met₁)
    (h' : ∀ v₁ : VarsExtr, v₁.Lists met₁ → Walks nodes second size' v₁ met)
    (hstep : ∀ n, extract nodes (n + 1) id v = (extract nodes n first v).bind (extract nodes n second)) :
    Walks nodes id (size + size' + 1) v met := by
  obtain ⟨v₁, hlists, hfirst⟩ := h
  obtain ⟨v', hlists', hsecond⟩ := h' v₁ hlists
  refine ⟨v', hlists', fun depth hdepth => ?_⟩
  obtain ⟨n, rfl⟩ := Nat.exists_eq_add_of_le' (le_of_add_le_right hdepth)
  rw [hstep, hfirst n (by omega), Option.bind_some, hsecond n (by omega)]

/-- **The walk over a tree** finds what it comes to there. -/
theorem extract_lists {t : PlanTree} {o p : ℕ} (h : LaidOut upColumns joinColumns nodes t o p)
    (hv : v.Lists met) : Walks nodes (o + t.size - 1) t.size v (met ++ PlanTree.reached t met) := by
  induction t generalizing o p v met with
  | leaf type cols =>
      have hroot := h.leaf
      rw [OpTree.size, Nat.add_sub_cancel]
      cases type with
      | scan => exact walks_end (hv.extractScan cols) fun n => by rw [extract, hroot]
      | fetch => exact walks_end (by rwa [PlanTree.reached, List.append_nil]) fun n => by rw [extract, hroot]
  | unary type t ih =>
      obtain ⟨hroot, ht⟩ := h.unary
      rw [OpTree.size, show o + (t.size + 1) - 1 = o + t.size by omega]
      cases type with
      | foreach system => exact walks_child (ih ht hv) fun n => by rw [extract, hroot]
      | predicateFilter decl => exact walks_child (ih ht hv) fun n => by rw [extract, hroot]
      | tagFilter tag opType onColumn =>
          rw [PlanTree.reached, ← List.singleton_append, ← List.append_assoc]
          exact walks_child (ih ht (hv.addTag tag)) fun n => by rw [extract, hroot]
      | componentFilter filterType opType onColumn =>
          rw [PlanTree.reached, ← List.singleton_append, ← List.append_assoc]
          have hadd := hv.addComp filterType.name
          by_cases hmem : TableVar.comp filterType.name ∈ met
          · have hfound := (hv.comps_iff _).mpr hmem
            rw [VarsExtr.addComp, if_pos hfound] at hadd
            rw [if_pos hmem, List.append_nil]
            refine walks_end hadd fun n => ?_
            rw [extract, hroot]
            exact if_pos hfound
          · have hfound : filterType.name ∉ v.comps := fun hfound => hmem ((hv.comps_iff _).mp hfound)
            rw [if_neg hmem]
            refine walks_child (ih ht hadd) fun n => ?_
            rw [extract, hroot]
            exact if_neg hfound
  | binary type l r ihl ihr =>
      obtain ⟨hroot, hl, hr⟩ := h.binary
      rw [OpTree.size, show o + (l.size + r.size + 1) - 1 = o + l.size + r.size by omega]
      -- a join visits its left child first, a gather its reference table
      have hjoin := walks_children (o + l.size + r.size) (ihl hl hv) fun v₁ hv₁ => ihr hr hv₁
      have hgather := walks_children (o + l.size + r.size) (ihr hr hv) fun v₁ hv₁ => ihl hl hv₁
      rw [List.append_assoc] at hjoin hgather
      rw [Nat.add_comm r.size l.size] at hgather
      cases type with
      | join => exact hjoin fun n => by rw [extract, hroot]; rfl
      | leftFilterJoin => exact hjoin fun n => by rw [extract, hroot]; rfl
      | crossJoin => exact hjoin fun n => by rw [extract, hroot]; rfl
      | gather => exact hgather fun n => by rw [extract, hroot]; rfl
      | cascadingGather => exact hgather fun n => by rw [extract, hroot]; rfl

/-- A subplan whose operators are those of a tree. -/
structure Subplan.Holds (plan : Subplan) (t : PlanTree) : Prop where
  nodes_eq : plan.nodes = t.cells upColumns joinColumns 0 fccInvalidId
  root_eq : plan.root = t.size - 1

/-- **The subplan of an accepted statement** holds its tree. -/
theorem Stmt.Accepted.holds {stmt : Stmt} {main : EntityMatch} {expand : Option EntityMatch}
    (h : stmt.Accepted main expand) {t : PlanTree} (ht : stmt.tree = some t)
    (hfilter : main.cmatches = [] → main.filterFunc = []) {plan : Subplan} (hplan : subplanInit stmt = some plan) :
    plan.Holds (.unary (.foreach stmt.system) t) := by
  obtain ⟨sync, hinit⟩ := h.subplanInit_eq ht hfilter
  rw [hplan] at hinit
  split_ifs at hinit with hroom
  obtain rfl := Option.some.inj hinit
  exact ⟨rfl, rfl⟩

/-- The walk over the trees of some subplans. -/
lemma extractSubplans_lists {plans : List Subplan} {ts : List PlanTree} (h : List.Forall₂ Subplan.Holds plans ts)
    (hv : v.Lists met) : ∃ v' : VarsExtr, v'.Lists (met ++ reachedAll ts met)
      ∧ ∀ depth, (∀ t ∈ ts, t.size ≤ depth) →
        plans.foldlM (fun v plan => extract plan.nodes depth plan.root v) v = some v' := by
  induction h generalizing v met with
  | nil => exact ⟨v, by rwa [reachedAll, List.append_nil], fun depth _ => rfl⟩
  | @cons plan t plans ts hplan hplans ih =>
      obtain ⟨v₁, hlists, hextract⟩ := extract_lists (laidOut_self _ _ t fccInvalidId) hv
      obtain ⟨v', hlists', hextract'⟩ := ih hlists
      refine ⟨v', by rwa [reachedAll, ← List.append_assoc], fun depth hdepth => ?_⟩
      have ht := hextract depth (hdepth t List.mem_cons_self)
      rw [Nat.zero_add, ← hplan.nodes_eq, ← hplan.root_eq] at ht
      rw [List.foldlM_cons, ht]
      exact hextract' depth fun t ht => hdepth t (List.mem_cons_of_mem _ ht)

end Tree

/-! ### Where something is used -/

/-- A use of a table by an operator. The filters by components that stand above it are known by the places of
their own uses. -/
structure Use where
  var : TableVar
  above : List ℕ

namespace PlanTree

/-- The uses of a tree, of which the first one has the place `n`. An operator comes before those below it, a left
child before a right one, and a reference table before what is gathered by it. -/
def uses : PlanTree → List ℕ → ℕ → List Use
  | .leaf .scan cols, above, _ => [⟨scanVar cols, above⟩]
  | .leaf .fetch _, _, _ => []
  | .unary (.foreach _) t, above, n | .unary (.predicateFilter _) t, above, n => uses t above n
  | .unary (.tagFilter tag _ _) t, above, n => ⟨.tag tag, above⟩ :: uses t above (n + 1)
  | .unary (.componentFilter filterType _ _) t, above, n =>
      ⟨.comp filterType.name, above⟩ :: uses t (above ++ [n]) (n + 1)
  | .binary .join l r, above, n | .binary .leftFilterJoin l r, above, n | .binary .crossJoin l r, above, n =>
      uses l above n ++ uses r above (n + (vars l).length)
  | .binary .gather t refTable, above, n | .binary .cascadingGather t refTable, above, n =>
      uses refTable above n ++ uses t above (n + (vars refTable).length)

end PlanTree

/-- The uses of some trees, one behind the other. -/
def usesFrom : List PlanTree → ℕ → List Use
  | [], _ => []
  | t :: ts, n => t.uses [] n ++ usesFrom ts (n + t.vars.length)

/-- What is used at a place. -/
def varAt (us : List Use) (k : ℕ) : Option TableVar := us[k]?.map Use.var

/-- **A use in sight**: no filter above it is by a component that is in sight before the filter. -/
def InSight (us : List Use) (k : ℕ) : Prop :=
  ∀ u ∈ us[k]?, ∀ f ∈ u.above, ∀ (_ : f < k) (j : ℕ) (_ : j < f), varAt us j = varAt us f → ¬ InSight us j
termination_by k
decreasing_by omega

/-- The component of the filter at `f` is not in sight before it. -/
def Unrepeated (us : List Use) (f : ℕ) : Prop := ∀ j < f, varAt us j = varAt us f → ¬ InSight us j

/-- A part of the uses, from the place `n` on. -/
def Segment (us : List Use) (n : ℕ) (l : List Use) : Prop := ∀ (j : ℕ) (u : Use), l[j]? = some u → us[n + j]? = some u

section Sight

variable {us l l' : List Use} {u : Use} {n k : ℕ}

lemma inSight_iff (hu : us[k]? = some u) : InSight us k ↔ ∀ f ∈ u.above, f < k → Unrepeated us f := by
  rw [InSight, hu]
  constructor
  · exact fun h f hf hlt j hj => h u rfl f hf hlt j hj
  · intro h u' hu' f hf hlt j hj
    obtain rfl := Option.some.inj hu'
    exact h f hf hlt j hj

lemma segment_cons : Segment us n (u :: l) ↔ us[n]? = some u ∧ Segment us (n + 1) l := by
  constructor
  · refine fun h => ⟨h 0 u rfl, fun j u' hu' => ?_⟩
    rw [Nat.add_assoc, Nat.add_comm 1]
    exact h (j + 1) u' hu'
  · rintro ⟨hu, hl⟩ j u' hu'
    cases j with
    | zero =>
        obtain rfl := Option.some.inj hu'
        exact hu
    | succ j =>
        have htail := hl j u' hu'
        rwa [Nat.add_assoc, Nat.add_comm 1] at htail

lemma segment_append : Segment us n (l ++ l') ↔ Segment us n l ∧ Segment us (n + l.length) l' := by
  induction l generalizing n with
  | nil =>
      have hnil : Segment us n [] := fun j u hu => by cases hu
      exact ⟨fun h => ⟨hnil, h⟩, And.right⟩
  | cons u l ih =>
      rw [List.cons_append, segment_cons, segment_cons, ih, List.length_cons, and_assoc, Nat.add_assoc,
        Nat.add_comm 1]

open Classical in
/-- What is in sight before a place. -/
noncomputable def seen (us : List Use) (n : ℕ) : List TableVar :=
  ((List.range n).filter fun k => InSight us k).filterMap (varAt us)

open Classical in
lemma mem_seen {i : TableVar} : i ∈ seen us n ↔ ∃ k < n, InSight us k ∧ varAt us k = some i := by
  simp only [seen, List.mem_filterMap, List.mem_filter, List.mem_range, decide_eq_true_eq, and_assoc]

open Classical in
lemma seen_succ_of_inSight (h : InSight us n) (hu : us[n]? = some u) : seen us (n + 1) = seen us n ++ [u.var] := by
  have hvar : varAt us n = some u.var := by rw [varAt, hu, Option.map_some]
  rw [seen, List.range_succ, List.filter_append, List.filterMap_append, List.filter_singleton, decide_eq_true h,
    cond_true, List.filterMap_cons_some hvar, List.filterMap_nil]
  rfl

open Classical in
lemma seen_succ_of_not (h : ¬ InSight us n) : seen us (n + 1) = seen us n := by
  rw [seen, List.range_succ, List.filter_append, List.filterMap_append, List.filter_singleton, decide_eq_false h,
    cond_false, List.filterMap_nil, List.append_nil]
  rfl

lemma PlanTree.length_uses (t : PlanTree) (above : List ℕ) (n : ℕ) : (t.uses above n).length = t.vars.length := by
  induction t generalizing above n with
  | leaf type cols => cases type <;> rfl
  | unary type t ih =>
      cases type with
      | foreach system => exact ih above n
      | predicateFilter decl => exact ih above n
      | tagFilter tag opType onColumn => exact congrArg (· + 1) (ih above (n + 1))
      | componentFilter filterType opType onColumn => exact congrArg (· + 1) (ih (above ++ [n]) (n + 1))
  | binary type l r ihl ihr =>
      cases type <;> simp only [uses, vars, List.length_append, ihl, ihr, Nat.add_comm]

/-- **Below a filter by a component that is repeated** nothing is in sight. -/
lemma seen_hidden (hl : ∀ u ∈ l, ∃ f ∈ u.above, f < n ∧ ¬ Unrepeated us f) (hseg : Segment us n l) :
    seen us (n + l.length) = seen us n := by
  induction l generalizing n with
  | nil => rfl
  | cons u l ih =>
      obtain ⟨hu, hrest⟩ := segment_cons.mp hseg
      obtain ⟨f, hf, hlt, hnot⟩ := hl u List.mem_cons_self
      have hhidden : ¬ InSight us n := fun h => hnot ((inSight_iff hu).mp h f hf hlt)
      rw [List.length_cons, Nat.add_comm l.length, ← Nat.add_assoc,
        ih (fun u hu => (hl u (List.mem_cons_of_mem _ hu)).imp fun f h => ⟨h.1, h.2.1.trans (Nat.lt_succ_self n), h.2.2⟩)
          hrest, seen_succ_of_not hhidden]

/-- The filters above a tree are above all its uses. -/
lemma PlanTree.above_subset (t : PlanTree) (above : List ℕ) (n : ℕ) : ∀ u ∈ t.uses above n, above ⊆ u.above := by
  induction t generalizing above n with
  | leaf type cols =>
      cases type with
      | scan =>
          intro u hu
          rw [List.mem_singleton.mp hu]
          exact List.Subset.refl above
      | fetch => exact fun u hu => (List.not_mem_nil hu).elim
  | unary type t ih =>
      cases type with
      | foreach system => exact ih above n
      | predicateFilter decl => exact ih above n
      | tagFilter tag opType onColumn =>
          exact List.forall_mem_cons.mpr ⟨List.Subset.refl above, ih above (n + 1)⟩
      | componentFilter filterType opType onColumn =>
          refine List.forall_mem_cons.mpr ⟨List.Subset.refl above, fun u hu => ?_⟩
          exact List.Subset.trans (List.subset_append_left above [n]) (ih (above ++ [n]) (n + 1) u hu)
  | binary type l r ihl ihr =>
      have hboth (n n' : ℕ) : ∀ u ∈ uses l above n ++ uses r above n', above ⊆ u.above :=
        List.forall_mem_append.mpr ⟨ihl above n, ihr above n'⟩
      have hboth' (n n' : ℕ) : ∀ u ∈ uses r above n ++ uses l above n', above ⊆ u.above :=
        List.forall_mem_append.mpr ⟨ihr above n, ihl above n'⟩
      cases type with
      | join => exact hboth _ _
      | leftFilterJoin => exact hboth _ _
      | crossJoin => exact hboth _ _
      | gather => exact hboth' _ _
      | cascadingGather => exact hboth' _ _

/-- **What is in sight is what the walk comes to.** -/
lemma seen_uses (t : PlanTree) {above : List ℕ} (hseg : Segment us n (t.uses above n))
    (habove : ∀ f ∈ above, f < n ∧ Unrepeated us f) :
    seen us (n + (PlanTree.vars t).length) = seen us n ++ t.reached (seen us n) := by
  induction t generalizing above n with
  | leaf type cols =>
      cases type with
      | scan =>
          obtain ⟨hu, -⟩ := segment_cons.mp hseg
          exact seen_succ_of_inSight ((inSight_iff hu).mpr fun f hf _ => (habove f hf).2) hu
      | fetch => exact (List.append_nil _).symm
  | unary type t ih =>
      have hnext (f : ℕ) (hf : f ∈ above) : f < n + 1 ∧ Unrepeated us f :=
        ⟨(habove f hf).1.trans (Nat.lt_succ_self n), (habove f hf).2⟩
      have hlen : n + ((PlanTree.vars t).length + 1) = n + 1 + (PlanTree.vars t).length := by omega
      cases type with
      | foreach system => exact ih hseg habove
      | predicateFilter decl => exact ih hseg habove
      | tagFilter tag opType onColumn =>
          obtain ⟨hu, hrest⟩ := segment_cons.mp hseg
          have hseen := seen_succ_of_inSight ((inSight_iff hu).mpr fun f hf _ => (habove f hf).2) hu
          rw [PlanTree.vars, List.length_cons, hlen, ih hrest hnext, hseen, PlanTree.reached, List.append_assoc,
            List.singleton_append]
      | componentFilter filterType opType onColumn =>
          obtain ⟨hu, hrest⟩ := segment_cons.mp hseg
          have hseen := seen_succ_of_inSight ((inSight_iff hu).mpr fun f hf _ => (habove f hf).2) hu
          have hvar : varAt us n = some (.comp filterType.name) := by rw [varAt, hu, Option.map_some]
          have hpassed : Unrepeated us n ↔ .comp filterType.name ∉ seen us n := by
            rw [Unrepeated, hvar, mem_seen]
            exact ⟨fun h hex => hex.elim fun j hj => h j hj.1 hj.2.2 hj.2.1, fun h j hj hv hs => h ⟨j, hj, hs, hv⟩⟩
          rw [PlanTree.vars, List.length_cons, hlen, PlanTree.reached]
          by_cases hmem : TableVar.comp filterType.name ∈ seen us n
          · -- the filter repeats the component, and hides what is below
            have hhidden : ∀ u ∈ PlanTree.uses t (above ++ [n]) (n + 1), ∃ f ∈ u.above, f < n + 1 ∧ ¬ Unrepeated us f :=
              fun u hu => ⟨n, PlanTree.above_subset t _ _ u hu (List.mem_append_right _ (List.mem_singleton_self n)),
                Nat.lt_succ_self n, fun h => hpassed.mp h hmem⟩
            rw [if_pos hmem, ← PlanTree.length_uses t (above ++ [n]) (n + 1), seen_hidden hhidden hrest, hseen]
          · have hbelow (f : ℕ) (hf : f ∈ above ++ [n]) : f < n + 1 ∧ Unrepeated us f := by
              rcases List.mem_append.mp hf with hf | hf
              · exact hnext f hf
              · rw [List.mem_singleton.mp hf]
                exact ⟨Nat.lt_succ_self n, hpassed.mpr hmem⟩
            rw [if_neg hmem, ih hrest hbelow, hseen, List.append_assoc, List.singleton_append]
  | binary type l r ihl ihr =>
      have htwo (first second : PlanTree) (h : Segment us n (first.uses above n
            ++ second.uses above (n + (PlanTree.vars first).length)))
          (ih₁ : ∀ {n : ℕ}, Segment us n (first.uses above n) → (∀ f ∈ above, f < n ∧ Unrepeated us f) →
            seen us (n + (PlanTree.vars first).length) = seen us n ++ first.reached (seen us n))
          (ih₂ : ∀ {n : ℕ}, Segment us n (second.uses above n) → (∀ f ∈ above, f < n ∧ Unrepeated us f) →
            seen us (n + (PlanTree.vars second).length) = seen us n ++ second.reached (seen us n)) :
          seen us (n + (PlanTree.vars first).length + (PlanTree.vars second).length)
            = seen us n ++ (first.reached (seen us n) ++ second.reached (seen us n ++ first.reached (seen us n))) := by
        obtain ⟨h₁, h₂⟩ := segment_append.mp h
        rw [PlanTree.length_uses] at h₂
        have hlater (f : ℕ) (hf : f ∈ above) : f < n + (PlanTree.vars first).length ∧ Unrepeated us f :=
          ⟨Nat.lt_add_right _ (habove f hf).1, (habove f hf).2⟩
        rw [ih₂ h₂ hlater, ih₁ h₁ habove, List.append_assoc]
      have hlen : n + (PlanTree.vars l ++ PlanTree.vars r).length
          = n + (PlanTree.vars l).length + (PlanTree.vars r).length := by rw [List.length_append, Nat.add_assoc]
      have hlen' : n + (PlanTree.vars l ++ PlanTree.vars r).length
          = n + (PlanTree.vars r).length + (PlanTree.vars l).length := by
        rw [List.length_append]
        omega
      rw [PlanTree.vars]
      cases type with
      | join => exact hlen ▸ htwo l r hseg ihl ihr
      | leftFilterJoin => exact hlen ▸ htwo l r hseg ihl ihr
      | crossJoin => exact hlen ▸ htwo l r hseg ihl ihr
      | gather => exact hlen' ▸ htwo r l hseg ihr ihl
      | cascadingGather => exact hlen' ▸ htwo r l hseg ihr ihl

/-- The same for some trees, one behind the other. -/
lemma seen_usesFrom (ts : List PlanTree) (hseg : Segment us n (usesFrom ts n)) :
    seen us (n + (usesFrom ts n).length) = seen us n ++ reachedAll ts (seen us n) := by
  induction ts generalizing n with
  | nil => exact (List.append_nil _).symm
  | cons t ts ih =>
      obtain ⟨ht, hts⟩ := segment_append.mp hseg
      rw [PlanTree.length_uses] at hts
      rw [usesFrom, List.length_append, PlanTree.length_uses, ← Nat.add_assoc, ih hts,
        seen_uses t ht fun f hf => (List.not_mem_nil hf).elim, reachedAll, List.append_assoc]

/-- **What the walk comes to** in some trees is what is in sight there. -/
theorem reachedAll_eq_seen (ts : List PlanTree) :
    reachedAll ts [] = seen (usesFrom ts 0) (usesFrom ts 0).length := by
  have hself : Segment (usesFrom ts 0) 0 (usesFrom ts 0) := fun j u hu => by rwa [Nat.zero_add]
  have hseen := seen_usesFrom ts hself
  rw [Nat.zero_add] at hseen
  exact hseen.symm

/-- What is in sight stands in sight somewhere. -/
lemma mem_reachedAll_iff {ts : List PlanTree} {i : TableVar} :
    i ∈ reachedAll ts [] ↔ ∃ k, InSight (usesFrom ts 0) k ∧ varAt (usesFrom ts 0) k = some i := by
  rw [reachedAll_eq_seen, mem_seen]
  constructor
  · exact fun h => h.imp fun k hk => hk.2
  · refine fun h => h.imp fun k hk => ⟨?_, hk⟩
    obtain ⟨u, hu, -⟩ := Option.map_eq_some_iff.mp hk.2
    exact (List.getElem?_eq_some_iff.mp hu).1

/-- **No tag twice**: at no two places in sight is the same tag used. -/
lemma nodup_tagNames_seen (n : ℕ) : (tagNames (seen us n)).Nodup ↔ ∀ j < n, ∀ k < n, InSight us j → InSight us k →
    ∀ tag, varAt us j = some (.tag tag) → varAt us k = some (.tag tag) → j = k := by
  have htag (i : TableVar) (tag : String) : i.tagName = some tag ↔ i = .tag tag := by
    cases i <;> simp [TableVar.tagName]
  rw [tagNames, seen, List.Nodup, List.pairwise_filterMap, List.pairwise_filterMap, List.pairwise_filter,
    List.pairwise_iff_getElem]
  simp only [List.length_range, List.getElem_range, decide_eq_true_eq, htag]
  constructor
  · intro h j hj k hk hsj hsk tag htj htk
    rcases Nat.lt_trichotomy j k with hlt | heq | hgt
    · exact (h j k hj hk hlt hsj hsk _ htj _ htk tag rfl tag rfl rfl).elim
    · exact heq
    · exact (h k j hk hj hgt hsk hsj _ htk _ htj tag rfl tag rfl rfl).elim
  · rintro h j k hj hk hlt hsj hsk i hi i' hi' tag rfl tag' rfl rfl
    exact hlt.ne (h j hj k hk hsj hsk tag hi hi')

end Sight

/-! ### When the declarations are right -/

/-- An operator of some tree uses it. -/
def Occurs (ts : List PlanTree) (i : TableVar) : Prop := ∃ t ∈ ts, i ∈ PlanTree.vars t

/-- What is used is found, and nothing else; it is found once; and its variable is its own. -/
structure VarsExtr.Declares (v : VarsExtr) (ts : List PlanTree) : Prop where
  complete : ∀ i, i ∈ v.vars ↔ Occurs ts i
  once : v.vars.Nodup
  apart : ∀ i j, Occurs ts i → Occurs ts j → i.varName = j.varName → i = j

/-- What stands below a filter by a component that is in sight before also stands elsewhere, in sight; no tag stands
at two places in sight; and no two names differ only in what `sanitize_name` does not keep apart. -/
structure Declarable (ts : List PlanTree) : Prop where
  in_sight : ∀ i, Occurs ts i → ∃ k, InSight (usesFrom ts 0) k ∧ varAt (usesFrom ts 0) k = some i
  tags_once : ∀ j k, InSight (usesFrom ts 0) j → InSight (usesFrom ts 0) k → ∀ tag,
    varAt (usesFrom ts 0) j = some (.tag tag) → varAt (usesFrom ts 0) k = some (.tag tag) → j = k
  comps_apart : ∀ a b, Occurs ts (.comp a) → Occurs ts (.comp b) → AlikeNames a b → a = b
  refs_apart : ∀ a b, Occurs ts (.ref a) → Occurs ts (.ref b) → AlikeNames a b → a = b

lemma varAt_lt {us : List Use} {k : ℕ} {i : TableVar} (h : varAt us k = some i) : k < us.length := by
  obtain ⟨u, hu, -⟩ := Option.map_eq_some_iff.mp h
  exact (List.getElem?_eq_some_iff.mp hu).1

/-- The tags that the walk comes to. -/
lemma nodup_tagNames_iff (ts : List PlanTree) : (tagNames (reachedAll ts [])).Nodup
    ↔ ∀ j k, InSight (usesFrom ts 0) j → InSight (usesFrom ts 0) k → ∀ tag,
      varAt (usesFrom ts 0) j = some (.tag tag) → varAt (usesFrom ts 0) k = some (.tag tag) → j = k := by
  rw [reachedAll_eq_seen, nodup_tagNames_seen]
  constructor
  · exact fun h j k hj hk tag htag htag' => h j (varAt_lt htag) k (varAt_lt htag') hj hk tag htag htag'
  · exact fun h j _ k _ hj hk tag htag htag' => h j k hj hk tag htag htag'

lemma PlanTree.reached_subset (t : PlanTree) (before : List TableVar) : t.reached before ⊆ t.vars := by
  induction t generalizing before with
  | leaf type cols => cases type <;> exact List.Subset.refl _
  | unary type t ih =>
      cases type with
      | foreach system => exact ih before
      | predicateFilter decl => exact ih before
      | tagFilter tag opType onColumn => exact List.cons_subset_cons _ (ih _)
      | componentFilter filterType opType onColumn =>
          rw [reached, vars]
          split_ifs
          · exact List.cons_subset_cons _ (List.nil_subset _)
          · exact List.cons_subset_cons _ (ih _)
  | binary type l r ihl ihr =>
      have hleft (before : List TableVar) := List.subset_append_of_subset_left (PlanTree.vars r) (ihl before)
      have hright (before : List TableVar) := List.subset_append_of_subset_right (PlanTree.vars l) (ihr before)
      cases type with
      | join => exact List.append_subset.mpr ⟨hleft _, hright _⟩
      | leftFilterJoin => exact List.append_subset.mpr ⟨hleft _, hright _⟩
      | crossJoin => exact List.append_subset.mpr ⟨hleft _, hright _⟩
      | gather => exact List.append_subset.mpr ⟨hright _, hleft _⟩
      | cascadingGather => exact List.append_subset.mpr ⟨hright _, hleft _⟩

lemma occurs_of_reached {ts : List PlanTree} {before : List TableVar} {i : TableVar} (h : i ∈ reachedAll ts before) :
    Occurs ts i := by
  induction ts generalizing before with
  | nil => cases h
  | cons t ts ih =>
      rcases List.mem_append.mp h with h | h
      · exact ⟨t, List.mem_cons_self, t.reached_subset before h⟩
      · obtain ⟨t', ht', hi⟩ := ih h
        exact ⟨t', List.mem_cons_of_mem _ ht', hi⟩

/-- The names of the variables are apart if the names that they are made of are. -/
lemma apart_iff (P : TableVar → Prop) : (∀ i j, P i → P j → i.varName = j.varName → i = j)
    ↔ (∀ a b, P (.comp a) → P (.comp b) → AlikeNames a b → a = b)
      ∧ ∀ a b, P (.ref a) → P (.ref b) → AlikeNames a b → a = b := by
  constructor
  · refine fun h => ⟨fun a b ha hb hab => ?_, fun a b ha hb hab => ?_⟩
    · exact TableVar.comp.inj (h _ _ ha hb ((TableVar.varName_comp_iff a b).mpr hab))
    · exact TableVar.ref.inj (h _ _ ha hb ((TableVar.varName_ref_iff a b).mpr hab))
  · rintro ⟨hcomps, hrefs⟩ i j hi hj hij
    have hstart := TableVar.start_eq_of_varName hij
    cases i with
    | comp a =>
        cases j with
        | comp b => exact congrArg _ (hcomps a b hi hj ((TableVar.varName_comp_iff a b).mp hij))
        | ref b => exact absurd hstart (by simp [TableVar.start])
        | tag b => exact absurd hstart (by simp [TableVar.start])
    | ref a =>
        cases j with
        | comp b => exact absurd hstart (by simp [TableVar.start])
        | ref b => exact congrArg _ (hrefs a b hi hj ((TableVar.varName_ref_iff a b).mp hij))
        | tag b => exact absurd hstart (by simp [TableVar.start])
    | tag a =>
        cases j with
        | comp b => exact absurd hstart (by simp [TableVar.start])
        | ref b => exact absurd hstart (by simp [TableVar.start])
        | tag b => exact congrArg _ ((TableVar.varName_tag_iff a b).mp hij)

/-- **The variables of the declarations** are pairwise different, and are those of what is used. -/
theorem VarsExtr.Declares.variables {v : VarsExtr} {ts : List PlanTree} (h : v.Declares ts) :
    (v.vars.map TableVar.varName).Nodup ∧ ∀ i, Occurs ts i → i.varName ∈ v.vars.map TableVar.varName := by
  constructor
  · refine h.once.map_on fun i hi j hj hij => ?_
    exact h.apart i j ((h.complete i).mp hi) ((h.complete j).mp hj) hij
  · exact fun i hi => List.mem_map_of_mem ((h.complete i).mpr hi)

/-- What the walk comes to is declared rightly where the trees can be declared. -/
lemma VarsExtr.Lists.declares_iff {v : VarsExtr} {ts : List PlanTree} (hlists : v.Lists (reachedAll ts [])) :
    v.Declares ts ↔ Declarable ts := by
  constructor
  · intro hdecl
    obtain ⟨hcomps, hrefs⟩ := (apart_iff _).mp hdecl.apart
    refine ⟨fun i hi => ?_, (nodup_tagNames_iff ts).mp (hlists.nodup_vars_iff.mp hdecl.once), hcomps, hrefs⟩
    exact mem_reachedAll_iff.mp ((hlists.mem_vars_iff i).mp ((hdecl.complete i).mpr hi))
  · intro hts
    refine ⟨fun i => ?_, hlists.nodup_vars_iff.mpr ((nodup_tagNames_iff ts).mpr hts.tags_once), ?_⟩
    · rw [hlists.mem_vars_iff]
      exact ⟨occurs_of_reached, fun hi => mem_reachedAll_iff.mpr (hts.in_sight i hi)⟩
    · exact (apart_iff _).mpr ⟨hts.comps_apart, hts.refs_apart⟩

/-- **Every variable is declared, once, and under a name of its own**, where what stands below a repeated filter by a
component also stands elsewhere, where no tag stands at two places in sight, and where no two names are alike. -/
theorem extract_declares_iff {plans : List Subplan} {ts : List PlanTree}
    (h : List.Forall₂ Subplan.Holds plans ts) : ∃ v : VarsExtr,
      (∀ depth, (∀ t ∈ ts, t.size ≤ depth) → extractSubplans depth plans = some v)
      ∧ (v.Declares ts ↔ Declarable ts) := by
  obtain ⟨v, hlists, hextract⟩ := extractSubplans_lists h VarsExtr.Lists.init
  rw [List.nil_append] at hlists
  exact ⟨v, hextract, hlists.declares_iff⟩

/-- The variables of a program that can be declared are identifiers of their own. -/
lemma exists_declarations {plans : List Subplan} {ts : List PlanTree} (h : List.Forall₂ Subplan.Holds plans ts)
    (hdecl : Declarable ts) (hnames : ∀ i, Occurs ts i → i.Writable) : ∃ v : VarsExtr,
      (∀ depth, (∀ t ∈ ts, t.size ≤ depth) → extractSubplans depth plans = some v)
      ∧ v.Declares ts ∧ ∀ i ∈ v.vars, IsIdentifier i.varName := by
  obtain ⟨v, hlists, hextract⟩ := extractSubplans_lists h VarsExtr.Lists.init
  rw [List.nil_append] at hlists
  have hdeclares := hlists.declares_iff.mpr hdecl
  refine ⟨v, hextract, hdeclares, fun i hi => (isIdentifier_varName_iff i).mpr ?_⟩
  exact hnames i ((hdeclares.complete i).mp hi)

/-- Where there are no filters by components, everything is in sight. -/
lemma inSight_of_plain {us : List Use} (h : ∀ u ∈ us, u.above = []) (k : ℕ) : InSight us k := by
  rw [InSight]
  intro u hu f hf
  rw [h u (List.mem_of_getElem? hu)] at hf
  cases hf

/-- The query `match<A>().has_tag("t").foreach<S>()`, where `S::run` takes an `A`. -/
def taggedQuery (name system : String) : Source :=
  .query (some [⟨⟨name⟩, none⟩]) [.hasTag (some "t")] ⟨⟨system⟩, [⟨⟨⟨name⟩, none⟩, false⟩], 0⟩ []

/-- The statement of `taggedQuery`. -/
def taggedStmt (name system : String) : Stmt :=
  ⟨.foreach, [⟨[⟨⟨name⟩, false, false⟩], [], [], ["t"], [], [], false, ""⟩],
    ⟨⟨system⟩, [⟨⟨name⟩, false, false⟩], 0⟩, defaultPriority⟩

/-- The tree of `taggedStmt`. -/
def taggedTree (name system : String) : PlanTree :=
  .unary (.foreach (taggedStmt name system).system)
    (.unary (.tagFilter "t" .has false) (.leaf .scan [⟨.component, ⟨name⟩, "", .readWrite⟩]))

/-- The subplan of `taggedStmt`. -/
def taggedPlan (name system : String) : Subplan :=
  ⟨(taggedTree name system).cells upColumns joinColumns 0 fccInvalidId, false, 2⟩

/-- The table of the component and the tag are declared. -/
theorem extract_declares_iff_tagged : ∃ v : VarsExtr,
    (∀ depth, (∀ t ∈ [taggedTree "A" "S"], t.size ≤ depth) → extractSubplans depth [taggedPlan "A" "S"] = some v)
    ∧ (v.Declares [taggedTree "A" "S"] ↔ Declarable [taggedTree "A" "S"]) :=
  extract_declares_iff (.cons ⟨rfl, rfl⟩ .nil)

/-- Two statements with the same tag. -/
theorem tag_redeclared : ¬ ∀ (plans : List Subplan) (ts : List PlanTree), List.Forall₂ Subplan.Holds plans ts →
    (∀ plan ∈ plans, ∃ source stmt,
      parse source = .ok stmt ∧ validate stmt = .ok () ∧ subplanInit stmt = some plan) →
    ∃ v : VarsExtr, (∀ depth, (∀ t ∈ ts, t.size ≤ depth) → extractSubplans depth plans = some v)
      ∧ v.Declares ts := by
  intro h
  have hmade : ∀ plan ∈ [taggedPlan "A" "S", taggedPlan "B" "T"], ∃ source stmt,
      parse source = .ok stmt ∧ validate stmt = .ok () ∧ subplanInit stmt = some plan := by
    intro plan hplan
    rcases List.mem_cons.mp hplan with rfl | hplan
    · exact ⟨taggedQuery "A" "S", taggedStmt "A" "S", rfl, rfl, by decide +kernel⟩
    · obtain rfl := List.mem_singleton.mp hplan
      exact ⟨taggedQuery "B" "T", taggedStmt "B" "T", rfl, rfl, by decide +kernel⟩
  obtain ⟨v, hv, hdecl⟩ := h _ [taggedTree "A" "S", taggedTree "B" "T"]
    (.cons ⟨rfl, rfl⟩ (.cons ⟨rfl, rfl⟩ .nil)) hmade
  have hfound : extractSubplans 3 [taggedPlan "A" "S", taggedPlan "B" "T"]
      = some ⟨["A", "B"], [], ["t", "t"]⟩ := by decide
  have hextract := (hv 3 (by decide)).symm.trans hfound
  obtain rfl := Option.some.inj hextract
  exact absurd hdecl.once (by decide)

end Furious
