import Mathlib.Tactic

/-!
Trees in an array, every vertex behind those below it.

A vertex has no, one or two children, and a value that it makes of theirs; its cell has the places
of its children and that of its parent.

* `OpTree`, `OpTree.value`, `OpTree.size`;
* `Cell`, `OpTree.cells`: a tree in an array;
* `InOrder`: an array in which every cell but one is listed by its parent, and by no other cell, and behind
  its children; `OpTree.inOrder`: **that of a tree is one**;
* `stackCells`: an array of trees that are not yet part of each other, the last one first, and
  `stackCells_unary`, `stackCells_binary`: **how it grows**;
* `LaidOut`: a tree as a part of an array.
-/

namespace Furious

/-- A tree; a leaf has its value. -/
inductive OpTree (L U B κ : Type*) where
  | leaf (a : L) (v : κ)
  | unary (a : U) (child : OpTree L U B κ)
  | binary (a : B) (left right : OpTree L U B κ)

/-- A vertex with the places of its children. -/
inductive Body (L U B : Type*) where
  | leaf (a : L)
  | unary (a : U) (child : ℕ)
  | binary (a : B) (left right : ℕ)
deriving DecidableEq, Repr

/-- A cell of the array. -/
structure Cell (L U B κ : Type*) where
  body : Body L U B
  parent : ℕ
  value : κ
deriving DecidableEq, Repr

variable {L U B κ : Type*}

/-- The places of the children. -/
def Body.children : Body L U B → List ℕ
  | leaf _ => []
  | unary _ child => [child]
  | binary _ left right => [left, right]

namespace OpTree

/-- The number of vertices. -/
def size : OpTree L U B κ → ℕ
  | leaf _ _ => 1
  | unary _ t => t.size + 1
  | binary _ l r => l.size + r.size + 1

lemma size_pos (t : OpTree L U B κ) : 0 < t.size := by
  cases t with
  | leaf a v => exact Nat.one_pos
  | unary a t => exact Nat.succ_pos _
  | binary a l r => exact Nat.succ_pos _

section Value

variable (up : U → κ → κ) (join : B → κ → κ → κ)

/-- The value of a tree, by `up` of that of the child, or by `join` of those of the children. -/
def value : OpTree L U B κ → κ
  | leaf _ v => v
  | unary a t => up a t.value
  | binary a l r => join a l.value r.value

/-- A tree in the cells from `o` on. The last cell is that of its root, whose parent is `p`. -/
def cells : OpTree L U B κ → ℕ → ℕ → List (Cell L U B κ)
  | leaf a v, _, p => [⟨.leaf a, p, v⟩]
  | unary a t, o, p =>
      t.cells o (o + t.size) ++ [⟨.unary a (o + t.size - 1), p, up a (t.value up join)⟩]
  | binary a l r, o, p =>
      l.cells o (o + l.size + r.size) ++ r.cells (o + l.size) (o + l.size + r.size)
        ++ [⟨.binary a (o + l.size - 1) (o + l.size + r.size - 1), p,
          join a (l.value up join) (r.value up join)⟩]

lemma length_cells (t : OpTree L U B κ) (o p : ℕ) : (t.cells up join o p).length = t.size := by
  induction t generalizing o p with
  | leaf a v => rfl
  | unary a t ih => rw [cells, List.length_append, ih, List.length_singleton, size]
  | binary a l r ihl ihr =>
      rw [cells, List.length_append, List.length_append, ihl, ihr, List.length_singleton, size]

/-- The root of a tree that is in the cells from `o` on. -/
def rootBody (o : ℕ) : OpTree L U B κ → Body L U B
  | leaf a _ => .leaf a
  | unary a t => .unary a (o + t.size - 1)
  | binary a l r => .binary a (o + l.size - 1) (o + l.size + r.size - 1)

/-- The cell of the root is the last one, and only it knows its parent. -/
lemma cells_eq_concat (t : OpTree L U B κ) (o : ℕ) : ∃ inner, ∀ p,
    t.cells up join o p = inner ++ [⟨t.rootBody o, p, t.value up join⟩] := by
  cases t with
  | leaf a v => exact ⟨[], fun p => rfl⟩
  | unary a t => exact ⟨_, fun p => rfl⟩
  | binary a l r => exact ⟨_, fun p => rfl⟩

/-! ### Parents and children -/

/-- An array with the root at `root`, whose parent is `top`. -/
structure InOrder (cs : List (Cell L U B κ)) (root top : ℕ) : Prop where
  root_lt : root < cs.length
  root_parent : ∀ c : Cell L U B κ, cs[root]? = some c → c.parent = top
  child_lt : ∀ (i : ℕ) (c : Cell L U B κ), cs[i]? = some c → ∀ k ∈ c.body.children, k < i
  parent_lists : ∀ (i : ℕ) (c : Cell L U B κ), cs[i]? = some c → i ≠ root →
    ∃ p, cs[c.parent]? = some p ∧ i ∈ p.body.children
  lists_parent : ∀ (j : ℕ) (p : Cell L U B κ), cs[j]? = some p → ∀ i ∈ p.body.children,
    ∃ c, cs[i]? = some c ∧ c.parent = j

/-- **Every cell but that of the root is listed by one cell.** -/
lemma InOrder.existsUnique {cs : List (Cell L U B κ)} {root top i : ℕ} (h : InOrder cs root top)
    (hi : i < cs.length) (hroot : i ≠ root) :
    ∃! j : ℕ, ∃ c : Cell L U B κ, cs[j]? = some c ∧ i ∈ c.body.children := by
  obtain ⟨c, hc, hlist⟩ := h.parent_lists i _ (List.getElem?_eq_getElem hi) hroot
  refine ⟨_, ⟨c, hc, hlist⟩, ?_⟩
  rintro j ⟨d, hd, hlist'⟩
  obtain ⟨e, he, hparent⟩ := h.lists_parent j d hd i hlist'
  rw [List.getElem?_eq_getElem hi] at he
  rw [← hparent, ← Option.some.inj he]

/-- The cells with their places. -/
def placed (t : OpTree L U B κ) (o p : ℕ) : List (Cell L U B κ × ℕ) := (t.cells up join o p).zipIdx o

variable {up join}

lemma placed_unary (a : U) (t : OpTree L U B κ) (o p : ℕ) : (unary a t).placed up join o p
    = t.placed up join o (o + t.size)
      ++ [(⟨.unary a (o + t.size - 1), p, up a (t.value up join)⟩, o + t.size)] := by
  rw [placed, cells, List.zipIdx_append, length_cells]
  rfl

lemma placed_binary (a : B) (l r : OpTree L U B κ) (o p : ℕ) : (binary a l r).placed up join o p
    = l.placed up join o (o + l.size + r.size) ++ r.placed up join (o + l.size) (o + l.size + r.size)
      ++ [(⟨.binary a (o + l.size - 1) (o + l.size + r.size - 1), p,
          join a (l.value up join) (r.value up join)⟩, o + l.size + r.size)] := by
  rw [placed, cells, List.zipIdx_append, List.zipIdx_append, List.length_append, length_cells, length_cells,
    Nat.add_assoc o l.size r.size]
  rfl

lemma root_placed (up : U → κ → κ) (join : B → κ → κ → κ) (t : OpTree L U B κ) (o p : ℕ) :
    ∃ body, (⟨body, p, t.value up join⟩, o + t.size - 1) ∈ t.placed up join o p := by
  cases t with
  | leaf a v => exact ⟨.leaf a, List.mem_singleton.mpr rfl⟩
  | unary a t =>
      rw [placed_unary, show o + (unary a t).size - 1 = o + t.size by rw [size]; omega]
      exact ⟨_, List.mem_append_right _ (List.mem_singleton.mpr rfl)⟩
  | binary a l r =>
      rw [placed_binary, show o + (binary a l r).size - 1 = o + l.size + r.size by rw [size]; omega]
      exact ⟨_, List.mem_append_right _ (List.mem_singleton.mpr rfl)⟩

lemma bounds_of_placed {t : OpTree L U B κ} {o p : ℕ} {c : Cell L U B κ × ℕ} (hc : c ∈ t.placed up join o p) :
    o ≤ c.2 ∧ c.2 < o + t.size := by
  obtain ⟨hle, hlt, -⟩ := List.mem_zipIdx hc
  rw [length_cells] at hlt
  exact ⟨hle, hlt⟩

/-- A cell comes behind its children, which are cells of the same tree that know it. -/
lemma child_placed {t : OpTree L U B κ} {o p : ℕ} {c : Cell L U B κ × ℕ} (hc : c ∈ t.placed up join o p)
    {k : ℕ} (hk : k ∈ c.1.body.children) :
    k < c.2 ∧ ∃ d ∈ t.placed up join o p, d.2 = k ∧ d.1.parent = c.2 := by
  induction t generalizing o p with
  | leaf a v =>
      obtain rfl := List.mem_singleton.mp hc
      cases hk
  | unary a t ih =>
      rw [placed_unary] at hc ⊢
      rcases List.mem_append.mp hc with hc | hc
      · obtain ⟨hlt, d, hd, hdk⟩ := ih hc
        exact ⟨hlt, d, List.mem_append_left _ hd, hdk⟩
      · obtain rfl := List.mem_singleton.mp hc
        obtain rfl := List.mem_singleton.mp hk
        have hpos := t.size_pos
        obtain ⟨body, hroot⟩ := t.root_placed up join o (o + t.size)
        exact ⟨by dsimp only; omega, _, List.mem_append_left _ hroot, rfl, rfl⟩
  | binary a l r ihl ihr =>
      rw [placed_binary] at hc ⊢
      rcases List.mem_append.mp hc with hc | hc
      · rcases List.mem_append.mp hc with hc | hc
        · obtain ⟨hlt, d, hd, hdk⟩ := ihl hc
          exact ⟨hlt, d, List.mem_append_left _ (List.mem_append_left _ hd), hdk⟩
        · obtain ⟨hlt, d, hd, hdk⟩ := ihr hc
          exact ⟨hlt, d, List.mem_append_left _ (List.mem_append_right _ hd), hdk⟩
      · obtain rfl := List.mem_singleton.mp hc
        have hposl := l.size_pos
        have hposr := r.size_pos
        rcases List.mem_cons.mp hk with rfl | hk
        · obtain ⟨body, hroot⟩ := l.root_placed up join o (o + l.size + r.size)
          exact ⟨by dsimp only; omega, _, List.mem_append_left _ (List.mem_append_left _ hroot), rfl, rfl⟩
        · obtain rfl := List.mem_singleton.mp hk
          obtain ⟨body, hroot⟩ := r.root_placed up join (o + l.size) (o + l.size + r.size)
          exact ⟨by dsimp only; omega, _, List.mem_append_left _ (List.mem_append_right _ hroot), rfl, rfl⟩

lemma parent_of_root {t : OpTree L U B κ} {o p : ℕ} {c : Cell L U B κ × ℕ} (hc : c ∈ t.placed up join o p)
    (hroot : c.2 = o + t.size - 1) : c.1.parent = p := by
  cases t with
  | leaf a v =>
      obtain rfl := List.mem_singleton.mp hc
      rfl
  | unary a t =>
      rw [placed_unary] at hc
      rw [size] at hroot
      rcases List.mem_append.mp hc with hc | hc
      · have hlt := (bounds_of_placed hc).2
        omega
      · obtain rfl := List.mem_singleton.mp hc
        rfl
  | binary a l r =>
      rw [placed_binary] at hc
      rw [size] at hroot
      rcases List.mem_append.mp hc with hc | hc
      · rcases List.mem_append.mp hc with hc | hc
        · have hlt := (bounds_of_placed hc).2
          omega
        · have hlt := (bounds_of_placed hc).2
          omega
      · obtain rfl := List.mem_singleton.mp hc
        rfl

/-- Every cell but that of the root is a child of its parent. -/
lemma parent_placed {t : OpTree L U B κ} {o p : ℕ} {c : Cell L U B κ × ℕ} (hc : c ∈ t.placed up join o p)
    (hroot : c.2 ≠ o + t.size - 1) :
    ∃ d ∈ t.placed up join o p, d.2 = c.1.parent ∧ c.2 ∈ d.1.body.children := by
  induction t generalizing o p with
  | leaf a v =>
      obtain rfl := List.mem_singleton.mp hc
      exact (hroot rfl).elim
  | unary a t ih =>
      rw [placed_unary] at hc ⊢
      rw [size] at hroot
      rcases List.mem_append.mp hc with hc | hc
      · by_cases hlast : c.2 = o + t.size - 1
        · refine ⟨_, List.mem_append_right _ (List.mem_singleton.mpr rfl), (parent_of_root hc hlast).symm, ?_⟩
          exact List.mem_singleton.mpr hlast
        · obtain ⟨d, hd, hdc⟩ := ih hc hlast
          exact ⟨d, List.mem_append_left _ hd, hdc⟩
      · obtain rfl := List.mem_singleton.mp hc
        exact (hroot rfl).elim
  | binary a l r ihl ihr =>
      rw [placed_binary] at hc ⊢
      rw [size] at hroot
      rcases List.mem_append.mp hc with hc | hc
      · rcases List.mem_append.mp hc with hc | hc
        · by_cases hlast : c.2 = o + l.size - 1
          · refine ⟨_, List.mem_append_right _ (List.mem_singleton.mpr rfl), (parent_of_root hc hlast).symm, ?_⟩
            exact List.mem_cons.mpr (.inl hlast)
          · obtain ⟨d, hd, hdc⟩ := ihl hc hlast
            exact ⟨d, List.mem_append_left _ (List.mem_append_left _ hd), hdc⟩
        · by_cases hlast : c.2 = o + l.size + r.size - 1
          · refine ⟨_, List.mem_append_right _ (List.mem_singleton.mpr rfl), (parent_of_root hc hlast).symm, ?_⟩
            exact List.mem_cons_of_mem _ (List.mem_singleton.mpr hlast)
          · obtain ⟨d, hd, hdc⟩ := ihr hc hlast
            exact ⟨d, List.mem_append_left _ (List.mem_append_right _ hd), hdc⟩
      · obtain rfl := List.mem_singleton.mp hc
        exact (hroot (by dsimp only; omega)).elim

lemma mem_placed_zero {t : OpTree L U B κ} {p i : ℕ} {c : Cell L U B κ} :
    (c, i) ∈ t.placed up join 0 p ↔ (t.cells up join 0 p)[i]? = some c :=
  List.mk_mem_zipIdx_iff_getElem?

variable (up join)

/-- **The array of a tree.** -/
theorem inOrder (t : OpTree L U B κ) (top : ℕ) : InOrder (t.cells up join 0 top) (t.size - 1) top where
  root_lt := by
    rw [length_cells]
    exact Nat.sub_lt t.size_pos Nat.one_pos
  root_parent c hc := parent_of_root (mem_placed_zero.mpr hc) (by rw [Nat.zero_add])
  child_lt i c hc k hk := (child_placed (mem_placed_zero.mpr hc) hk).1
  parent_lists i c hc hi := by
    obtain ⟨d, hd, hparent, hlist⟩ := parent_placed (mem_placed_zero.mpr hc) (by rwa [Nat.zero_add])
    exact ⟨d.1, hparent ▸ mem_placed_zero.mp hd, hlist⟩
  lists_parent j p hp i hi := by
    obtain ⟨-, d, hd, rfl, hparent⟩ := child_placed (mem_placed_zero.mpr hp) hi
    exact ⟨d.1, mem_placed_zero.mp hd, hparent⟩

end Value

end OpTree

/-! ### Trees that are not yet part of each other -/

/-- The number of cells of some trees. -/
def stackSize : List (OpTree L U B κ) → ℕ
  | [] => 0
  | t :: below => stackSize below + t.size

lemma stackSize_singleton (t : OpTree L U B κ) : stackSize [t] = t.size := Nat.zero_add _

section Stack

variable (up : U → κ → κ) (join : B → κ → κ → κ) (top : ℕ)

/-- The cells of some trees, the last one first. -/
def stackCells : List (OpTree L U B κ) → List (Cell L U B κ)
  | [] => []
  | t :: below => stackCells below ++ t.cells up join (stackSize below) top

lemma length_stackCells (ts : List (OpTree L U B κ)) : (stackCells up join top ts).length = stackSize ts := by
  induction ts with
  | nil => rfl
  | cons t below ih => rw [stackCells, List.length_append, ih, OpTree.length_cells, stackSize]

/-- A cell gets another parent. -/
def Cell.reparent (p : ℕ) (c : Cell L U B κ) : Cell L U B κ := { c with parent := p }

lemma modify_of_eq {α : Type*} (f : α → α) (pre post : List α) (c : α) {i : ℕ} (hi : i = pre.length) :
    (pre ++ c :: post).modify i f = pre ++ f c :: post := by
  subst hi
  induction pre with
  | nil => rfl
  | cons a pre ih => rw [List.cons_append, List.length_cons, List.modify_succ_cons, ih, List.cons_append]

variable {up join top}

lemma getElem?_of_eq {α : Type*} {l pre post : List α} {c : α} {i : ℕ} (hl : l = pre ++ c :: post)
    (hi : i = pre.length) : l[i]? = some c := by
  rw [hl, hi, List.getElem?_append_right le_rfl, Nat.sub_self, List.getElem?_cons_zero]

/-- The root of a tree among other cells, and what it becomes with another parent. -/
lemma root_of_cells (pre post : List (Cell L U B κ)) (t : OpTree L U B κ) {o i : ℕ} (p q : ℕ)
    (hi : i + 1 = pre.length + t.size) :
    (pre ++ t.cells up join o p ++ post)[i]? = some ⟨t.rootBody o, p, t.value up join⟩
    ∧ (pre ++ t.cells up join o p ++ post).modify i (Cell.reparent q) = pre ++ t.cells up join o q ++ post := by
  obtain ⟨inner, hcells⟩ := t.cells_eq_concat up join o
  have hsize : inner.length + 1 = t.size := by
    rw [← t.length_cells up join o p, hcells, List.length_append, List.length_singleton]
  have hplace : i = (pre ++ inner).length := by
    rw [List.length_append]
    omega
  have hlast : ∀ p, pre ++ t.cells up join o p ++ post
      = (pre ++ inner) ++ ⟨t.rootBody o, p, t.value up join⟩ :: post := by
    intro p
    rw [hcells, ← List.append_assoc, List.append_assoc _ _ post, List.singleton_append]
  refine ⟨getElem?_of_eq (hlast p) hplace, ?_⟩
  rw [hlast, hlast, modify_of_eq _ _ _ _ hplace]
  rfl

/-- **A vertex above the last tree.** -/
lemma stackCells_unary (a : U) (t : OpTree L U B κ) (below : List (OpTree L U B κ)) :
    stackCells up join top (.unary a t :: below)
      = stackCells up join top below ++ t.cells up join (stackSize below) (stackSize (t :: below))
        ++ [⟨.unary a (stackSize (t :: below) - 1), top, up a (t.value up join)⟩] :=
  (List.append_assoc _ _ _).symm

/-- **A vertex above the last two trees.** -/
lemma stackCells_binary (a : B) (l r : OpTree L U B κ) (below : List (OpTree L U B κ)) :
    stackCells up join top (.binary a l r :: below)
      = stackCells up join top below
        ++ l.cells up join (stackSize below) (stackSize (r :: l :: below))
        ++ r.cells up join (stackSize (l :: below)) (stackSize (r :: l :: below))
        ++ [⟨.binary a (stackSize (l :: below) - 1) (stackSize (r :: l :: below) - 1), top,
          join a (l.value up join) (r.value up join)⟩] := by
  rw [stackCells, OpTree.cells, ← List.append_assoc, ← List.append_assoc]
  rfl

end Stack

/-! ### A tree as a part of an array -/

section LaidOut

variable (up : U → κ → κ) (join : B → κ → κ → κ)

/-- The cells from `o` on are those of a tree. -/
def LaidOut (cs : List (Cell L U B κ)) (t : OpTree L U B κ) (o p : ℕ) : Prop :=
  ∃ pre post, cs = pre ++ t.cells up join o p ++ post ∧ pre.length = o

variable {up join} {cs : List (Cell L U B κ)} {o p : ℕ}

lemma laidOut_self (up : U → κ → κ) (join : B → κ → κ → κ) (t : OpTree L U B κ) (p : ℕ) :
    LaidOut up join (t.cells up join 0 p) t 0 p :=
  ⟨[], [], (List.append_nil _).symm, rfl⟩

lemma LaidOut.leaf {a : L} {v : κ} (h : LaidOut up join cs (.leaf a v) o p) : cs[o]? = some ⟨.leaf a, p, v⟩ := by
  obtain ⟨pre, post, hcs, ho⟩ := h
  rw [OpTree.cells, List.append_assoc, List.singleton_append] at hcs
  exact getElem?_of_eq hcs ho.symm

lemma LaidOut.unary {a : U} {t : OpTree L U B κ} (h : LaidOut up join cs (.unary a t) o p) :
    cs[o + t.size]? = some ⟨.unary a (o + t.size - 1), p, up a (t.value up join)⟩
    ∧ LaidOut up join cs t o (o + t.size) := by
  obtain ⟨pre, post, hcs, ho⟩ := h
  rw [OpTree.cells, ← List.append_assoc, List.append_assoc _ _ post, List.singleton_append] at hcs
  refine ⟨getElem?_of_eq hcs ?_, pre, _, hcs, ho⟩
  rw [List.length_append, ho, OpTree.length_cells]

lemma LaidOut.binary {a : B} {l r : OpTree L U B κ} (h : LaidOut up join cs (.binary a l r) o p) :
    cs[o + l.size + r.size]? = some ⟨.binary a (o + l.size - 1) (o + l.size + r.size - 1), p,
      join a (l.value up join) (r.value up join)⟩
    ∧ LaidOut up join cs l o (o + l.size + r.size)
    ∧ LaidOut up join cs r (o + l.size) (o + l.size + r.size) := by
  obtain ⟨pre, post, hcs, ho⟩ := h
  rw [OpTree.cells, ← List.append_assoc, ← List.append_assoc, List.append_assoc _ _ post,
    List.singleton_append] at hcs
  have hleft := hcs.trans (List.append_assoc _ _ _)
  refine ⟨getElem?_of_eq hcs ?_, ⟨pre, _, hleft, ho⟩, ⟨pre ++ _, _, hcs, ?_⟩⟩
  · rw [List.length_append, List.length_append, ho, OpTree.length_cells, OpTree.length_cells]
  · rw [List.length_append, ho, OpTree.length_cells]

end LaidOut

end Furious
