import Mathlib.Tactic

/-!
Version chains, without memory.

What a reference holds: a root version and the newer versions, newest first. A
version is a timestamp and the contents, or nothing if the reference was freed.

* `Chain.lookup`: what a transaction of a given version sees;
* `Chain.cut`, `Chain.gc`: what collection leaves of a chain;
* `Chain.GcSafe`, `Chain.Collectable`: when folding a version does not release a
  null pointer, and when the root goes;
* `Chain.push`, `Chain.overwrite`, `Chain.touch`, `Chain.free`: a new version, a
  change of the newest one, and what the accesses of a writer do;
* `Chain.lookup_gc`: **collection is invisible from the cut-off on**;
* `Chain.Wf`: timestamps decrease along the chain and are committed, except those
  of one writer; each effect keeps it, and is invisible to older transactions;
* `Chain.Ranked`: timestamps decrease down to the root, and `Chain.Ranked.gc`,
  `Chain.Ranked.touch`, `Chain.Ranked.free`: **they still do after each effect**.
-/

namespace Furious

variable {α : Type}

/-- The root version and the versions that hang off it. -/
structure Chain (α : Type) where
  root : ℕ × Option α
  versions : List (ℕ × Option α)

namespace Chain

/-- The contents a transaction of version `v` sees: those of the first version
that is not newer, and of the root if all are. -/
def lookup (c : Chain α) (v : ℕ) : Option α :=
  ((c.versions.find? fun u => u.1 ≤ v).getD c.root).2

/-- The newest version. -/
def newest (c : Chain α) : ℕ × Option α := c.versions.head?.getD c.root

/-- The versions up to the first one with a timestamp up to `orv`. -/
def cut (orv : ℕ) : List (ℕ × Option α) → List (ℕ × Option α)
  | [] => []
  | u :: us => if u.1 ≤ orv then [u] else u :: cut orv us

/-- What collection leaves when it does not release the root. -/
def gc (c : Chain α) (orv : ℕ) : Chain α :=
  match cut orv c.versions with
  | [u] => if u.1 ≤ orv then ⟨u, []⟩ else ⟨c.root, [u]⟩
  | us => ⟨c.root, us⟩

/-- A new version in front. -/
def push (c : Chain α) (ts : ℕ) (x : Option α) : Chain α :=
  ⟨c.root, (ts, x) :: c.versions⟩

/-- The contents of the newest version are changed in place. -/
def overwrite (c : Chain α) (x : Option α) : Chain α :=
  match c.versions with
  | [] => ⟨(c.root.1, x), []⟩
  | u :: us => ⟨c.root, (u.1, x) :: us⟩

/-- A write access by the writer `w`: unless the newest version is its own, a copy
of it is put in front. -/
def touch (c : Chain α) (w : ℕ) : Chain α :=
  if c.newest.1 < w then c.push w c.newest.2 else c

/-- A free by the writer `w` with cut-off `orv`: a version without contents is put
in front of an old one, a newer one loses its contents. -/
def free (c : Chain α) (orv w : ℕ) : Chain α :=
  if c.newest.1 ≤ orv then c.push w none else c.overwrite none

/-- Folding a freed version finds data in the root to release. -/
def GcSafe (c : Chain α) (orv : ℕ) : Prop :=
  ∀ u, cut orv c.versions = [u] → u.1 ≤ orv → u.2 = none → c.root.2 ≠ none

/-- Collection releases the root. -/
def Collectable (c : Chain α) (orv : ℕ) : Prop :=
  (c.gc orv).versions = [] ∧ (c.gc orv).root.2 = none ∧ (c.gc orv).root.1 < orv

/-! ### Collection -/

/-- Collection keeps versions and adds none. -/
lemma cut_sublist (orv : ℕ) (us : List (ℕ × Option α)) : (cut orv us).Sublist us := by
  induction us with
  | nil => exact List.Sublist.refl _
  | cons u us ih =>
      rw [cut]
      split
      · exact (List.nil_sublist us).cons_cons u
      · exact ih.cons_cons u

/-- The newest version is not cut off. -/
lemma head?_cut (orv : ℕ) (us : List (ℕ × Option α)) : (cut orv us).head? = us.head? := by
  cases us with
  | nil => rfl
  | cons u us =>
      rw [cut]
      split <;> rfl

/-- Cutting loses nothing that can be found from the cut-off on. -/
lemma find?_cut {orv v : ℕ} (h : orv ≤ v) (us : List (ℕ × Option α)) :
    (cut orv us).find? (fun u => u.1 ≤ v) = us.find? fun u => u.1 ≤ v := by
  induction us with
  | nil => rfl
  | cons u us ih =>
      rw [cut]
      split
      · next hu => simp [hu.trans h]
      · simp only [List.find?_cons, ih]

/-- **Collection is invisible from the cut-off on.** -/
theorem lookup_gc (c : Chain α) {orv v : ℕ} (h : orv ≤ v) :
    (c.gc orv).lookup v = c.lookup v := by
  have hfind := find?_cut h c.versions
  rw [lookup, lookup, ← hfind, gc]
  split
  · next u hu =>
      rw [hu]
      split
      · next hle => simp [hle.trans h]
      · rfl
  · rfl

/-- Collection keeps the newest version. -/
lemma newest_gc (c : Chain α) (orv : ℕ) : (c.gc orv).newest = c.newest := by
  have h := head?_cut orv c.versions
  rw [newest, newest, ← h, gc]
  split
  · next u hu =>
      rw [hu]
      split <;> rfl
  · rfl

/-- The versions after collection were there before. -/
lemma versions_gc_sublist (c : Chain α) (orv : ℕ) : (c.gc orv).versions.Sublist c.versions := by
  refine List.Sublist.trans ?_ (cut_sublist orv c.versions)
  rw [gc]
  split
  · next u hu =>
      split
      · exact List.nil_sublist _
      · rw [hu]
  · exact List.Sublist.refl _

/-- The root after collection is the old one or a version up to the cut-off. -/
lemma root_gc (c : Chain α) (orv : ℕ) :
    (c.gc orv).root = c.root ∨ ((c.gc orv).root ∈ c.versions ∧ (c.gc orv).root.1 ≤ orv
      ∧ (c.gc orv).versions = []) := by
  rw [gc]
  split
  · next u hu =>
      split
      · next hle =>
          refine Or.inr ⟨(cut_sublist orv c.versions).subset ?_, hle, rfl⟩
          rw [hu]
          exact List.mem_cons_self
      · exact Or.inl rfl
  · exact Or.inl rfl

/-- If the newest version is at most the cut-off, only the root is left. -/
lemma versions_gc_of_le {c : Chain α} {orv : ℕ} (h : ∀ u, c.versions.head? = some u → u.1 ≤ orv) :
    (c.gc orv).versions = [] := by
  rw [gc]
  cases hv : c.versions with
  | nil => simp [cut]
  | cons u us =>
      have hu := h u (by rw [hv]; rfl)
      simp [cut, hu]

/-- The newest version decides whether the root goes. -/
theorem collectable_iff (c : Chain α) (orv : ℕ) :
    c.Collectable orv ↔ c.newest.2 = none ∧ c.newest.1 < orv := by
  have hnew := newest_gc c orv
  constructor
  · rintro ⟨hv, hd, hts⟩
    have hroot : (c.gc orv).newest = (c.gc orv).root := by
      rw [newest, hv]
      rfl
    rw [← hnew, hroot]
    exact ⟨hd, hts⟩
  · rintro ⟨hd, hts⟩
    have hv : (c.gc orv).versions = [] := by
      refine versions_gc_of_le fun u hu => ?_
      rw [newest, hu] at hts
      exact hts.le
    have hroot : (c.gc orv).root = c.newest := by
      rw [← hnew, newest, hv]
      rfl
    exact ⟨hv, by rw [hroot]; exact hd, by rw [hroot]; exact hts⟩

/-- Folding is safe if the newest version does not get folded into an empty root
without contents of its own. -/
lemma gcSafe_of_newest {c : Chain α} {orv : ℕ}
    (h : ∀ u, c.versions.head? = some u → u.1 ≤ orv → u.2 = none → c.root.2 ≠ none) :
    c.GcSafe orv := by
  intro u hu
  refine h u ?_
  rw [← head?_cut orv, hu]
  rfl

/-- A reference with contents is safe to collect, and is kept. -/
lemma gc_of_present {c : Chain α} (h : c.newest.2 ≠ none) (orv : ℕ) :
    c.GcSafe orv ∧ ¬ c.Collectable orv := by
  refine ⟨gcSafe_of_newest fun u hu _ hd => ?_, fun hc => h ((collectable_iff c orv).mp hc).1⟩
  rw [newest, hu] at h
  exact absurd hd h

/-! ### Writing -/

/-- Older transactions do not see a new version. -/
lemma lookup_push_of_lt (c : Chain α) {ts v : ℕ} (h : v < ts) (x : Option α) :
    (c.push ts x).lookup v = c.lookup v := by
  have : ¬ ts ≤ v := by omega
  simp [lookup, push, this]

/-- Transactions at least as new see it. -/
lemma lookup_push_of_le (c : Chain α) {ts v : ℕ} (h : ts ≤ v) (x : Option α) :
    (c.push ts x).lookup v = x := by
  simp [lookup, push, h]

/-- Older transactions do not see a change of the newest version. -/
lemma lookup_overwrite_of_lt {c : Chain α} {u : ℕ × Option α} {v : ℕ}
    (h : c.versions.head? = some u) (hv : v < u.1) (x : Option α) :
    (c.overwrite x).lookup v = c.lookup v := by
  obtain ⟨us, hus⟩ := List.head?_eq_some_iff.mp h
  have : ¬ u.1 ≤ v := by omega
  simp [lookup, overwrite, hus, this]

/-- Transactions at least as new see it. -/
lemma lookup_overwrite_of_le {c : Chain α} {u : ℕ × Option α} {v : ℕ}
    (h : c.versions.head? = some u) (hv : u.1 ≤ v) (x : Option α) :
    (c.overwrite x).lookup v = x := by
  obtain ⟨us, hus⟩ := List.head?_eq_some_iff.mp h
  simp [lookup, overwrite, hus, hv]

/-- The contents of the newest version after a change. -/
lemma newest_overwrite (c : Chain α) (x : Option α) : (c.overwrite x).newest.2 = x := by
  rw [overwrite]
  split <;> rfl

/-- A transaction newer than all versions sees the newest one. -/
lemma lookup_eq_newest {c : Chain α} {v : ℕ} (h : ∀ u ∈ c.versions, u.1 ≤ v) :
    c.lookup v = c.newest.2 := by
  rw [lookup, newest]
  cases hv : c.versions with
  | nil => rfl
  | cons u us =>
      have hu := h u (by rw [hv]; exact List.mem_cons_self)
      simp [hu]

/-- Chains along which the timestamps decrease, and are at most `last` except for
those of the writer `w`. -/
structure Wf (last w : ℕ) (c : Chain α) : Prop where
  decreasing : c.versions.Pairwise fun u v => v.1 < u.1
  root_le : c.root.1 ≤ last
  version_le : ∀ u ∈ c.versions, u.1 ≤ last ∨ u.1 = w

namespace Wf

variable {last w orv : ℕ} {c : Chain α}

/-- The newest version is the newest. -/
lemma le_newest (h : Wf last w c) : ∀ u ∈ c.versions, u.1 ≤ c.newest.1 := by
  intro u hu
  have hdec := h.decreasing
  rw [newest]
  cases hv : c.versions with
  | nil => simp [hv] at hu
  | cons v vs =>
      rw [hv] at hu hdec
      rcases List.mem_cons.mp hu with rfl | hu
      · exact le_rfl
      · exact ((List.pairwise_cons.mp hdec).1 u hu).le

/-- The newest version is committed or the writer's. -/
lemma newest_le (h : Wf last w c) : c.newest.1 ≤ last ∨ c.newest.1 = w := by
  rw [newest]
  cases hv : c.versions with
  | nil => exact Or.inl h.root_le
  | cons v vs => exact h.version_le v (by simp [hv])

/-- Without a version of the writer, all versions are committed. -/
lemma le_last (h : Wf last w c) (hw : c.newest.1 ≠ w) : ∀ u ∈ c.versions, u.1 ≤ last :=
  fun u hu => (h.le_newest u hu).trans (h.newest_le.resolve_right hw)

/-- A transaction as new as the writer sees the newest version. -/
lemma lookup_eq (h : Wf last w c) (hlw : last < w) : c.lookup w = c.newest.2 :=
  lookup_eq_newest fun u hu => (h.version_le u hu).elim (fun hl => hl.trans hlw.le) fun he => he.le

/-- Collection keeps chains well formed. -/
lemma gc (h : Wf last w c) (ho : orv ≤ last ∨ c.newest.1 ≠ w) : Wf last w (c.gc orv) where
  decreasing := h.decreasing.sublist (versions_gc_sublist c orv)
  root_le := by
    rcases root_gc c orv with hr | ⟨hmem, hle, -⟩
    · rw [hr]
      exact h.root_le
    · exact ho.elim hle.trans fun hw => h.le_last hw _ hmem
  version_le u hu := h.version_le u ((versions_gc_sublist c orv).subset hu)

/-- A version of the writer in front of older ones. -/
lemma push (h : Wf last w c) (hlt : c.newest.1 < w) (x : Option α) : Wf last w (c.push w x) where
  decreasing := List.pairwise_cons.mpr
    ⟨fun u hu => (h.le_newest u hu).trans_lt hlt, h.decreasing⟩
  root_le := h.root_le
  version_le u hu := by
    rcases List.mem_cons.mp hu with rfl | hu
    · exact Or.inr rfl
    · exact h.version_le u hu

/-- A change of the newest version. -/
lemma overwrite (h : Wf last w c) (x : Option α) : Wf last w (c.overwrite x) := by
  have hdec := h.decreasing
  have hver := h.version_le
  rw [Chain.overwrite]
  split
  · exact ⟨List.Pairwise.nil, h.root_le, by simp⟩
  · next u us hv =>
      rw [hv] at hdec hver
      refine ⟨List.pairwise_cons.mpr (List.pairwise_cons.mp hdec), h.root_le, fun v hmem => ?_⟩
      rcases List.mem_cons.mp hmem with rfl | hmem
      · exact hver u (by simp)
      · exact hver v (List.mem_cons_of_mem _ hmem)

/-- A write access keeps chains well formed. -/
lemma touch (h : Wf last w c) : Wf last w (c.touch w) := by
  rw [Chain.touch]
  split
  · next hlt => exact h.push hlt _
  · exact h

/-- After a write access the writer's own version is in front. -/
lemma head?_touch (h : Wf last w c) (hlw : last < w) :
    (c.touch w).versions.head? = some (w, c.newest.2) := by
  rw [Chain.touch]
  split
  · rfl
  · next hlt =>
      have hw : c.newest.1 = w := h.newest_le.resolve_left fun hle => hlt (hle.trans_lt hlw)
      cases hv : c.versions with
      | nil =>
          have hr := h.root_le
          rw [newest, hv] at hw
          simp only [List.head?_nil, Option.getD_none] at hw
          omega
      | cons u us =>
          rw [newest, hv] at hw ⊢
          simp only [List.head?_cons, Option.getD_some] at hw ⊢
          rw [← hw]

/-- Older transactions do not see a write access. -/
lemma lookup_touch_of_lt (c : Chain α) {v : ℕ} (hv : v < w) :
    (c.touch w).lookup v = c.lookup v := by
  rw [Chain.touch]
  split
  · exact lookup_push_of_lt c hv _
  · rfl

/-- The writer sees the same after a write access. -/
lemma lookup_touch (h : Wf last w c) (hlw : last < w) : (c.touch w).lookup w = c.lookup w := by
  rw [h.touch.lookup_eq hlw, h.lookup_eq hlw, newest, h.head?_touch hlw]
  rfl

/-- A free keeps chains well formed. -/
lemma free (h : Wf last w c) (hlt : c.newest.1 ≤ orv → c.newest.1 < w) : Wf last w (c.free orv w) := by
  rw [Chain.free]
  split
  · next hle => exact h.push (hlt hle) _
  · exact h.overwrite none

/-- Older transactions do not see the free of an old reference, or of the writer's
own version. -/
lemma lookup_free_of_lt (h : Wf last w c) (hlw : last < w)
    (hnew : c.newest.1 ≤ orv ∨ c.newest.1 = w) {v : ℕ} (hv : v < w) :
    (c.free orv w).lookup v = c.lookup v := by
  rw [Chain.free]
  split
  · exact lookup_push_of_lt c hv _
  · next hno =>
      have hw := hnew.resolve_left hno
      cases hvs : c.versions with
      | nil =>
          have hr := h.root_le
          rw [newest, hvs] at hw
          simp only [List.head?_nil, Option.getD_none] at hw
          omega
      | cons u us =>
          refine lookup_overwrite_of_lt (u := u) (by rw [hvs]; rfl) ?_ _
          rw [newest, hvs] at hw
          simp only [List.head?_cons, Option.getD_some] at hw
          omega

/-- The writer sees the free. -/
lemma lookup_free (h : Wf last w c) (hlw : last < w) : (c.free orv w).lookup w = none := by
  rw [Chain.free]
  split
  · exact lookup_push_of_le c le_rfl _
  · next hno =>
      rw [lookup_eq_newest, newest_overwrite]
      intro u hu
      rcases (h.overwrite none).version_le u hu with hle | he
      · exact hle.trans hlw.le
      · exact he.le

end Wf

/-! ### Timestamps along a chain -/

/-- The timestamps from the newest version to the root. -/
def stamps (c : Chain α) : List ℕ := c.versions.map Prod.fst ++ [c.root.1]

/-- The timestamps decrease along the chain, and none is above `top`. -/
structure Ranked (top : ℕ) (c : Chain α) : Prop where
  decreasing : c.stamps.Pairwise fun m n => n < m
  le : ∀ n ∈ c.stamps, n ≤ top

lemma newest_mem_stamps (c : Chain α) : c.newest.1 ∈ c.stamps := by
  rw [stamps, newest]
  cases c.versions <;> simp

/-- Collection adds no timestamp. -/
lemma stamps_gc_sublist (c : Chain α) (orv : ℕ) : (c.gc orv).stamps.Sublist c.stamps := by
  have hcut := (cut_sublist orv c.versions).map Prod.fst
  rw [stamps, stamps, gc]
  split
  · next u hu =>
      rw [hu] at hcut
      split
      · exact hcut.trans (List.sublist_append_left _ _)
      · exact hcut.append_right _
  · exact hcut.append_right _

lemma stamps_overwrite (c : Chain α) (x : Option α) : (c.overwrite x).stamps = c.stamps := by
  rw [stamps, stamps, overwrite]
  cases c.versions <;> rfl

/-- Writers leave the timestamp of the root alone. -/
lemma root_touch (c : Chain α) (w : ℕ) : (c.touch w).root = c.root := by
  rw [touch]
  split <;> rfl

@[inherit_doc root_touch]
lemma root_free (c : Chain α) (orv w : ℕ) : (c.free orv w).root.1 = c.root.1 := by
  rw [free, overwrite]
  split
  · rfl
  · split <;> rfl

/-- After a write access there are the same contents, in a version at least as new. -/
lemma newest_touch (c : Chain α) (w : ℕ) :
    (c.touch w).newest.2 = c.newest.2 ∧ c.newest.1 ≤ (c.touch w).newest.1 := by
  rw [touch]
  split
  · next hlt => exact ⟨rfl, hlt.le⟩
  · exact ⟨rfl, le_rfl⟩

/-- After a free there is nothing, in a version newer than the cut-off. -/
lemma newest_free (c : Chain α) {orv w : ℕ} (h : orv < w) :
    (c.free orv w).newest.2 = none ∧ orv < (c.free orv w).newest.1 := by
  rw [free]
  split
  · exact ⟨rfl, h⟩
  · next hlt =>
      have hts : (c.overwrite none).newest.1 = c.newest.1 := by
        rw [newest, newest, overwrite]
        cases c.versions <;> rfl
      exact ⟨newest_overwrite c none, hts ▸ not_le.mp hlt⟩

namespace Ranked

variable {top w orv : ℕ} {c c' : Chain α}

lemma mono (h : Ranked top c) (hle : top ≤ w) : Ranked w c where
  decreasing := h.decreasing
  le n hn := (h.le n hn).trans hle

lemma of_sublist (h : Ranked top c) (hsub : c'.stamps.Sublist c.stamps) : Ranked top c' where
  decreasing := h.decreasing.sublist hsub
  le n hn := h.le n (hsub.subset hn)

/-- The newest version is the newest. -/
lemma le_newest (h : Ranked top c) : ∀ n ∈ c.stamps, n ≤ c.newest.1 := by
  intro n hn
  have hdec := h.decreasing
  rw [stamps] at hn hdec
  rw [newest]
  cases hv : c.versions with
  | nil =>
      rw [hv, List.map_nil, List.nil_append, List.mem_singleton] at hn
      exact hn.le
  | cons u us =>
      rw [hv, List.map_cons, List.cons_append] at hn hdec
      rcases List.mem_cons.mp hn with rfl | hmem
      · exact le_rfl
      · exact ((List.pairwise_cons.mp hdec).1 n hmem).le

lemma version_le (h : Ranked top c) : ∀ u ∈ c.versions, u.1 ≤ top := fun u hu =>
  h.le u.1 (List.mem_append_left _ (List.mem_map_of_mem hu))

/-- **Collection keeps the order.** -/
theorem gc (h : Ranked top c) (orv : ℕ) : Ranked top (c.gc orv) := h.of_sublist (stamps_gc_sublist c orv)

/-- Collection makes the root newer. -/
lemma root_le_gc (h : Ranked top c) (orv : ℕ) : c.root.1 ≤ (c.gc orv).root.1 := by
  rcases root_gc c orv with hr | ⟨hmem, -, -⟩
  · rw [hr]
  · have hlt := (List.pairwise_append.mp h.decreasing).2.2
    exact (hlt _ (List.mem_map_of_mem hmem) _ (List.mem_singleton_self _)).le

lemma push (h : Ranked w c) (hlt : c.newest.1 < w) (x : Option α) : Ranked w (c.push w x) where
  decreasing := List.pairwise_cons.mpr ⟨fun n hn => (h.le_newest n hn).trans_lt hlt, h.decreasing⟩
  le := List.forall_mem_cons.mpr ⟨le_rfl, h.le⟩

/-- **A write access keeps the order.** -/
theorem touch (h : Ranked w c) : Ranked w (c.touch w) := by
  rw [Chain.touch]
  split
  · next hlt => exact h.push hlt _
  · exact h

/-- **A free keeps the order.** -/
theorem free (h : Ranked w c) (hlt : orv < w) : Ranked w (c.free orv w) := by
  rw [Chain.free]
  split
  · next hle => exact h.push (hle.trans_lt hlt) _
  · exact h.of_sublist (stamps_overwrite c none ▸ List.Sublist.refl _)

end Ranked

end Chain

end Furious
