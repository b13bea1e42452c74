import Furious.Tx.System

/-!
What the transactional memory is for, as a machine of its own.

Every running transaction has a private view of all references, taken from the
committed contents when it begins; a writer changes only its own view, and its
commit makes that view the committed contents. No version, timestamp or
collection appears here: this is the specification the code is compared with.

* `Snapshots`, `Snapshots.step`: the machine;
* `Snapshots.Legal`: the calls the interface admits, by its assertions: a handle
  is begun when it is not running, there is one writer at a time, only writers
  allocate, write and free, a reference is allocated once and before its use, and
  collection is forced only when nothing runs;
* `Snapshots.answer`, `Output.answer`: what an access has to report, and what it
  does;
* `Snapshots.session_eq_of_not_commit`: **a running reader keeps its view**,
  whatever others do;
* `Snapshots.Freed`: what is freed stays freed.
-/

namespace Furious

variable {α : Type}

namespace Tx

/-- What a running transaction sees. -/
structure Session (α : Type) where
  txType : TxType
  view : ℕ → Option α

/-- The running transactions in the order in which they began, their sessions,
the committed contents and the references in use. -/
structure Snapshots (α : Type) where
  running : List ℕ
  session : ℕ → Session α
  committed : ℕ → Option α
  allocated : ℕ → Bool

namespace Snapshots

/-- Nothing runs and nothing is stored. -/
def init : Snapshots α where
  running := []
  session := fun _ => ⟨.readOnly, fun _ => none⟩
  committed := fun _ => none
  allocated := fun _ => false

/-- A change of one reference in the view of one transaction. -/
def setView (a : Snapshots α) (tx r : ℕ) (x : Option α) : Snapshots α :=
  let view := Function.update (a.session tx).view r x
  { a with session := Function.update a.session tx ⟨(a.session tx).txType, view⟩ }

/-- One call. -/
def step (a : Snapshots α) : Step α → Snapshots α
  | .begin tx txtype =>
      { a with
        running := a.running ++ [tx]
        session := Function.update a.session tx ⟨txtype, a.committed⟩ }
  | .commit tx =>
      { a with
        running := a.running.erase tx
        committed :=
          if (a.session tx).txType = .readWrite then (a.session tx).view else a.committed }
  | .alloc tx r x =>
      { a.setView tx r (some x) with allocated := Function.update a.allocated r true }
  | .read _ _ _ _ => a
  | .write tx _ r f => a.setView tx r (((a.session tx).view r).map f)
  | .free tx _ r => a.setView tx r none
  | .gc _ _ => a

/-- A sequence of calls. -/
def run (a : Snapshots α) (sts : List (Step α)) : Snapshots α := sts.foldl step a

/-- A running writer. -/
def Writer (a : Snapshots α) (tx : ℕ) : Prop :=
  tx ∈ a.running ∧ (a.session tx).txType = .readWrite

/-- The calls that the interface admits. -/
def Legal (a : Snapshots α) : Step α → Prop
  | .begin tx txtype =>
      tx ∉ a.running ∧ (txtype = .readWrite → ∀ w ∈ a.running, (a.session w).txType = .readOnly)
  | .commit tx => tx ∈ a.running
  | .alloc tx r _ => a.Writer tx ∧ a.allocated r = false
  | .read tx _ r _ => tx ∈ a.running ∧ a.allocated r = true
  | .write tx _ r _ => a.Writer tx ∧ a.allocated r = true
  | .free tx _ r => a.Writer tx ∧ a.allocated r = true ∧ ((a.session tx).view r).isSome = true
  | .gc _ force => force = true → a.running = []

/-- What an access has to find: the view of the transaction. -/
def answer (a : Snapshots α) : Step α → Option (Option α)
  | .read tx _ r _ => some ((a.session tx).view r)
  | .write tx _ r _ => some ((a.session tx).view r)
  | _ => none

/-- A sequence of legal calls. -/
def LegalRun (a : Snapshots α) : List (Step α) → Prop
  | [] => True
  | st :: sts => a.Legal st ∧ LegalRun (a.step st) sts

/-- What the accesses of a sequence of calls have to find. -/
def answers (a : Snapshots α) : List (Step α) → List (Option (Option α))
  | [] => []
  | st :: sts => a.answer st :: answers (a.step st) sts

instance decidableLegal (a : Snapshots α) (st : Step α) : Decidable (a.Legal st) :=
  match st with
  | .begin _ _ => inferInstanceAs (Decidable (_ ∧ (_ → _)))
  | .commit _ => inferInstanceAs (Decidable (_ ∈ _))
  | .alloc _ _ _ => inferInstanceAs (Decidable ((_ ∧ _) ∧ _))
  | .read _ _ _ _ => inferInstanceAs (Decidable (_ ∧ _))
  | .write _ _ _ _ => inferInstanceAs (Decidable ((_ ∧ _) ∧ _))
  | .free _ _ _ => inferInstanceAs (Decidable ((_ ∧ _) ∧ _ ∧ _))
  | .gc _ _ => inferInstanceAs (Decidable (_ → _))

instance decidableLegalRun : ∀ (a : Snapshots α) (sts : List (Step α)), Decidable (a.LegalRun sts)
  | _, [] => isTrue trivial
  | a, st :: sts =>
      have := decidableLegalRun (a.step st) sts
      inferInstanceAs (Decidable (a.Legal st ∧ (a.step st).LegalRun sts))

lemma run_append (a : Snapshots α) (sts sts' : List (Step α)) :
    a.run (sts ++ sts') = (a.run sts).run sts' := List.foldl_append

lemma legalRun_append {sts sts' : List (Step α)} : ∀ {a : Snapshots α},
    a.LegalRun (sts ++ sts') ↔ a.LegalRun sts ∧ (a.run sts).LegalRun sts' := by
  induction sts with
  | nil => simp [LegalRun, run]
  | cons st sts ih =>
      intro a
      rw [List.cons_append, LegalRun, LegalRun, ih, and_assoc]
      rfl

lemma answers_append {sts sts' : List (Step α)} : ∀ {a : Snapshots α},
    a.answers (sts ++ sts') = a.answers sts ++ (a.run sts).answers sts' := by
  induction sts with
  | nil => simp [answers, run]
  | cons st sts ih =>
      intro a
      rw [List.cons_append, answers, answers, ih]
      rfl

lemma length_answers : ∀ (a : Snapshots α) (sts : List (Step α)),
    (a.answers sts).length = sts.length
  | _, [] => rfl
  | a, st :: sts => congrArg (· + 1) (length_answers (a.step st) sts)

/-- The answer at a place of a sequence. -/
lemma getElem?_answers {a : Snapshots α} {sts sts' : List (Step α)} {st : Step α} :
    (a.answers (sts ++ st :: sts'))[sts.length]? = some ((a.run sts).answer st) := by
  rw [answers_append, List.getElem?_append_right (length_answers a sts).le, length_answers,
    Nat.sub_self]
  rfl

/-! ### What holds along a run -/

/-- What legal calls preserve holds at the end of a run. -/
theorem invariant {P : Snapshots α → Prop} {sts : List (Step α)} : ∀ {a : Snapshots α},
    (∀ a, ∀ st ∈ sts, P a → a.Legal st → P (a.step st)) → P a → a.LegalRun sts → P (a.run sts) := by
  induction sts with
  | nil => exact fun _ h _ => h
  | cons st sts ih =>
      intro a hstep h hl
      exact ih (fun a st' hmem => hstep a st' (List.mem_cons_of_mem _ hmem))
        (hstep a st List.mem_cons_self h hl.1) hl.2

/-- There is at most one running writer. -/
def OneWriter (a : Snapshots α) : Prop := ∀ w w', a.Writer w → a.Writer w' → w = w'

lemma writer_setView {a : Snapshots α} {tx r w : ℕ} {x : Option α} :
    (a.setView tx r x).Writer w ↔ a.Writer w := by
  rcases eq_or_ne w tx with rfl | hne
  · simp [Writer, setView]
  · simp [Writer, setView, Function.update_of_ne hne]

/-- Writers are begun, never made. -/
lemma writer_of_step {a : Snapshots α} {st : Step α} {w : ℕ} (h : (a.step st).Writer w) :
    a.Writer w ∨ st = .begin w .readWrite := by
  cases st with
  | begin tx txtype =>
      obtain ⟨hmem, hty⟩ := h
      rcases eq_or_ne w tx with rfl | hne
      · refine Or.inr ?_
        obtain rfl : txtype = .readWrite := by simpa [step] using hty
        rfl
      · simp only [step, Function.update_of_ne hne] at hty
        exact Or.inl ⟨by simpa [step, hne] using hmem, hty⟩
  | commit tx => exact Or.inl ⟨List.mem_of_mem_erase h.1, h.2⟩
  | alloc tx r x => exact Or.inl (writer_setView.mp h)
  | write tx c r f => exact Or.inl (writer_setView.mp h)
  | free tx c r => exact Or.inl (writer_setView.mp h)
  | read tx c r w => exact Or.inl h
  | gc c f => exact Or.inl h

lemma oneWriter_step {a : Snapshots α} {st : Step α} (h : a.OneWriter) (hl : a.Legal st) :
    (a.step st).OneWriter := by
  have hno : ∀ {tx w}, st = .begin tx .readWrite → ¬ a.Writer w := by
    rintro tx w rfl hw
    have := hl.2 rfl w hw.1
    rw [hw.2] at this
    exact absurd this (by simp)
  intro w w' hw hw'
  rcases writer_of_step hw with hw | hb
  · rcases writer_of_step hw' with hw' | hb'
    · exact h w w' hw hw'
    · exact absurd hw (hno hb')
  · rcases writer_of_step hw' with hw' | hb'
    · exact absurd hw' (hno hb)
    · rw [hb] at hb'
      injection hb'

/-- **A reader keeps its view**, whatever others do. -/
theorem session_eq_of_not_commit {a : Snapshots α} {sts : List (Step α)} {tx : ℕ}
    (htx : tx ∈ a.running) (hty : (a.session tx).txType = .readOnly) (hl : a.LegalRun sts)
    (hno : ∀ st ∈ sts, st ≠ .commit tx) :
    tx ∈ (a.run sts).running ∧ (a.run sts).session tx = a.session tx := by
  refine invariant (P := fun b => tx ∈ b.running ∧ b.session tx = a.session tx)
    (fun b st hmem h hlb => ?_) ⟨htx, rfl⟩ hl
  obtain ⟨hb, hs⟩ := h
  have hwriter : ∀ w, b.Writer w → tx ≠ w := by
    rintro w hw rfl
    have := hw.2
    rw [hs, hty] at this
    exact absurd this (by simp)
  cases st with
  | begin w txtype =>
      have hne : tx ≠ w := by
        rintro rfl
        exact hlb.1 hb
      exact ⟨List.mem_append_left _ hb, (Function.update_of_ne hne _ _).trans hs⟩
  | commit w =>
      have hne : tx ≠ w := by
        rintro rfl
        exact hno _ hmem rfl
      exact ⟨(List.mem_erase_of_ne hne).mpr hb, hs⟩
  | alloc w r x => exact ⟨hb, (Function.update_of_ne (hwriter w hlb.1) _ _).trans hs⟩
  | read w c r wr => exact ⟨hb, hs⟩
  | write w c r f => exact ⟨hb, (Function.update_of_ne (hwriter w hlb.1) _ _).trans hs⟩
  | free w c r => exact ⟨hb, (Function.update_of_ne (hwriter w hlb.1) _ _).trans hs⟩
  | gc c f => exact ⟨hb, hs⟩

/-- The reference `r` is gone for good: nothing is committed, and no writer sees
anything through it. -/
structure Freed (r : ℕ) (a : Snapshots α) : Prop where
  allocated : a.allocated r = true
  committed : a.committed r = none
  view : ∀ w, a.Writer w → (a.session w).view r = none

/-- What a change of a view does to another transaction or reference, or to a view
without contents. -/
lemma setView_view {a : Snapshots α} {tx q r k : ℕ} {x : Option α}
    (h : (a.session k).view r = none) (hx : q = r → x = none) :
    ((a.setView tx q x).session k).view r = none := by
  rcases eq_or_ne k tx with rfl | hne
  · rcases eq_or_ne r q with rfl | hq
    · simp [setView, hx rfl]
    · simpa [setView, Function.update_of_ne hq] using h
  · simpa [setView, Function.update_of_ne hne] using h

/-- A legal change of a view shows nothing new through a reference that is in use
and shows nothing. -/
lemma step_view {a : Snapshots α} {st : Step α} {r k : ℕ} (hl : a.Legal st)
    (hall : a.allocated r = true) (h : (a.session k).view r = none)
    (hnew : ∀ txtype, st = .begin k txtype → a.committed r = none)
    (hw : ∀ w, a.Writer w → w = k ∨ (a.session w).view r = none) :
    ((a.step st).session k).view r = none := by
  cases st with
  | begin tx txtype =>
      rcases eq_or_ne k tx with rfl | hne
      · simpa [step] using hnew txtype rfl
      · simpa [step, Function.update_of_ne hne] using h
  | commit tx => exact h
  | alloc tx q x =>
      refine setView_view h fun hq => ?_
      have := hl.2
      rw [hq, hall] at this
      exact absurd this (by simp)
  | read tx c q w => exact h
  | write tx c q f =>
      refine setView_view h fun hq => ?_
      subst hq
      rcases hw tx hl.1 with rfl | hv
      · rw [h]
        rfl
      · rw [hv]
        rfl
  | free tx c q => exact setView_view h fun _ => rfl
  | gc c f => exact h

lemma step_allocated {a : Snapshots α} (st : Step α) {r : ℕ} (h : a.allocated r = true) :
    (a.step st).allocated r = true := by
  cases st with
  | alloc tx q x =>
      rcases eq_or_ne r q with rfl | hq
      · simp [step]
      · simpa [step, Function.update_of_ne hq, setView] using h
  | _ => exact h

/-- **What is freed stays freed.** -/
lemma Freed.step {a : Snapshots α} {st : Step α} {r : ℕ} (h : Freed r a) (hl : a.Legal st) :
    Freed r (a.step st) where
  allocated := step_allocated st h.allocated
  committed := by
    cases st with
    | commit tx =>
        simp only [Snapshots.step]
        split
        · next hty => exact h.view tx ⟨hl, hty⟩
        · exact h.committed
    | _ => exact h.committed
  view w hw := by
    rcases writer_of_step hw with hw | rfl
    · exact step_view hl h.allocated (h.view w hw) (fun _ _ => h.committed)
        fun w' hw' => Or.inr (h.view w' hw')
    · simpa [Snapshots.step] using h.committed

/-- The running writer `tx` has freed the reference `r`. -/
structure Freeing (tx r : ℕ) (a : Snapshots α) : Prop where
  allocated : a.allocated r = true
  writer : a.Writer tx
  view : (a.session tx).view r = none
  one : a.OneWriter

/-- The free lasts until the writer commits. -/
lemma Freeing.step {a : Snapshots α} {st : Step α} {tx r : ℕ} (h : Freeing tx r a)
    (hl : a.Legal st) (hne : st ≠ .commit tx) : Freeing tx r (a.step st) where
  allocated := step_allocated st h.allocated
  one := oneWriter_step h.one hl
  view := by
    refine step_view hl h.allocated h.view (fun txtype hst => ?_) fun w hw => Or.inl (h.one w tx hw h.writer)
    subst hst
    exact absurd h.writer.1 hl.1
  writer := by
    obtain ⟨hmem, hty⟩ := h.writer
    cases st with
    | begin w txtype =>
        have hw : tx ≠ w := by
          rintro rfl
          exact hl.1 hmem
        exact ⟨List.mem_append_left _ hmem, by simpa [Snapshots.step, Function.update_of_ne hw] using hty⟩
    | commit w =>
        have hw : tx ≠ w := by
          rintro rfl
          exact hne rfl
        exact ⟨(List.mem_erase_of_ne hw).mpr hmem, hty⟩
    | alloc w q x => exact writer_setView.mpr h.writer
    | read w c q wr => exact h.writer
    | write w c q f => exact writer_setView.mpr h.writer
    | free w c q => exact writer_setView.mpr h.writer
    | gc c f => exact h.writer

/-- Then the reference is gone for good. -/
lemma Freeing.commit {a : Snapshots α} {tx r : ℕ} (h : Freeing tx r a) :
    Freed r (a.step (.commit tx)) where
  allocated := h.allocated
  committed := by
    simp only [Snapshots.step, h.writer.2, if_true]
    exact h.view
  view w hw := by
    obtain rfl := h.one w tx ⟨List.mem_of_mem_erase hw.1, hw.2⟩ h.writer
    exact h.view

/-- A run of the freeing writer and others ends with the free pending or done. -/
lemma Freeing.run {sts : List (Step α)} : ∀ {a : Snapshots α} {tx r : ℕ}, Freeing tx r a →
    a.LegalRun sts → Freeing tx r (a.run sts) ∨ Freed r (a.run sts) := by
  induction sts with
  | nil => exact fun h _ => Or.inl h
  | cons st sts ih =>
      intro a tx r h hl
      by_cases hst : st = .commit tx
      · subst hst
        have hend := invariant (P := Freed r) (fun _ _ _ hf hlf => hf.step hlf) h.commit hl.2
        exact Or.inr hend
      · exact ih (h.step hl.1 hst) hl.2

/-- **Who begins after a reference is gone sees nothing through it.** -/
theorem Freed.view_of_begun {a : Snapshots α} {sts : List (Step α)} {r k : ℕ} (h : Freed r a)
    (hk : k ∉ a.running) (hl : a.LegalRun sts) (hrun : k ∈ (a.run sts).running) :
    ((a.run sts).session k).view r = none := by
  refine (invariant (P := fun b => Freed r b ∧ (k ∈ b.running → (b.session k).view r = none))
    (fun b st _ hb hlb => ⟨hb.1.step hlb, fun hmem => ?_⟩) ⟨h, fun hc => absurd hc hk⟩ hl).2 hrun
  by_cases hkb : k ∈ b.running
  · exact step_view hlb hb.1.allocated (hb.2 hkb) (fun _ _ => hb.1.committed)
      fun w hw => Or.inr (hb.1.view w hw)
  · -- it begins now
    cases st with
    | begin tx txtype =>
        obtain rfl : k = tx := by simpa [Snapshots.step, hkb] using hmem
        simpa [Snapshots.step] using hb.1.committed
    | commit tx => exact absurd (List.mem_of_mem_erase hmem) hkb
    | _ => exact absurd hmem hkb

end Snapshots

/-- What an access did find. -/
def Output.answer : Output α → Option (Option α)
  | .contents x => some x
  | _ => none

lemma Output.answer_eq_some {o : Output α} {x : Option α} (h : o.answer = some x) :
    o = .contents x := by
  cases o with
  | contents y => exact congrArg Output.contents (Option.some_inj.mp h)
  | unit => exact absurd h (by simp [Output.answer])
  | collected all => exact absurd h (by simp [Output.answer])

end Tx

end Furious
