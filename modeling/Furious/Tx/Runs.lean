import Furious.Tx.Simulation

/-!
Whole runs of the transactional memory.

* `Sim.run`: a run whose calls are legal and guarded succeeds and reports what the
  machine of snapshots says;
* `snapshot_reads`: **without frees, every access sees its snapshot**, and a reader
  sees the same as long as it runs;
* `gc_invisible`: **without frees, a collection is invisible**, to all that run and
  to all that begin later;
* `free_isolated`: **a guarded free is isolated**: the others keep their views, and
  whoever begins after the writer's commit sees nothing;
* `free_not_isolated`: an unguarded free takes the contents from a running reader.
-/

namespace Furious

variable {α : Type}

namespace Tx

/-! ### Guarded runs -/

/-- A sequence of calls each of which is guarded in the state it meets. -/
def State.GuardedRun (s : State α) (released : ℕ → Bool) : List (Step α) → Prop
  | [] => True
  | st :: sts => s.Guarded released st ∧ ∀ x ∈ step s st,
      x.1.GuardedRun (fun r => released r || s.releases st r) sts

instance State.decidableGuardedRun : ∀ (s : State α) (released : ℕ → Bool) (sts : List (Step α)),
    Decidable (s.GuardedRun released sts)
  | _, _, [] => isTrue trivial
  | s, released, st :: sts =>
      match h : step s st with
      | none => decidable_of_iff (s.Guarded released st) (by simp [State.GuardedRun, h])
      | some x =>
          have := State.decidableGuardedRun x.1 (fun r => released r || s.releases st r) sts
          decidable_of_iff (s.Guarded released st
            ∧ x.1.GuardedRun (fun r => released r || s.releases st r) sts)
            (by simp [State.GuardedRun, h])

lemma run_cons {s s' : State α} {st : Step α} {o : Output α} (h : step s st = some (s', o))
    (sts : List (Step α)) : run s (st :: sts) = (run s' sts).map fun x => (x.1, o :: x.2) := by
  simp only [run, h, Option.bind_eq_bind, Option.bind_some]
  cases run s' sts <;> rfl

/-- **A legal and guarded run.** -/
theorem Sim.run {sts : List (Step α)} : ∀ {s : State α} {a : Snapshots α} {released : ℕ → Bool}
    {own : ℕ ⊕ ℕ → List (Ver α)} {garbage : ℕ → List (ℕ × ℕ)}, Sim s a released own garbage →
    a.LegalRun sts → s.GuardedRun released sts →
    ∃ s' os, Tx.run s sts = some (s', os) ∧ os.map Output.answer = a.answers sts
      ∧ ∃ released' own' garbage', Sim s' (a.run sts) released' own' garbage' := by
  induction sts with
  | nil => exact fun h _ _ => ⟨_, [], rfl, rfl, _, _, _, h⟩
  | cons st sts ih =>
      intro s a released own garbage h hl hg
      obtain ⟨s₁, o, own₁, garbage₁, hstep, ho, hsim⟩ := h.step hl.1 hg.1
      obtain ⟨s', os, hrun, hos, hend⟩ := ih hsim hl.2 (hg.2 _ hstep)
      exact ⟨s', o :: os, by rw [run_cons hstep, hrun]; rfl, by rw [List.map_cons, ho, hos]; rfl, hend⟩

/-! ### Runs without frees -/

/-- Calls that free nothing. -/
def Step.FreeLess : Step α → Prop
  | .free _ _ _ => False
  | .gc _ force => force = false
  | _ => True

/-- Every reference in use has contents, for the running writer and, while there is
none, for whoever begins. -/
structure Stocked (a : Snapshots α) : Prop where
  one : a.OneWriter
  view : ∀ r, a.allocated r = true → ∀ w, a.Writer w → (a.session w).view r ≠ none
  committed : ∀ r, a.allocated r = true → (∀ w, ¬ a.Writer w) → a.committed r ≠ none

lemma stocked_init : Stocked (Snapshots.init : Snapshots α) where
  one := by
    rintro w w' ⟨hw, -⟩
    simp [Snapshots.init] at hw
  view := by simp [Snapshots.init]
  committed := by simp [Snapshots.init]

/-- A writer changes its view and keeps the references stocked. -/
lemma Stocked.setView {a : Snapshots α} (h : Stocked a) {tx r : ℕ} {x : Option α} (hw : a.Writer tx)
    (hx : x ≠ none) {allocated : ℕ → Bool}
    (hall : ∀ q, q ≠ r → allocated q = true → a.allocated q = true) :
    Stocked { a.setView tx r x with allocated := allocated } where
  one w w' hw hw' := h.one w w' (Snapshots.writer_setView.mp hw) (Snapshots.writer_setView.mp hw')
  view q hq w hww := by
    obtain rfl := h.one w tx (Snapshots.writer_setView.mp hww) hw
    rcases eq_or_ne q r with rfl | hne
    · simpa [Snapshots.setView] using hx
    · simpa [Snapshots.setView, Function.update_of_ne hne] using h.view q (hall q hne hq) w hw
  committed q _ hno := absurd (Snapshots.writer_setView.mpr hw) (hno tx)

/-- **Calls that free nothing keep the references stocked.** -/
lemma Stocked.step {a : Snapshots α} (h : Stocked a) {st : Step α} (hl : a.Legal st)
    (hf : st.FreeLess) : Stocked (a.step st) := by
  have hone := Snapshots.oneWriter_step h.one hl
  cases st with
  | begin tx txtype =>
      refine ⟨hone, fun r hr w hw => ?_, fun r hr hno => ?_⟩
      · rcases eq_or_ne w tx with rfl | hne
        · obtain rfl : txtype = .readWrite := by simpa [Snapshots.step] using hw.2
          have hnone : ∀ v, ¬ a.Writer v := by
            intro v hv
            have := hl.2 rfl v hv.1
            rw [hv.2] at this
            exact absurd this (by simp)
          simpa [Snapshots.step] using h.committed r hr hnone
        · have hw' : a.Writer w := by
            simpa [Snapshots.Writer, Snapshots.step, Function.update_of_ne hne, hne] using hw
          simpa [Snapshots.step, Function.update_of_ne hne] using h.view r hr w hw'
      · refine h.committed r hr fun w hw => hno w ?_
        have hne : w ≠ tx := by
          rintro rfl
          exact hl.1 hw.1
        exact ⟨List.mem_append_left _ hw.1,
          by simpa [Snapshots.step, Function.update_of_ne hne] using hw.2⟩
  | commit tx =>
      refine ⟨hone, fun r hr w hw => h.view r hr w ⟨List.mem_of_mem_erase hw.1, hw.2⟩,
        fun r hr hno => ?_⟩
      simp only [Snapshots.step]
      split
      · next hty => exact h.view r hr tx ⟨hl, hty⟩
      · next hty =>
          refine h.committed r hr fun w hw => hno w ⟨?_, hw.2⟩
          have hne : w ≠ tx := by
            rintro rfl
            exact hty hw.2
          exact (List.mem_erase_of_ne hne).mpr hw.1
  | alloc tx r x =>
      refine h.setView hl.1 (by simp) fun q hq hall => ?_
      simpa [Function.update_of_ne hq] using hall
  | read tx c r w => exact h
  | write tx c r f =>
      refine h.setView hl.1 ?_ fun q _ hall => hall
      rw [Ne, Option.map_eq_none_iff]
      exact h.view r hl.2 tx hl.1
  | free tx c r => exact False.elim hf
  | gc c force => exact h

variable {s : State α} {a : Snapshots α} {own : ℕ ⊕ ℕ → List (Ver α)}
  {garbage : ℕ → List (ℕ × ℕ)}

/-- The newest version of a stocked reference has contents. -/
lemma Stocked.newest (hst : Stocked a) {released : ℕ → Bool} (h : Sim s a released own garbage)
    {r : ℕ} {root : Ver α} {vs : List (Ver α)} (ho : own (.inl r) = root :: vs) :
    (chainOf root vs).newest.2 ≠ none := by
  have hr : a.allocated r = true := by
    rw [h.allocated, h.heap.root r root vs ho]
    simp
  have hchain := h.chain r root vs ho
  by_cases hw : ∃ w, a.Writer w
  · obtain ⟨w, hw⟩ := hw
    obtain ⟨t, ht, hinv, hty⟩ := h.object hw.1
    rw [hw.2] at hty
    obtain ⟨hid, hlast, -, -⟩ := hinv.writer hty
    rw [← (hchain.wf h.mgr hw.1 ht hty).lookup_eq (hid ▸ hlast), hchain.view w hw.1 t ht]
    exact hst.view r hr w hw
  · have hno : ∀ w ∈ a.running, ∀ t, s.manager.txs w = some t → t.txType = .readOnly := by
      intro w hwr t ht
      cases hty : t.txType with
      | readOnly => rfl
      | readWrite => exact absurd ⟨w, hwr, (h.txType w hwr t ht) ▸ hty⟩ hw
    rw [← Chain.lookup_eq_newest (hchain.le_last hno), hchain.committed]
    exact hst.committed r hr fun w hww => hw ⟨w, hww⟩

/-- Then every call that frees nothing is guarded and releases no root. -/
lemma Stocked.guarded (hst : Stocked a) (h : Sim s a (fun _ => false) own garbage) {st : Step α}
    (hl : a.Legal st) (hf : st.FreeLess) :
    s.Guarded (fun _ => false) st ∧ ∀ r, s.releases st r = false := by
  have hpresent : ∀ {r main}, a.allocated r = true → s.refs r = some main → s.Present main := by
    intro r main hr href
    obtain ⟨root, vs, ho, href'⟩ := h.chain_of_live hr rfl
    obtain rfl : main = root.addr := by simpa [href] using href'
    exact (h.heap.present_iff ho).mpr (hst.newest h ho)
  have hunlisted : ∀ {r root vs c}, own (.inl r) = root :: vs →
      root.addr ∉ (garbage c).map Prod.snd := fun ho hmem =>
    hst.newest h ho (h.newest_of_listed ho hmem)
  cases st with
  | begin tx txtype => exact ⟨trivial, fun _ => rfl⟩
  | commit tx => exact ⟨trivial, fun _ => rfl⟩
  | alloc tx r x => exact ⟨trivial, fun _ => rfl⟩
  | read tx c r w =>
      exact ⟨⟨rfl, fun t _ _ main href => Or.inl (hpresent hl.2 href)⟩, fun _ => rfl⟩
  | write tx c r f => exact ⟨⟨rfl, fun main href => hpresent hl.2 href⟩, fun _ => rfl⟩
  | free tx c r => exact False.elim hf
  | gc c force =>
      obtain rfl : force = false := hf
      obtain ⟨orv, horv, -⟩ := h.mgr.oldest
      refine ⟨fun orv' _ b hb => ?_, fun r => ?_⟩
      · -- only retired blocks are listed, and these have no versions
        rw [(h.heap.ctx c).blocks] at hb
        obtain ⟨⟨e, b'⟩, hin, rfl⟩ := List.mem_map.mp hb
        obtain ⟨y, hy⟩ : ∃ y, own (.inr b') = [y] := by
          refine (h.listed.block c e b' hin).resolve_right ?_
          rintro ⟨r, root, vs, ho, rfl, -⟩
          exact hunlisted ho hb
        obtain ⟨-, rfl⟩ := h.heap.addr_eq (a := b') (y := y) (by simp [hy])
        have hheld := h.heap.mem.held (.inr y.addr)
        rw [hy] at hheld
        have hnext : ∀ r ∈ s.pool.blockPalloc.get y.addr, r.nextVersion = none := by
          intro r hr
          have hr' : some (y.block none) = some r := hheld.block.symm.trans hr
          obtain rfl := Option.some_inj.mp hr'
          rfl
        exact ⟨fun r hr _ _ hne => absurd (hnext r hr) hne,
          fun r hr hne => absurd (hnext r hr) hne⟩
      · cases ho : own (.inl r) with
        | nil =>
            have hall := (h.live r).mp ho
            have href : s.refs r = none := by
              by_contra hc
              rw [← Ne, ← h.allocated r] at hc
              simp [hc] at hall
            simp [State.releases, href]
        | cons root vs =>
            rw [Bool.eq_false_iff, Ne, h.heap.releases_iff horv ho]
            exact fun hc => hunlisted ho hc.1

/-- **A legal run without frees.** -/
theorem Stocked.run {sts : List (Step α)} : ∀ {s : State α} {a : Snapshots α}
    {own : ℕ ⊕ ℕ → List (Ver α)} {garbage : ℕ → List (ℕ × ℕ)}, Stocked a →
    Sim s a (fun _ => false) own garbage → a.LegalRun sts → (∀ st ∈ sts, st.FreeLess) →
    ∃ s' os, Tx.run s sts = some (s', os) ∧ os.map Output.answer = a.answers sts
      ∧ Stocked (a.run sts) ∧ ∃ own' garbage', Sim s' (a.run sts) (fun _ => false) own' garbage' := by
  induction sts with
  | nil => exact fun hst h _ _ => ⟨_, [], rfl, rfl, hst, _, _, h⟩
  | cons st sts ih =>
      intro s a own garbage hst h hl hf
      have hfst := hf st List.mem_cons_self
      obtain ⟨hg, hrel⟩ := hst.guarded h hl.1 hfst
      obtain ⟨s₁, o, own₁, garbage₁, hstep, ho, hsim⟩ := h.step hl.1 hg
      have hfalse : (fun r => false || s.releases st r) = fun _ => false := by
        funext r
        simp [hrel r]
      rw [hfalse] at hsim
      obtain ⟨s', os, hrun, hos, hend⟩ := ih (hst.step hl.1 hfst) hsim hl.2
        fun st' hmem => hf st' (List.mem_cons_of_mem _ hmem)
      exact ⟨s', o :: os, by rw [run_cons hstep, hrun]; rfl, by rw [List.map_cons, ho, hos]; rfl, hend⟩

/-- What the last access of a run reports. -/
lemma outputs_concat {a : Snapshots α} {sts : List (Step α)} {st : Step α} {os : List (Output α)}
    {x : Option α} (h : os.map Output.answer = a.answers (sts ++ [st]))
    (hx : (a.run sts).answer st = some x) : ∃ os₀, os = os₀ ++ [.contents x] := by
  rw [Snapshots.answers_append] at h
  obtain ⟨os₀, os₁, rfl, -, h₁⟩ := List.map_eq_append_iff.mp h
  obtain ⟨o, os₂, rfl, ho, h₂⟩ := List.map_eq_cons_iff.mp h₁
  obtain rfl := List.map_eq_nil_iff.mp h₂
  exact ⟨os₀, by rw [Output.answer_eq_some (ho.trans hx)]⟩

/-- **Without frees, every access sees its snapshot**: what the transaction wrote
itself, and else what was committed when it began; a reader sees the same as long
as it runs. -/
theorem snapshot_reads {sts : List (Step α)} (hl : Snapshots.init.LegalRun sts)
    (hf : ∀ st ∈ sts, st.FreeLess) :
    ∃ s os, run State.init sts = some (s, os) ∧ os.map Output.answer = Snapshots.init.answers sts
      ∧ ∀ pre mid post tx c c' r w w', sts = pre ++ .read tx c r w :: mid ++ .read tx c' r w' :: post →
        ((Snapshots.init.run pre).session tx).txType = .readOnly → (∀ st ∈ mid, st ≠ .commit tx) →
        ∃ x, os[pre.length]? = some (.contents x)
          ∧ os[pre.length + mid.length + 1]? = some (.contents x) := by
  obtain ⟨s, os, hrun, hos, -⟩ := stocked_init.run sim_init hl hf
  refine ⟨s, os, hrun, hos, ?_⟩
  rintro pre mid post tx c c' r w w' rfl hty hno
  set a := Snapshots.init.run pre with ha
  have hlen : pre.length + mid.length + 1 = (pre ++ .read tx c r w :: mid).length := by
    simp
    omega
  have houtput : ∀ (i : ℕ) (x : Option α), (Snapshots.init.answers (pre ++ .read tx c r w :: mid ++
      .read tx c' r w' :: post))[i]? = some (some x) →
      os[i]? = some (Output.contents x) := by
    intro i x hi
    rw [← hos, List.getElem?_map, Option.map_eq_some_iff] at hi
    obtain ⟨o, ho, hox⟩ := hi
    rw [ho, Output.answer_eq_some hox]
  obtain ⟨⟨hpre, hmid⟩, -⟩ := (Snapshots.legalRun_append.mp hl).imp_left Snapshots.legalRun_append.mp
  -- the reader has kept its session
  have hkeep : (a.run mid).session tx = a.session tx :=
    (Snapshots.session_eq_of_not_commit hmid.1.1 hty hmid.2 hno).2
  refine ⟨(a.session tx).view r, houtput _ _ ?_, houtput _ _ ?_⟩
  · rw [List.append_assoc, List.cons_append, Snapshots.getElem?_answers]
    rfl
  · have hend : Snapshots.init.run (pre ++ .read tx c r w :: mid) = a.run mid := by
      rw [Snapshots.run_append]
      rfl
    rw [hlen, Snapshots.getElem?_answers, hend, ← hkeep]
    rfl

/-- A reader that stays open while the next writer changes the reference. -/
def longReader : List (Step ℕ) :=
  [.begin 0 .readWrite, .alloc 0 0 7, .commit 0, .begin 1 .readOnly, .begin 2 .readWrite,
    .write 2 0 0 fun _ => 8, .commit 2]

/-- The old reader and a new one, each with its snapshot. -/
theorem snapshot_reads_longReader : ∃ s os,
    run State.init (longReader ++ [.begin 3 .readOnly, .read 1 0 0 false, .read 3 0 0 false])
      = some (s, os)
    ∧ os.map Output.answer
      = [none, none, none, none, none, some (some 7), none, none, some (some 7), some (some 8)] := by
  have hl : Snapshots.init.LegalRun
      (longReader ++ [.begin 3 .readOnly, .read 1 0 0 false, .read 3 0 0 false]) := by decide +kernel
  have hanswers : Snapshots.init.answers
      (longReader ++ [.begin 3 .readOnly, .read 1 0 0 false, .read 3 0 0 false])
      = [none, none, none, none, none, some (some 7), none, none, some (some 7), some (some 8)] := by
    decide +kernel
  obtain ⟨s, os, hrun, hos, -⟩ := snapshot_reads hl (by simp [longReader, Step.FreeLess])
  exact ⟨s, os, hrun, hos.trans hanswers⟩

/-- **Without frees, a collection is invisible** to the accesses of all transactions
that run or begin later. -/
theorem gc_invisible {pre : List (Step α)} (hl : Snapshots.init.LegalRun pre)
    (hf : ∀ st ∈ pre, st.FreeLess) (c : ℕ) :
    ∃ s os s' all, run State.init pre = some (s, os)
      ∧ step s (.gc c false) = some (s', .collected all)
      ∧ ∀ post, (Snapshots.init.run pre).LegalRun post → (∀ st ∈ post, st.FreeLess) →
        ∃ t ps t' ps', run s post = some (t, ps) ∧ run s' post = some (t', ps')
          ∧ ps'.map Output.answer = ps.map Output.answer
          ∧ ps'.map Output.answer = (Snapshots.init.run pre).answers post := by
  obtain ⟨s, os, hrun, -, hst, own, garbage, hsim⟩ := stocked_init.run sim_init hl hf
  have hlg : (Snapshots.init.run pre : Snapshots α).Legal (.gc c false) := by simp [Snapshots.Legal]
  obtain ⟨hg, hrel⟩ := hst.guarded hsim hlg rfl
  obtain ⟨s', all, own', garbage', hstep, hsim'⟩ := hsim.gc hlg hg
  simp only [hrel, Bool.or_false] at hsim'
  refine ⟨s, os, s', all, hrun, hstep, fun post hlp hfp => ?_⟩
  obtain ⟨t, ps, hrun₁, hps, -⟩ := hst.run hsim hlp hfp
  obtain ⟨t', ps', hrun₂, hps', -⟩ := hst.run hsim' hlp hfp
  exact ⟨t, ps, t', ps', hrun₁, hrun₂, hps'.trans hps.symm, hps'⟩

/-- A collection while a reader and a writer run. -/
theorem gc_invisible_longReader : ∃ s os s' all t ps, run State.init longReader = some (s, os)
    ∧ step s (.gc 0 false) = some (s', .collected all)
    ∧ run s' [.read 1 0 0 false] = some (t, ps) ∧ ps.map Output.answer = [some (some 7)] := by
  have hl : Snapshots.init.LegalRun longReader := by decide +kernel
  have hanswers : (Snapshots.init.run longReader).answers [.read 1 0 0 false] = [some (some 7)] := by
    decide +kernel
  obtain ⟨s, os, s', all, hrun, hgc, hpost⟩ :=
    gc_invisible hl (by simp [longReader, Step.FreeLess]) 0
  obtain ⟨-, -, t, ps, -, hrun', -, hps⟩ :=
    hpost [.read 1 0 0 false] (by decide +kernel) (by simp [Step.FreeLess])
  exact ⟨s, os, s', all, t, ps, hrun, hgc, hrun', hps.trans hanswers⟩

/-! ### Runs with frees -/

/-- **A guarded free is isolated.** The access at the end of the run is one of
another transaction: if that one ran at the free, it reports the contents it saw
before, as it does in every run without the free; if it did not run when the
freeing writer committed, it reports a null pointer. -/
theorem free_isolated {pre post : List (Step α)} {tx c r k c' : ℕ} {w : Bool}
    (hl : Snapshots.init.LegalRun (pre ++ .free tx c r :: post ++ [.read k c' r w]))
    (hg : State.init.GuardedRun (fun _ => false) (pre ++ .free tx c r :: post ++ [.read k c' r w])) :
    ∃ s os x, run State.init (pre ++ .free tx c r :: post ++ [.read k c' r w])
        = some (s, os ++ [.contents x])
      ∧ (k ∈ (Snapshots.init.run pre).running → k ≠ tx → (∀ st ∈ post, st ≠ .commit k) →
        x = ((Snapshots.init.run pre).session k).view r
          ∧ ∀ post' c'' w', Snapshots.init.LegalRun (pre ++ post' ++ [.read k c'' r w']) →
            State.init.GuardedRun (fun _ => false) (pre ++ post' ++ [.read k c'' r w']) →
            (∀ st ∈ post', st ≠ .commit k) →
            ∃ s' os', run State.init (pre ++ post' ++ [.read k c'' r w'])
              = some (s', os' ++ [.contents x]))
      ∧ ∀ mid post', post = mid ++ .commit tx :: post' →
        k ∉ (Snapshots.init.run (pre ++ .free tx c r :: mid ++ [.commit tx])).running → x = none := by
  obtain ⟨s, os, hrun, hos, -⟩ := sim_init.run hl hg
  set a := Snapshots.init.run pre with ha
  obtain ⟨os₀, rfl⟩ := outputs_concat hos rfl
  obtain ⟨hlfree, hlread⟩ := Snapshots.legalRun_append.mp hl
  obtain ⟨hlpre, hfree, hlpost⟩ := Snapshots.legalRun_append.mp hlfree
  have hone : a.OneWriter := Snapshots.invariant (fun _ _ _ h hl => Snapshots.oneWriter_step h hl)
    stocked_init.one hlpre
  have hview : ∀ q, (Snapshots.init.run (pre ++ q)).session k = ((a.run q).session k) := by
    intro q
    rw [Snapshots.run_append]
  refine ⟨s, os₀, _, hrun, fun hk hne hno => ?_, fun mid post' hpost hk => ?_⟩
  · have hreader : (a.session k).txType = .readOnly := by
      cases hty : (a.session k).txType with
      | readOnly => rfl
      | readWrite => exact absurd (hone k tx ⟨hk, hty⟩ hfree.1) hne
    have hkeep : (a.step (.free tx c r)).session k = a.session k := Function.update_of_ne hne _ _
    have hend : (Snapshots.init.run (pre ++ .free tx c r :: post)).session k = a.session k := by
      rw [hview, ← hkeep]
      exact (Snapshots.session_eq_of_not_commit (a := a.step (.free tx c r)) hk
        (by rw [hkeep, hreader]) hlpost hno).2
    refine ⟨by rw [hend], fun post' c'' w' hl' hg' hno' => ?_⟩
    obtain ⟨s', os', hrun', hos', -⟩ := sim_init.run hl' hg'
    have hlpost' : a.LegalRun post' :=
      (Snapshots.legalRun_append.mp (Snapshots.legalRun_append.mp hl').1).2
    obtain ⟨os₁, rfl⟩ := outputs_concat hos' rfl
    refine ⟨s', os₁, ?_⟩
    rw [hrun', hview, (Snapshots.session_eq_of_not_commit hk hreader hlpost' hno').2, hend]
  · subst hpost
    have hfreeing : Snapshots.Freeing tx r (a.step (.free tx c r)) := by
      refine ⟨hfree.2.1, Snapshots.writer_setView.mpr hfree.1, by simp [Snapshots.step, Snapshots.setView],
        Snapshots.oneWriter_step hone hfree⟩
    obtain ⟨hlmid, hlcommit, hlpost'⟩ := Snapshots.legalRun_append.mp hlpost
    have hfreed : Snapshots.Freed r (((a.step (.free tx c r)).run mid).step (.commit tx)) :=
      (hfreeing.run hlmid).elim (fun h => h.commit) fun h => h.step hlcommit
    have hrunmid : Snapshots.init.run (pre ++ .free tx c r :: mid ++ [.commit tx])
        = ((a.step (.free tx c r)).run mid).step (.commit tx) := by
      rw [Snapshots.run_append, Snapshots.run_append]
      rfl
    have hrunpost : Snapshots.init.run (pre ++ .free tx c r :: (mid ++ .commit tx :: post'))
        = (((a.step (.free tx c r)).run mid).step (.commit tx)).run post' := by
      rw [Snapshots.run_append, ← List.cons_append, Snapshots.run_append]
      rfl
    rw [hrunmid] at hk
    have hkend : k ∈ ((((a.step (.free tx c r)).run mid).step (.commit tx)).run post').running := by
      rw [← hrunpost]
      exact hlread.1.1
    rw [hrunpost]
    exact hfreed.view_of_begun hk hlpost' hkend

/-- A free under a reader, and a reader that begins after the commit. -/
theorem free_isolated_of_old_reader :
    ∃ s os, run State.init ([.begin 0 .readWrite, .alloc 0 0 7, .commit 0, .begin 1 .readOnly,
        .begin 2 .readWrite] ++ .free 2 0 0 :: [.commit 2, .begin 3 .readOnly] ++ [.read 3 0 0 false])
      = some (s, os ++ [.contents (none : Option ℕ)]) := by
  have hl : Snapshots.init.LegalRun (α := ℕ) ([.begin 0 .readWrite, .alloc 0 0 7, .commit 0,
      .begin 1 .readOnly, .begin 2 .readWrite] ++ .free 2 0 0 :: [.commit 2, .begin 3 .readOnly]
        ++ [.read 3 0 0 false]) := by decide +kernel
  obtain ⟨s, os, x, hrun, -, hx⟩ := free_isolated hl (by decide +kernel)
  obtain rfl := hx [] [.begin 3 .readOnly] rfl (by decide +kernel)
  exact ⟨s, os, hrun⟩

/-- **An unguarded free takes the contents from a running reader**: the reader 3 finds
8 before the writer 4 frees the reference, and a null pointer after. -/
theorem free_not_isolated :
    Snapshots.init.LegalRun (longReader ++ [.begin 3 .readOnly, .read 3 0 0 false,
      .begin 4 .readWrite, .free 4 0 0, .read 3 0 0 false])
    ∧ (run State.init (longReader ++ [.begin 3 .readOnly, .read 3 0 0 false,
        .begin 4 .readWrite, .free 4 0 0, .read 3 0 0 false])).map (fun x => x.2.drop 7)
      = some [.unit, .contents (some 8), .unit, .unit, .contents none] := by
  decide +kernel

end Tx

end Furious
