import Mathlib.Tactic

/-!
Rules for loops that run over a list.

A loop of the source over an array or a counter is a left fold; a loop whose body
can fail, or can run out of fuel, is a left fold in `Option`. Both rules carry an
invariant that also sees the part of the list already passed, so that "every
element passed so far" need not be encoded in the state.

* `foldl_spec`: the rule for a body that always succeeds;
* `foldlM_spec`: the rule for a body in `Option`, total and partial correctness
  at once;
* `mapM_spec`: the rule for a body that makes one result of each element;
* `Yields`: just when a body fails, and which results it has otherwise; `Yields.mapM`: those of a loop;
* `bind_ok`, `foldlM_ok_spec`: partial correctness of a body that reports what is wrong;
* `Answers`: just when such a body succeeds, and what it reports otherwise.
-/

namespace Furious

variable {α σ : Type*}

/-- **The loop rule.** An invariant that holds at the start and is preserved by
the body, element by element, holds at the end with the whole list passed. -/
theorem foldl_spec (P : List α → σ → Prop) {f : σ → α → σ} (l : List α) {s : σ}
    (h₀ : P [] s)
    (hstep : ∀ done a rest s, l = done ++ a :: rest → P done s → P (done ++ [a]) (f s a)) :
    P l (l.foldl f s) := by
  induction l using List.reverseRecOn with
  | nil => exact h₀
  | append_singleton l a ih =>
      rw [List.foldl_append]
      refine hstep l a [] _ (by simp) (ih ?_)
      intro done b rest t hl ht
      exact hstep done b (rest ++ [a]) t (by simp [hl]) ht

/-- **The loop rule for a body in `Option`**: if from the invariant every
iteration succeeds and preserves it, the loop succeeds. -/
theorem foldlM_spec (P : List α → σ → Prop) {f : σ → α → Option σ} (l : List α) {s : σ}
    (h₀ : P [] s)
    (hstep : ∀ done a rest s, l = done ++ a :: rest → P done s →
      ∃ s', f s a = some s' ∧ P (done ++ [a]) s') :
    ∃ s', l.foldlM f s = some s' ∧ P l s' := by
  induction l using List.reverseRecOn with
  | nil => exact ⟨s, rfl, h₀⟩
  | append_singleton l a ih =>
      obtain ⟨t, ht, hP⟩ := ih fun done b rest t hl ht =>
        hstep done b (rest ++ [a]) t (by simp [hl]) ht
      obtain ⟨u, hu, hPu⟩ := hstep l a [] t (by simp) hP
      refine ⟨u, ?_, hPu⟩
      rw [List.foldlM_append, ht]
      simp [hu]

/-- Every result is that of an element. -/
lemma exists_of_mem_right {β : Type*} {P : α → β → Prop} {l : List α} {bs : List β}
    (h : List.Forall₂ P l bs) {b : β} (hb : b ∈ bs) : ∃ a ∈ l, P a b := by
  induction h with
  | nil => cases hb
  | cons hP _ ih =>
      rcases List.mem_cons.mp hb with rfl | hb
      · exact ⟨_, List.mem_cons_self, hP⟩
      · obtain ⟨a, ha, hab⟩ := ih hb
        exact ⟨a, List.mem_cons_of_mem _ ha, hab⟩

/-- What the results have in common with their elements, one by one. -/
lemma map_eq_of_forall₂ {β γ : Type*} {f : α → γ} {g : β → γ} {l : List α} {bs : List β}
    (h : List.Forall₂ (fun a b => g b = f a) l bs) : bs.map g = l.map f := by
  induction h with
  | nil => rfl
  | cons hab _ ih => rw [List.map_cons, List.map_cons, hab, ih]

/-- What is made of elements and their results, if it depends on the elements alone. -/
lemma zipWith_eq_of_forall₂ {β γ : Type*} {P : α → β → Prop} {f : α → β → γ} {g : α → γ} {l : List α} {bs : List β}
    (h : List.Forall₂ P l bs) (hf : ∀ a ∈ l, ∀ b, P a b → f a b = g a) : List.zipWith f l bs = l.map g := by
  induction h with
  | nil => rfl
  | cons hab _ ih =>
      rw [List.zipWith_cons_cons, List.map_cons, hf _ List.mem_cons_self _ hab,
        ih fun a ha => hf a (List.mem_cons_of_mem _ ha)]

/-- **The loop rule for a list of results**: if every element has a result, so has the list. -/
theorem mapM_spec {β : Type*} (P : α → β → Prop) {f : α → Option β} {l : List α}
    (h : ∀ a ∈ l, ∃ b, f a = some b ∧ P a b) : ∃ bs, l.mapM f = some bs ∧ List.Forall₂ P l bs := by
  induction l with
  | nil => exact ⟨[], rfl, List.Forall₂.nil⟩
  | cons a l ih =>
      obtain ⟨b, hb, hP⟩ := h a List.mem_cons_self
      obtain ⟨bs, hbs, hall⟩ := ih fun a ha => h a (List.mem_cons_of_mem _ ha)
      refine ⟨b :: bs, ?_, List.Forall₂.cons hP hall⟩
      rw [List.mapM_cons, hb, hbs]
      rfl

/-- A computation yields the results `P`, and fails just where `bad` holds. -/
structure Yields {β : Type*} (x : Option (List β)) (bad : Prop) (P : β → Prop) : Prop where
  fails : bad → x = none
  makes : ¬ bad → ∃ bs, x = some bs ∧ ∀ b, b ∈ bs ↔ P b

namespace Yields

variable {β : Type*} {x : Option (List β)} {bad bad' : Prop} {P Q : β → Prop}

lemma congr (h : Yields x bad P) (hbad : bad ↔ bad') (hP : ∀ b, P b ↔ Q b) : Yields x bad' Q := by
  refine ⟨fun hb => h.fails (hbad.mpr hb), fun hb => ?_⟩
  obtain ⟨bs, hx, hbs⟩ := h.makes fun hb' => hb (hbad.mp hb')
  exact ⟨bs, hx, fun b => (hbs b).trans (hP b)⟩

/-- A result that is there is as it should be. -/
lemma of_eq_some (h : Yields x bad P) {bs : List β} (hx : x = some bs) : ¬ bad ∧ ∀ b, b ∈ bs ↔ P b := by
  have hgood : ¬ bad := fun hb => by
    rw [h.fails hb] at hx
    cases hx
  obtain ⟨bs', hx', hbs⟩ := h.makes hgood
  obtain rfl := Option.some.inj (hx.symm.trans hx')
  exact ⟨hgood, hbs⟩

/-- **The loop rule**: the results of all elements, unless one of them fails. -/
theorem mapM {f : α → Option (List β)} {l : List α} (bad : α → Prop) (P : α → β → Prop)
    (h : ∀ a ∈ l, Yields (f a) (bad a) (P a)) :
    Yields ((l.mapM f).bind fun bss => some bss.flatten) (∃ a ∈ l, bad a) fun b => ∃ a ∈ l, P a b := by
  induction l with
  | nil => exact ⟨fun hbad => by simp at hbad, fun _ => ⟨[], rfl, fun b => by simp⟩⟩
  | cons a l ih =>
      have hhead := h a List.mem_cons_self
      have htail := ih fun a ha => h a (List.mem_cons_of_mem _ ha)
      rw [List.mapM_cons]
      refine ⟨fun hbad => ?_, fun hgood => ?_⟩
      · rw [List.exists_mem_cons_iff] at hbad
        cases hf : f a with
        | none => rfl
        | some bs =>
            have hrest := htail.fails (hbad.resolve_left (hhead.of_eq_some hf).1)
            cases hl : l.mapM f with
            | none => rfl
            | some bss =>
                rw [hl] at hrest
                cases hrest
      · rw [List.exists_mem_cons_iff, not_or] at hgood
        obtain ⟨bs, hf, hbs⟩ := hhead.makes hgood.1
        obtain ⟨rest, hrest, hmem⟩ := htail.makes hgood.2
        obtain ⟨bss, hl, hflat⟩ := Option.bind_eq_some_iff.mp hrest
        obtain rfl := Option.some.inj hflat
        refine ⟨bs ++ bss.flatten, by rw [hf, hl]; rfl, fun b => ?_⟩
        rw [List.mem_append, hbs, hmem, List.exists_mem_cons_iff]

end Yields

section Except

variable {ε : Type*}

/-- What succeeds has succeeded in both parts. -/
lemma bind_ok.{u} {α β : Type u} {x : Except ε α} {f : α → Except ε β} {b : β} (h : x >>= f = .ok b) :
    ∃ a, x = .ok a ∧ f a = .ok b := by
  cases x with
  | error e => cases h
  | ok a => exact ⟨a, rfl, h⟩

/-- **The loop rule for a body that reports what is wrong**: if it preserves the invariant whenever it
succeeds, the loop does. -/
theorem foldlM_ok_spec (P : List α → σ → Prop) {f : σ → α → Except ε σ} (l : List α) {s t : σ} (h₀ : P [] s)
    (hstep : ∀ done a rest s s', l = done ++ a :: rest → P done s → f s a = .ok s' → P (done ++ [a]) s')
    (h : l.foldlM f s = .ok t) : P l t := by
  induction l using List.reverseRecOn generalizing t with
  | nil =>
      obtain rfl := Except.ok.inj h
      exact h₀
  | append_singleton l a ih =>
      rw [List.foldlM_append] at h
      obtain ⟨u, hu, ha⟩ := bind_ok h
      rw [List.foldlM_cons] at ha
      obtain ⟨v, hv, hnil⟩ := bind_ok ha
      obtain rfl := Except.ok.inj hnil
      refine hstep l a [] u v rfl (ih (fun done b rest s s' hl => ?_) hu) hv
      exact hstep done b (rest ++ [a]) s s' (by rw [hl]; simp)

/-- A computation answers `P`: it succeeds just where `P` holds, and what it reports elsewhere is an `E`. -/
structure Answers {α : Type*} (E : ε → Prop) (x : Except ε α) (P : Prop) : Prop where
  ok_iff : (∃ a, x = .ok a) ↔ P
  error_mem : ∀ r, x = .error r → E r

namespace Answers

variable {E : ε → Prop} {P Q : Prop}

lemma ok {α : Type*} (a : α) : Answers E (.ok a : Except ε α) True where
  ok_iff := iff_true_intro ⟨a, rfl⟩
  error_mem := fun _ h => by cases h

lemma error {α : Type*} {r : ε} (hr : E r) : Answers E (.error r : Except ε α) False where
  ok_iff := by simp
  error_mem := fun _ h => Except.error.inj h ▸ hr

lemma congr {α : Type*} {x : Except ε α} (h : Answers E x P) (hiff : P ↔ Q) : Answers E x Q :=
  ⟨h.ok_iff.trans hiff, h.error_mem⟩

/-- A test that reports its failure. -/
lemma ite {α : Type*} [Decidable P] (a : α) {r : ε} (hr : E r) :
    Answers E (if P then .ok a else .error r : Except ε α) P := by
  split_ifs with h
  · exact (Answers.ok a).congr (iff_of_true trivial h)
  · exact (Answers.error hr).congr (iff_of_false not_false h)

/-- **The rule of composition**: the second part answers for the results of the first. -/
lemma bind.{u} {α β : Type u} {x : Except ε α} {f : α → Except ε β} (hx : Answers E x P)
    (hf : ∀ a, x = .ok a → Answers E (f a) Q) : Answers E (x >>= f) (P ∧ Q) := by
  cases x with
  | error r =>
      have hP : ¬ P := by
        intro h
        obtain ⟨a, ha⟩ := hx.ok_iff.mpr h
        cases ha
      exact (Answers.error (hx.error_mem r rfl)).congr (iff_of_false not_false fun h => hP h.1)
  | ok a => exact (hf a rfl).congr (iff_and_self.mpr fun _ => hx.ok_iff.mp ⟨a, rfl⟩)

/-- What comes last only makes the result. -/
lemma map.{u} {α β : Type u} {x : Except ε α} {f : α → Except ε β} (hx : Answers E x P)
    (hf : ∀ a, ∃ b, f a = .ok b) : Answers E (x >>= f) P := by
  refine (hx.bind fun a _ => ?_).congr (iff_of_eq (and_true P))
  obtain ⟨b, hb⟩ := hf a
  rw [hb]
  exact Answers.ok b

end Answers

end Except

end Furious
