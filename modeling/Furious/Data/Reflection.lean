import Furious.Data.Database

/-!
Reflection data.

A registry describes the records of a program at run time: it finds the description of a record
by the hash of its name, and the description of a record lists its fields, those of nested
records included.

* `MType`, `MField`, `MStruct`: the descriptions;
* `MRegistry.initMstruct`, `MRegistry.initMfield`, `MRegistry.getMstruct`: the registry;
* `MFields`: a finite tree of fields, and `Holds`: that it is what a description lists;
* `MRegistry.register`: a tree is registered field by field, and `MRegistry.register_spec`: **what is
  registered is held**;
* `MRegistry.Sound`: the invariant of a registry.

Fields are kept in the description that lists them. Pointers are never null.
-/

namespace Furious

/-- `fdb_mtype_t`. -/
inductive MType where
  | bool
  | char
  | uint8
  | uint16
  | uint32
  | uint64
  | int8
  | int16
  | int32
  | int64
  | float
  | double
  | charPointer
  | stdString
  | pointer
  | struct
  | union
  | unknown
deriving DecidableEq, Repr

/-- The types of the fields that have a description of their own. -/
def MType.isRecord (type : MType) : Prop := type = .union ∨ type = .struct

instance (type : MType) : Decidable type.isRecord := inferInstanceAs (Decidable (_ ∨ _))

/-- `fdb_mfield_t`. -/
structure MField where
  name : CString
  type : MType
  offset : ℕ
  anonymous : Bool
  strctType : Option ℕ
deriving DecidableEq

/-- `fdb_mstruct_t`. -/
structure MStruct where
  typeName : CString
  isUnion : Bool
  fields : List MField
deriving DecidableEq

/-- A description that has been cleared. -/
def MStruct.zero : MStruct := ⟨⟨[], List.not_mem_nil⟩, false, []⟩

/-- `FCC_MAX_FIELD_NAME`. -/
abbrev maxFieldName : ℕ := 256

/-- `FDB_MAX_COMPONENT_FIELDS`. -/
abbrev maxComponentFields : ℕ := 32

/-- `fdb_mregistry_t`. -/
structure MRegistry where
  metadata : BTree ℕ
  mstructAllocator : Pool MStruct

namespace MRegistry

/-- `fdb_mregistry_init`. -/
def init : MRegistry := ⟨BTree.init, Pool.empty⟩

/-- `fdb_mregistry_init_mstruct`: the description takes the place of one that is found under the hash. -/
def initMstruct (reg : MRegistry) (name : CString) (isUnion : Bool) : Option (ℕ × MRegistry) :=
  if name.strlen < maxTableName then do
    let (p, pool) := reg.mstructAllocator.alloc { MStruct.zero with typeName := name, isUnion := isUnion }
    let (metadata, ins) ← reg.metadata.insert (hash name) p
    if ins.inserted = false then do
      -- what the place that the insertion returns holds is what a lookup finds
      let old ← (← metadata.get (hash name))
      let metadata ← ins.assign metadata p
      let pool ← pool.release old
      some (p, ⟨metadata, pool⟩)
    else some (p, ⟨metadata, pool⟩)
  else none

/-- `fdb_mregistry_init_mfield`: a name that is too long and a field too many end the program. -/
def initMfield (reg : MRegistry) (mstruct : ℕ) (name : CString) (type : MType) (offset : ℕ)
    (isAnon : Bool) : Option (Option ℕ × MRegistry) :=
  if name.strlen < maxFieldName then do
    let (strctType, pool) :=
      if type.isRecord then
        let (p, pool) := reg.mstructAllocator.alloc MStruct.zero
        (some p, pool)
      else (none, reg.mstructAllocator)
    let s ← pool.get mstruct
    if s.fields.length < maxComponentFields then do
      let pool ← pool.put mstruct { s with fields := s.fields ++ [⟨name, type, offset, isAnon, strctType⟩] }
      some (strctType, { reg with mstructAllocator := pool })
    else none
  else none

/-- `fdb_mregistry_get_mstruct`. -/
def getMstruct (reg : MRegistry) (name : CString) : Option (Option ℕ) := reg.metadata.get (hash name)

end MRegistry

/-! ### Trees of fields -/

/-- The fields of a record, one after the other; those of a nested record in front of those that
follow. -/
inductive MFields where
  | nil
  | scalar (name : CString) (type : MType) (offset : ℕ) (anonymous : Bool) (rest : MFields)
  | record (name : CString) (type : MType) (offset : ℕ) (anonymous : Bool) (members rest : MFields)
deriving DecidableEq

/-- The fields are those of the tree; the descriptions of nested records are in `S`. -/
def Holds (get : ℕ → Option MStruct) (S : Set ℕ) : List MField → MFields → Prop
  | fs, .nil => fs = []
  | fs, .scalar name type offset anonymous rest =>
      ∃ l, fs = ⟨name, type, offset, anonymous, none⟩ :: l ∧ Holds get S l rest
  | fs, .record name type offset anonymous members rest =>
      ∃ p s l, fs = ⟨name, type, offset, anonymous, some p⟩ :: l ∧ p ∈ S ∧ get p = some s
        ∧ Holds get S s.fields members ∧ Holds get S l rest

/-- Descriptions elsewhere may change. -/
lemma Holds.mono {get get' : ℕ → Option MStruct} {S S' : Set ℕ} {fs : List MField} {t : MFields}
    (h : Holds get S fs t) (hS : S ⊆ S') (hget : ∀ p ∈ S, get p ≠ none → get' p = get p) :
    Holds get' S' fs t := by
  induction t generalizing fs with
  | nil => exact h
  | scalar name type offset anonymous rest ih =>
      obtain ⟨l, hl, hrest⟩ := h
      exact ⟨l, hl, ih hrest⟩
  | record name type offset anonymous members rest ihm ih =>
      obtain ⟨p, s, l, hl, hp, hs, hmembers, hrest⟩ := h
      refine ⟨p, s, l, hl, hS hp, ?_, ihm hmembers, ih hrest⟩
      rw [hget p hp (hs ▸ Option.some_ne_none s), hs]

namespace MFields

/-- The number of fields of the record itself. -/
def length : MFields → ℕ
  | nil => 0
  | scalar _ _ _ _ rest => rest.length + 1
  | record _ _ _ _ _ rest => rest.length + 1

/-- Fields that can be registered: the nested records are those of their types, the names are short
enough, and no record has too many fields. -/
def Allowed : MFields → Prop
  | nil => True
  | scalar name type _ _ rest => name.strlen < maxFieldName ∧ ¬ type.isRecord ∧ rest.Allowed
  | record name type _ _ members rest => name.strlen < maxFieldName ∧ type.isRecord
      ∧ members.length ≤ maxComponentFields ∧ members.Allowed ∧ rest.Allowed

end MFields

namespace MRegistry

/-- The calls that register the fields of a tree in a description. -/
def register (reg : MRegistry) (mstruct : ℕ) : MFields → Option MRegistry
  | .nil => some reg
  | .scalar name type offset anonymous rest => do
      let (_, reg) ← reg.initMfield mstruct name type offset anonymous
      reg.register mstruct rest
  | .record name type offset anonymous members rest => do
      let (p, reg) ← reg.initMfield mstruct name type offset anonymous
      let reg ← reg.register (← p) members
      reg.register mstruct rest

/-- A field without a description of its own. -/
lemma initMfield_scalar {reg : MRegistry} {p : ℕ} {s : MStruct} (hs : reg.mstructAllocator.get p = some s)
    {name : CString} (hname : name.strlen < maxFieldName) {type : MType} (htype : ¬ type.isRecord)
    (hroom : s.fields.length < maxComponentFields) (offset : ℕ) (anonymous : Bool) :
    ∃ pool, reg.initMfield p name type offset anonymous = some (none, { reg with mstructAllocator := pool })
      ∧ pool.get = Function.update reg.mstructAllocator.get p
        (some { s with fields := s.fields ++ [⟨name, type, offset, anonymous, none⟩] }) := by
  obtain ⟨pool, hput, hget⟩ := Pool.get_put hs
    { s with fields := s.fields ++ [⟨name, type, offset, anonymous, none⟩] }
  refine ⟨pool, ?_, hget⟩
  simp only [initMfield, if_pos hname, if_neg htype, hs, Option.bind_eq_bind, Option.bind_some, if_pos hroom,
    hput]

/-- A field with a new description of its own. -/
lemma initMfield_record {reg : MRegistry} {p : ℕ} {s : MStruct} (hs : reg.mstructAllocator.get p = some s)
    {name : CString} (hname : name.strlen < maxFieldName) {type : MType} (htype : type.isRecord)
    (hroom : s.fields.length < maxComponentFields) (offset : ℕ) (anonymous : Bool) :
    ∃ q pool, reg.initMfield p name type offset anonymous
        = some (some q, { reg with mstructAllocator := pool })
      ∧ reg.mstructAllocator.get q = none
      ∧ pool.get = Function.update (Function.update reg.mstructAllocator.get q (some MStruct.zero)) p
        (some { s with fields := s.fields ++ [⟨name, type, offset, anonymous, some q⟩] }) := by
  obtain ⟨q, pool₁, halloc, hvac, hget₁⟩ := reg.mstructAllocator.get_alloc MStruct.zero
  have hne : p ≠ q := by
    rintro rfl
    rw [hvac] at hs
    cases hs
  have hs₁ : pool₁.get p = some s := by rw [hget₁, Function.update_of_ne hne, hs]
  obtain ⟨pool, hput, hget⟩ := Pool.get_put hs₁
    { s with fields := s.fields ++ [⟨name, type, offset, anonymous, some q⟩] }
  refine ⟨q, pool, ?_, hvac, by rw [hget, hget₁]⟩
  simp only [initMfield, if_pos hname, if_pos htype, halloc, hs₁, Option.bind_eq_bind, Option.bind_some,
    if_pos hroom, hput]

/-- What registrations keep: the metadata and the other descriptions. -/
structure Extends (reg reg' : MRegistry) (p : ℕ) : Prop where
  metadata : reg'.metadata = reg.metadata
  live : reg'.mstructAllocator.get p ≠ none
  get : ∀ q, reg.mstructAllocator.get q ≠ none → q ≠ p →
    reg'.mstructAllocator.get q = reg.mstructAllocator.get q

lemma Extends.live_of_live {reg reg' : MRegistry} {p q : ℕ} (h : reg.Extends reg' p)
    (hq : reg.mstructAllocator.get q ≠ none) : reg'.mstructAllocator.get q ≠ none := by
  by_cases hqp : q = p
  · exact hqp ▸ h.live
  · rw [h.get q hq hqp]
    exact hq

/-- **A tree is registered**: the description holds it behind the fields that it has. -/
theorem register_spec {t : MFields} (ht : t.Allowed) (reg : MRegistry) {p : ℕ} {s : MStruct}
    (hs : reg.mstructAllocator.get p = some s) (hroom : s.fields.length + t.length ≤ maxComponentFields) :
    ∃ reg' new, reg.register p t = some reg' ∧ reg.Extends reg' p
      ∧ reg'.mstructAllocator.get p = some { s with fields := s.fields ++ new }
      ∧ Holds reg'.mstructAllocator.get { q | reg.mstructAllocator.get q = none } new t := by
  induction t generalizing reg p s with
  | nil =>
      refine ⟨reg, [], rfl, ⟨rfl, hs ▸ Option.some_ne_none s, fun _ _ _ => rfl⟩, ?_, rfl⟩
      rw [List.append_nil]
      exact hs
  | scalar name type offset anonymous rest ih =>
      obtain ⟨hname, htype, hrest⟩ := ht
      rw [MFields.length] at hroom
      obtain ⟨pool, hinit, hget⟩ := initMfield_scalar hs hname htype (by omega) offset anonymous
      have hp : pool.get p = some { s with fields := s.fields ++ [⟨name, type, offset, anonymous, none⟩] } := by
        rw [hget, Function.update_self]
      have hroom' : (s.fields ++ [MField.mk name type offset anonymous none]).length + rest.length
          ≤ maxComponentFields := by
        rw [List.length_append, List.length_singleton]
        omega
      obtain ⟨reg', new, hreg, hext, hs', hholds⟩ := ih hrest { reg with mstructAllocator := pool } hp hroom'
      have hold : ∀ q, reg.mstructAllocator.get q ≠ none → pool.get q ≠ none := fun q hq => by
        rw [hget, Function.update_apply]
        split_ifs
        · exact Option.some_ne_none _
        · exact hq
      refine ⟨reg', ⟨name, type, offset, anonymous, none⟩ :: new, ?_, ⟨hext.metadata, hext.live,
        fun q hq hqp => ?_⟩, ?_, new, rfl, hholds.mono (fun q hq => ?_) fun q hq _ => rfl⟩
      · simp only [register, hinit, Option.bind_eq_bind, Option.bind_some, hreg]
      · rw [hext.get q (hold q hq) hqp, hget, Function.update_of_ne hqp]
      · rw [hs', List.append_assoc]
        rfl
      · exact not_not.mp fun hne => hold q hne hq
  | record name type offset anonymous members rest ihm ih =>
      obtain ⟨hname, htype, hlen, hmembers, hrest⟩ := ht
      rw [MFields.length] at hroom
      obtain ⟨q, pool, hinit, hvac, hget⟩ := initMfield_record hs hname htype (by omega) offset anonymous
      have hqp : q ≠ p := by
        rintro rfl
        rw [hvac] at hs
        cases hs
      have hp : pool.get p = some { s with
          fields := s.fields ++ [⟨name, type, offset, anonymous, some q⟩] } := by
        rw [hget, Function.update_self]
      have hq : pool.get q = some MStruct.zero := by
        rw [hget, Function.update_of_ne hqp, Function.update_self]
      -- the members, in the new description
      obtain ⟨reg₂, newm, hreg₂, hext₂, hs₂, hholds₂⟩ := ihm hmembers { reg with mstructAllocator := pool } hq
        ((Nat.zero_add _).trans_le hlen)
      have hp₂ := (hext₂.get p (hp ▸ Option.some_ne_none _) hqp.symm).trans hp
      -- the fields that follow
      have hroom' : (s.fields ++ [MField.mk name type offset anonymous (some q)]).length + rest.length
          ≤ maxComponentFields := by
        rw [List.length_append, List.length_singleton]
        omega
      obtain ⟨reg₃, newr, hreg₃, hext₃, hs₃, hholds₃⟩ := ih hrest reg₂ hp₂ hroom'
      have hold : ∀ x, reg.mstructAllocator.get x ≠ none → pool.get x ≠ none := fun x hx => by
        rw [hget, Function.update_apply, Function.update_apply]
        split_ifs
        · exact Option.some_ne_none _
        · exact Option.some_ne_none _
        · exact hx
      have hq₂ : reg₂.mstructAllocator.get q ≠ none := hext₂.live
      refine ⟨reg₃, ⟨name, type, offset, anonymous, some q⟩ :: newr, ?_, ⟨hext₃.metadata.trans hext₂.metadata,
        hext₃.live, fun x hx hxp => ?_⟩, ?_, q, _, newr, rfl, hvac, (hext₃.get q hq₂ hqp).trans hs₂, ?_, ?_⟩
      · simp only [register, hinit, Option.bind_eq_bind, Option.bind_some, hreg₂, hreg₃]
      · have hxq : x ≠ q := fun heq => hx (heq ▸ hvac)
        rw [hext₃.get x (hext₂.live_of_live (hold x hx)) hxp, hext₂.get x (hold x hx) hxq, hget,
          Function.update_of_ne hxp, Function.update_of_ne hxq]
      · rw [hs₃, List.append_assoc]
        rfl
      · refine hholds₂.mono (fun x hx => not_not.mp fun hne => hold x hne hx) fun x hx hne => ?_
        refine hext₃.get x hne ?_
        rintro rfl
        exact Option.some_ne_none _ (hp.symm.trans hx)
      · refine hholds₃.mono (fun x hx => not_not.mp fun hne => ?_) fun _ _ _ => rfl
        exact hext₂.live_of_live (hold x hne) hx

/-- The registry leads from hashes to descriptions, each of which has one hash. -/
def Sound (reg : MRegistry) : Prop := ∃ M : KeyMap ℕ, Keyed reg.metadata M
  ∧ (∀ b p, M.lookup b = some p → reg.mstructAllocator.get p ≠ none)
  ∧ ∀ b b' p, M.lookup b = some p → M.lookup b' = some p → b = b'

lemma Sound.init : MRegistry.init.Sound := by
  refine ⟨∅, Keyed.init, fun b p h => ?_, fun b b' p h => ?_⟩
  · rw [Finmap.lookup_empty] at h
    cases h
  · rw [Finmap.lookup_empty] at h
    cases h

/-- Registrations of fields keep the registry sound. -/
lemma Sound.extends {reg reg' : MRegistry} {p : ℕ} (h : reg.Sound) (hext : reg.Extends reg' p) : reg'.Sound := by
  obtain ⟨M, hkeyed, hlive, hinj⟩ := h
  exact ⟨M, hext.metadata ▸ hkeyed, fun b q hq => hext.live_of_live (hlive b q hq), hinj⟩

/-- **A new description** is found by its name. -/
theorem Sound.initMstruct {reg : MRegistry} (h : reg.Sound) {name : CString} (hname : name.strlen < maxTableName)
    (isUnion : Bool) : ∃ p reg', reg.initMstruct name isUnion = some (p, reg') ∧ reg'.Sound
      ∧ reg'.mstructAllocator.get p = some ⟨name, isUnion, []⟩ ∧ reg'.getMstruct name = some (some p) := by
  obtain ⟨M, hkeyed, hlive, hinj⟩ := h
  obtain ⟨p, pool, halloc, hvac, hget⟩ := reg.mstructAllocator.get_alloc ⟨name, isUnion, []⟩
  have hfresh : ∀ b, M.lookup b ≠ some p := fun b hb => hlive b p hb hvac
  have hinj' : ∀ b b' q, (M.insert (hash name) p).lookup b = some q →
      (M.insert (hash name) p).lookup b' = some q → b = b' := by
    intro b b' q hb hb'
    by_cases hbn : b = hash name
    · by_cases hbn' : b' = hash name
      · rw [hbn, hbn']
      · rw [hbn, Finmap.lookup_insert] at hb
        rw [Finmap.lookup_insert_of_ne _ hbn', ← hb] at hb'
        exact absurd hb' (hfresh b')
    · rw [Finmap.lookup_insert_of_ne _ hbn] at hb
      by_cases hbn' : b' = hash name
      · rw [hbn', Finmap.lookup_insert] at hb'
        exact absurd (hb.trans hb'.symm) (hfresh b)
      · rw [Finmap.lookup_insert_of_ne _ hbn'] at hb'
        exact hinj b b' q hb hb'
  by_cases hmem : hash name ∈ M
  · obtain ⟨old, hold⟩ := Finmap.mem_iff.mp hmem
    obtain ⟨t₁, t', ins, heq, hfound, hassign, hkeyed'⟩ := hkeyed.put hmem p
    have hget₁ : t₁.get (hash name) = some (some old) := by rw [(hkeyed.found hmem heq).get, hold]
    have hne : p ≠ old := fun hpo => hfresh _ (hpo ▸ hold)
    obtain ⟨x, hx⟩ := Option.ne_none_iff_exists'.mp (hlive _ old hold)
    have hx' : pool.get old = some x := by rw [hget, Function.update_of_ne hne.symm, hx]
    obtain ⟨pool', hrel, hget'⟩ := Pool.get_release hx'
    refine ⟨p, ⟨t', pool'⟩, ?_, ⟨_, hkeyed', fun b q hq => ?_, hinj'⟩, ?_, ?_⟩
    · simp only [MRegistry.initMstruct, if_pos hname, MStruct.zero, halloc, heq, Option.bind_eq_bind,
        Option.bind_some, if_pos hfound, hget₁, hassign, hrel]
    · rw [hget', hget]
      by_cases hb : b = hash name
      · rw [hb, Finmap.lookup_insert] at hq
        obtain rfl := Option.some.inj hq
        rw [Function.update_of_ne hne, Function.update_self]
        exact Option.some_ne_none _
      · rw [Finmap.lookup_insert_of_ne _ hb] at hq
        have hqo : q ≠ old := fun e => hb (hinj b _ q hq (e ▸ hold))
        have hqp : q ≠ p := fun e => hfresh b (e ▸ hq)
        rw [Function.update_of_ne hqo, Function.update_of_ne hqp]
        exact hlive b q hq
    · rw [hget', Function.update_of_ne hne, hget, Function.update_self]
    · rw [getMstruct, hkeyed'.get, Finmap.lookup_insert]
  · obtain ⟨t', ins, heq, hnew, hkeyed'⟩ := hkeyed.insert hmem p
    refine ⟨p, ⟨t', pool⟩, ?_, ⟨_, hkeyed', fun b q hq => ?_, hinj'⟩, ?_, ?_⟩
    · simp only [MRegistry.initMstruct, if_pos hname, MStruct.zero, halloc, heq, Option.bind_eq_bind,
        Option.bind_some, hnew, Bool.true_eq_false, if_false]
    · rw [hget]
      by_cases hb : b = hash name
      · rw [hb, Finmap.lookup_insert] at hq
        obtain rfl := Option.some.inj hq
        rw [Function.update_self]
        exact Option.some_ne_none _
      · rw [Finmap.lookup_insert_of_ne _ hb] at hq
        have hqp : q ≠ p := fun e => hfresh b (e ▸ hq)
        rw [Function.update_of_ne hqp]
        exact hlive b q hq
    · rw [hget, Function.update_self]
    · rw [getMstruct, hkeyed'.get, Finmap.lookup_insert]

end MRegistry

end Furious
