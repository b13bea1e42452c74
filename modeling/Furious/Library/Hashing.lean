import Mathlib.Data.Finmap
import Mathlib.Tactic

/-!
Maps stored under the hashes of their keys.

A store that knows only a hash of each key is the map from the keys as long as no two of
its keys have the same hash. A key may be looked up if no other key of the map has its
hash; looked up without care it gives the value of that other key.

* `Unclashed`: no other key of a map has the hash of a key;
* `Stores`: a store by hashes keeps a map;
* `Stores.lookup_iff`: **the lookup is right exactly for the keys that do not clash**,
  `Stores.insert`, `Stores.erase`: the operations.
-/

namespace Furious

variable {κ ι V : Type*} [DecidableEq κ] [DecidableEq ι]

/-- No other key of `live` has the hash of `key`. -/
def Unclashed (h : κ → ι) (live : Finmap fun _ : κ => V) (key : κ) : Prop :=
  ∀ other ∈ live.keys, h other = h key → other = key

instance (h : κ → ι) (live : Finmap fun _ : κ => V) (key : κ) : Decidable (Unclashed h live key) :=
  inferInstanceAs (Decidable (∀ other ∈ live.keys, _))

/-- `store` has the values of `live` under the hashes of their keys. -/
structure Stores (h : κ → ι) (live : Finmap fun _ : κ => V) (store : Finmap fun _ : ι => V) : Prop where
  kept : ∀ key v, live.lookup key = some v → store.lookup (h key) = some v
  exact : ∀ i v, store.lookup i = some v → ∃ key, h key = i ∧ live.lookup key = some v
  inj : ∀ key other, key ∈ live → other ∈ live → h key = h other → key = other

namespace Stores

variable {h : κ → ι} {live : Finmap fun _ : κ => V} {store : Finmap fun _ : ι => V} {key : κ}

lemma empty : Stores h (∅ : Finmap fun _ : κ => V) ∅ where
  kept key v hv := by
    rw [Finmap.lookup_empty] at hv
    cases hv
  exact i v hv := by
    rw [Finmap.lookup_empty] at hv
    cases hv
  inj key other hk := absurd hk (Finmap.notMem_empty)

/-- **The lookup** under the hash of a key. -/
theorem lookup_iff (hs : Stores h live store) : store.lookup (h key) = live.lookup key
    ↔ Unclashed h live key := by
  constructor
  · intro heq other hother hclash
    have hmem := Finmap.mem_keys.mp hother
    obtain ⟨v, hv⟩ := Finmap.mem_iff.mp hmem
    have hkept := hs.kept other v hv
    rw [hclash, heq] at hkept
    exact hs.inj other key hmem (Finmap.mem_of_lookup_eq_some hkept) hclash
  · intro hun
    cases hlive : live.lookup key with
    | some v => exact hs.kept key v hlive
    | none =>
        rw [← Option.not_isSome_iff_eq_none, Option.isSome_iff_exists]
        rintro ⟨v, hv⟩
        obtain ⟨other, hclash, hother⟩ := hs.exact _ v hv
        have hmem := Finmap.mem_of_lookup_eq_some hother
        rw [hun other (Finmap.mem_keys.mpr hmem) hclash, hlive] at hother
        cases hother

/-- A value for a key that does not clash. -/
theorem insert (hs : Stores h live store) (hun : Unclashed h live key) (v : V) :
    Stores h (live.insert key v) (store.insert (h key) v) where
  kept k w hw := by
    by_cases hk : k = key
    · rw [hk, Finmap.lookup_insert] at hw
      rw [hk, Finmap.lookup_insert, hw]
    · rw [Finmap.lookup_insert_of_ne _ hk] at hw
      have hne : h k ≠ h key := fun heq =>
        hk (hun k (Finmap.mem_keys.mpr (Finmap.mem_of_lookup_eq_some hw)) heq)
      rw [Finmap.lookup_insert_of_ne _ hne]
      exact hs.kept k w hw
  exact i w hw := by
    by_cases hi : i = h key
    · rw [hi, Finmap.lookup_insert] at hw
      exact ⟨key, hi.symm, by rw [Finmap.lookup_insert, hw]⟩
    · rw [Finmap.lookup_insert_of_ne _ hi] at hw
      obtain ⟨k, hki, hk⟩ := hs.exact i w hw
      have hne : k ≠ key := by
        rintro rfl
        exact hi hki.symm
      exact ⟨k, hki, by rw [Finmap.lookup_insert_of_ne _ hne, hk]⟩
  inj k k' hk hk' heq := by
    by_cases hkey : k = key
    · rw [hkey] at heq ⊢
      by_cases hkey' : k' = key
      · exact hkey'.symm
      · have hlive' := (Finmap.mem_insert.mp hk').resolve_left hkey'
        exact (hun k' (Finmap.mem_keys.mpr hlive') heq.symm).symm
    · have hlive := (Finmap.mem_insert.mp hk).resolve_left hkey
      by_cases hkey' : k' = key
      · rw [hkey'] at heq ⊢
        exact hun k (Finmap.mem_keys.mpr hlive) heq
      · exact hs.inj k k' hlive ((Finmap.mem_insert.mp hk').resolve_left hkey') heq

/-- A key that does not clash goes. -/
theorem erase (hs : Stores h live store) (hun : Unclashed h live key) :
    Stores h (live.erase key) (store.erase (h key)) where
  kept k w hw := by
    have hk : k ≠ key := by
      rintro rfl
      rw [Finmap.lookup_erase] at hw
      cases hw
    rw [Finmap.lookup_erase_ne hk] at hw
    have hne : h k ≠ h key := fun heq =>
      hk (hun k (Finmap.mem_keys.mpr (Finmap.mem_of_lookup_eq_some hw)) heq)
    rw [Finmap.lookup_erase_ne hne]
    exact hs.kept k w hw
  exact i w hw := by
    have hi : i ≠ h key := by
      rintro rfl
      rw [Finmap.lookup_erase] at hw
      cases hw
    rw [Finmap.lookup_erase_ne hi] at hw
    obtain ⟨k, hki, hk⟩ := hs.exact i w hw
    have hne : k ≠ key := by
      rintro rfl
      exact hi hki.symm
    exact ⟨k, hki, by rw [Finmap.lookup_erase_ne hne, hk]⟩
  inj k k' hk hk' heq := by
    rw [Finmap.mem_erase] at hk hk'
    exact hs.inj k k' hk.2 hk'.2 heq

end Stores

end Furious
