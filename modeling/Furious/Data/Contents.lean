import Furious.Data.Slots
import Furious.Library.Memory

/-!
Numbers in the memory of a table.

* `Table.load`, `Table.store`: the number in some bytes;
* `load_store`, `load_congr`, `memory_store`: **what a number depends on**;
* `Sound.store`, `Housed.store`: a store leaves the blocks alone.
-/

namespace Furious

namespace Table

/-- The bytes of a page, by their offsets. -/
def page (t : Table) (page : ℕ) : Mem := fun offset => t.memory ⟨page, offset⟩

/-- The number in `n` bytes. -/
def load (t : Table) (n : ℕ) (ptr : Address) : ℕ := loadBytes (t.page ptr.page) n ptr.offset

/-- `n` bytes get a number. -/
def store (t : Table) (n : ℕ) (ptr : Address) (v : ℕ) : Table :=
  { t with memory := fun a =>
      if a.page = ptr.page then storeBytes (t.page ptr.page) n ptr.offset v a.offset else t.memory a }

variable {t t' : Table} {n : ℕ} {ptr : Address}

lemma load_store (t : Table) (ptr : Address) {v : ℕ} (h : v < 256 ^ n) : (t.store n ptr v).load n ptr = v := by
  have hpage : (t.store n ptr v).page ptr.page = storeBytes (t.page ptr.page) n ptr.offset v :=
    funext fun _ => if_pos rfl
  rw [load, hpage, loadBytes_storeBytes h]

/-- A store changes its own bytes only. -/
lemma memory_store {v : ℕ} {a : Address} (h : a ∉ ptr.bytes n) : (t.store n ptr v).memory a = t.memory a := by
  by_cases hpage : a.page = ptr.page
  · have hout : a.offset ∉ bytes ptr.offset n := fun hmem => h ⟨hpage, hmem.1, hmem.2⟩
    calc (t.store n ptr v).memory a = storeBytes (t.page ptr.page) n ptr.offset v a.offset := if_pos hpage
      _ = t.page ptr.page a.offset := storeBytes_of_notMem hout
      _ = t.memory a := by rw [page, ← hpage]
  · exact if_neg hpage

/-- A number depends on its own bytes only. -/
lemma load_congr (h : ∀ a ∈ ptr.bytes n, t'.memory a = t.memory a) : t'.load n ptr = t.load n ptr :=
  loadBytes_congr fun offset hmem => h ⟨ptr.page, offset⟩ ⟨rfl, hmem.1, hmem.2⟩

lemma load_of_memory (h : t'.memory = t.memory) : t'.load n = t.load n :=
  funext fun _ => load_congr fun a _ => congrFun h a

/-- Stores leave the blocks alone. -/
lemma Sound.store {M : KeyMap ℕ} (h : t.Sound M) (n : ℕ) (ptr : Address) (v : ℕ) : (t.store n ptr v).Sound M :=
  ⟨h.shows, h.block, h.inj, h.lt⟩

lemma Housed.store (h : t.Housed) (n : ℕ) (ptr : Address) (v : ℕ) : (t.store n ptr v).Housed :=
  h.same rfl rfl rfl

end Table

end Furious
