/-
Shares in the byte ledger (`memoryBudget.ts`).

The caches of a process reserve from one `MemoryBudget` and release what they hold.
`release` cuts what it is given down to what the ledger has, so a client that released
too much would take from the others without notice.  A client whose `mine` the ledger
balances never does.

* `Ledger.foreign` — what the other clients do, and the sampling that moves the target;
* `Shared` — the ledger holds what two parties hold, in every category;
* `Balanced` — these are the client and all the others;
* `Balanced.reserve`, `Balanced.release` — the client's own reservations are exact.
-/
import LazyLayers.MemoryStore
import Mathlib.Algebra.BigOperators.Pi
import Mathlib.Data.Fintype.Basic

open Finset

instance : Fintype MemoryCategory :=
  ⟨{.fresh, .stale, .metadata, .queue, .coordinationMetadata}, fun c => by cases c <;> decide⟩

namespace MemoryLedger

/-- A budget, and what the clients other than the one considered hold in it. -/
structure Ledger where
  budget : MemoryBudget
  others : MemoryCategory → ℕ

/-- What happens to a budget without the client considered.  Nobody releases more than
it holds. -/
inductive Foreign
  | reserve (bytes : ℕ) (category : MemoryCategory)
  | release (bytes : ℕ) (category : MemoryCategory)
  | sample (target : ℕ) (state : PressureState)

/-- `tryReserve` and `release` by the client. -/
def Ledger.reserve (l : Ledger) (bytes : ℕ) (category : MemoryCategory) : Ledger :=
  { l with budget := l.budget.reserve bytes category }

def Ledger.release (l : Ledger) (bytes : ℕ) (category : MemoryCategory) : Ledger :=
  { l with budget := l.budget.release bytes category }

def Ledger.foreign (l : Ledger) : Foreign → Ledger
  | .reserve bytes category =>
    if l.budget.admits bytes then
      ⟨l.budget.reserve bytes category,
        Function.update l.others category (l.others category + bytes)⟩
    else l
  | .release bytes category =>
    if bytes ≤ l.others category then
      ⟨l.budget.release bytes category,
        Function.update l.others category (l.others category - bytes)⟩
    else l
  | .sample target state => { l with budget := { l.budget with target := target, state := state } }

/-- The ledger holds what two parties hold, and no more. -/
structure Shared (b : MemoryBudget) (f g : MemoryCategory → ℕ) : Prop where
  used : b.used = ∑ c, b.categories c
  share : ∀ c, b.categories c = f c + g c

def Balanced (l : Ledger) (mine : MemoryCategory → ℕ) : Prop := Shared l.budget l.others mine

variable {l : Ledger} {b : MemoryBudget} {f g mine : MemoryCategory → ℕ} {bytes : ℕ}
  {category : MemoryCategory}

/-- One category changes, and with it the sum. -/
theorem sum_update_add (f : MemoryCategory → ℕ) (category : MemoryCategory) (n : ℕ) :
    ∑ c, Function.update f category (f category + n) c = (∑ c, f c) + n := by
  rw [sum_update_of_mem (mem_univ _), ← add_sum_erase univ f (mem_univ category),
    ← sdiff_singleton_eq_erase]
  omega

theorem sum_update_sub (f : MemoryCategory → ℕ) {category : MemoryCategory} {n : ℕ}
    (h : n ≤ f category) :
    ∑ c, Function.update f category (f category - n) c = (∑ c, f c) - n := by
  have hsum := sum_update_add (Function.update f category (f category - n)) category n
  rw [Function.update_self, Function.update_idem, Nat.sub_add_cancel h,
    Function.update_eq_self] at hsum
  omega

/-- A reservation that succeeds. -/
theorem reserve_exact (hused : b.used = ∑ c, b.categories c) (hadmits : b.admits bytes = true)
    (category : MemoryCategory) :
    (b.reserve bytes category).categories =
        Function.update b.categories category (b.categories category + bytes) ∧
      (b.reserve bytes category).used = ∑ c, (b.reserve bytes category).categories c := by
  rw [MemoryBudget.reserve, if_pos hadmits]
  refine ⟨rfl, ?_⟩
  show b.used + bytes = ∑ c, Function.update b.categories category _ c
  rw [sum_update_add, hused]

/-- A release of no more than the category has is not cut down. -/
theorem release_exact (hused : b.used = ∑ c, b.categories c)
    (hbytes : bytes ≤ b.categories category) :
    (b.release bytes category).categories =
        Function.update b.categories category (b.categories category - bytes) ∧
      (b.release bytes category).used = ∑ c, (b.release bytes category).categories c := by
  have hle : b.categories category ≤ b.used := by
    rw [hused]
    exact single_le_sum (f := b.categories) (fun _ _ => Nat.zero_le _) (mem_univ category)
  have hamount : min (min bytes (b.categories category)) b.used = bytes := by omega
  rw [MemoryBudget.release]
  simp only [hamount]
  refine ⟨trivial, ?_⟩
  rw [sum_update_sub _ hbytes, hused]

theorem Shared.symm (h : Shared b f g) : Shared b g f :=
  ⟨h.used, fun c => by rw [h.share c, Nat.add_comm]⟩

theorem Shared.reserve (h : Shared b f g) (hadmits : b.admits bytes = true) :
    Shared (b.reserve bytes category) f (Function.update g category (g category + bytes)) := by
  obtain ⟨hcategories, hused⟩ := reserve_exact h.used hadmits category
  refine ⟨hused, fun c => ?_⟩
  rw [hcategories]
  by_cases hc : c = category
  · subst hc
    rw [Function.update_self, Function.update_self, h.share c, Nat.add_assoc]
  · rw [Function.update_of_ne hc, Function.update_of_ne hc, h.share c]

theorem Shared.release (h : Shared b f g) (hbytes : bytes ≤ g category) :
    Shared (b.release bytes category) f (Function.update g category (g category - bytes)) := by
  have hle : bytes ≤ b.categories category := by
    rw [h.share category]
    omega
  obtain ⟨hcategories, hused⟩ := release_exact h.used hle
  refine ⟨hused, fun c => ?_⟩
  rw [hcategories]
  by_cases hc : c = category
  · subst hc
    rw [Function.update_self, Function.update_self, h.share c]
    omega
  · rw [Function.update_of_ne hc, Function.update_of_ne hc, h.share c]

theorem Balanced.reserve (h : Balanced l mine) (hadmits : l.budget.admits bytes = true) :
    Balanced (l.reserve bytes category)
      (Function.update mine category (mine category + bytes)) :=
  Shared.reserve h hadmits

theorem Balanced.release (h : Balanced l mine) (hbytes : bytes ≤ mine category) :
    Balanced (l.release bytes category)
      (Function.update mine category (mine category - bytes)) :=
  Shared.release h hbytes

/-- A client that uses one category. -/
theorem Balanced.reserve_single {n : ℕ} (h : Balanced l (Pi.single category n))
    (hadmits : l.budget.admits bytes = true) :
    Balanced (l.reserve bytes category) (Pi.single category (n + bytes)) := by
  have hreserve : Balanced (l.reserve bytes category) (Function.update (Pi.single category n)
      category (Pi.single (M := fun _ => ℕ) category n category + bytes)) :=
    Balanced.reserve h hadmits
  rwa [Pi.single_eq_same, Pi.single, Function.update_idem] at hreserve

theorem Balanced.release_single {n : ℕ} (h : Balanced l (Pi.single category n))
    (hbytes : bytes ≤ n) : Balanced (l.release bytes category) (Pi.single category (n - bytes)) := by
  have hle : bytes ≤ Pi.single (M := fun _ => ℕ) category n category := by rwa [Pi.single_eq_same]
  have hrelease := Balanced.release h hle
  rwa [Pi.single_eq_same, Pi.single, Function.update_idem] at hrelease

/-- Releases one after the other. -/
def Ledger.releaseAll (l : Ledger) (bytes : List ℕ) (category : MemoryCategory) : Ledger :=
  bytes.foldl (fun l n => l.release n category) l

theorem Balanced.releaseAll_single (bytes : List ℕ) {n : ℕ}
    (h : Balanced l (Pi.single category (bytes.sum + n))) :
    Balanced (l.releaseAll bytes category) (Pi.single category n) := by
  induction bytes generalizing l with
  | nil => rwa [List.sum_nil, Nat.zero_add] at h
  | cons b bytes ih =>
    rw [List.sum_cons, Nat.add_assoc] at h
    have hrelease := h.release_single (Nat.le_add_right b _)
    rw [Nat.add_sub_cancel_left] at hrelease
    exact ih hrelease

/-- The other clients, and the sampling, leave the client its share. -/
theorem Balanced.foreign (h : Balanced l mine) (f : Foreign) : Balanced (l.foreign f) mine := by
  cases f with
  | reserve bytes category =>
    rw [Ledger.foreign]
    split
    · next hadmits => exact ((Shared.symm h).reserve hadmits).symm
    · exact h
  | release bytes category =>
    rw [Ledger.foreign]
    split
    · next hbytes => exact ((Shared.symm h).release hbytes).symm
    · exact h
  | sample target state => exact ⟨h.used, h.share⟩

end MemoryLedger
