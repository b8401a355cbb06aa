/-
Publication under a lease.

A `getOrSet` that coordinates through the locks of an L2 with atomic publication has
many ways to come by a value and many moments to lose its lease.  Whatever happens, its
writes to the shared tier are conditional on a token that it was given, and what its
loader yields goes nowhere else before such a write has been confirmed.
-/
import LazyLayers.HybridBarriers

open Js Pattern Async Runs

namespace HybridCache

variable {V : Type}

/-- The act puts this value into the L1 or the stale map. -/
def Act.keeps : Act V → Option (Origin × MutationGuard × V)
  | .insertL1 o g v _ _ => some (o, g, v)
  | .rememberStale o g v _ _ => some (o, g, v)
  | _ => none

namespace Run

variable {r : Run V}

/-- Before position `n` task `i` was told that it holds the lock of the key under this
token. -/
def LeaseGranted (r : Run V) (i n : ℕ) (key : CacheKey) (token : ℕ) : Prop :=
  ∃ m g, m < n ∧ r.Does m i (.returned g (.acquireLock key token) (.flag true))

/-- Before position `n` task `i` was told that an encoding of the value is published
under the key, by a `publishIfOwner` with a token it had been granted before. -/
def LeasePublished (r : Run V) (i n : ℕ) (key : CacheKey) (v : V) : Prop :=
  ∃ m g token policy buffer ttlMs, m < n ∧
    r.Does m i (.returned g (.publishIfOwner key token (.encoded buffer) ttlMs) .published) ∧
    r.cfg.codec.serialize policy v = some buffer ∧ r.LeaseGranted i m key token

theorem leaseGranted_of_acquired {i n : ℕ} {key : CacheKey} {token : ℕ}
    (h : Acquired (r.acts i n) key token) : r.LeaseGranted i n key token := by
  obtain ⟨g, hmem⟩ := h
  obtain ⟨m, hm, hdoes⟩ := does_of_mem hmem
  exact ⟨m, g, hm, hdoes⟩

/-- Only a granted token is ever published with: the reply goes back to an execution,
the execution to a dispatch, and the dispatch presupposes the grant. -/
theorem leasePublished_of_published {i n : ℕ} {key : CacheKey} {v : V}
    (h : Published r.cfg (r.acts i n) key v) : r.LeasePublished i n key v := by
  obtain ⟨g, token, policy, buffer, ttlMs, hserialize, hmem⟩ := h
  obtain ⟨m, hm, hreturned⟩ := does_of_mem hmem
  refine ⟨m, g, token, policy, buffer, ttlMs, hm, hreturned, hserialize, ?_⟩
  obtain ⟨_, -, -, hexecuted⟩ := rule hreturned
  obtain ⟨m₁, hm₁, hdoes₁⟩ := does_of_mem hexecuted
  obtain ⟨_, -, -, -, hsent⟩ := rule hdoes₁
  rcases hsent with hdispatched | ⟨-, key', pattern, keys, hop, -⟩
  · obtain ⟨m₂, hm₂, hdoes₂⟩ := does_of_mem hdispatched
    obtain ⟨_, -, -, hmay⟩ := rule hdoes₂
    cases g with
    | none => exact hmay.elim
    | some g =>
      obtain ⟨m₃, g', hm₃, hdoes₃⟩ := leaseGranted_of_acquired hmay.2.2.2.1
      exact ⟨m₃, g', by omega, hdoes₃⟩
  · cases hop

/-- A guard that a `getOrSet` takes is for a fill or for a read. -/
theorem origin_of_coordinated {i n : ℕ} {t : CacheTask V} {o : Origin} {g : MutationGuard}
    (ht : r.tasks[i]? = some t) (hc : t.call.coordinated r.cfg = true)
    (hobs : Observed (r.acts i n) o g) : o = .fill ∨ o = .read := by
  obtain ⟨mutate, hmem⟩ := hobs
  obtain ⟨m, -, hdoes⟩ := does_of_mem hmem
  obtain ⟨t', ht', -, hallows, -⟩ := rule hdoes
  obtain rfl : t = t' := Option.some.inj (ht.symm.trans ht')
  cases hcall : t.call
  case getOrSet key opts timing =>
    rw [hcall] at hallows
    cases o
    case write => exact hallows.elim
    case fill => exact .inl rfl
    case read => exact .inr rfl
    case remote => exact hallows.elim
  all_goals
    rw [hcall] at hc
    cases hc

/-- **Publication is checked against the lease.**  For a `getOrSet` that coordinates
through the locks of an L2 with atomic publication:

* whatever it writes to the shared tier it writes with `publishIfOwner`, under a token
  that it was granted for the very key;
* what it puts into the L1 or the stale map was found there or in the shared tier, or it
  was loaded and its publication has been confirmed;
* an event with a value names the key of a guard that it has taken for the load, and the
  publication under the storage key of this guard has been confirmed. -/
theorem lease_checked_publication {i : ℕ} {t : CacheTask V} (ht : r.tasks[i]? = some t)
    (hc : t.call.coordinated r.cfg = true) :
    (∀ n g op, r.Does n i (.dispatch g op) → op.writes = true →
      ∃ key token record ttlMs, op = .publishIfOwner key token record ttlMs ∧
        r.LeaseGranted i n key token) ∧
    (∀ n a o g v, r.Does n i a → a.keeps = some (o, g, v) →
      o = .fill ∧ r.LeasePublished i n g.storageKey v ∨
        o = .read ∧ Found r.cfg (r.acts i n) g v) ∧
    ∀ n event keys keyTypes v ttlMs generation, r.Does n i (.publish event) →
      event.body = .set keys keyTypes v ttlMs generation →
      ∃ g, Observed (r.acts i n) .fill g ∧ keys = [g.key.text] ∧
        r.LeasePublished i n g.storageKey v := by
  -- what the rule says about an act of the call itself
  have hrule : ∀ {n a}, r.Does n i a → Rule r.cfg t.call (r.acts i n) (r.at n) a := by
    intro n a hdoes
    obtain ⟨t', ht', -, h⟩ := rule hdoes
    obtain rfl : t = t' := Option.some.inj (ht.symm.trans ht')
    exact h
  -- a local value is loaded and published, or it was found
  have hlocal : ∀ {n o g v}, Observed (r.acts i n) o g →
      Justified r.cfg t.call (r.acts i n) g v o ∨ o = .read ∧ FromL1 r.cfg (r.acts i n) g v →
      o = .fill ∧ r.LeasePublished i n g.storageKey v ∨
        o = .read ∧ Found r.cfg (r.acts i n) g v := by
    intro n o g v hobs hwhence
    rcases origin_of_coordinated ht hc hobs with rfl | rfl
    · rcases hwhence with hjustified | ⟨hread, -⟩
      · exact .inl ⟨rfl, leasePublished_of_published (hjustified.2 hc)⟩
      · cases hread
    · rcases hwhence with hjustified | ⟨-, hfound⟩
      · exact .inr ⟨rfl, .inr hjustified⟩
      · exact .inr ⟨rfl, .inl hfound⟩
  refine ⟨?_, ?_, ?_⟩
  · intro n g op hdoes hwrites
    have hmay := hrule hdoes
    cases g with
    | none =>
      cases op
      case set => exact hmay.elim
      case publishIfOwner => exact hmay.elim
      all_goals cases hwrites
    | some g =>
      cases op
      case set key record ttlMs =>
        obtain ⟨-, -, v, -, ⟨hobs, -⟩ | ⟨-, huncoordinated, -⟩⟩ := hmay
        · rcases origin_of_coordinated ht hc hobs with h | h <;> cases h
        · rw [hc] at huncoordinated
          cases huncoordinated
      case publishIfOwner key token record ttlMs =>
        exact ⟨key, token, record, ttlMs, rfl, leaseGranted_of_acquired hmay.2.2.2.1⟩
      all_goals cases hwrites
  · intro n a o g v hdoes hkeeps
    have hact := hrule hdoes
    cases a
    case insertL1 o' g' v' buffer ttlMs =>
      obtain ⟨rfl, rfl, rfl⟩ : o' = o ∧ g' = g ∧ v' = v := by simpa [Act.keeps] using hkeeps
      exact hlocal hact.1 (.inl hact.2.2.1)
    case rememberStale o' g' v' encoded opts =>
      obtain ⟨rfl, rfl, rfl⟩ : o' = o ∧ g' = g ∧ v' = v := by simpa [Act.keeps] using hkeeps
      exact hlocal hact.1 hact.2.2.1
    all_goals cases hkeeps
  · intro n event keys keyTypes v ttlMs generation hdoes hbody
    have hact := hrule hdoes
    have hpub := hact.2
    rw [hbody] at hpub
    obtain ⟨g, hobs, hkeys, hpublished⟩ := hpub hc
    exact ⟨g, hobs, hkeys, leasePublished_of_published hpublished⟩

/-- A load from beginning to end. -/
def leased : Run ℕ :=
  demo quietConfig []
    (.start (.getOrSet theKey {} { rounds := 2 }) :: List.replicate 45 (.resume 0 healthy))

theorem lease_checked_publication_leased : ∃ g key token record ttlMs,
    leased.Does 48 0 (.dispatch g (.publishIfOwner key token record ttlMs)) ∧
      leased.LeaseGranted 0 48 key token := by
  have hcall : (leased.tasks[0]?.any fun t => t.call.coordinated leased.cfg) = true := by
    decide +kernel
  have hdispatch : (leased.trace[48]?.any fun x => match x with
      | .own 0 (.dispatch _ op) => op.writes
      | _ => false) = true := by decide +kernel
  obtain ⟨t, ht, hcoordinated⟩ := (Option.any_eq_true ..).mp hcall
  obtain ⟨x, hx, hmatch⟩ := (Option.any_eq_true ..).mp hdispatch
  split at hmatch
  · rename_i g op
    obtain ⟨key, token, record, ttlMs, rfl, hgranted⟩ :=
      (lease_checked_publication ht hcoordinated).1 48 g op hx hmatch
    exact ⟨g, key, token, record, ttlMs, hx, hgranted⟩
  · cases hmatch

end Run

end HybridCache
