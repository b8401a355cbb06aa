/-
Lease fencing of the v2 `RedisStore`, over every interleaving of its clients.

* `held_since` — a lease that is present was acquired at some earlier step by
  the token it holds, and nothing fenced, took over, released or expired it in
  between;
* `stored_value` — after an explicit write or delete only that write or a later
  publication is stored;
* `lease_fencing` — a fill publishes only under a lease it has held without
  interruption, so no fill older than an explicit write or delete survives it,
  if no `delete` is swallowed: the one whose Redis key is that of the index
  sends nothing (`swallowed_delete_published`).
-/
import LazyLayers.Runs
import LazyLayers.RedisLease

open Runs Js

namespace RedisStore

variable (N : Layout) (clock : ℕ) (acts : List Action)

/-- Redis before the `n`-th action of a run that starts with an empty keyspace. -/
def Db.at (n : ℕ) : Db := stateAt (Db.step N) ⟨clock, fun _ => none⟩ acts n

def slotAt (n : ℕ) (key : JsString) : Slot := (Db.at N clock acts n).slot N key

/-- Action `n` is the call `c` and it is answered with `reply`. -/
def RepliedAt (n : ℕ) (c : Call) (reply : Reply) : Prop :=
  acts[n]? = some (.call c) ∧ (c.run N (Db.at N clock acts n)).2 = reply

def AcquiredAt (n : ℕ) (key : JsString) (t : Octets) : Prop :=
  ∃ ttlMs, RepliedAt N clock acts n (.acquireLock key t ttlMs) (.flag true)

def PublishedAt (n : ℕ) (key : JsString) (t payload : Octets) (o : WriteOptions) : Prop :=
  RepliedAt N clock acts n (.publishIfOwner key t payload o) .published

/-- `t` acquired the lease of `key` at step `i` and has held it ever since, up to step `n`:
it was live all the time, and no explicit write or delete, no other acquisition
and no release came in between. -/
structure HeldSince (i n : ℕ) (key : JsString) (t : Octets) : Prop where
  acquired : AcquiredAt N clock acts i key t
  before : i < n
  live : ∀ m, i < m → m ≤ n → ∃ expireAt, (slotAt N clock acts m key).lease = some ⟨t, expireAt⟩ ∧
    (Db.at N clock acts m).now ≤ expireAt
  undisturbed : ∀ m c, i < m → m < n → acts[m]? = some (.call c) →
    ¬ c.Fences key ∧ c ≠ .releaseLock key t ∧ ∀ t', ¬ AcquiredAt N clock acts m key t'

/-- No `delete` is swallowed while something is stored for its entry. -/
def NoneSwallowed : Prop :=
  ∀ (n : ℕ) (c : Call), acts[n]? = some (.call c) →
    c.TakesEffect N (slotAt N clock acts n c.key)

/-- No token acquires twice. -/
def UniqueTokens : Prop :=
  ∀ i j key key' t, AcquiredAt N clock acts i key t → AcquiredAt N clock acts j key' t → i = j

variable {N clock acts} {n : ℕ} {key : JsString} {t : Octets}

theorem slotAt_succ {a : Action} (h : acts[n]? = some a) :
    slotAt N clock acts (n + 1) key =
      (slotAt N clock acts n key).step N (Db.at N clock acts n).now key a := by
  rw [slotAt, Db.at, stateAt_succ h, slot_step]
  rfl

theorem slotAt_call {c : Call} (h : acts[n]? = some (.call c)) (hk : c.key = key) :
    slotAt N clock acts (n + 1) key =
      (slotAt N clock acts n key).call N (Db.at N clock acts n).now c := by
  rw [slotAt_succ h, Slot.step, if_pos hk]

theorem slotAt_of_none (h : acts[n]? = none) :
    slotAt N clock acts (n + 1) key = slotAt N clock acts n key := by
  rw [slotAt, slotAt, Db.at, Db.at, stateAt_succ_of_none h]

/-! ### Leases -/

theorem lease_of_acquiredAt (h : AcquiredAt N clock acts n key t) :
    (slotAt N clock acts n key).lease = none := by
  obtain ⟨ttlMs, -, hrep⟩ := h
  simp only [Call.run, Db.setNX] at hrep
  split at hrep
  · split at hrep
    · simp at hrep
    · rename_i hno
      rw [Option.not_isSome_iff_eq_none] at hno
      exact hno
  · simp at hrep

theorem acquiredAt_of_lease {ttlMs : ℤ} (hv : validTtl ttlMs)
    (hget : acts[n]? = some (.call (.acquireLock key t ttlMs)))
    (hlease : (slotAt N clock acts n key).lease = none) : AcquiredAt N clock acts n key t := by
  refine ⟨ttlMs, hget, ?_⟩
  have hno : ((Db.at N clock acts n).entries (lockKey N key)).isSome = false := by
    rw [show (Db.at N clock acts n).entries (lockKey N key) = none from hlease]
    rfl
  simp [Call.run, Db.setNX, hv, hno]

theorem now_run (db : Db) (c : Call) : (c.run N db).1.now = db.now := by
  cases c with
  | acquireLock key token ttlMs =>
    simp only [Call.run, Db.setNX]
    split
    · split <;> rfl
    · rfl
  | renewLock key token ttlMs =>
    simp only [Call.run, Db.renewLock]
    split
    · split <;> rfl
    · rfl
  | releaseLock key token =>
    simp only [Call.run, Db.releaseLock]
    split <;> rfl
  | publishIfOwner key token payload options =>
    simp only [Call.run, Db.publishIfOwner]
    split
    · split
      · rfl
      · split <;> rfl
    · rfl
  | setEncoded key payload options =>
    simp only [Call.run]
    split <;> rfl
  | delete key =>
    simp only [Call.run, deleteKeys_toRedisKey]
    split <;> rfl

theorem validTtl_pos {ttlMs : ℤ} (h : validTtl ttlMs) : 0 < ttlMs.toNat := by
  simp only [validTtl, Bool.and_eq_true, decide_eq_true_eq] at h
  omega

/-- A call leaves the lease as it is, removes it, or renews it into the future. -/
theorem lease_call {s : Slot} {now : ℕ} {c : Call} {e : Entry}
    (h : (s.call N now c).lease = some e) : s.lease = some e ∨ now ≤ e.expireAt := by
  cases c with
  | acquireLock key token ttlMs =>
    simp only [Slot.call] at h
    split at h
    · rename_i hc
      obtain rfl := Option.some.inj h
      exact .inr (Nat.le_add_right ..)
    · exact .inl h
  | renewLock key token ttlMs =>
    simp only [Slot.call] at h
    split at h
    · rename_i hc
      obtain rfl := Option.some.inj h
      exact .inr (Nat.le_add_right ..)
    · exact .inl h
  | releaseLock key token =>
    simp only [Slot.call] at h
    split at h
    · simp at h
    · exact .inl h
  | publishIfOwner key token payload options =>
    simp only [Slot.call] at h
    split at h <;> exact .inl h
  | setEncoded key payload options =>
    simp only [Slot.call] at h
    split at h
    · simp at h
    · exact .inl h
  | delete key =>
    simp only [Slot.call] at h
    split at h
    · simp at h
    · exact .inl h

/-- Keys are dropped as soon as they expire, so what is there has not. -/
theorem lease_live {e : Entry} (h : (slotAt N clock acts n key).lease = some e) :
    (Db.at N clock acts n).now ≤ e.expireAt := by
  have hinv : ∀ e, ((Db.at N clock acts n).slot N key).lease = some e →
      (Db.at N clock acts n).now ≤ e.expireAt := by
    refine invariant (P := fun db : Db => ∀ e, (db.slot N key).lease = some e → db.now ≤ e.expireAt)
      (by simp [Db.slot]) ?_ n
    intro db a ih e he
    cases a with
    | advance ms =>
      have hkeep : decide (db.now + ms ≤ e.expireAt) = true := (Option.filter_eq_some_iff.mp he).2
      exact of_decide_eq_true hkeep
    | call c =>
      rw [slot_step, Slot.step] at he
      rw [Db.step, now_run]
      split at he
      · rcases lease_call he with he | he
        · exact ih e he
        · exact he
      · exact ih e he
  exact hinv e h

/-- **A lease that is present was acquired by its holder and held without interruption.** -/
theorem held_since (heffect : NoneSwallowed N clock acts)
    (h : (slotAt N clock acts n key).holder = some t) :
    ∃ i, HeldSince N clock acts i n key t := by
  -- first without the middle: the holder is the same at every step since some acquisition
  have hrun : ∀ n, (slotAt N clock acts n key).holder = some t →
      ∃ i < n, AcquiredAt N clock acts i key t ∧
        ∀ m, i < m → m ≤ n → (slotAt N clock acts m key).holder = some t := by
    intro n
    induction n with
    | zero =>
      intro h
      simp [slotAt, Db.at, Db.slot, Slot.holder] at h
    | succ n ih =>
      intro h
      rcases ha : acts[n]? with _ | a
      · rw [slotAt_of_none ha] at h
        obtain ⟨i, hi, hacq, hheld⟩ := ih h
        refine ⟨i, by omega, hacq, fun m him hmn => ?_⟩
        rcases Nat.le_succ_iff.mp hmn with hmn | rfl
        · exact hheld m him hmn
        · rw [slotAt_of_none ha]
          exact h
      · have hnext := h
        rw [slotAt_succ ha] at h
        rcases holder_step h with ⟨hlease, ttlMs, hv, rfl⟩ | ⟨hprev, -⟩
        · refine ⟨n, Nat.lt_succ_self n, acquiredAt_of_lease hv ha hlease, fun m hnm hmn => ?_⟩
          obtain rfl : m = n + 1 := by omega
          exact hnext
        · obtain ⟨i, hi, hacq, hheld⟩ := ih hprev
          refine ⟨i, by omega, hacq, fun m him hmn => ?_⟩
          rcases Nat.le_succ_iff.mp hmn with hmn | rfl
          · exact hheld m him hmn
          · exact hnext
  obtain ⟨i, hin, hacq, hheld⟩ := hrun n h
  refine ⟨i, hacq, hin, fun m him hmn => ?_, fun m c him hmn hget => ?_⟩
  · obtain ⟨e, he, hval⟩ := Option.map_eq_some_iff.mp (hheld m him hmn)
    subst hval
    exact ⟨e.expireAt, he, lease_live he⟩
  · -- the lease is there before and after step `m`, so step `m` did nothing to it
    have hbefore := hheld m him (by omega)
    have hafter := hheld (m + 1) (by omega) hmn
    have hnone : (slotAt N clock acts m key).lease ≠ none := by
      intro hnone
      rw [Slot.holder, hnone] at hbefore
      simp at hbefore
    rw [slotAt_succ hget] at hafter
    rcases holder_step hafter with ⟨hlease, -⟩ | ⟨-, hquiet⟩
    · exact absurd hlease hnone
    · obtain ⟨hclear, hrel⟩ := hquiet c rfl
      refine ⟨fun hf => ?_, hrel, fun t' ht' => hnone (lease_of_acquiredAt ht')⟩
      have heff := heffect m c hget
      rw [key_of_fences hf] at heff
      exact hclear (clears_of_fences hf heff fun hempty => hnone (by rw [hempty]))

/-! ### Publications -/

theorem run_publishIfOwner {db : Db} {payload : Octets} {o : WriteOptions} :
    ((Call.publishIfOwner key t payload o).run N db).2 = .published ↔
      o.valid ∧ t ≠ [] ∧ (db.slot N key).holder = some t := by
  simp only [Call.run, Db.publishIfOwner, Db.get_lock]
  by_cases hv : o.valid = true
  · by_cases ht : t = []
    · simp [hv, ht]
    · by_cases hh : (db.slot N key).holder = some t
      · simp [hv, ht, hh]
      · simp [hv, ht, hh]
  · simp [hv]

theorem data_of_publishedAt {payload : Octets} {o : WriteOptions}
    (h : PublishedAt N clock acts n key t payload o) :
    (slotAt N clock acts (n + 1) key).data =
      some ⟨payload, (Db.at N clock acts n).now + o.ttlMs.toNat⟩ := by
  obtain ⟨hget, hrep⟩ := h
  have hown : o.valid ∧ t ≠ [] ∧ (slotAt N clock acts n key).holder = some t :=
    run_publishIfOwner.mp hrep
  rw [slotAt_call hget (by rfl), Slot.call, if_pos hown]

/-- A publication that is not acknowledged has changed nothing. -/
theorem run_publishIfOwner_of_ne {db : Db} {payload : Octets} {o : WriteOptions}
    (h : ((Call.publishIfOwner key t payload o).run N db).2 ≠ .published) :
    ((Call.publishIfOwner key t payload o).run N db).1 = db := by
  rw [Ne, run_publishIfOwner] at h
  simp only [Call.run, Db.publishIfOwner, Db.get_lock]
  by_cases hv : o.valid = true
  · by_cases ht : t = []
    · simp [hv, ht]
    · have hh : (db.slot N key).holder ≠ some t := fun hh => h ⟨hv, ht, hh⟩
      simp [hv, ht, hh]
  · simp [hv]

/-- No lease is held across an explicit write or delete of its entry. -/
theorem HeldSince.fence_before {i j : ℕ} (h : HeldSince N clock acts i n key t) (hjn : j < n)
    {c : Call} (hget : acts[j]? = some (.call c)) (hf : c.Fences key) : j < i := by
  by_contra hle
  rcases Nat.lt_or_eq_of_le (Nat.le_of_not_lt hle) with hij | rfl
  · exact (h.undisturbed j c hij hjn hget).1 hf
  · obtain ⟨ttlMs, hacq, -⟩ := h.acquired
    rw [hacq] at hget
    cases hget
    exact hf

/-- After an explicit write or delete of `key`, and up to the next one, the stored
value is that of the write or of a publication that came later. -/
theorem stored_value (heffect : NoneSwallowed N clock acts) {j : ℕ} {c : Call}
    (hget : acts[j]? = some (.call c)) (hf : c.Fences key) (n : ℕ) (hjn : j < n)
    (hlast : ∀ m c', j < m → m < n → acts[m]? = some (.call c') → ¬ c'.Fences key)
    (e : Entry) (he : (slotAt N clock acts n key).data = some e) :
    (∃ o, c = .setEncoded key e.value o) ∨
      ∃ m t o, j < m ∧ m < n ∧ PublishedAt N clock acts m key t e.value o := by
  induction n, hjn using Nat.le_induction generalizing e with
  | base =>
    left
    rw [slotAt_succ hget] at he
    rcases data_step he with ⟨o, ho⟩ | ⟨t, o, -, -, -, ho⟩ | ⟨hdata, hno⟩
    · exact ⟨o, Action.call.inj ho⟩
    · obtain rfl := Action.call.inj ho
      exact hf.elim
    · have heff := heffect j c hget
      rw [key_of_fences hf] at heff
      refine absurd (clears_of_fences hf heff fun hempty => ?_) (hno c rfl)
      rw [hempty] at hdata
      cases hdata
  | succ n hjn ih =>
    have hlast' : ∀ m c', j < m → m < n → acts[m]? = some (.call c') → ¬ c'.Fences key :=
      fun m c' hm hmn => hlast m c' hm (by omega)
    have hkeep : (slotAt N clock acts n key).data = some e →
        (∃ o, c = .setEncoded key e.value o) ∨
          ∃ m t o, j < m ∧ m < n + 1 ∧ PublishedAt N clock acts m key t e.value o := by
      intro he
      rcases ih hlast' e he with hset | ⟨m, t, o, hjm, hmn, hpub⟩
      · exact .inl hset
      · exact .inr ⟨m, t, o, hjm, by omega, hpub⟩
    rcases ha : acts[n]? with _ | a
    · rw [slotAt_of_none ha] at he
      exact hkeep he
    · rw [slotAt_succ ha] at he
      rcases data_step he with ⟨o, rfl⟩ | ⟨t, o, hv, ht, hown, rfl⟩ | ⟨hsame, -⟩
      · -- a write that stored its value has passed its checks, so it is a later fence
        by_cases hv : o.valid = true
        · exact absurd ⟨rfl, hv⟩ (hlast n _ (by omega) (by omega) ha)
        · rw [Slot.step, if_pos (by rfl), Slot.call, if_neg hv] at he
          exact hkeep he
      · right
        exact ⟨n, t, o, by omega, by omega, ha, run_publishIfOwner.mpr ⟨hv, ht, hown⟩⟩
      · exact hkeep hsame

/-- A renewal or release by a token that does not hold the lease changes no slot. -/
theorem slotAt_of_not_holder {c : Call} {key' : JsString} (hget : acts[n]? = some (.call c))
    (hc : c = .releaseLock key' t ∨ ∃ ttlMs, c = .renewLock key' t ttlMs)
    (hne : (slotAt N clock acts n key).holder ≠ some t) :
    slotAt N clock acts (n + 1) key = slotAt N clock acts n key := by
  by_cases hk : c.key = key
  · rw [slotAt_call hget hk]
    rcases hc with rfl | ⟨ttlMs, rfl⟩
    · rw [Slot.call, if_neg hne]
    · rw [Slot.call, if_neg fun h => hne h.2]
  · rw [slotAt_succ hget, Slot.step, if_neg hk]

variable (N clock acts)

/-- **Lease fencing.**  In every interleaving of calls and expiries:

* a publication is acknowledged, and its value stored, only under a lease that
  its token acquired and has held without interruption; otherwise Redis is left
  as it was;
* after an explicit write or delete of an entry, no token that had acquired the
  entry before publishes to it, and the stored value is that of the write or of
  a fill that acquired its lease later;
* renewals and releases by a token that is not the holder of a lease leave the
  lease as it was. -/
theorem lease_fencing (hunique : UniqueTokens N clock acts)
    (heffect : NoneSwallowed N clock acts) :
    (∀ n key t payload o, acts[n]? = some (.call (.publishIfOwner key t payload o)) →
      (PublishedAt N clock acts n key t payload o ∧
        (slotAt N clock acts (n + 1) key).data =
          some ⟨payload, (Db.at N clock acts n).now + o.ttlMs.toNat⟩ ∧
        ∃ i, HeldSince N clock acts i n key t) ∨
      (¬ PublishedAt N clock acts n key t payload o ∧
        Db.at N clock acts (n + 1) = Db.at N clock acts n)) ∧
    (∀ j c key, acts[j]? = some (.call c) → c.Fences key →
      (∀ n t payload o i, j < n → PublishedAt N clock acts n key t payload o →
        AcquiredAt N clock acts i key t → j < i) ∧
      (∀ n e, j < n →
        (∀ m c', j < m → m < n → acts[m]? = some (.call c') → ¬ c'.Fences key) →
        (slotAt N clock acts n key).data = some e →
        (∃ o, c = .setEncoded key e.value o) ∨
          ∃ i m t o, j < i ∧ m < n ∧ HeldSince N clock acts i m key t ∧
            PublishedAt N clock acts m key t e.value o)) ∧
    (∀ n c key' t, acts[n]? = some (.call c) →
      (c = .releaseLock key' t ∨ ∃ ttlMs, c = .renewLock key' t ttlMs) →
      ∀ key, (slotAt N clock acts n key).holder ≠ some t →
        slotAt N clock acts (n + 1) key = slotAt N clock acts n key) := by
  have hheld : ∀ {n key t payload o}, PublishedAt N clock acts n key t payload o →
      ∃ i, HeldSince N clock acts i n key t :=
    fun h => held_since heffect (run_publishIfOwner.mp h.2).2.2
  refine ⟨fun n key t payload o hget => ?_, fun j c key hget hf => ⟨?_, ?_⟩, ?_⟩
  · by_cases hpub : PublishedAt N clock acts n key t payload o
    · exact .inl ⟨hpub, data_of_publishedAt hpub, hheld hpub⟩
    · refine .inr ⟨hpub, ?_⟩
      rw [Db.at, stateAt_succ hget]
      exact run_publishIfOwner_of_ne fun hrep => hpub ⟨hget, hrep⟩
  · intro n t payload o i hjn hpub hacq
    obtain ⟨i', hi'⟩ := hheld hpub
    rw [hunique i i' key key t hacq hi'.acquired]
    exact hi'.fence_before hjn hget hf
  · intro n e hjn hlast he
    rcases stored_value heffect hget hf n hjn hlast e he with hset | ⟨m, t, o, hjm, hmn, hpub⟩
    · exact .inl hset
    · obtain ⟨i, hi⟩ := hheld hpub
      exact .inr ⟨i, m, t, o, hi.fence_before hjm hget hf, hmn, hi, hpub⟩
  · exact fun n c key' t hget hc key hne => slotAt_of_not_holder hget hc hne

/-! ### A fill that is overtaken by a write -/

def sampleLayout : Layout := { keyPrefix := str "cache:", wellFormed_keyPrefix := wellFormed_cache }

/-- A loader acquires the lease, an operator writes the entry, the loader's
result is refused, a second loader fills the entry again, and it is deleted. -/
def overtakenRun : List Action :=
  [.call (.acquireLock (str "seat") [1] 1000), .call (.setEncoded (str "seat") [7] ⟨500, none⟩),
    .call (.publishIfOwner (str "seat") [1] [8] ⟨500, none⟩),
    .call (.acquireLock (str "seat") [2] 1000),
    .call (.publishIfOwner (str "seat") [2] [9] ⟨500, none⟩), .call (.delete (str "seat"))]

theorem uniqueTokens_overtakenRun : UniqueTokens sampleLayout 0 overtakenRun := by
  have hacq : ∀ i key t, AcquiredAt sampleLayout 0 overtakenRun i key t →
      (i = 0 ∧ t = [1]) ∨ (i = 3 ∧ t = [2]) := by
    rintro i key t ⟨ttlMs, hget, -⟩
    have hlt : i < 6 := (List.getElem?_eq_some_iff.mp hget).1
    rcases i with _ | _ | _ | _ | _ | _ | i
    · left; cases hget; exact ⟨rfl, rfl⟩
    · cases hget
    · cases hget
    · right; cases hget; exact ⟨rfl, rfl⟩
    · cases hget
    · cases hget
    · omega
  intro i j key key' t hi hj
  rcases hacq i key t hi with ⟨rfl, rfl⟩ | ⟨rfl, rfl⟩ <;>
    rcases hacq j key' _ hj with ⟨rfl, ht⟩ | ⟨rfl, ht⟩
  · rfl
  · cases ht
  · cases ht
  · rfl

theorem noneSwallowed_overtakenRun : NoneSwallowed sampleLayout 0 overtakenRun := by
  intro n c hget
  have hcall : Action.call c ∈ overtakenRun := List.mem_of_getElem? hget
  simp only [overtakenRun, List.mem_cons, Action.call.injEq, List.not_mem_nil, or_false] at hcall
  rcases hcall with rfl | rfl | rfl | rfl | rfl | rfl
  any_goals exact trivial
  exact .inl (by decide)

/-- The late result of the first loader is refused and leaves Redis as it was. -/
theorem lease_fencing_overtaken :
    ¬ PublishedAt sampleLayout 0 overtakenRun 2 (str "seat") [1] [8] ⟨500, none⟩ ∧
      Db.at sampleLayout 0 overtakenRun 3 = Db.at sampleLayout 0 overtakenRun 2 := by
  have hrefused : ¬ PublishedAt sampleLayout 0 overtakenRun 2 (str "seat") [1] [8] ⟨500, none⟩ :=
    fun h => absurd h.2 (by decide +kernel)
  rcases (lease_fencing sampleLayout 0 overtakenRun uniqueTokens_overtakenRun
    noneSwallowed_overtakenRun).1 2 (str "seat") [1] [8] ⟨500, none⟩ rfl with ⟨hpub, -⟩ | h
  · exact absurd hpub hrefused
  · exact h

/-! ### A delete that is swallowed -/

/-- The index is configured under the name of an entry. -/
def maskedLayout : Layout :=
  { sampleLayout with indexKey := toRedisKey sampleLayout (str "seat") }

/-- A loader acquires the lease, an operator deletes the entry, and the loader's result
comes in. -/
def swallowedRun : List Action :=
  [.call (.acquireLock (str "seat") [1] 1000), .call (.delete (str "seat")),
    .call (.publishIfOwner (str "seat") [1] [8] ⟨500, none⟩)]

/-- The result is published although the entry has been deleted since the loader acquired
the lease, and it is stored. -/
theorem swallowed_delete_published :
    UniqueTokens maskedLayout 0 swallowedRun ∧
      AcquiredAt maskedLayout 0 swallowedRun 0 (str "seat") [1] ∧
      RepliedAt maskedLayout 0 swallowedRun 1 (.delete (str "seat")) .done ∧
      PublishedAt maskedLayout 0 swallowedRun 2 (str "seat") [1] [8] ⟨500, none⟩ ∧
      (slotAt maskedLayout 0 swallowedRun 3 (str "seat")).data = some ⟨[8], 500⟩ := by
  refine ⟨?_, ⟨1000, rfl, by decide +kernel⟩, ⟨rfl, rfl⟩, ⟨rfl, by decide +kernel⟩,
    by decide +kernel⟩
  have hfirst : ∀ i key t, AcquiredAt maskedLayout 0 swallowedRun i key t → i = 0 := by
    rintro i key t ⟨ttlMs, hget, -⟩
    rcases i with _ | _ | _ | i
    · rfl
    · cases hget
    · cases hget
    · cases hget
  exact fun i j key key' t hi hj => (hfirst i key t hi).trans (hfirst j key' t hj).symm

end RedisStore
