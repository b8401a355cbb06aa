/-
Leases of one operation key are mutually exclusive.

Positions of a run are numbered; `AcquiredAt`, `GrantedAt` and `LiveAt` say
what happened, or held, at a position.  Three invariants of the history carry
the result:

* `granted_accounted` — the latest deadline granted to an owner has passed, or
  the record still belongs to that owner;
* `live_since_acquired` — a live lease has been live in every state since the
  most recent acquisition;
* `not_live_persists` — an owner that has acquired and is no longer live never
  becomes live again, if owner tokens are fresh.
-/
import LazyLayers.LuaReference
import LazyLayers.OperationRuns

open Runs

namespace Transactions

variable (L : Lua) (clock : ℕ) (acts : List Action)

/-- The state before the `n`-th action of a run that starts with no record. -/
def Server.at (n : ℕ) : Server := stateAt (Server.step L) ⟨clock, none⟩ acts n

/-- The command at position `n`, and the reply it gets. -/
def RepliedAt (n : ℕ) (q : Request) (reply : Reply) : Prop :=
  acts[n]? = some (.command q) ∧ ((Server.at L clock acts n).execute L q).reply = reply

/-- At position `n` a `begin` by `owner` replies `acquired`, whichever token the reply
names. -/
def AcquiredAt (n : ℕ) (owner : LuaString) : Prop :=
  ∃ q o d, RepliedAt L clock acts n q (.acquired o d) ∧ q.cmd = .begin ∧ q.owner = owner

/-- At position `n` a reply to `owner` grants a lease that ends at `deadline`. -/
def GrantedAt (n : ℕ) (owner : LuaString) (deadline : ℕ) : Prop :=
  ∃ q d, ((∃ o, RepliedAt L clock acts n q (.acquired o d)) ∨
      RepliedAt L clock acts n q (.renewed d)) ∧
    q.owner = owner ∧ deadline = (Server.at L clock acts n).now + d

/-- Before action `n` the record carries a live lease of `owner`. -/
def LiveAt (n : ℕ) (owner : LuaString) : Prop :=
  ∃ r, (Server.at L clock acts n).record L = some r ∧
    r.LiveFor owner (Server.at L clock acts n).now

/-- Owner tokens are fresh: a token is used in a second `begin` only to repeat
the request while the record is still its own. -/
def FreshOwners : Prop :=
  ∀ i n p q, i < n → acts[i]? = some (.command p) → acts[n]? = some (.command q) →
    p.cmd = .begin → q.cmd = .begin → p.owner = q.owner →
    ∃ r, (Server.at L clock acts n).record L = some r ∧ r.owner = q.owner

variable {L clock acts}

theorem Server.at_succ {n : ℕ} {a : Action} (h : acts[n]? = some a) :
    Server.at L clock acts (n + 1) = (Server.at L clock acts n).step L a :=
  stateAt_succ h

theorem coherent_at (L : Lua) (clock : ℕ) (acts : List Action) (n : ℕ) :
    Coherent L (Server.at L clock acts n) :=
  Runs.invariant (P := Coherent L) (coherent_absent L clock) (fun _ a h => coherent_step h a) n

/-- Every command gets some reply. -/
theorem repliedAt (L : Lua) (clock : ℕ) {n : ℕ} {q : Request}
    (h : acts[n]? = some (.command q)) :
    RepliedAt L clock acts n q ((Server.at L clock acts n).execute L q).reply :=
  ⟨h, rfl⟩

/-- The transition behind the reply at position `n`. -/
theorem transition_at {n : ℕ} {q : Request} {reply : Reply}
    (h : RepliedAt L clock acts n q reply) :
    ∃ wrote, Transition q.toArgs (Server.at L clock acts n).now wrote
        ((Server.at L clock acts n).record L) ((Server.at L clock acts (n + 1)).record L) reply ∧
      (wrote = false → Server.at L clock acts (n + 1) = Server.at L clock acts n) ∧
      (Server.at L clock acts (n + 1)).now = (Server.at L clock acts n).now := by
  obtain ⟨hact, hreply⟩ := h
  obtain ⟨⟨wrote, ht, hkeep⟩, hnow, -⟩ := command_transition (coherent_at L clock acts n) q
  rw [Server.at_succ hact, ← hreply]
  exact ⟨wrote, ht, hkeep, hnow⟩

/-! ### The latest grant -/

/-- The latest grant of an owner has ended, or the record is still the owner's. -/
def Accounted (s : Server) (owner : LuaString) (deadline : ℕ) : Prop :=
  deadline ≤ s.now ∨
    ∃ r, s.record L = some r ∧ r.owner = owner ∧
      (r.state = .pending ∧ r.leaseUntilMs = deadline ∨
        r.state = .completed ∧ deadline ≤ r.retainUntilMs)

theorem granted_accounted {owner : LuaString} {i : ℕ} {deadline : ℕ}
    (hg : GrantedAt L clock acts i owner deadline) :
    ∀ n, i < n → n ≤ acts.length →
      (∀ m, i < m → m < n → ∀ d, ¬ GrantedAt L clock acts m owner d) →
      Accounted (L := L) (Server.at L clock acts n) owner deadline := by
  intro n hin
  induction n, hin using Nat.le_induction with
  | base =>
    intro _ _
    -- the grant itself leaves a pending record of the owner with this deadline
    obtain ⟨q, d, hrep, rfl, rfl⟩ := hg
    rcases hrep with ⟨o, hrep⟩ | hrep
    · obtain ⟨wrote, ht, -, hnow⟩ := transition_at hrep
      right
      generalize hr : (Server.at L clock acts i).record L = r at ht
      generalize hr' : (Server.at L clock acts (i + 1)).record L = r' at ht
      cases ht with
      | keep hren hacq => exact absurd rfl (hacq _ _)
      | reenter hcmd hlive =>
        refine ⟨_, rfl, hlive.2.1, .inl ⟨hlive.1, ?_⟩⟩
        have := hlive.2.2
        omega
      | acquire hcmd hr hlive hlease => exact ⟨_, rfl, hlive.2.1, .inl ⟨hlive.1, hlease⟩⟩
    · obtain ⟨wrote, ht, -, hnow⟩ := transition_at hrep
      right
      generalize hr : (Server.at L clock acts i).record L = r at ht
      generalize hr' : (Server.at L clock acts (i + 1)).record L = r' at ht
      cases ht with
      | keep hren hacq => exact absurd rfl (hren _)
      | renew hcmd hlive hq hlease hret => exact ⟨_, rfl, hq.2.1, .inl ⟨hq.1, hlease⟩⟩
  | succ n hin ih =>
    intro hn hlast
    have ih := ih (by omega) fun m h1 h2 => hlast m h1 (by omega)
    have hget : acts[n]? = some acts[n] := List.getElem?_eq_getElem (by omega)
    have hcoh := coherent_at L clock acts n
    cases hact : acts[n] with
    | advance us =>
      rw [hact] at hget
      obtain ⟨hle, hrec⟩ := advance_record hcoh us
      rw [← Server.at_succ hget] at hle hrec
      rcases ih with hdone | ⟨r, hr, hown, hst⟩
      · exact .inl (le_trans hdone hle)
      · rcases hrec with ⟨hsame, -⟩ | ⟨-, -, hgone⟩
        · exact .inr ⟨r, hsame.trans hr, hown, hst⟩
        · -- the record was dropped, which is not before the deadline
          left
          have hret := hgone r hr
          rcases hst with ⟨hp, hl⟩ | ⟨-, hl⟩
          · have := ((Coherent.valid hr).pending hp).2.1
            omega
          · omega
    | command q =>
      rw [hact] at hget
      obtain ⟨wrote, ht, -, hnow⟩ := transition_at (repliedAt L clock hget)
      have hno : ∀ d, ¬ GrantedAt L clock acts n owner d := hlast n (by omega) (by omega)
      rcases ih with hdone | ⟨r, hr, hown, hst⟩
      · exact .inl (by omega)
      · rw [hr] at ht
        generalize hr' : (Server.at L clock acts (n + 1)).record L = r' at ht
        generalize hrep : ((Server.at L clock acts n).execute L q).reply = reply at ht
        cases ht with
        | keep hren hacq => exact .inr ⟨r, hr', hown, hst⟩
        | reenter hcmd hlive => exact .inr ⟨r, hr', hown, hst⟩
        | acquire hcmd hp hlive hlease =>
          obtain ⟨hpend, -, hexp, -⟩ := hp r rfl
          left
          rcases hst with ⟨-, hl⟩ | ⟨hc, -⟩
          · omega
          · rw [hpend] at hc
            cases hc
        | renew hcmd hlive hq hlease hret =>
          exact absurd ⟨q, q.lease, .inr ⟨hget, hrep⟩, hlive.2.1.symm.trans hown, rfl⟩ (hno _)
        | complete hcmd hlive hq hown' hres hret =>
          refine .inr ⟨_, hr', hown'.trans hown, .inr ⟨hq, ?_⟩⟩
          rcases hst with ⟨hp, hl⟩ | ⟨hc, -⟩
          · have := ((Coherent.valid hr).pending hp).2.1
            omega
          · rw [hlive.1] at hc
            cases hc

/-! ### A live lease has been live since its acquisition -/

/-- The lease of `owner` is live before action `n`, was granted by the most
recent acquisition, and has been live in every state since. -/
def LiveSince (L : Lua) (clock : ℕ) (acts : List Action) (n : ℕ) (owner : LuaString) : Prop :=
  ∃ i < n, AcquiredAt L clock acts i owner ∧
    (∀ m, i < m → m < n → ∀ o, ¬ AcquiredAt L clock acts m o) ∧
    ∀ m, i < m → m ≤ n → LiveAt L clock acts m owner

/-- One more action without an acquisition. -/
theorem LiveSince.succ {n : ℕ} {owner : LuaString} (h : LiveSince L clock acts n owner)
    (hlive : LiveAt L clock acts (n + 1) owner) (hno : ∀ o, ¬ AcquiredAt L clock acts n o) :
    LiveSince L clock acts (n + 1) owner := by
  obtain ⟨i, hi, hacq, hlast, hsince⟩ := h
  refine ⟨i, by omega, hacq, fun m h1 h2 => ?_, fun m h1 h2 => ?_⟩
  · rcases Nat.lt_succ_iff_lt_or_eq.mp h2 with h | rfl
    · exact hlast m h1 h
    · exact hno
  · rcases Nat.le_succ_iff.mp h2 with h | rfl
    · exact hsince m h1 h
    · exact hlive

theorem LiveSince.acquired {n : ℕ} {owner : LuaString} (h : AcquiredAt L clock acts n owner)
    (hlive : LiveAt L clock acts (n + 1) owner) : LiveSince L clock acts (n + 1) owner := by
  refine ⟨n, by omega, h, fun m h1 h2 => by omega, fun m h1 h2 => ?_⟩
  have : m = n + 1 := by omega
  exact this ▸ hlive

theorem live_since_acquired (n : ℕ) (hn : n ≤ acts.length) :
    ∀ owner, LiveAt L clock acts n owner → LiveSince L clock acts n owner := by
  induction n with
  | zero =>
    rintro owner ⟨r, hr, -⟩
    cases hr
  | succ n ih =>
    intro owner hlive
    have ih := ih (by omega) owner
    have hget : acts[n]? = some acts[n] := List.getElem?_eq_getElem (by omega)
    cases hact : acts[n] with
    | advance us =>
      rw [hact] at hget
      obtain ⟨hle, hrec⟩ := advance_record (coherent_at L clock acts n) us
      rw [← Server.at_succ hget] at hle hrec
      have hno : ∀ o, ¬ AcquiredAt L clock acts n o := by
        rintro o ⟨q, o', d, ⟨hq, -⟩, -⟩
        rw [hget] at hq
        cases hq
      obtain ⟨r, hr, hp, hown, hl⟩ := id hlive
      rcases hrec with ⟨hsame, -⟩ | ⟨hgone, -⟩
      · exact (ih ⟨r, hsame.symm.trans hr, hp, hown, by omega⟩).succ hlive hno
      · rw [hgone] at hr
        cases hr
    | command q =>
      rw [hact] at hget
      obtain ⟨wrote, ht, -, hnow⟩ := transition_at (repliedAt L clock hget)
      obtain ⟨p, hp, hpl⟩ := id hlive
      rw [hp] at ht
      rw [hnow] at hpl
      generalize hr : (Server.at L clock acts n).record L = r at ht
      generalize hrep : ((Server.at L clock acts n).execute L q).reply = reply at ht
      -- only a reply `acquired` is an acquisition
      have hno : (∀ o d, reply ≠ .acquired o d) → ∀ o, ¬ AcquiredAt L clock acts n o := by
        rintro hne o ⟨q', o', d, ⟨hq', hrep'⟩, -⟩
        rw [hget] at hq'
        cases hq'
        exact hne o' d (hrep.symm.trans hrep')
      cases ht with
      | keep hren hacq => exact (ih ⟨p, hr, hpl⟩).succ hlive (hno hacq)
      | reenter hcmd hl =>
        obtain rfl : owner = q.owner := hpl.2.1.symm.trans hl.2.1
        exact .acquired ⟨q, _, _, ⟨hget, hrep⟩, hcmd, rfl⟩ hlive
      | acquire hcmd hpr hl hlease =>
        obtain rfl : owner = q.owner := hpl.2.1.symm.trans hl.2.1
        exact .acquired ⟨q, _, _, ⟨hget, hrep⟩, hcmd, rfl⟩ hlive
      | renew hcmd hl hq hlease hret =>
        obtain rfl : owner = q.owner := hpl.2.1.symm.trans hq.2.1
        exact (ih ⟨_, hr, hl⟩).succ hlive (hno (by simp))
      | complete hcmd hl hq hown hres hret =>
        rw [hpl.1] at hq
        cases hq

/-! ### A lost lease stays lost -/

theorem not_live_persists (hfresh : FreshOwners L clock acts) {i m : ℕ} {owner : LuaString}
    (hacq : AcquiredAt L clock acts i owner) (him : i < m)
    (hm : ¬ LiveAt L clock acts m owner) :
    ∀ n, m ≤ n → n ≤ acts.length → ¬ LiveAt L clock acts n owner := by
  intro n hmn
  induction n, hmn using Nat.le_induction with
  | base => exact fun _ => hm
  | succ n hmn ih =>
    intro hn hlive
    have ih := ih (by omega)
    have hget : acts[n]? = some acts[n] := List.getElem?_eq_getElem (by omega)
    obtain ⟨r, hr, hp, hown, hl⟩ := hlive
    cases hact : acts[n] with
    | advance us =>
      rw [hact] at hget
      obtain ⟨hle, hrec⟩ := advance_record (coherent_at L clock acts n) us
      rw [← Server.at_succ hget] at hle hrec
      rcases hrec with ⟨hsame, -⟩ | ⟨hgone, -⟩
      · exact ih ⟨r, hsame.symm.trans hr, hp, hown, by omega⟩
      · rw [hgone] at hr
        cases hr
    | command q =>
      rw [hact] at hget
      obtain ⟨wrote, ht, -, hnow⟩ := transition_at (repliedAt L clock hget)
      rw [hnow] at hl
      rw [hr] at ht
      generalize hold : (Server.at L clock acts n).record L = old at ht
      generalize ((Server.at L clock acts n).execute L q).reply = reply at ht
      cases ht with
      | keep hren hacq => exact ih ⟨r, hold, hp, hown, hl⟩
      | reenter hcmd hlive => exact ih ⟨r, hold, hp, hown, hl⟩
      | acquire hcmd hpr hlive hlease =>
        -- a second acquisition by this owner would reuse its token
        obtain ⟨q₀, o, d, ⟨hq₀, -⟩, hcmd₀, hown₀⟩ := hacq
        have hsame : q₀.owner = q.owner := hown₀.trans (hown.symm.trans hlive.2.1)
        obtain ⟨p, hp', hpown⟩ := hfresh i n q₀ q (by omega) hq₀ hget hcmd₀ hcmd hsame
        exact (hpr p (hold.symm.trans hp')).2.1 hpown
      | renew hcmd hlive hq hlease hret =>
        exact ih ⟨_, hold, hlive.1, hlive.2.1.trans (hq.2.1.symm.trans hown), hlive.2.2⟩
      | complete hcmd hlive hq hown' hres hret =>
        rw [hp] at hq
        cases hq

/-! ### Mutual exclusion -/

/-- A command that writes over a pending record of a live owner is by that owner. -/
theorem live_of_written {n : ℕ} {q : Request} (hget : acts[n]? = some (.command q))
    (hcmd : q.cmd ≠ .begin) (hw : Server.at L clock acts (n + 1) ≠ Server.at L clock acts n) :
    LiveAt L clock acts n q.owner := by
  obtain ⟨wrote, ht, hkeep, -⟩ := transition_at (repliedAt L clock hget)
  generalize hr : (Server.at L clock acts n).record L = r at ht
  generalize (Server.at L clock acts (n + 1)).record L = r' at ht
  generalize ((Server.at L clock acts n).execute L q).reply = reply at ht
  cases ht with
  | keep hren hacq => exact absurd (hkeep rfl) hw
  | reenter hcmd' hlive => exact absurd (hkeep rfl) hw
  | acquire hcmd' hpr hlive hlease => exact absurd hcmd' hcmd
  | renew hcmd' hlive hq hlease hret => exact ⟨_, hr, hlive⟩
  | complete hcmd' hlive hq hown hres hret => exact ⟨_, hr, hlive⟩

/-- **Leases of one operation key are mutually exclusive**, along every run of
the four commands by owners with fresh tokens:

* a `begin` that replies `acquired` finds the latest lease of every other owner
  expired;
* a renewal, and a completion of a pending record, is by the owner of the most
  recent acquisition, whose lease has been live ever since;
* an owner whose lease has expired or was taken over neither renews nor writes
  a completion again;
* Redis keeps a record at least until the lease it stores has ended;
* a reply `acquired` names the owner that asked. -/
theorem mutual_exclusion (L : Lua) (clock : ℕ) (acts : List Action)
    (hfresh : FreshOwners L clock acts) :
    (∀ n owner, AcquiredAt L clock acts n owner →
      ∀ other, other ≠ owner → ∀ i, i < n → ∀ deadline, GrantedAt L clock acts i other deadline →
        (∀ m, i < m → m < n → ∀ d, ¬ GrantedAt L clock acts m other d) →
        deadline ≤ (Server.at L clock acts n).now) ∧
    (∀ n q d, RepliedAt L clock acts n q (.renewed d) → LiveSince L clock acts n q.owner) ∧
    (∀ n q r r', acts[n]? = some (.command q) → q.cmd = .complete →
      (Server.at L clock acts n).record L = some r → r.state = .pending →
      (Server.at L clock acts (n + 1)).record L = some r' → r'.state = .completed →
      LiveSince L clock acts n q.owner) ∧
    (∀ i m owner, AcquiredAt L clock acts i owner → i < m → ¬ LiveAt L clock acts m owner →
      ∀ n q, m ≤ n → acts[n]? = some (.command q) → q.owner = owner →
        (∀ d, ¬ RepliedAt L clock acts n q (.renewed d)) ∧
        (q.cmd = .complete → Server.at L clock acts (n + 1) = Server.at L clock acts n)) ∧
    (∀ n st, (Server.at L clock acts n).key = some st →
      ∃ r, (Server.at L clock acts n).record L = some r ∧
        (r.state = .pending → r.leaseUntilMs ≤ st.expiresAt)) ∧
    (∀ n q o d, RepliedAt L clock acts n q (.acquired o d) → o = q.owner) := by
  have hlen : ∀ {n : ℕ} {q : Request}, acts[n]? = some (.command q) → n < acts.length :=
    fun h => (List.getElem?_eq_some_iff.mp h).1
  -- a reply `renewed` comes from the owner of a live lease
  have hrenewed : ∀ {n : ℕ} {q : Request} {d : ℕ}, RepliedAt L clock acts n q (.renewed d) →
      LiveAt L clock acts n q.owner := by
    intro n q d hrep
    obtain ⟨wrote, ht, -, -⟩ := transition_at hrep
    generalize hr : (Server.at L clock acts n).record L = r at ht
    generalize (Server.at L clock acts (n + 1)).record L = r' at ht
    cases ht with
    | keep hren hacq => exact absurd rfl (hren _)
    | renew hcmd hlive hq hlease hret => exact ⟨_, hr, hlive⟩
  refine ⟨?_, ?_, ?_, ?_, ?_, ?_⟩
  · intro n owner hacq other hne i hin deadline hg hlast
    obtain ⟨q, o, d, hrep, hcmd, hown⟩ := hacq
    have hn := hlen hrep.1
    rcases granted_accounted hg n hin (by omega) hlast with h | ⟨r, hr, hrown, hst⟩
    · exact h
    · -- the record is the other owner's: it can only be taken over when expired
      obtain ⟨wrote, ht, -, -⟩ := transition_at hrep
      rw [hr] at ht
      generalize (Server.at L clock acts (n + 1)).record L = r' at ht
      cases ht with
      | keep hren hacq => exact absurd rfl (hacq _ _)
      | reenter hcmd' hlive => exact absurd (hrown.symm.trans (hlive.2.1.trans hown)) hne
      | acquire hcmd' hpr hlive hlease =>
        obtain ⟨hpend, -, hexp, -⟩ := hpr r rfl
        rcases hst with ⟨-, hl⟩ | ⟨hc, -⟩
        · omega
        · rw [hpend] at hc
          cases hc
  · intro n q d hrep
    have hn := hlen hrep.1
    exact live_since_acquired n (by omega) _ (hrenewed hrep)
  · intro n q r r' hget hcmd hr hp hr' hc
    have hn := hlen hget
    refine live_since_acquired n (by omega) _ (live_of_written hget (by simp [hcmd]) ?_)
    intro heq
    rw [heq, hr, Option.some_inj] at hr'
    rw [hr', hc] at hp
    cases hp
  · intro i m owner hacq him hm n q hmn hget hown
    have hn := hlen hget
    have hdead := not_live_persists hfresh hacq him hm n hmn (by omega)
    rw [← hown] at hdead
    refine ⟨fun d hrep => hdead (hrenewed hrep), fun hcmd => ?_⟩
    by_contra hw
    exact hdead (live_of_written hget (by simp [hcmd]) hw)
  · intro n st hst
    obtain ⟨r, hr, hexp⟩ := (coherent_at L clock acts n).record st hst
    refine ⟨r, hr, fun hp => ?_⟩
    rw [hexp]
    exact ((Coherent.valid hr).pending hp).2.1
  · intro n q o d hrep
    obtain ⟨wrote, ht, -, -⟩ := transition_at hrep
    generalize (Server.at L clock acts n).record L = r at ht
    generalize (Server.at L clock acts (n + 1)).record L = r' at ht
    cases ht with
    | keep hren hacq => exact absurd rfl (hacq _ _)
    | reenter hcmd hlive => rfl
    | acquire hcmd hr hlive hlease => rfl

/-! ### A takeover -/

/-- A command of the owner whose token repeats the digit `b`. -/
def sampleRequest (cmd : Command) (b : UInt8) (hb : hex64 (List.replicate 64 b) = true)
    (lease retention : ℕ) (h1 : 1 ≤ lease) (h2 : lease ≤ 3600000) (h3 : lease ≤ retention)
    (h4 : retention ≤ 2592000000) : Request where
  cmd := cmd
  fp := List.replicate 64 99
  durable := lua "reservation-1"
  owner := List.replicate 64 b
  lease := lease
  retention := retention
  result := lua "result-1"
  fp_hex := by decide
  durable_ref := by decide
  owner_hex := fun _ => hb
  lease_pos := h1
  lease_le := h2
  lease_retention := h3
  retention_le := h4
  result_ref := fun _ => by decide

theorem hex64_97 : hex64 (List.replicate 64 97) = true := by decide

theorem hex64_98 : hex64 (List.replicate 64 98) = true := by decide

def firstBegin : Request :=
  sampleRequest .begin 97 hex64_97 30 2000 (by decide) (by decide) (by decide) (by decide)

def secondBegin : Request :=
  sampleRequest .begin 98 hex64_98 30 2000 (by decide) (by decide) (by decide) (by decide)

def firstRenew : Request :=
  sampleRequest .renew 97 hex64_97 30 2000 (by decide) (by decide) (by decide) (by decide)

/-- The first lease runs out, the second owner takes over, the first one renews. -/
def takeoverRun : List Action :=
  [.command firstBegin, .advance 60000, .command secondBegin, .command firstRenew]

theorem freshOwners_takeoverRun : FreshOwners referenceLua 0 takeoverRun := by
  intro i n p q hin hi hn hp hq hown
  have hlt : n < 4 := (List.getElem?_eq_some_iff.mp hn).1
  -- only positions 0 and 2 hold a `begin`, and their owners differ
  interval_cases n <;> interval_cases i <;> simp only [takeoverRun, List.getElem?_cons_zero,
    List.getElem?_cons_succ, Option.some_inj, Action.command.injEq, reduceCtorEq] at hi hn
  · subst hi hn
    exact absurd hown (by decide)
  · subst hn
    cases hq
  · subst hi hn
    cases hq

theorem mutual_exclusion_takeover :
    FreshOwners referenceLua 0 takeoverRun ∧
    AcquiredAt referenceLua 0 takeoverRun 0 firstBegin.owner ∧
    AcquiredAt referenceLua 0 takeoverRun 2 secondBegin.owner ∧
    ∀ d, ¬ RepliedAt referenceLua 0 takeoverRun 3 firstRenew (.renewed d) := by
  have hfirst : AcquiredAt referenceLua 0 takeoverRun 0 firstBegin.owner :=
    ⟨firstBegin, firstBegin.owner, 30, ⟨rfl, by decide +kernel⟩, rfl, rfl⟩
  have hsecond : AcquiredAt referenceLua 0 takeoverRun 2 secondBegin.owner :=
    ⟨secondBegin, secondBegin.owner, 30, ⟨rfl, by decide +kernel⟩, rfl, rfl⟩
  have hexpired : ¬ LiveAt referenceLua 0 takeoverRun 2 firstBegin.owner := by
    rintro ⟨r, hr, -, -, hlive⟩
    have hrec : (Server.at referenceLua 0 takeoverRun 2).record referenceLua =
        some ⟨List.replicate 64 99, lua "reservation-1", List.replicate 64 97, .pending, 30,
          2000, []⟩ := by decide +kernel
    rw [hrec, Option.some_inj] at hr
    subst hr
    exact absurd hlive (by decide +kernel)
  obtain ⟨-, -, -, hlost, -⟩ :=
    mutual_exclusion referenceLua 0 takeoverRun freshOwners_takeoverRun
  exact ⟨freshOwners_takeoverRun, hfirst, hsecond,
    (hlost 0 2 _ hfirst (by decide) hexpired 3 firstRenew (by decide) rfl rfl).1⟩

end Transactions
