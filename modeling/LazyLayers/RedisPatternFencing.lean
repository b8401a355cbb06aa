/-
Deletion by pattern beside the fills of other clients.

Without an index, `deleteByPattern` scans the keys twice, first for data and then for
leases, and runs one script for each match.  A fill acquires the lease of its key, publishes
under it and releases it, between any two steps of the deletion.

* `Invalidation` — Redis and one call of `deleteByPattern`, page by page and script by script;
* `ScanPromise` — what Redis promises of a scan beside other commands;
* `Forfeits` — a fill older than the call that neither scan finds gives its lease up after it
  has published, before the call returns;
* `fenced_of_scanned` — a key that is there throughout a scan is fenced;
* `pattern_fences` — apart from such steps nothing that an older fill has published is left.
-/
import LazyLayers.RedisFencing
import LazyLayers.RedisPatternDeletion

open Js Pattern Runs

namespace RedisStore

/-! ### A call of `deleteByPattern` -/

/-- Where the call is: before it, in the loop over the data, in `fencePatternLeases`, or
behind it. -/
inductive Phase
  | idle
  | data
  | leases
  | returned
  deriving DecidableEq

/-- Redis and the call. -/
structure Invalidation where
  db : Db
  phase : Phase := .idle
  /-- The scan of the phase has been answered. -/
  begun : Bool := false
  /-- Its cursor has come back to zero. -/
  ended : Bool := false
  /-- The scripts for the keys that have been answered. -/
  due : List Command := []

/-- What happens next.  Pages may be fetched ahead of the scripts. -/
inductive Happening
  /-- Time passes, or another client's command is executed. -/
  | other (action : Action)
  | invoke
  /-- A page of the scan, the last one or not. -/
  | page (keys : List JsString) (last : Bool)
  | script

/-- A script of the deletion is executed. -/
def Db.execute (db : Db) : Command → Db
  | .deleteAndFence key lock => db.deleteAndFence key lock
  | .delete keys => keys.foldl Db.del db
  | _ => db

namespace Store

variable (S : Store) (pattern : JsString)

/-- The scripts that follow from a page. -/
def scripts (keys : List JsString) : Phase → List Command
  | .data => S.deleteKeys (keys.filter (S.hasMatchingData pattern))
  | .leases => keys.filterMap (S.fenceLease pattern)
  | _ => []

/-- The pattern of the scan. -/
def glob : Phase → JsString
  | .leases => S.leasePattern pattern
  | _ => S.toRedisPattern pattern

/-- A loop ends with its last page and its last script. -/
def proceed (s : Invalidation) : Invalidation :=
  if s.ended = true ∧ s.due = [] then
    match s.phase with
    | .data =>
      { s with phase := if S.versioned then .leases else .returned, begun := false, ended := false }
    | .leases => { s with phase := .returned, begun := false, ended := false }
    | _ => s
  else s

def invalidate (s : Invalidation) : Happening → Invalidation
  | .other action => { s with db := s.db.step S.layout action }
  | .invoke => if s.phase = .idle then { s with phase := .data } else s
  | .page keys last =>
    if (s.phase = .data ∨ s.phase = .leases) ∧ s.ended = false then
      S.proceed { s with begun := true, ended := last, due := s.due ++ S.scripts pattern keys s.phase }
    else s
  | .script =>
    match s.due with
    | [] => s
    | command :: due => S.proceed { s with db := s.db.execute command, due := due }

end Store

/-! ### Runs -/

section Runs

variable (S : Store) (pattern : JsString) (db : Db) (events : List Happening)

/-- Redis and the call before the `n`-th event. -/
def world (n : ℕ) : Invalidation := stateAt (S.invalidate pattern) { db := db } events n

/-- The two keys of an entry at that time. -/
def entryAt (n : ℕ) (key : JsString) : Slot := (world S pattern db events n).db.slot S.layout key

/-- Event `n` is a page of the scan of phase `φ`. -/
def Answers (φ : Phase) (n : ℕ) (keys : List JsString) (last : Bool) : Prop :=
  (φ = .data ∨ φ = .leases) ∧ events[n]? = some (.page keys last) ∧
    (world S pattern db events n).phase = φ ∧ (world S pattern db events n).ended = false

/-- ... the first one. -/
def Begins (φ : Phase) (n : ℕ) : Prop :=
  (world S pattern db events n).begun = false ∧ ∃ keys last, Answers S pattern db events φ n keys last

/-- ... the last one. -/
def Ends (φ : Phase) (n : ℕ) : Prop := ∃ keys, Answers S pattern db events φ n keys true

/-- A full scan answers whatever matches and is there from its first page to its last. -/
def ScanPromise (φ : Phase) : Prop :=
  ∀ first last, Begins S pattern db events φ first → Ends S pattern db events φ last →
    ∀ s, wellFormed s = true → globMatches (utf8 (S.glob pattern φ)) (utf8 s) = true →
      (∀ m, first ≤ m → m ≤ last → (world S pattern db events m).db.entries (utf8 s) ≠ none) →
        ∃ n keys more, first ≤ n ∧ n ≤ last ∧ Answers S pattern db events φ n keys more ∧ s ∈ keys

/-- The call has begun to scan and has not returned. -/
def Scanning (n : ℕ) : Prop :=
  (world S pattern db events n).phase = .data ∧ (world S pattern db events n).begun = true ∨
    (world S pattern db events n).phase = .leases

/-- Event `n` is the call `c` of another client, and it is answered with `reply`. -/
def AnsweredAt (n : ℕ) (c : Call) (reply : Reply) : Prop :=
  events[n]? = some (.other (.call c)) ∧
    (c.run S.layout (world S pattern db events n).db).2 = reply

end Runs

variable {S : Store} {pattern : JsString}

/-! ### One step -/

/-- The script for one entry. -/
def Store.fence (S : Store) (key : JsString) : Command :=
  .deleteAndFence (utf8 (S.toRedisKey key)) (utf8 (S.toLockKey key))

theorem proceed_cases (hv : S.versioned = true) (s : Invalidation) :
    S.proceed s = s ∨ s.ended = true ∧ s.due = [] ∧
      (s.phase = .data ∧
          S.proceed s = { s with phase := .leases, begun := false, ended := false } ∨
        s.phase = .leases ∧
          S.proceed s = { s with phase := .returned, begun := false, ended := false }) := by
  rw [Store.proceed]
  split_ifs with hleft
  · obtain ⟨hended, hdue⟩ := hleft
    rcases hphase : s.phase with _ | _ | _ | _
    · exact .inl rfl
    · exact .inr ⟨hended, hdue, .inl ⟨rfl, rfl⟩⟩
    · exact .inr ⟨hended, hdue, .inr ⟨rfl, rfl⟩⟩
    · exact .inl rfl
  · exact .inl rfl

@[simp] theorem due_proceed (s : Invalidation) : (S.proceed s).due = s.due := by
  rw [Store.proceed]
  split
  · split <;> rfl
  · rfl

@[simp] theorem db_proceed (s : Invalidation) : (S.proceed s).db = s.db := by
  rw [Store.proceed]
  split
  · split <;> rfl
  · rfl

def Phase.rank : Phase → ℕ
  | .idle => 0
  | .data => 1
  | .leases => 2
  | .returned => 3

theorem rank_proceed (hv : S.versioned = true) (s : Invalidation) :
    s.phase.rank ≤ (S.proceed s).phase.rank := by
  rcases proceed_cases hv s with heq | ⟨-, -, ⟨hphase, heq⟩ | ⟨hphase, heq⟩⟩
  · rw [heq]
  · rw [heq, hphase]
    exact Nat.le_succ 1
  · rw [heq, hphase]
    exact Nat.le_succ 2

theorem rank_invalidate (hv : S.versioned = true) (s : Invalidation) (h : Happening) :
    s.phase.rank ≤ (S.invalidate pattern s h).phase.rank := by
  cases h with
  | other action => exact le_rfl
  | invoke =>
    rw [Store.invalidate]
    split_ifs with hidle
    · rw [hidle]
      exact Nat.zero_le _
    · exact le_rfl
  | page keys last =>
    rw [Store.invalidate]
    split_ifs
    · exact rank_proceed hv { s with begun := true, ended := last, due := _ }
    · exact le_rfl
  | script =>
    rw [Store.invalidate]
    rcases s.due with _ | ⟨command, due⟩
    · exact le_rfl
    · exact rank_proceed hv { s with db := _, due := due }

theorem begun_proceed (hv : S.versioned = true) {s : Invalidation} (h : s.begun = true) :
    (S.proceed s).begun = true ∨ s.phase.rank < (S.proceed s).phase.rank := by
  rcases proceed_cases hv s with heq | ⟨-, -, ⟨hphase, heq⟩ | ⟨hphase, heq⟩⟩
  · rw [heq]
    exact .inl h
  · rw [heq, hphase]
    exact .inr (Nat.lt_succ_self 1)
  · rw [heq, hphase]
    exact .inr (Nat.lt_succ_self 2)

theorem begun_page (hv : S.versioned = true) {s : Invalidation} {keys : List JsString}
    {last : Bool} (h : (s.phase = .data ∨ s.phase = .leases) ∧ s.ended = false) :
    (S.invalidate pattern s (.page keys last)).begun = true ∨
      s.phase.rank < (S.invalidate pattern s (.page keys last)).phase.rank := by
  rw [Store.invalidate, if_pos h]
  exact begun_proceed hv (s := { s with begun := true, ended := last, due := _ }) rfl

/-- A scan that has begun has begun, until the next phase. -/
theorem begun_invalidate (hv : S.versioned = true) {s : Invalidation} (h : s.begun = true)
    (x : Happening) : (S.invalidate pattern s x).begun = true ∨
      s.phase.rank < (S.invalidate pattern s x).phase.rank := by
  cases x with
  | other action => exact .inl h
  | invoke =>
    rw [Store.invalidate]
    split_ifs <;> exact .inl h
  | page keys last =>
    by_cases hpage : (s.phase = .data ∨ s.phase = .leases) ∧ s.ended = false
    · exact begun_page hv hpage
    · rw [Store.invalidate, if_neg hpage]
      exact .inl h
  | script =>
    rw [Store.invalidate]
    rcases s.due with _ | ⟨command, due⟩
    · exact .inl h
    · exact begun_proceed hv (s := { s with db := _, due := due }) h

/-- A script is run, or it stays due. -/
theorem mem_due_invalidate {s : Invalidation} {command : Command} (h : command ∈ s.due)
    (x : Happening) : command ∈ (S.invalidate pattern s x).due ∨
      x = .script ∧ ∃ rest, s.due = command :: rest := by
  cases x with
  | other action => exact .inl h
  | invoke =>
    rw [Store.invalidate]
    split_ifs
    · exact .inl h
    · exact .inl h
  | page keys last =>
    rw [Store.invalidate]
    split_ifs
    · rw [due_proceed]
      exact .inl (List.mem_append_left _ h)
    · exact .inl h
  | script =>
    rw [Store.invalidate]
    rcases hdue : s.due with _ | ⟨c, due⟩
    · rw [hdue] at h
      cases h
    · rw [hdue] at h
      simp only [due_proceed, true_and]
      rcases List.mem_cons.mp h with rfl | h
      · exact .inr ⟨due, rfl⟩
      · exact .inl h

/-- Nothing is due before the call and behind it. -/
def Resting (s : Invalidation) : Prop := s.phase = .idle ∨ s.phase = .returned → s.due = []

theorem resting_proceed (hv : S.versioned = true) {s : Invalidation}
    (hbusy : s.phase = .data ∨ s.phase = .leases) : Resting (S.proceed s) := by
  intro hrest
  rcases proceed_cases hv s with heq | ⟨-, hdue, -⟩
  · rw [heq] at hrest
    rcases hbusy with hphase | hphase <;> rw [hphase] at hrest <;> rcases hrest with h | h <;> cases h
  · rw [due_proceed]
    exact hdue

theorem resting_invalidate (hv : S.versioned = true) {s : Invalidation} (h : Resting s)
    (x : Happening) : Resting (S.invalidate pattern s x) := by
  cases x with
  | other action => exact h
  | invoke =>
    rw [Store.invalidate]
    split_ifs with hidle
    · rintro (hphase | hphase) <;> cases hphase
    · exact h
  | page keys last =>
    rw [Store.invalidate]
    split_ifs with hpage
    · exact resting_proceed hv hpage.1
    · exact h
  | script =>
    rw [Store.invalidate]
    rcases hdue : s.due with _ | ⟨c, due⟩
    · exact h
    · refine resting_proceed hv ?_
      rcases hphase : s.phase with _ | _ | _ | _
      · rw [h (.inl hphase)] at hdue
        cases hdue
      · exact .inl rfl
      · exact .inr rfl
      · rw [h (.inr hphase)] at hdue
        cases hdue

/-! ### The course of the call -/

variable {db : Db} {events : List Happening}

theorem world_succ {n : ℕ} {x : Happening} (h : events[n]? = some x) :
    world S pattern db events (n + 1) = S.invalidate pattern (world S pattern db events n) x :=
  stateAt_succ h

theorem rank_mono (hv : S.versioned = true) {m n : ℕ} (h : m ≤ n) :
    (world S pattern db events m).phase.rank ≤ (world S pattern db events n).phase.rank :=
  invariant_from (P := fun s : Invalidation => (world S pattern db events m).phase.rank ≤ s.phase.rank)
    le_rfl (fun _ x _ _ hle => hle.trans (rank_invalidate hv _ x)) n h

/-- An earlier phase is earlier. -/
theorem lt_of_rank (hv : S.versioned = true) {m n : ℕ} (h : (world S pattern db events m).phase.rank <
    (world S pattern db events n).phase.rank) : m < n := by
  by_contra hle
  exact absurd (rank_mono hv (not_lt.mp hle)) (not_le.mpr h)

theorem begun_of_begins (hv : S.versioned = true) {φ : Phase} {first m : ℕ}
    (hfirst : Begins S pattern db events φ first) (hm : first < m)
    (hphase : (world S pattern db events m).phase = φ) :
    (world S pattern db events m).begun = true := by
  obtain ⟨-, keys, last, hscan, hpage, hbegin, hended⟩ := hfirst
  have hnext : φ.rank ≤ (world S pattern db events (first + 1)).phase.rank ∧
      ((world S pattern db events (first + 1)).phase.rank = φ.rank →
        (world S pattern db events (first + 1)).begun = true) := by
    rw [world_succ hpage]
    refine ⟨?_, fun heq => ?_⟩
    · rw [← hbegin]
      exact rank_invalidate hv _ _
    · refine (begun_page hv ⟨hbegin ▸ hscan, hended⟩).resolve_right ?_
      rw [heq, hbegin]
      exact lt_irrefl _
  have hall := invariant_from (P := fun s : Invalidation => φ.rank ≤ s.phase.rank ∧
    (s.phase.rank = φ.rank → s.begun = true)) hnext (fun k x _ _ h => ?_) m hm
  · exact hall.2 (congrArg Phase.rank hphase)
  · refine ⟨h.1.trans (rank_invalidate hv _ x), fun heq => ?_⟩
    have hrank : (world S pattern db events k).phase.rank ≤
        (S.invalidate pattern (world S pattern db events k) x).phase.rank := rank_invalidate hv _ x
    change (S.invalidate pattern (world S pattern db events k) x).phase.rank = φ.rank at heq
    have hsame := h.2 (le_antisymm (hrank.trans heq.le) h.1)
    refine (begun_invalidate hv hsame x).resolve_right ?_
    change ¬ (world S pattern db events k).phase.rank <
      (S.invalidate pattern (world S pattern db events k) x).phase.rank
    rw [heq]
    exact not_lt.mpr h.1

theorem resting_world (hv : S.versioned = true) (n : ℕ) : Resting (world S pattern db events n) :=
  invariant (P := Resting) (fun _ => rfl) (fun _ x h => resting_invalidate hv h x) n

/-- What a page asks for has been run when the call returns. -/
theorem run_of_answers (hv : S.versioned = true) {φ : Phase} {m n : ℕ} {keys : List JsString}
    {last : Bool} {command : Command} (h : Answers S pattern db events φ m keys last)
    (hmem : command ∈ S.scripts pattern keys φ) (hmn : m < n)
    (hret : (world S pattern db events n).phase = .returned) :
    ∃ j rest, m < j ∧ j < n ∧ events[j]? = some .script ∧
      (world S pattern db events j).due = command :: rest := by
  obtain ⟨hscan, hpage, hphase, hended⟩ := h
  have hdue : command ∈ (world S pattern db events (m + 1)).due := by
    rw [world_succ hpage, Store.invalidate, hphase, if_pos ⟨hscan, hended⟩, due_proceed]
    exact List.mem_append_right _ hmem
  have hrun : ∀ k, m + 1 ≤ k → command ∈ (world S pattern db events k).due ∨
      ∃ j rest, m < j ∧ j < k ∧ events[j]? = some .script ∧
        (world S pattern db events j).due = command :: rest := by
    intro k hk
    induction k, hk using Nat.le_induction with
    | base => exact .inl hdue
    | succ k hk ih =>
      rcases ih with hdue | ⟨j, rest, hmj, hjk, hscript⟩
      · rcases hx : events[k]? with _ | x
        · rw [world, stateAt_succ_of_none hx]
          exact .inl hdue
        · rw [world_succ hx]
          rcases mem_due_invalidate hdue x with hstays | ⟨rfl, rest, hrest⟩
          · exact .inl hstays
          · exact .inr ⟨k, rest, hk, Nat.lt_succ_self k, hx, hrest⟩
      · exact .inr ⟨j, rest, hmj, by omega, hscript⟩
  rcases hrun n hmn with hdue | hrun
  · rw [resting_world hv n (.inr hret)] at hdue
    cases hdue
  · exact hrun

theorem Answers.rank_pos {φ : Phase} {m : ℕ} {keys : List JsString} {last : Bool}
    (h : Answers S pattern db events φ m keys last) : 0 < φ.rank ∧ φ.rank < 3 := by
  rcases h.1 with rfl | rfl <;> exact ⟨by decide, by decide⟩

theorem Ends.lt_returned (hv : S.versioned = true) {φ : Phase} {l n : ℕ}
    (h : Ends S pattern db events φ l) (hret : (world S pattern db events n).phase = .returned) :
    l < n := by
  obtain ⟨keys, h⟩ := h
  have hrank : (world S pattern db events l).phase.rank < (world S pattern db events n).phase.rank := by
    rw [h.2.2.1, hret]
    exact h.rank_pos.2
  exact lt_of_rank hv hrank

theorem Begins.after (hv : S.versioned = true) {φ : Phase} {f i : ℕ}
    (h : Begins S pattern db events φ f) (hidle : (world S pattern db events i).phase = .idle) :
    i < f := by
  obtain ⟨-, keys, last, h⟩ := h
  have hrank : (world S pattern db events i).phase.rank < (world S pattern db events f).phase.rank := by
    rw [h.2.2.1, hidle]
    exact h.rank_pos.1
  exact lt_of_rank hv hrank

/-- From the first page of the data scan to the last one of the lease scan. -/
theorem scanning_of_between (hv : S.versioned = true) {first last m : ℕ}
    (hfirst : Begins S pattern db events .data first) (hlast : Ends S pattern db events .leases last)
    (hm : first < m) (hml : m ≤ last) : Scanning S pattern db events m := by
  obtain ⟨keys, hends⟩ := hlast
  have hlower : (world S pattern db events first).phase.rank ≤
      (world S pattern db events m).phase.rank := rank_mono hv hm.le
  have hupper : (world S pattern db events m).phase.rank ≤
      (world S pattern db events last).phase.rank := rank_mono hv hml
  rw [hends.2.2.1] at hupper
  obtain ⟨-, _, _, hbegins⟩ := id hfirst
  rw [hbegins.2.2.1] at hlower
  rcases hphase : (world S pattern db events m).phase with _ | _ | _ | _
  · rw [hphase] at hlower
    exact absurd hlower (by decide)
  · exact .inl ⟨hphase, begun_of_begins hv hfirst hm hphase⟩
  · exact .inr hphase
  · rw [hphase] at hupper
    exact absurd hupper (by decide)

/-- What the flags tell about the scans. -/
structure Traced (S : Store) (pattern : JsString) (db : Db) (events : List Happening)
    (s : Invalidation) : Prop where
  idle : s.phase = .idle → s.begun = false ∧ s.ended = false
  begun : s.begun = true → ∃ f, Begins S pattern db events s.phase f
  ended : s.ended = true → s.begun = true ∧ ∃ l, Ends S pattern db events s.phase l
  data : s.phase = .leases ∨ s.phase = .returned →
    (∃ f, Begins S pattern db events .data f) ∧ ∃ l, Ends S pattern db events .data l
  leases : s.phase = .returned →
    (∃ f, Begins S pattern db events .leases f) ∧ ∃ l, Ends S pattern db events .leases l

theorem traced_proceed (hv : S.versioned = true) {s : Invalidation}
    (h : Traced S pattern db events s) : Traced S pattern db events (S.proceed s) := by
  rcases proceed_cases hv s with heq | ⟨hended, -, ⟨hphase, heq⟩ | ⟨hphase, heq⟩⟩
  · rw [heq]
    exact h
  · obtain ⟨hbegun, hend⟩ := h.ended hended
    have hbegin := h.begun hbegun
    rw [hphase] at hend hbegin
    rw [heq]
    exact ⟨nofun, nofun, nofun, fun _ => ⟨hbegin, hend⟩, nofun⟩
  · obtain ⟨hbegun, hend⟩ := h.ended hended
    have hbegin := h.begun hbegun
    have hdata := h.data (.inl hphase)
    rw [hphase] at hend hbegin
    rw [heq]
    exact ⟨nofun, nofun, nofun, fun _ => hdata, fun _ => ⟨hbegin, hend⟩⟩

theorem traced_init : Traced S pattern db events { db := db } := by
  refine ⟨fun _ => ⟨rfl, rfl⟩, nofun, nofun, ?_, nofun⟩
  rintro (hphase | hphase) <;> cases hphase

theorem traced_world (hv : S.versioned = true) (n : ℕ) :
    Traced S pattern db events (world S pattern db events n) := by
  refine invariant_along (P := Traced S pattern db events) traced_init (fun m x hx h => ?_) n
  change Traced S pattern db events (world S pattern db events m) at h
  change Traced S pattern db events (S.invalidate pattern (world S pattern db events m) x)
  cases x with
  | other action => exact ⟨h.idle, h.begun, h.ended, h.data, h.leases⟩
  | invoke =>
    rw [Store.invalidate]
    split_ifs with hidle
    · obtain ⟨hbegun, hended⟩ := h.idle hidle
      refine ⟨nofun, fun htrue => ?_, fun htrue => ?_, ?_, nofun⟩
      · exact absurd (hbegun.symm.trans htrue) Bool.false_ne_true
      · exact absurd (hended.symm.trans htrue) Bool.false_ne_true
      · rintro (hphase | hphase) <;> cases hphase
    · exact h
  | page keys last =>
    rw [Store.invalidate]
    split_ifs with hpage
    · refine traced_proceed hv ⟨fun hidle => ?_, fun _ => ?_, fun hlast => ⟨rfl, ?_⟩, h.data,
        h.leases⟩
      · rcases hpage.1 with hphase | hphase <;> cases hphase.symm.trans hidle
      · rcases hbegun : (world S pattern db events m).begun with _ | _
        · exact ⟨m, hbegun, keys, last, hpage.1, hx, rfl, hpage.2⟩
        · exact h.begun hbegun
      · obtain rfl : last = true := hlast
        exact ⟨m, keys, hpage.1, hx, rfl, hpage.2⟩
    · exact h
  | script =>
    rw [Store.invalidate]
    rcases hdue : (world S pattern db events m).due with _ | ⟨command, due⟩
    · exact h
    · exact traced_proceed hv ⟨h.idle, h.begun, h.ended, h.data, h.leases⟩

/-! ### Scripts and entries -/

/-- Every script that is due is the script for some entry. -/
theorem fence_of_scripts (hv : S.versioned = true) (hi : S.useIndex = false) {φ : Phase}
    {keys : List JsString} {command : Command} (h : command ∈ S.scripts pattern keys φ) :
    ∃ key, command = S.fence key := by
  cases φ with
  | idle => cases h
  | data =>
    rw [Store.scripts, Store.deleteKeys_eq hv hi] at h
    obtain ⟨s, hs, rfl⟩ := List.mem_map.mp h
    obtain ⟨k, hk⟩ := Option.isSome_iff_exists.mp (List.mem_filter.mp hs).2
    refine ⟨k, ?_⟩
    rw [Store.toLogicalKey_of_dataOf hk, Store.fence, ← ((Store.dataOf_iff hv).mp hk).1]
  | leases =>
    obtain ⟨s, -, hs⟩ := List.mem_filterMap.mp h
    rw [Store.fenceLease] at hs
    split at hs
    · next k hk =>
      split_ifs at hs
      refine ⟨k, ?_⟩
      rw [Store.fence, ← ((Store.lockOf_iff hv).mp hk).1]
      exact (Option.some.inj hs).symm
    · cases hs
  | returned => cases h

section Entry

variable {key : JsString}

theorem mem_scripts_data (hv : S.versioned = true) (hi : S.useIndex = false)
    (hmatch : matchesPattern key pattern = true) (hdata : S.toRedisKey key ≠ S.layout.indexKey)
    {keys : List JsString} (h : S.toRedisKey key ∈ keys) :
    S.fence key ∈ S.scripts pattern keys .data := by
  have hof : S.dataOf (S.toRedisKey key) = some key := (Store.dataOf_iff hv).mpr ⟨rfl, hdata⟩
  rw [Store.scripts, Store.deleteKeys_eq hv hi]
  refine List.mem_map.mpr ⟨S.toRedisKey key, List.mem_filter.mpr ⟨?_, ?_⟩, ?_⟩
  · exact List.mem_filter.mpr ⟨h, Store.hasMatchingData_iff.mpr ⟨key, hof, hmatch⟩⟩
  · rw [hof]
    rfl
  · rw [Store.toLogicalKey_of_dataOf hof, Store.fence]

theorem mem_scripts_leases (hv : S.versioned = true) (hmatch : matchesPattern key pattern = true)
    (hlock : S.toLockKey key ≠ S.layout.indexKey) {keys : List JsString}
    (h : S.toLockKey key ∈ keys) : S.fence key ∈ S.scripts pattern keys .leases := by
  have hof : S.lockOf (S.toLockKey key) = some key := (Store.lockOf_iff hv).mpr ⟨rfl, hlock⟩
  refine List.mem_filterMap.mpr ⟨S.toLockKey key, h, ?_⟩
  rw [Store.fenceLease, hof]
  exact if_pos hmatch

theorem slot_fence (hv : S.versioned = true) (d : Db) (key' : JsString) :
    (d.execute (S.fence key')).slot S.layout key =
      if key' = key then ⟨none, none⟩ else d.slot S.layout key := by
  rw [Store.fence, Store.toRedisKey, Store.toLockKey, if_pos hv, if_pos hv]
  show (((d.put (dataKey S.layout key') none).put (lockKey S.layout key') none).slot S.layout
    key) = _
  rw [Db.slot_put_lock, Db.slot_put_data]
  split_ifs <;> rfl

theorem entries_data (hv : S.versioned = true) (n : ℕ) :
    (world S pattern db events n).db.entries (utf8 (S.toRedisKey key)) =
      (entryAt S pattern db events n key).data := by
  rw [Store.toRedisKey, if_pos hv]
  rfl

theorem entries_lease (hv : S.versioned = true) (n : ℕ) :
    (world S pattern db events n).db.entries (utf8 (S.toLockKey key)) =
      (entryAt S pattern db events n key).lease := by
  rw [Store.toLockKey, if_pos hv]
  rfl

/-- After the script for an entry neither data nor lease is there. -/
theorem entryAt_of_fence (hv : S.versioned = true) {j : ℕ} {rest : List Command}
    (hscript : events[j]? = some .script)
    (hdue : (world S pattern db events j).due = S.fence key :: rest) :
    entryAt S pattern db events (j + 1) key = ⟨none, none⟩ := by
  rw [entryAt, world_succ hscript, Store.invalidate, hdue]
  simp only [db_proceed]
  rw [slot_fence hv, if_pos rfl]

/-- A page that asks for the script of an entry has it fenced. -/
theorem fenced_of_answers (hv : S.versioned = true) {φ : Phase} {g n : ℕ} {keys : List JsString}
    {last : Bool} (hanswers : Answers S pattern db events φ g keys last)
    (hmem : S.fence key ∈ S.scripts pattern keys φ)
    (hret : (world S pattern db events n).phase = .returned) :
    ∃ j, g < j ∧ j < n ∧ events[j]? = some .script ∧
      entryAt S pattern db events (j + 1) key = ⟨none, none⟩ := by
  have hgn : g < n := by
    have hrank : (world S pattern db events g).phase.rank <
        (world S pattern db events n).phase.rank := by
      rw [hret, hanswers.2.2.1]
      exact hanswers.rank_pos.2
    exact lt_of_rank hv hrank
  obtain ⟨j, rest, hgj, hjn, hscript, hdue⟩ := run_of_answers hv hanswers hmem hgn hret
  exact ⟨j, hgj, hjn, hscript, entryAt_of_fence hv hscript hdue⟩

/-- What is there throughout a scan is fenced. -/
theorem fenced_of_scanned (key : JsString) (hv : S.versioned = true) {φ : Phase}
    {first last n : ℕ} {s : JsString}
    (hpromise : ScanPromise S pattern db events φ) (hfirst : Begins S pattern db events φ first)
    (hlast : Ends S pattern db events φ last) (hwell : wellFormed s)
    (hglob : globMatches (utf8 (S.glob pattern φ)) (utf8 s) = true)
    (hthere : ∀ m, first ≤ m → m ≤ last → (world S pattern db events m).db.entries (utf8 s) ≠ none)
    (hmem : ∀ keys, s ∈ keys → S.fence key ∈ S.scripts pattern keys φ)
    (hret : (world S pattern db events n).phase = .returned) :
    ∃ j, first < j ∧ j < n ∧ events[j]? = some .script ∧
      entryAt S pattern db events (j + 1) key = ⟨none, none⟩ := by
  obtain ⟨g, keys, more, hge, -, hanswers, hs⟩ := hpromise first last hfirst hlast s hwell hglob hthere
  obtain ⟨j, hgj, hjn, hscript, hgone⟩ := fenced_of_answers hv hanswers (hmem keys hs) hret
  exact ⟨j, by omega, hjn, hscript, hgone⟩

end Entry

/-! ### Fills that are older than the call -/

section Fills

variable (S : Store) (pattern : JsString) (db : Db) (events : List Happening) (key : JsString)

/-- `t` acquired the lease at step `i`, before the call, and has held it up to step `n`. -/
structure OlderFill (i n : ℕ) (t : Octets) : Prop where
  older : (world S pattern db events i).phase = .idle
  acquired : ∃ ttlMs, AnsweredAt S pattern db events i (.acquireLock key t ttlMs) (.flag true)
  before : i < n
  held : ∀ m, i < m → m ≤ n → (entryAt S pattern db events m key).holder = some t

def PublishesAt (m : ℕ) (t payload : Octets) (o : WriteOptions) : Prop :=
  AnsweredAt S pattern db events m (.publishIfOwner key t payload o) .published

/-- An explicit write or delete, or another publication. -/
def Replaces (m : ℕ) : Prop :=
  (∃ c, events[m]? = some (.other (.call c)) ∧ c.Fences key) ∨
    ∃ t payload o, PublishesAt S pattern db events key m t payload o

/-- What was stored at step `m` is stored still. -/
structure Stored (m n : ℕ) : Prop where
  before : m < n
  kept : ∀ j, m < j → j < n → ¬ Replaces S pattern db events key j
  there : ∀ j, m < j → j ≤ n → (entryAt S pattern db events j key).data ≠ none

/-- No page of the data scan behind step `m` has the entry, and no page of the lease scan has
its lease. -/
structure Missed (m : ℕ) : Prop where
  data : ∀ n keys last, m < n → Answers S pattern db events .data n keys last →
    S.toRedisKey key ∉ keys
  leases : ∀ n keys last, Answers S pattern db events .leases n keys last →
    S.toLockKey key ∉ keys

/-- A fill that is older than the call has published since the scans began, neither scan finds
the entry, what it has published stays, and its lease is released or expires before the call
returns. -/
structure Forfeits (n : ℕ) : Prop where
  published : ∃ i m t payload o, OlderFill S pattern db events key i n t ∧
    PublishesAt S pattern db events key m t payload o ∧ Scanning S pattern db events m ∧
    Missed S pattern db events key m ∧ Stored S pattern db events key m (n + 1) ∧
    (events[n]? = some (.other (.call (.releaseLock key t))) ∨
      ∃ ms, events[n]? = some (.other (.advance ms)) ∧
        (entryAt S pattern db events (n + 1) key).lease = none)
  scanning : Scanning S pattern db events n

end Fills

/-- A lease outlives a call unless the call releases it or writes or deletes its entry. -/
theorem holder_call {N : Layout} {s : Slot} {now : ℕ} {t : Octets} (h : s.holder = some t) (c : Call) :
    (s.call N now c).holder = some t ∨ c = .releaseLock c.key t ∨ c.Fences c.key := by
  have hlease : s.lease ≠ none := by
    intro hnone
    rw [Slot.holder, hnone] at h
    cases h
  cases c with
  | acquireLock key token ttlMs =>
    left
    rw [Slot.call, if_neg fun hfree => hlease hfree.2]
    exact h
  | renewLock key token ttlMs =>
    left
    rw [Slot.call]
    split_ifs with hown
    · exact hown.2.symm.trans h
    · exact h
  | releaseLock key token =>
    rw [Slot.call]
    split_ifs with hown
    · exact .inr (.inl (by rw [Option.some.inj (hown.symm.trans h)]; rfl))
    · exact .inl h
  | publishIfOwner key token payload options =>
    left
    rw [Slot.call]
    split_ifs
    · exact h
    · exact h
  | setEncoded key payload options =>
    rw [Slot.call]
    split_ifs with hvalid
    · exact .inr (.inr ⟨rfl, hvalid⟩)
    · exact .inl h
  | delete key =>
    rw [Slot.call]
    split_ifs with hindex
    · exact .inr (.inr rfl)
    · exact .inl h

section Course

variable {key : JsString} {n : ℕ} {t : Octets}

theorem fences_due (hv : S.versioned = true) (hi : S.useIndex = false) (n : ℕ) :
    ∀ command ∈ (world S pattern db events n).due, ∃ k, command = S.fence k := by
  refine invariant (P := fun s : Invalidation => ∀ command ∈ s.due, ∃ k, command = S.fence k)
    (fun _ h => absurd h List.not_mem_nil) (fun s x h => ?_) n
  cases x with
  | other action => exact h
  | invoke =>
    rw [Store.invalidate]
    split_ifs
    · exact h
    · exact h
  | page keys last =>
    rw [Store.invalidate]
    split_ifs
    · rw [due_proceed]
      intro command hc
      rcases List.mem_append.mp hc with hc | hc
      · exact h command hc
      · exact fence_of_scripts hv hi hc
    · exact h
  | script =>
    rw [Store.invalidate]
    rcases hdue : s.due with _ | ⟨c, due⟩
    · exact h
    · rw [hdue] at h
      rw [due_proceed]
      exact fun command hc => h command (List.mem_cons_of_mem c hc)

/-- What is neither released nor expired, and whose data stay, is held on. -/
theorem holder_succ (hv : S.versioned = true) (hi : S.useIndex = false)
    (hheld : (entryAt S pattern db events n key).holder = some t)
    (hkept : ¬ Replaces S pattern db events key n)
    (hthere : (entryAt S pattern db events (n + 1) key).data ≠ none)
    (hrelease : events[n]? ≠ some (.other (.call (.releaseLock key t))))
    (hexpire : ∀ ms, events[n]? = some (.other (.advance ms)) →
      (entryAt S pattern db events (n + 1) key).lease ≠ none) :
    (entryAt S pattern db events (n + 1) key).holder = some t := by
  rcases hx : events[n]? with _ | x
  · rw [entryAt, world, stateAt_succ_of_none hx]
    exact hheld
  have hnext : entryAt S pattern db events (n + 1) key =
      (S.invalidate pattern (world S pattern db events n) x).db.slot S.layout key := by
    rw [entryAt, world_succ hx]
  rw [hnext] at hthere ⊢
  cases x with
  | invoke =>
    rw [Store.invalidate]
    split_ifs <;> exact hheld
  | page keys last =>
    rw [Store.invalidate]
    split_ifs
    · rw [db_proceed]
      exact hheld
    · exact hheld
  | script =>
    rw [Store.invalidate] at hthere ⊢
    rcases hdue : (world S pattern db events n).due with _ | ⟨c, due⟩
    · exact hheld
    · obtain ⟨k, rfl⟩ := fences_due hv hi n c (by rw [hdue]; exact List.mem_cons_self)
      rw [hdue] at hthere
      simp only [db_proceed, slot_fence hv] at hthere ⊢
      split_ifs at hthere ⊢
      · exact absurd rfl hthere
      · exact hheld
  | other action =>
    have hslot : (S.invalidate pattern (world S pattern db events n) (.other action)).db.slot
        S.layout key = (entryAt S pattern db events n key).step S.layout
          (world S pattern db events n).db.now key action := slot_step ..
    rw [hslot] at hnext ⊢
    cases action with
    | advance ms =>
      have hstays := hexpire ms hx
      rw [hnext] at hstays
      obtain ⟨e, he, hvalue⟩ := Option.map_eq_some_iff.mp hheld
      rw [Slot.step, he] at hstays
      rw [Slot.step, Slot.holder, he]
      rw [Option.filter_some] at hstays ⊢
      split_ifs at hstays ⊢
      · rw [Option.map_some, hvalue]
      · exact absurd rfl hstays
    | call c =>
      rw [Slot.step]
      split_ifs with hkey
      · rcases holder_call hheld c with hstays | hreleases | hfences
        · exact hstays
        · rw [hkey] at hreleases
          rw [hreleases] at hx
          exact absurd hx hrelease
        · rw [hkey] at hfences
          exact absurd (.inl ⟨c, hx, hfences⟩) hkept
      · exact hheld

end Course

section Fence

variable {key : JsString} {i m n : ℕ} {t payload : Octets} {o : WriteOptions}

theorem slot_publishes (h : PublishesAt S pattern db events key m t payload o) :
    (entryAt S pattern db events (m + 1) key).data =
        some ⟨payload, (world S pattern db events m).db.now + o.ttlMs.toNat⟩ ∧
      (entryAt S pattern db events (m + 1) key).lease = (entryAt S pattern db events m key).lease := by
  obtain ⟨hcall, hreply⟩ := h
  have hown : o.valid ∧ t ≠ [] ∧ (entryAt S pattern db events m key).holder = some t :=
    run_publishIfOwner.mp hreply
  have hnext : entryAt S pattern db events (m + 1) key =
      (entryAt S pattern db events m key).step S.layout (world S pattern db events m).db.now key
        (.call (.publishIfOwner key t payload o)) := by
    rw [entryAt, world_succ hcall]
    exact slot_step ..
  have hkey : (Call.publishIfOwner key t payload o).key = key := rfl
  rw [hnext, Slot.step, if_pos hkey, Slot.call, if_pos hown]
  exact ⟨rfl, rfl⟩

/-- Where a script has run for the entry in between, nothing is stored still. -/
theorem not_stored_of_fence {j : ℕ} (hmj : m ≤ j) (hjn : j < n)
    (hgone : entryAt S pattern db events (j + 1) key = ⟨none, none⟩) :
    ¬ Stored S pattern db events key m n := by
  intro h
  exact h.there (j + 1) (by omega) hjn (by rw [hgone])

/-- ... and no lease is held on. -/
theorem not_held_of_fence {j : ℕ} (hij : i ≤ j) (hjm : j < m)
    (hgone : entryAt S pattern db events (j + 1) key = ⟨none, none⟩) :
    ¬ OlderFill S pattern db events key i m t := by
  intro h
  have hheld := h.held (j + 1) (by omega) hjm
  rw [hgone] at hheld
  cases hheld

/-- The lease that a fill has published under stays until a step that forfeits it. -/
theorem held_on (hv : S.versioned = true) (hi : S.useIndex = false)
    (hfill : OlderFill S pattern db events key i m t)
    (hpub : PublishesAt S pattern db events key m t payload o)
    (hscanning : Scanning S pattern db events m) (hmissed : Missed S pattern db events key m) {l : ℕ}
    (hstored : Stored S pattern db events key m l)
    (hscan : ∀ j, m < j → j < l → Scanning S pattern db events j)
    (hkept : ∀ j < l, ¬ Forfeits S pattern db events key j) :
    OlderFill S pattern db events key i l t := by
  have hfirst : (entryAt S pattern db events (m + 1) key).holder = some t := by
    rw [Slot.holder, (slot_publishes hpub).2]
    exact hfill.held m hfill.before le_rfl
  have hml := hstored.before
  have hall : ∀ j, m + 1 ≤ j → j ≤ l → OlderFill S pattern db events key i j t := by
    intro j hj
    induction j, hj using Nat.le_induction with
    | base =>
      intro _
      refine ⟨hfill.older, hfill.acquired, hfill.before.trans (Nat.lt_succ_self m), fun k hik hk => ?_⟩
      rcases Nat.le_succ_iff.mp hk with hk | rfl
      · exact hfill.held k hik hk
      · exact hfirst
    | succ j hj ih =>
      intro hjl
      have hbefore := ih (by omega)
      have hsofar : Stored S pattern db events key m (j + 1) :=
        ⟨by omega, fun k hmk hk => hstored.kept k hmk (by omega),
          fun k hmk hk => hstored.there k hmk (by omega)⟩
      have hforfeit : ∀ hlost : events[j]? = some (.other (.call (.releaseLock key t))) ∨
          ∃ ms, events[j]? = some (.other (.advance ms)) ∧
            (entryAt S pattern db events (j + 1) key).lease = none, False := fun hlost =>
        hkept j (by omega) ⟨⟨i, m, t, payload, o, hbefore, hpub, hscanning, hmissed, hsofar, hlost⟩,
          hscan j (by omega) (by omega)⟩
      have hnext := holder_succ hv hi (hbefore.held j hbefore.before le_rfl)
        (hstored.kept j (by omega) (by omega)) (hstored.there (j + 1) (by omega) hjl)
        (fun hrelease => hforfeit (.inl hrelease))
        (fun ms hms hnone => hforfeit (.inr ⟨ms, hms, hnone⟩))
      refine ⟨hbefore.older, hbefore.acquired, by have := hbefore.before; omega, fun k hik hk => ?_⟩
      rcases Nat.le_succ_iff.mp hk with hk | rfl
      · exact hbefore.held k hik hk
      · exact hnext
  exact hall l hml le_rfl

variable (S pattern db events)

/-- **Pattern deletion beside other clients' fills.**  Redis keeps its promise for both
scans, and no older fill that they miss gives the lease of the entry up between its publication
and the end of the call: then what a fill has published that acquired its lease before the call is no
longer stored once the call has returned. -/
theorem pattern_fences (hv : S.versioned = true) (hi : S.useIndex = false)
    (hpattern : wellFormed pattern) (hkey : wellFormed key) (hmatch : matchesPattern key pattern = true)
    (hdata : S.toRedisKey key ≠ S.layout.indexKey) (hlock : S.toLockKey key ≠ S.layout.indexKey)
    (hscan : ScanPromise S pattern db events .data) (hleases : ScanPromise S pattern db events .leases)
    (hkept : ∀ l, ¬ Forfeits S pattern db events key l)
    (hfill : OlderFill S pattern db events key i m t)
    (hpub : PublishesAt S pattern db events key m t payload o)
    (hret : (world S pattern db events n).phase = .returned) :
    ¬ Stored S pattern db events key m n := by
  intro hstored
  have htraced : Traced S pattern db events (world S pattern db events n) := traced_world hv n
  obtain ⟨⟨first, hfirst⟩, last, hlast⟩ := htraced.data (.inr hret)
  obtain ⟨⟨first', hfirst'⟩, last', hlast'⟩ := htraced.leases hret
  obtain ⟨hbefore, hstays, hthere⟩ := hstored
  have hlastn : last < n := hlast.lt_returned hv hret
  have hlastn' : last' < n := hlast'.lt_returned hv hret
  have hifirst : i < first' := hfirst'.after hv hfill.older
  rcases Nat.lt_or_ge m first with hearly | hlate
  · -- the data scan finds what was published before it
    obtain ⟨j, hj, hjn, -, hgone⟩ := fenced_of_scanned key hv hscan hfirst hlast
      (Store.wellFormed_toRedisKey.mpr hkey) (Store.globMatches_toRedisKey hkey hpattern hmatch)
      (fun k hk hkl => by rw [entries_data hv]; exact hthere k (by omega) (by omega))
      (fun keys h => mem_scripts_data hv hi hmatch hdata h) hret
    exact not_stored_of_fence (by omega) hjn hgone ⟨hbefore, hstays, hthere⟩
  · have hlater : first < m := by
      rcases Nat.lt_or_eq_of_le hlate with hlt | rfl
      · exact hlt
      · obtain ⟨-, _, _, -, hpage, -⟩ := hfirst
        cases hpage.symm.trans hpub.1
    -- a page of the lease scan that has the lease ends what is stored, or the lease itself
    have hfound : ∀ g keys last, Answers S pattern db events .leases g keys last →
        S.toLockKey key ∉ keys := by
      intro g keys more hanswers hmem
      have hig : i < g := by
        have hrank : (world S pattern db events i).phase.rank <
            (world S pattern db events g).phase.rank := by
          rw [hanswers.2.2.1, hfill.older]
          exact hanswers.rank_pos.1
        exact lt_of_rank hv hrank
      obtain ⟨j, hj, hjn, -, hgone⟩ :=
        fenced_of_answers hv hanswers (mem_scripts_leases hv hmatch hlock hmem) hret
      rcases Nat.lt_or_ge j m with hjm | hmj
      · exact not_held_of_fence (by omega) hjm hgone hfill
      · exact not_stored_of_fence hmj hjn hgone ⟨hbefore, hstays, hthere⟩
    have hmissed : Missed S pattern db events key m := by
      refine ⟨fun g keys more hmg hanswers hmem => ?_, hfound⟩
      obtain ⟨j, hj, hjn, -, hgone⟩ :=
        fenced_of_answers hv hanswers (mem_scripts_data hv hi hmatch hdata hmem) hret
      exact not_stored_of_fence (by omega) hjn hgone ⟨hbefore, hstays, hthere⟩
    have hpresent : ∀ k, first' ≤ k → k ≤ last' →
        (entryAt S pattern db events k key).holder = some t := by
      intro k hk hkl
      rcases Nat.lt_or_ge m k with hmk | hkm
      · have hstored : Stored S pattern db events key m k :=
          ⟨hmk, fun j hmj hjk => hstays j hmj (by omega), fun j hmj hjk => hthere j hmj (by omega)⟩
        have hfilled := held_on hv hi hfill hpub
          (scanning_of_between hv hfirst hlast' hlater (by omega)) hmissed hstored
          (fun j hmj hjk => scanning_of_between hv hfirst hlast' (by omega) (by omega))
          (fun j _ => hkept j)
        exact hfilled.held k hfilled.before le_rfl
      · exact hfill.held k (by omega) hkm
    have hlease : ∀ k, first' ≤ k → k ≤ last' →
        (world S pattern db events k).db.entries (utf8 (S.toLockKey key)) ≠ none := by
      intro k hk hkl hnone
      have hholder := hpresent k hk hkl
      rw [entries_lease hv] at hnone
      rw [Slot.holder, hnone] at hholder
      cases hholder
    -- otherwise the lease stays throughout the lease scan, which then has it
    have hwell := (Store.wellFormed_toLockKey hv).mpr hkey
    obtain ⟨g, keys, more, -, -, hanswers, hmem⟩ := hleases first' last' hfirst' hlast' _ hwell
      (Store.globMatches_leasePattern hv hwell hpattern hmatch) hlease
    exact hfound g keys more hanswers hmem

end Fence

/-! ### A fill that publishes between the two scans -/

/-- A scan of one page keeps the promise if the page has all that is there and matches. -/
theorem scanPromise_of_page {φ : Phase} {p : ℕ} {keys : List JsString}
    (hpage : events[p]? = some (.page keys true))
    (honly : ∀ n keys last, Answers S pattern db events φ n keys last → n = p)
    (hall : ∀ s, wellFormed s = true → globMatches (utf8 (S.glob pattern φ)) (utf8 s) = true →
      (world S pattern db events p).db.entries (utf8 s) ≠ none → s ∈ keys) :
    ScanPromise S pattern db events φ := by
  intro first last hfirst hlast s hwell hglob hthere
  obtain ⟨-, keys', more, hbegins⟩ := hfirst
  obtain rfl := honly _ _ _ hbegins
  obtain ⟨keys'', hends⟩ := hlast
  obtain rfl := honly _ _ _ hends
  obtain rfl : keys' = keys := by
    have hsame := hbegins.2.1.symm.trans hpage
    cases hsame
    rfl
  exact ⟨last, keys', more, le_rfl, le_rfl, hbegins, hall s hwell hglob (hthere last le_rfl le_rfl)⟩

def emptyDb : Db := ⟨0, fun _ => none⟩

/-- A loader has the lease when the deletion begins, and publishes behind the data scan. -/
def lateFill : List Happening :=
  [.other (.call (.acquireLock (str "a") [1] 1000)), .invoke,
    .page [plainStore.toLockKey (str "a")] true,
    .other (.call (.publishIfOwner (str "a") [1] [7] ⟨500, none⟩))]

/-- It releases the lease, and there is nothing left for the lease scan. -/
def releasedFill : List Happening :=
  lateFill ++ [.other (.call (.releaseLock (str "a") [1])), .page [] true]

/-- It is found by the lease scan. -/
def heldFill : List Happening :=
  lateFill ++ [.page [plainStore.toLockKey (str "a")] true, .script]

section Samples

variable {events : List Happening}

/-- The key space after the first command, and after the second. -/
def leasedDb : Db := emptyDb.step plainStore.layout (.call (.acquireLock (str "a") [1] 1000))

def publishedDb : Db :=
  leasedDb.step plainStore.layout (.call (.publishIfOwner (str "a") [1] [7] ⟨500, none⟩))

theorem scripts_lock :
    plainStore.scripts (str "a") [plainStore.toLockKey (str "a")] .data = [] := by
  rw [Store.scripts, Store.deleteKeys_eq rfl rfl]
  decide

theorem world_lateFill (more : List Happening) :
    world plainStore (str "a") emptyDb (lateFill ++ more) 1 = { db := leasedDb } ∧
    world plainStore (str "a") emptyDb (lateFill ++ more) 2 = { db := leasedDb, phase := .data } ∧
    world plainStore (str "a") emptyDb (lateFill ++ more) 3 = { db := leasedDb, phase := .leases } ∧
    world plainStore (str "a") emptyDb (lateFill ++ more) 4 =
      { db := publishedDb, phase := .leases } := by
  have h1 : world plainStore (str "a") emptyDb (lateFill ++ more) 1 = { db := leasedDb } := rfl
  have h2 : world plainStore (str "a") emptyDb (lateFill ++ more) 2 =
      { db := leasedDb, phase := .data } := rfl
  have h3 : world plainStore (str "a") emptyDb (lateFill ++ more) 3 =
      { db := leasedDb, phase := .leases } := by
    rw [world_succ (show (lateFill ++ more)[2]? = some _ from rfl), h2, Store.invalidate,
      if_pos ⟨.inl rfl, rfl⟩, scripts_lock]
    rfl
  refine ⟨h1, h2, h3, ?_⟩
  rw [world_succ (show (lateFill ++ more)[3]? = some _ from rfl), h3]
  rfl

theorem entries_leasedDb : leasedDb.entries = Function.update (fun _ => none)
    (lockKey plainStore.layout (str "a")) (some ⟨[1], 1000⟩) := rfl

theorem entries_publishedDb : publishedDb.entries = Function.update leasedDb.entries
    (dataKey plainStore.layout (str "a")) (some ⟨[7], 500⟩) := by
  have hget : leasedDb.get (lockKey plainStore.layout (str "a")) = some [1] := by
    rw [Db.get, entries_leasedDb, Function.update_self]
    rfl
  rw [publishedDb, Db.step, Call.run, if_pos (by decide), if_neg (by decide), Db.publishIfOwner,
    if_pos hget]
  rfl

def releasedDb : Db := publishedDb.step plainStore.layout (.call (.releaseLock (str "a") [1]))

theorem entries_releasedDb : releasedDb.entries = Function.update publishedDb.entries
    (lockKey plainStore.layout (str "a")) none := by
  have hne := dataKey_ne_lockKey plainStore.layout (str "a") (str "a")
  have hget : publishedDb.get (lockKey plainStore.layout (str "a")) = some [1] := by
    rw [Db.get, entries_publishedDb, Function.update_of_ne hne.symm, entries_leasedDb,
      Function.update_self]
    rfl
  rw [releasedDb, Db.step, Call.run, Db.releaseLock, if_pos hget]
  rfl

theorem holder_leasedDb : (leasedDb.slot plainStore.layout (str "a")).holder = some [1] := by
  rw [Slot.holder, Db.slot, entries_leasedDb, Function.update_self]
  rfl

theorem data_publishedDb : (publishedDb.slot plainStore.layout (str "a")).data = some ⟨[7], 500⟩ := by
  rw [Db.slot, entries_publishedDb, Function.update_self]

theorem data_releasedDb : (releasedDb.slot plainStore.layout (str "a")).data = some ⟨[7], 500⟩ := by
  rw [Db.slot, entries_releasedDb,
    Function.update_of_ne (dataKey_ne_lockKey plainStore.layout (str "a") (str "a"))]
  exact data_publishedDb

theorem eq_of_leasedDb {w : Octets} (h : leasedDb.entries w ≠ none) :
    w = lockKey plainStore.layout (str "a") := by
  by_contra hne
  rw [entries_leasedDb, Function.update_of_ne hne] at h
  exact h rfl

theorem eq_of_publishedDb {w : Octets} (h : publishedDb.entries w ≠ none) :
    w = dataKey plainStore.layout (str "a") ∨ w = lockKey plainStore.layout (str "a") := by
  by_cases hw : w = dataKey plainStore.layout (str "a")
  · exact .inl hw
  · rw [entries_publishedDb, Function.update_of_ne hw] at h
    exact .inr (eq_of_leasedDb h)

theorem eq_of_releasedDb {w : Octets} (h : releasedDb.entries w ≠ none) :
    w = dataKey plainStore.layout (str "a") := by
  rw [entries_releasedDb] at h
  by_cases hw : w = lockKey plainStore.layout (str "a")
  · rw [hw] at h
    exact absurd (Function.update_self ..) h
  · rw [Function.update_of_ne hw] at h
    exact (eq_of_publishedDb h).resolve_right hw

theorem wellFormed_lock : wellFormed (plainStore.toLockKey (str "a")) = true := by decide

/-- The glob of the leases leaves the data out. -/
theorem not_lease_data : globMatches (utf8 (plainStore.glob (str "a") .leases))
    (dataKey plainStore.layout (str "a")) = false := by
  decide +kernel

variable (more : List Happening)

theorem scanPromise_lateFill : ScanPromise plainStore (str "a") emptyDb (lateFill ++ more) .data := by
  obtain ⟨-, h2, h3, -⟩ := world_lateFill more
  refine scanPromise_of_page (p := 2) rfl (fun n keys last h => ?_) fun s hwell _ hthere => ?_
  · obtain ⟨-, hpage, hphase, -⟩ := h
    have hn : n < 3 := by
      have hrank : (world plainStore (str "a") emptyDb (lateFill ++ more) n).phase.rank <
          (world plainStore (str "a") emptyDb (lateFill ++ more) 3).phase.rank := by
        rw [hphase, h3]
        decide
      exact lt_of_rank rfl hrank
    rcases n with _ | _ | n
    · cases hpage
    · cases hpage
    · omega
  · rw [h2] at hthere
    have heq : utf8 s = utf8 (plainStore.toLockKey (str "a")) := eq_of_leasedDb hthere
    rw [utf8_inj hwell wellFormed_lock heq]
    exact List.mem_cons_self

theorem olderFill_lateFill :
    OlderFill plainStore (str "a") emptyDb (lateFill ++ more) (str "a") 0 3 [1] ∧
      PublishesAt plainStore (str "a") emptyDb (lateFill ++ more) (str "a") 3 [1] [7] ⟨500, none⟩ := by
  obtain ⟨h1, h2, h3, -⟩ := world_lateFill more
  refine ⟨⟨rfl, ⟨1000, rfl, rfl⟩, by decide, fun m hm hle => ?_⟩, rfl, ?_⟩
  · rcases m with _ | _ | _ | _ | m
    · omega
    · rw [entryAt, h1]
      exact holder_leasedDb
    · rw [entryAt, h2]
      exact holder_leasedDb
    · rw [entryAt, h3]
      exact holder_leasedDb
    · omega
  · rw [h3]
    exact run_publishIfOwner.mpr ⟨by decide, by decide, holder_leasedDb⟩

/-- The run of the lease scan. -/
theorem scanPromise_leases {p : ℕ} {keys : List JsString} {db : Db}
    (hpage : (lateFill ++ more)[p]? = some (.page keys true))
    (honly : ∀ n keys last, 3 < n → (lateFill ++ more)[n]? = some (.page keys last) → n = p)
    (hworld : world plainStore (str "a") emptyDb (lateFill ++ more) p = { db := db, phase := .leases })
    (hall : ∀ w, db.entries w ≠ none → w = dataKey plainStore.layout (str "a") ∨
      ∃ s ∈ keys, wellFormed s = true ∧ w = utf8 s) :
    ScanPromise plainStore (str "a") emptyDb (lateFill ++ more) .leases := by
  obtain ⟨-, h2, -, -⟩ := world_lateFill more
  refine scanPromise_of_page hpage (fun n keys last h => ?_) fun s hwell hglob hthere => ?_
  · obtain ⟨-, hpage, hphase, -⟩ := h
    have hn : 2 < n := by
      have hrank : (world plainStore (str "a") emptyDb (lateFill ++ more) 2).phase.rank <
          (world plainStore (str "a") emptyDb (lateFill ++ more) n).phase.rank := by
        rw [hphase, h2]
        decide
      exact lt_of_rank rfl hrank
    rcases Nat.lt_or_eq_of_le hn with hlt | rfl
    · exact honly n keys last hlt hpage
    · cases hpage
  · rw [hworld] at hthere
    rcases hall _ hthere with hdata | ⟨s', hs', hwell', heq⟩
    · rw [hdata, not_lease_data] at hglob
      cases hglob
    · rwa [utf8_inj hwell hwell' heq]

end Samples

/-- The lease is released behind the publication: the call returns and the value is there. -/
theorem forfeited_stays :
    let N := plainStore.layout
    matchesPattern (str "a") (str "a") = true ∧
    ScanPromise plainStore (str "a") emptyDb releasedFill .data ∧
    ScanPromise plainStore (str "a") emptyDb releasedFill .leases ∧
    OlderFill plainStore (str "a") emptyDb releasedFill (str "a") 0 3 [1] ∧
    PublishesAt plainStore (str "a") emptyDb releasedFill (str "a") 3 [1] [7] ⟨500, none⟩ ∧
    (world plainStore (str "a") emptyDb releasedFill 6).phase = .returned ∧
    Stored plainStore (str "a") emptyDb releasedFill (str "a") 3 6 ∧
    ((world plainStore (str "a") emptyDb releasedFill 6).db.slot N (str "a")).data =
      some ⟨[7], 500⟩ := by
  intro N
  obtain ⟨-, -, -, h4⟩ := world_lateFill [.other (.call (.releaseLock (str "a") [1])), .page [] true]
  have h5 : world plainStore (str "a") emptyDb releasedFill 5 =
      { db := releasedDb, phase := .leases } := by
    rw [releasedFill, world_succ rfl, h4]
    rfl
  have h6 : world plainStore (str "a") emptyDb releasedFill 6 =
      { db := releasedDb, phase := .returned } := by
    rw [world_succ (show releasedFill[5]? = some (.page [] true) from rfl), h5]
    rfl
  obtain ⟨hfill, hpub⟩ :=
    olderFill_lateFill [.other (.call (.releaseLock (str "a") [1])), .page [] true]
  refine ⟨by decide, scanPromise_lateFill _, ?_, hfill, hpub, ?_, ⟨by decide, ?_, ?_⟩, ?_⟩
  · refine scanPromise_leases _ (p := 5) rfl (fun n keys last hn hpage => ?_) h5
      fun w hw => .inl (eq_of_releasedDb hw)
    rcases n with _ | _ | _ | _ | _ | _ | n
    all_goals first | omega | rfl | cases hpage
  · rw [h6]
  · intro j hj hjn
    rintro (⟨c, hc, hfences⟩ | ⟨t, payload, o, hcall, -⟩)
    · rcases (by omega : j = 4 ∨ j = 5) with rfl | rfl
      · cases hc
        exact hfences
      · cases hc
    · rcases (by omega : j = 4 ∨ j = 5) with rfl | rfl
      · cases hcall
      · cases hcall
  · intro j hj hjn
    rcases (by omega : j = 4 ∨ j = 5 ∨ j = 6) with rfl | rfl | rfl
    · rw [entryAt, releasedFill, h4, data_publishedDb]
      exact Option.some_ne_none _
    · rw [entryAt, h5, data_releasedDb]
      exact Option.some_ne_none _
    · rw [entryAt, h6, data_releasedDb]
      exact Option.some_ne_none _
  · rw [h6]
    exact data_releasedDb

/-- The lease is held, and the value is gone with it. -/
theorem pattern_fences_held :
    (world plainStore (str "a") emptyDb heldFill 6).phase = .returned ∧
      ¬ Stored plainStore (str "a") emptyDb heldFill (str "a") 3 6 := by
  obtain ⟨-, -, -, h4⟩ := world_lateFill [.page [plainStore.toLockKey (str "a")] true, .script]
  have hscripts : plainStore.scripts (str "a") [plainStore.toLockKey (str "a")] .leases =
      [plainStore.fence (str "a")] := by
    decide
  have h5 : world plainStore (str "a") emptyDb heldFill 5 =
      ⟨publishedDb, .leases, true, true, [plainStore.fence (str "a")]⟩ := by
    rw [heldFill, world_succ rfl, h4]
    show plainStore.proceed ⟨publishedDb, .leases, true, true,
      plainStore.scripts (str "a") [plainStore.toLockKey (str "a")] .leases⟩ = _
    rw [hscripts]
    rfl
  have h6 : (world plainStore (str "a") emptyDb heldFill 6).phase = .returned := by
    rw [world_succ (show heldFill[5]? = some .script from rfl), h5]
    rfl
  obtain ⟨hfill, hpub⟩ :=
    olderFill_lateFill [.page [plainStore.toLockKey (str "a")] true, .script]
  refine ⟨h6, pattern_fences plainStore (str "a") emptyDb heldFill rfl rfl (by decide) (by decide)
    (by decide) (by decide) (by decide) (scanPromise_lateFill _) ?_ (fun l h => ?_) hfill hpub h6⟩
  · refine scanPromise_leases _ (p := 4) rfl (fun n keys last hn hpage => ?_) h4 fun w hw => ?_
    · rcases n with _ | _ | _ | _ | _ | _ | n
      all_goals first | omega | rfl | cases hpage
    · rcases eq_of_publishedDb hw with hdata | hlease
      · exact .inl hdata
      · exact .inr ⟨_, List.mem_cons_self, wellFormed_lock, hlease⟩
  · -- nobody releases anything, and no time passes
    obtain ⟨i, m, t, payload, o, -, -, -, -, -, hlost⟩ := h.published
    rcases hlost with hlost | ⟨ms, hlost, -⟩
    · rcases l with _ | _ | _ | _ | _ | _ | l <;> cases hlost
    · rcases l with _ | _ | _ | _ | _ | _ | l <;> cases hlost

end RedisStore
