/-
The optional index of `RedisStore`, under any number of clients.

Data and index are updated by separate commands: a write is followed by a `ZADD`, a miss
and a deletion by a `ZREM`, and an indexed pattern deletion starts with the removal of
the members whose score has passed.  Between any two commands of one operation any
commands of others may run.

* `Catalogue` — Redis with the index, `Instruction.run` — one command of an operation;
* `Store.begin` — the commands of each operation, `System.step` — one event;
* `Orderly` — no removal from the index overtakes a write or takes a live key for expired;
* `Covered` — a live key is in the index, or its `ZADD` is about to come;
* `index_complete` — in an orderly run the index is complete whenever no operation is in
  progress, and a pattern deletion issued then removes every live key that matches.
-/
import LazyLayers.Runs
import LazyLayers.RedisLease
import LazyLayers.RedisPatternDeletion

open Js Pattern Runs

namespace RedisStore

/-! ### Redis with an index -/

/-- The index key is none of the other keys, so that its sorted set is kept apart. -/
structure Catalogue where
  db : Db
  /-- The scores of the members. -/
  index : Octets → Option ℕ

namespace Catalogue

variable (c : Catalogue)

def zadd (member : Octets) (score : ℕ) : Catalogue :=
  { c with index := Function.update c.index member (some score) }

def zrem (members : List Octets) : Catalogue :=
  { c with index := fun m => if m ∈ members then none else c.index m }

/-- `ZREMRANGEBYSCORE index -inf now` -/
def zremrangebyscore (now : ℕ) : Catalogue :=
  { c with index := fun m => (c.index m).filter fun score => now < score }

end Catalogue

/-- One command of an operation, with the TTL or the score that it carries. -/
inductive Instruction
  | setAndFence (key lock payload : Octets) (ttl : ℕ)
  | set (key payload : Octets) (ttl : ℕ)
  | setNx (key token : Octets) (ttl : ℕ)
  | publishIfOwner (key lock token payload : Octets) (ttl : ℕ)
  | deleteAndFence (key lock : Octets)
  | delete (keys : List Octets)
  | snapshot (key : Octets)
  /-- `GET`, to be followed by a `PTTL`. -/
  | get (key : Octets)
  | zadd (member : Octets) (score : ℕ)
  /-- `recordPublishedIndex`: the score is `Date.now() + ttl`. -/
  | record (member : Octets) (ttl : ℕ)
  | zrem (members : List Octets)
  | zremrangebyscore (now : ℕ)
  deriving DecidableEq

/-- What an operation still has to do. -/
abbrev Task := List Instruction

/-- One command is executed; `rest` is what the operation has planned after it. -/
def Instruction.run (now : ℕ) (c : Catalogue) (rest : Task) : Instruction → Catalogue × Task
  | .setAndFence key lock payload ttl =>
    ({ c with db := c.db.setAndFence key lock payload ttl }, rest)
  | .set key payload ttl => ({ c with db := c.db.set key payload ttl }, rest)
  | .setNx key token ttl => ({ c with db := (c.db.setNX key token ttl).1 }, rest)
  | .publishIfOwner key lock token payload ttl =>
    ({ c with db := (c.db.publishIfOwner key lock token payload ttl).1 },
      if (c.db.publishIfOwner key lock token payload ttl).2 = 1 then rest else [])
  | .deleteAndFence key lock => ({ c with db := c.db.deleteAndFence key lock }, rest)
  | .delete keys => ({ c with db := keys.foldl Db.del c.db }, rest)
  -- only a miss goes on to the index
  | .snapshot key => (c, if c.db.get key = none then rest else [])
  -- after a miss, what `PTTL` answers is of no account
  | .get key => (c, if c.db.get key = none then rest.tail else rest)
  | .zadd member score => (c.zadd member score, rest)
  | .record member ttl => (c.zadd member (now + ttl), rest)
  | .zrem members => (c.zrem members, rest)
  | .zremrangebyscore now' => (c.zremrangebyscore now', rest)

/-- A command of the store, with the time it carries. -/
def Command.instruction (time : ℕ) : Command → Instruction
  | .setAndFence key lock payload => .setAndFence key lock payload time
  | .deleteAndFence key lock => .deleteAndFence key lock
  | .set key payload => .set key payload time
  | .setNx key token => .setNx key token time
  | .delete keys => .delete keys
  | .zadd _ member => .zadd member time
  | .zrem _ members => .zrem members
  | .snapshot key => .snapshot key

/-! ### The operations -/

/-- A call of a client.  `now` is what `Date.now()` answers at that time; `found` and
`leases` are what the scans of the call are going to answer. -/
inductive Invocation
  | getEncoded (key : JsString)
  | setEncoded (key : JsString) (payload : Octets) (ttlMs : ℤ) (now : ℕ)
  | publishIfOwner (key : JsString) (token payload : Octets) (ttlMs : ℤ)
  | delete (key : JsString)
  | deleteByPattern (pattern : JsString) (now : ℕ) (found leases : List (List JsString))
  | acquireLock (key : JsString) (token : Octets) (ttlMs : ℤ)

namespace Store

variable (S : Store)

/-- The legacy layout rejects keys that collide with its metadata. -/
def assertDataKey (key : JsString) : Bool :=
  S.versioned ||
    !((str "__lock:").isPrefixOf key || S.toRedisKey key = S.layout.indexKey)

/-- What a pattern deletion does after its scans. -/
def patternTask (pattern : JsString) (found leases : List (List JsString)) : Task :=
  (S.deleteKeys (found.flatten.filter (S.hasMatchingData pattern)) ++
    if S.versioned then S.fencePatternLeases pattern leases else []).map (Command.instruction 0)

/-- The commands that a call of an indexed store sends, unless a reply cuts it short.
With `scripted`, value and TTL are read by one script. -/
def begin (scripted : Bool) : Invocation → Task
  | .getEncoded key =>
    if S.assertDataKey key then
      let redisKey := utf8 (S.toRedisKey key)
      (if scripted then [.snapshot redisKey] else [.get redisKey, .snapshot redisKey]) ++
        [.zrem [redisKey]]
    else []
  | .setEncoded key payload ttlMs now =>
    if S.assertDataKey key && validTtl ttlMs then
      let redisKey := utf8 (S.toRedisKey key)
      if S.versioned then
        [.setAndFence redisKey (utf8 (S.toLockKey key)) payload ttlMs.toNat,
          .record redisKey ttlMs.toNat]
      else [.set redisKey payload ttlMs.toNat, .zadd redisKey (now + ttlMs.toNat)]
    else []
  | .publishIfOwner key token payload ttlMs =>
    if S.assertDataKey key && validTtl ttlMs && token != [] then
      let redisKey := utf8 (S.toRedisKey key)
      [.publishIfOwner redisKey (utf8 (S.toLockKey key)) token payload ttlMs.toNat,
        .record redisKey ttlMs.toNat]
    else []
  | .delete key =>
    if S.assertDataKey key then
      (S.deleteKeys [S.toRedisKey key]).map (Command.instruction 0)
    else []
  | .deleteByPattern pattern now found leases =>
    .zremrangebyscore now :: S.patternTask pattern found leases
  | .acquireLock key token ttlMs =>
    if S.assertDataKey key && validTtl ttlMs then
      [.setNx (utf8 (S.toLockKey key)) token ttlMs.toNat]
    else []

end Store

/-! ### Interleavings -/

/-- Redis and the operations in progress, one for each client. -/
structure System where
  catalogue : Catalogue
  tasks : ℕ → Task

inductive Event
  | advance (ms : ℕ)
  | invoke (client : ℕ) (invocation : Invocation)
  /-- The next command of a client's operation; `now` is what its clock shows. -/
  | proceed (client now : ℕ)

namespace System

variable (S : Store) (scripted : Bool) (sys : System)

def step (sys : System) : Event → System
  | .advance ms => { sys with catalogue := { sys.catalogue with db := sys.catalogue.db.advance ms } }
  | .invoke client invocation =>
    if sys.tasks client = [] then
      { sys with tasks := Function.update sys.tasks client (S.begin scripted invocation) }
    else sys
  | .proceed client now =>
    match sys.tasks client with
    | [] => sys
    | instruction :: rest =>
      let (catalogue, rest) := instruction.run now sys.catalogue rest
      { catalogue := catalogue, tasks := Function.update sys.tasks client rest }

/-- No operation is in progress. -/
def Quiescent : Prop := ∀ client, sys.tasks client = []

/-- The write has been executed and the `ZADD` is all that is left. -/
def Owes (task : Task) (member : Octets) : Prop :=
  (∃ score, task = [.zadd member score]) ∨ ∃ ttl, task = [.record member ttl]

/-- A client other than `client` is about to add the member. -/
def OwedBeside (client : ℕ) (member : Octets) : Prop :=
  ∃ other, other ≠ client ∧ Owes (sys.tasks other) member

/-- The order in which an event has to come.  What a command removes from the index has no
live value, or one whose `ZADD` is yet to come: a `ZREM` must not overtake a write, and members
whose score has passed must have expired. -/
def Orderly (sys : System) : Event → Prop
  | .proceed client _ =>
    match sys.tasks client with
    | .zrem members :: _ => ∀ member ∈ members, sys.catalogue.db.entries member ≠ none →
        sys.OwedBeside client member
    | .zremrangebyscore now :: _ => ∀ member score, sys.catalogue.index member = some score →
        score ≤ now → sys.catalogue.db.entries member ≠ none → sys.OwedBeside client member
    | _ => True
  | _ => True

end System

namespace Store

variable (S : Store) (scripted : Bool)

/-- A data key of the store. -/
def IsData (w : Octets) : Prop := ∃ k, S.assertDataKey k = true ∧ w = utf8 (S.toRedisKey k)

/-- Every live key of the store is in the index. -/
def Indexed (c : Catalogue) : Prop := ∀ w, S.IsData w → c.db.entries w ≠ none → c.index w ≠ none

/-- A complete iteration over the members that match. -/
def ZScan (c : Catalogue) (glob : JsString) (found : List (List JsString)) : Prop :=
  ∀ s, wellFormed s = true → c.index (utf8 s) ≠ none →
    globMatches (utf8 glob) (utf8 s) = true → s ∈ found.flatten

/-- What the index is for: it has every live key, and a pattern deletion that is issued
now, comes in order and runs undisturbed removes every live key that matches. -/
structure IndexComplete (sys : System) : Prop where
  member : S.Indexed sys.catalogue
  deletes : ∀ client pattern now found leases, wellFormed pattern = true →
    let call := Invocation.deleteByPattern pattern now found leases
    (System.step S scripted sys (.invoke client call)).Orderly (.proceed client now) →
    ZScan (sys.catalogue.zremrangebyscore now) (S.toRedisPattern pattern) found →
    let after := (.invoke client call ::
      List.replicate (S.begin scripted call).length (.proceed client now)).foldl
        (System.step S scripted) sys
    after.Quiescent ∧
    ∀ k, wellFormed k = true → S.assertDataKey k = true → matchesPattern k pattern = true →
      after.catalogue.db.entries (utf8 (S.toRedisKey k)) = none

/-! ### What the tasks look like -/

/-- What the operations plan after a command. -/
def Fits (rest : Task) : Instruction → Prop
  | .setAndFence key _ _ ttl => rest = [.record key ttl]
  | .set key _ _ => ∃ score, rest = [.zadd key score]
  | .publishIfOwner key _ _ _ ttl => rest = [.record key ttl]
  | .setNx key _ _ => ¬ S.IsData key
  | _ => True

/-- Every command of a task is followed as planned. -/
def Planned (task : Task) : Prop :=
  ∀ instruction rest, instruction :: rest <:+ task → S.Fits rest instruction

/-- The commands of a deletion. -/
def Removes : Instruction → Prop
  | .deleteAndFence _ _ => True
  | .delete _ => True
  | .zrem _ => True
  | .zremrangebyscore _ => True
  | _ => False

variable {S scripted}

theorem planned_nil : S.Planned [] := by
  intro instruction rest h
  rw [List.suffix_nil] at h
  cases h

theorem planned_cons {instruction : Instruction} {rest : Task} (hfits : S.Fits rest instruction)
    (hrest : S.Planned rest) : S.Planned (instruction :: rest) := by
  intro i r h
  rcases List.suffix_cons_iff.mp h with h | h
  · obtain ⟨rfl, rfl⟩ := List.cons.inj h
    exact hfits
  · exact hrest i r h

theorem planned_of_suffix {task rest : Task} (h : S.Planned task) (hs : rest <:+ task) :
    S.Planned rest := fun i r hr => h i r (hr.trans hs)

theorem planned_of_removes {task : Task} (h : ∀ i ∈ task, Removes i) : S.Planned task := by
  intro i r hr
  have hi := h i (hr.subset List.mem_cons_self)
  cases i <;> trivial

theorem removes_deleteKeys (hi : S.useIndex = true) {keys : List JsString} :
    ∀ i ∈ (S.deleteKeys keys).map (Command.instruction 0), Removes i := by
  intro i hm
  obtain ⟨command, hc, rfl⟩ := List.mem_map.mp hm
  rw [deleteKeys, List.mem_flatMap] at hc
  obtain ⟨batch, -, hc⟩ := hc
  rw [deleteBatch, if_pos hi] at hc
  split_ifs at hc with hnil hv
  · cases hc
  · rcases List.mem_append.mp hc with hc | hc
    · obtain ⟨s, -, rfl⟩ := List.mem_map.mp hc
      trivial
    · rw [List.mem_singleton.mp hc]
      trivial
  · rcases List.mem_append.mp hc with hc | hc
    · rw [List.mem_singleton.mp hc]
      trivial
    · rw [List.mem_singleton.mp hc]
      trivial

theorem removes_patternTask (hi : S.useIndex = true) {pattern : JsString}
    {found leases : List (List JsString)} :
    ∀ i ∈ S.patternTask pattern found leases, Removes i := by
  intro i hm
  rw [patternTask, List.map_append, List.mem_append] at hm
  rcases hm with hm | hm
  · exact removes_deleteKeys hi i hm
  · obtain ⟨command, hc, rfl⟩ := List.mem_map.mp hm
    split_ifs at hc with hv
    · obtain ⟨s, -, k, -, -, rfl⟩ := mem_fencePatternLeases.mp hc
      trivial
    · cases hc

/-- ASCII bytes at the beginning are the characters at the beginning. -/
theorem append_of_utf8 {a : JsString} (ha : ∀ u ∈ a, u.toNat < 128) {s : JsString}
    {bytes : List UInt8} (h : utf8 s = octets a ++ bytes) : ∃ t, s = a ++ t ∧ utf8 t = bytes := by
  induction a generalizing s with
  | nil => exact ⟨s, rfl, h⟩
  | cons u a ih =>
    obtain ⟨s, rfl, hs⟩ := cons_of_utf8 (ha u List.mem_cons_self) h
    obtain ⟨t, rfl, ht⟩ := ih (fun v hv => ha v (List.mem_cons_of_mem u hv)) hs
    exact ⟨t, rfl, ht⟩

/-- No lease is a data key, on the wire. -/
theorem not_isData_toLockKey (k : JsString) : ¬ S.IsData (utf8 (S.toLockKey k)) := by
  rintro ⟨l, hl, h⟩
  rw [toLockKey, toRedisKey] at h
  by_cases hv : S.versioned = true
  · rw [if_pos hv, if_pos hv] at h
    exact dataKey_ne_lockKey S.layout l k h.symm
  · rw [if_neg hv, if_neg hv, utf8_append S.layout.wellFormed_keyPrefix,
      utf8_append S.layout.wellFormed_keyPrefix] at h
    -- the legacy layout does not let a logical key begin like a lease
    have hlock := List.append_cancel_left h
    rw [utf8_lock] at hlock
    obtain ⟨t, rfl, -⟩ := append_of_utf8 (by decide) hlock.symm
    have hbegins : (str "__lock:").isPrefixOf (str "__lock:" ++ t) = true :=
      List.isPrefixOf_iff_prefix.mpr (List.prefix_append _ _)
    rw [assertDataKey, Bool.eq_false_iff.mpr hv, hbegins] at hl
    cases hl

theorem planned_begin (hi : S.useIndex = true) (invocation : Invocation) :
    S.Planned (S.begin scripted invocation) := by
  cases invocation with
  | getEncoded key =>
    rw [begin]
    split_ifs
    · exact planned_cons trivial (planned_cons trivial planned_nil)
    · exact planned_cons trivial (planned_cons trivial (planned_cons trivial planned_nil))
    · exact planned_nil
  | setEncoded key payload ttlMs now =>
    rw [begin]
    split_ifs
    · exact planned_cons rfl (planned_cons trivial planned_nil)
    · exact planned_cons ⟨_, rfl⟩ (planned_cons trivial planned_nil)
    · exact planned_nil
  | publishIfOwner key token payload ttlMs =>
    rw [begin]
    split_ifs
    · exact planned_cons rfl (planned_cons trivial planned_nil)
    · exact planned_nil
  | delete key =>
    rw [begin]
    split_ifs
    · exact planned_of_removes (removes_deleteKeys hi)
    · exact planned_nil
  | deleteByPattern pattern now found leases =>
    exact planned_cons trivial (planned_of_removes (removes_patternTask hi))
  | acquireLock key token ttlMs =>
    rw [begin]
    split_ifs
    · exact planned_cons (not_isData_toLockKey key) planned_nil
    · exact planned_nil

/-! ### What a command changes -/

end Store

namespace Db

variable {db : Db} {w : Octets} {e : Entry}

theorem entries_put {key : Octets} {x : Option Entry} (h : (db.put key x).entries w = some e) :
    (w = key ∧ x = some e) ∨ (w ≠ key ∧ db.entries w = some e) := by
  change Function.update db.entries key x w = some e at h
  by_cases hw : w = key
  · rw [hw, Function.update_self] at h
    exact .inl ⟨hw, h⟩
  · rw [Function.update_of_ne hw] at h
    exact .inr ⟨hw, h⟩

theorem entries_del {key : Octets} (h : (db.del key).entries w = some e) :
    w ≠ key ∧ db.entries w = some e := by
  rcases entries_put h with ⟨-, h⟩ | h
  · cases h
  · exact h

theorem entries_set {key value : Octets} {ttl : ℕ} (h : (db.set key value ttl).entries w = some e) :
    w = key ∨ db.entries w = some e :=
  (entries_put h).imp And.left And.right

theorem entries_foldl_del {keys : List Octets} (h : (keys.foldl del db).entries w = some e) :
    w ∉ keys ∧ db.entries w = some e := by
  induction keys generalizing db with
  | nil => exact ⟨List.not_mem_nil, h⟩
  | cons key keys ih =>
    obtain ⟨hw, h⟩ := ih h
    obtain ⟨hne, h⟩ := entries_del h
    exact ⟨fun hm => (List.mem_cons.mp hm).elim hne hw, h⟩

end Db

namespace Store

variable {S : Store} {scripted : Bool}

/-- What a command leaves under a key was there, or it is a fresh value. -/
theorem entries_run {now : ℕ} {c : Catalogue} {rest : Task} {i : Instruction}
    (hfits : S.Fits rest i) {w : Octets} {e : Entry}
    (h : (i.run now c rest).1.db.entries w = some e) :
    c.db.entries w = some e ∨ (S.IsData w → System.Owes (i.run now c rest).2 w) := by
  cases i with
  | setAndFence key lock payload ttl =>
    obtain rfl := hfits
    rcases Db.entries_set (Db.entries_del h).2 with rfl | h
    · exact .inr fun _ => .inr ⟨ttl, rfl⟩
    · exact .inl h
  | set key payload ttl =>
    obtain ⟨score, rfl⟩ := hfits
    rcases Db.entries_set h with rfl | h
    · exact .inr fun _ => .inl ⟨score, rfl⟩
    · exact .inl h
  | setNx key token ttl =>
    rw [Instruction.run, Db.setNX] at h
    split_ifs at h with hsome
    · exact .inl h
    · rcases Db.entries_set h with rfl | h
      · exact .inr fun hw => absurd hw hfits
      · exact .inl h
  | publishIfOwner key lock token payload ttl =>
    obtain rfl := hfits
    by_cases howner : c.db.get lock = some token
    · rw [Instruction.run, Db.publishIfOwner, if_pos howner] at h ⊢
      rcases Db.entries_set h with rfl | h
      · exact .inr fun _ => .inr ⟨ttl, rfl⟩
      · exact .inl h
    · rw [Instruction.run, Db.publishIfOwner, if_neg howner] at h
      exact .inl h
  | deleteAndFence key lock => exact .inl (Db.entries_del (Db.entries_del h).2).2
  | delete keys => exact .inl (Db.entries_foldl_del h).2
  | snapshot key => exact .inl h
  | get key => exact .inl h
  | zadd member score => exact .inl h
  | record member ttl => exact .inl h
  | zrem members => exact .inl h
  | zremrangebyscore now' => exact .inl h

/-- What a command plans next is a part of what was planned. -/
theorem suffix_run {now : ℕ} {c : Catalogue} {rest : Task} (i : Instruction) :
    (i.run now c rest).2 <:+ rest := by
  cases i with
  | snapshot key =>
    rw [Instruction.run]
    split_ifs
    · exact List.suffix_rfl
    · exact List.nil_suffix
  | get key =>
    rw [Instruction.run]
    split_ifs
    · exact List.tail_suffix rest
    · exact List.suffix_rfl
  | publishIfOwner key lock token payload ttl =>
    rw [Instruction.run]
    split_ifs
    · exact List.suffix_rfl
    · exact List.nil_suffix
  | _ => exact List.suffix_rfl

/-! ### Every live key is indexed, or about to be -/

variable (S) in
structure Covered (sys : System) : Prop where
  planned : ∀ client, S.Planned (sys.tasks client)
  member : ∀ w, S.IsData w → sys.catalogue.db.entries w ≠ none →
    sys.catalogue.index w ≠ none ∨ ∃ client, System.Owes (sys.tasks client) w

/-- A live member outlasts every command that comes in order. -/
theorem index_run {sys : System} {client now : ℕ} {i : Instruction} {rest : Task}
    (htask : sys.tasks client = i :: rest) (horderly : sys.Orderly (.proceed client now))
    {w : Octets} (hlive : sys.catalogue.db.entries w ≠ none)
    (hmember : sys.catalogue.index w ≠ none ∨ ∃ client, System.Owes (sys.tasks client) w) :
    (i.run now sys.catalogue rest).1.index w ≠ none ∨ sys.OwedBeside client w := by
  -- who owes the member: this client, with its only command, or another one
  have hframe : ((i.run now sys.catalogue rest).1.index w = none →
        sys.catalogue.index w = none) → ¬ System.Owes (i :: rest) w →
      (i.run now sys.catalogue rest).1.index w ≠ none ∨ sys.OwedBeside client w := by
    intro hindex howes
    rcases hmember with hmember | ⟨other, hother⟩
    · exact .inl (mt hindex hmember)
    · refine .inr ⟨other, ?_, hother⟩
      rintro rfl
      exact howes (htask ▸ hother)
  have hadded : ∀ {member score}, (sys.catalogue.zadd member score).index w = none →
      sys.catalogue.index w = none := by
    intro member score hnone
    change Function.update sys.catalogue.index member (some score) w = none at hnone
    by_cases hw : w = member
    · rw [hw, Function.update_self] at hnone
      cases hnone
    · rwa [Function.update_of_ne hw] at hnone
  rw [System.Orderly, htask] at horderly
  cases i with
  | zadd member score =>
    by_cases hw : w = member
    · subst hw
      exact .inl (by simp [Instruction.run, Catalogue.zadd])
    · refine hframe hadded ?_
      rintro (⟨_, h⟩ | ⟨_, h⟩)
      · exact hw (Instruction.zadd.inj (List.cons.inj h).1).1.symm
      · cases h
  | record member ttl =>
    by_cases hw : w = member
    · subst hw
      exact .inl (by simp [Instruction.run, Catalogue.zadd])
    · refine hframe hadded ?_
      rintro (⟨_, h⟩ | ⟨_, h⟩)
      · cases h
      · exact hw (Instruction.record.inj (List.cons.inj h).1).1.symm
  | zrem members =>
    by_cases hw : w ∈ members
    · exact .inr (horderly w hw hlive)
    · refine hframe (fun hnone => ?_) ?_
      · rwa [← show _ = sys.catalogue.index w from if_neg hw]
      · rintro (⟨_, h⟩ | ⟨_, h⟩) <;> cases h
  | zremrangebyscore now' =>
    by_cases howed : sys.OwedBeside client w
    · exact .inr howed
    · -- the member is not removed, for it is live and nobody is about to add it
      refine hframe (fun hnone => ?_) ?_
      · rcases hscore : sys.catalogue.index w with _ | score
        · rfl
        · have hkept : now' < score := by
            by_contra hle
            exact howed (horderly w score hscore (not_lt.mp hle) hlive)
          change (sys.catalogue.index w).filter _ = none at hnone
          rw [hscore, Option.filter_some, if_pos (by simpa using hkept)] at hnone
          cases hnone
      · rintro (⟨_, h⟩ | ⟨_, h⟩) <;> cases h
  | _ =>
    refine hframe id ?_
    rintro (⟨_, h⟩ | ⟨_, h⟩) <;> cases h

/-- **One event.** -/
theorem covered_step (hi : S.useIndex = true) {sys : System} {event : Event}
    (h : S.Covered sys) (horderly : sys.Orderly event) :
    S.Covered (System.step S scripted sys event) := by
  cases event with
  | advance ms =>
    -- what is still there was there
    refine ⟨h.planned, fun w hw hlive => h.member w hw fun hnone => hlive ?_⟩
    show (sys.catalogue.db.entries w).filter _ = none
    rw [hnone, Option.filter_none]
  | invoke client invocation =>
    by_cases hidle : sys.tasks client = []
    · have hstep : System.step S scripted sys (.invoke client invocation) =
          { sys with tasks := Function.update sys.tasks client (S.begin scripted invocation) } :=
        if_pos hidle
      rw [hstep]
      refine ⟨fun other => ?_, fun w hw hlive => ?_⟩
      · by_cases hc : other = client
        · subst hc
          simpa using planned_begin hi invocation
        · simpa [Function.update_of_ne hc] using h.planned other
      · rcases h.member w hw hlive with hmember | ⟨other, hother⟩
        · exact .inl hmember
        · refine .inr ⟨other, ?_⟩
          -- whoever owes a command is not idle
          have hc : other ≠ client := by
            rintro rfl
            rw [hidle] at hother
            rcases hother with ⟨_, h⟩ | ⟨_, h⟩ <;> cases h
          simpa [Function.update_of_ne hc] using hother
    · have hstep : System.step S scripted sys (.invoke client invocation) = sys := if_neg hidle
      rwa [hstep]
  | proceed client now =>
    cases htask : sys.tasks client with
    | nil =>
      have hstep : System.step S scripted sys (.proceed client now) = sys := by
        rw [System.step, htask]
      rwa [hstep]
    | cons i rest =>
      have hstep : System.step S scripted sys (.proceed client now) =
          { catalogue := (i.run now sys.catalogue rest).1,
            tasks := Function.update sys.tasks client (i.run now sys.catalogue rest).2 } := by
        rw [System.step, htask]
      have hplanned : S.Planned (i :: rest) := htask ▸ h.planned client
      have hfits := hplanned i rest List.suffix_rfl
      rw [hstep]
      refine ⟨fun other => ?_, fun w hw hlive => ?_⟩
      · by_cases hc : other = client
        · subst hc
          have hsuffix : (i.run now sys.catalogue rest).2 <:+ i :: rest :=
            (suffix_run i).trans (List.suffix_cons i rest)
          simpa using planned_of_suffix hplanned hsuffix
        · simpa [Function.update_of_ne hc] using h.planned other
      · obtain ⟨e, he⟩ := Option.ne_none_iff_exists'.mp hlive
        rcases entries_run hfits he with hold | hfresh
        · have hlive : sys.catalogue.db.entries w ≠ none := by
            rw [hold]
            exact Option.some_ne_none e
          rcases index_run htask horderly hlive (h.member w hw hlive) with
            hmember | ⟨other, hc, hother⟩
          · exact .inl hmember
          · exact .inr ⟨other, by simpa [Function.update_of_ne hc] using hother⟩
        · exact .inr ⟨client, by simpa using hfresh hw⟩

/-- **A run.** -/
theorem covered_run (hi : S.useIndex = true) {sys : System} (h : S.Covered sys)
    {events : List Event} (horderly : ∀ n event, events[n]? = some event →
      (stateAt (System.step S scripted) sys events n).Orderly event) :
    ∀ n, n ≤ events.length → S.Covered (stateAt (System.step S scripted) sys events n) :=
  invariant_indexed (P := fun _ sys => S.Covered sys) h
    fun n event hget hcovered => covered_step hi hcovered (horderly n event hget)

/-! ### A pattern deletion on its own -/

/-- Nothing but removals, one after the other. -/
def erase (now : ℕ) (c : Catalogue) (task : Task) : Catalogue :=
  task.foldl (fun c i => (i.run now c []).1) c

theorem run_removes {now : ℕ} {c : Catalogue} {rest : Task} {i : Instruction} (h : Removes i) :
    i.run now c rest = ((i.run now c []).1, rest) := by
  cases i <;> first | rfl | exact absurd h id

/-- An operation of removals that runs undisturbed. -/
theorem foldl_proceed {client now : ℕ} {task : Task} (h : ∀ i ∈ task, Removes i) {sys : System}
    (htask : sys.tasks client = task) :
    (List.replicate task.length (Event.proceed client now)).foldl (System.step S scripted) sys =
      ⟨erase now sys.catalogue task, Function.update sys.tasks client []⟩ := by
  induction task generalizing sys with
  | nil =>
    have hsame : Function.update sys.tasks client [] = sys.tasks := by
      rw [← htask, Function.update_eq_self]
    show sys = ⟨sys.catalogue, _⟩
    rw [hsame]
  | cons i rest ih =>
    have hstep : System.step S scripted sys (.proceed client now) =
        ⟨(i.run now sys.catalogue []).1, Function.update sys.tasks client rest⟩ := by
      rw [System.step, htask]
      dsimp only
      rw [run_removes (h i List.mem_cons_self)]
    rw [List.length_cons, List.replicate_succ, List.foldl_cons, hstep,
      ih (fun j hj => h j (List.mem_cons_of_mem i hj)) (by simp), Function.update_idem]
    rfl

/-- The deletion of a string. -/
def Erases (w : Octets) : Instruction → Prop
  | .deleteAndFence key lock => w = key ∨ w = lock
  | .delete keys => w ∈ keys
  | _ => False

theorem entries_removes {now : ℕ} {c : Catalogue} {i : Instruction} (h : Removes i) {w : Octets}
    {e : Entry} (he : (i.run now c []).1.db.entries w = some e) :
    c.db.entries w = some e ∧ ¬ Erases w i := by
  cases i with
  | deleteAndFence key lock =>
    obtain ⟨hlock, he⟩ := Db.entries_del he
    obtain ⟨hkey, he⟩ := Db.entries_del he
    exact ⟨he, fun hw => hw.elim hkey hlock⟩
  | delete keys =>
    obtain ⟨hw, he⟩ := Db.entries_foldl_del he
    exact ⟨he, hw⟩
  | zrem members => exact ⟨he, id⟩
  | zremrangebyscore now' => exact ⟨he, id⟩
  | _ => exact absurd h id

theorem entries_erase {now : ℕ} {c : Catalogue} {task : Task} (h : ∀ i ∈ task, Removes i)
    {w : Octets} {e : Entry} (he : (erase now c task).db.entries w = some e) :
    c.db.entries w = some e ∧ ∀ i ∈ task, ¬ Erases w i := by
  induction task generalizing c with
  | nil => exact ⟨he, nofun⟩
  | cons i rest ih =>
    obtain ⟨he, hrest⟩ := ih (fun j hj => h j (List.mem_cons_of_mem i hj)) he
    obtain ⟨he, hi⟩ := entries_removes (h i List.mem_cons_self) he
    refine ⟨he, fun j hj => ?_⟩
    rcases List.mem_cons.mp hj with rfl | hj
    · exact hi
    · exact hrest j hj

/-- The logical key of a key that the store accepts. -/
theorem dataOf_toRedisKey (h : S.IndexApart) {k : JsString} (hk : S.assertDataKey k = true) :
    S.dataOf (S.toRedisKey k) = some k := by
  by_cases hv : S.versioned = true
  · exact (dataOf_versioned hv h _ k).mpr rfl
  · rw [assertDataKey, Bool.eq_false_iff.mpr hv, Bool.false_or, Bool.not_eq_true',
      Bool.or_eq_false_iff] at hk
    have hindex : S.layout.keyPrefix ++ k ≠ S.layout.indexKey := by
      have := hk.2
      rwa [decide_eq_false_iff_not, toRedisKey, if_neg hv] at this
    have hstrip : stripStart (str "__lock:") k = none := by
      rw [stripStart, hk.1]
      rfl
    rw [dataOf, toRedisKey, if_neg hv, parseRedisKey, if_neg hv, if_neg hindex, stripStart_append]
    simp only [hstrip]

/-- What a complete iteration has found is deleted. -/
theorem exists_erases {pattern : JsString} {found leases : List (List JsString)} {k : JsString}
    (hdata : S.dataOf (S.toRedisKey k) = some k) (hmatch : matchesPattern k pattern = true)
    (hfound : S.toRedisKey k ∈ found.flatten) :
    ∃ i ∈ S.patternTask pattern found leases, Erases (utf8 (S.toRedisKey k)) i := by
  have hmem : S.toRedisKey k ∈ found.flatten.filter (S.hasMatchingData pattern) :=
    List.mem_filter.mpr ⟨hfound, hasMatchingData_iff.mpr ⟨k, hdata, hmatch⟩⟩
  rw [patternTask, List.map_append]
  rcases mem_deleteKeys hmem hdata with hc | ⟨batch, hc, hbatch⟩
  · exact ⟨_, List.mem_append_left _ (List.mem_map_of_mem hc), .inl rfl⟩
  · exact ⟨_, List.mem_append_left _ (List.mem_map_of_mem hc), hbatch⟩

theorem indexComplete_of_covered (hi : S.useIndex = true) (hindex : S.IndexApart) {sys : System}
    (h : S.Covered sys) (hquiet : sys.Quiescent) : S.IndexComplete scripted sys := by
  have hmembers : S.Indexed sys.catalogue := by
    intro w hw hlive
    rcases h.member w hw hlive with hmember | ⟨client, howes⟩
    · exact hmember
    · rw [hquiet client] at howes
      rcases howes with ⟨_, h⟩ | ⟨_, h⟩ <;> cases h
  refine ⟨hmembers, fun client pattern now found leases hpattern => ?_⟩
  intro call horderly hscan after
  have hremoves : ∀ i ∈ S.begin scripted call, Removes i := by
    intro i hm
    rcases List.mem_cons.mp hm with rfl | hm
    · trivial
    · exact removes_patternTask hi i hm
  have hinvoke : System.step S scripted sys (.invoke client call) =
      { sys with tasks := Function.update sys.tasks client (S.begin scripted call) } :=
    if_pos (hquiet client)
  have htask : (System.mk sys.catalogue
      (Function.update sys.tasks client (S.begin scripted call))).tasks client =
        .zremrangebyscore now :: S.patternTask pattern found leases := Function.update_self ..
  have hinorder : ∀ member score, sys.catalogue.index member = some score → score ≤ now →
      sys.catalogue.db.entries member = none := by
    intro member score hscore hle
    by_contra hlive
    rw [System.Orderly, hinvoke, htask] at horderly
    obtain ⟨other, hc, howes⟩ := horderly member score hscore hle hlive
    have hidle : Function.update sys.tasks client (S.begin scripted call) other = [] :=
      (Function.update_of_ne hc ..).trans (hquiet other)
    change System.Owes (Function.update sys.tasks client (S.begin scripted call) other) _ at howes
    rw [hidle] at howes
    rcases howes with ⟨_, h⟩ | ⟨_, h⟩ <;> cases h
  have hafter : after = ⟨erase now sys.catalogue (S.begin scripted call),
      Function.update (Function.update sys.tasks client (S.begin scripted call)) client []⟩ := by
    show List.foldl _ _ _ = _
    rw [List.foldl_cons, hinvoke]
    exact foldl_proceed hremoves (by simp)
  rw [hafter]
  refine ⟨fun other => ?_, fun k hk haccepted hmatch => ?_⟩
  · by_cases hc : other = client
    · subst hc
      simp
    · simpa [Function.update_of_ne hc] using hquiet other
  · -- were the key still there, it would have been indexed, found and deleted
    by_contra hthere
    obtain ⟨e, he⟩ := Option.ne_none_iff_exists'.mp hthere
    obtain ⟨hlive, hkept⟩ := entries_erase hremoves he
    have hdata := dataOf_toRedisKey hindex haccepted
    have hwell : wellFormed (S.toRedisKey k) := wellFormed_toRedisKey.mpr hk
    have hthere : sys.catalogue.db.entries (utf8 (S.toRedisKey k)) ≠ none := by
      rw [hlive]
      exact Option.some_ne_none e
    obtain ⟨score, hscore⟩ :=
      Option.ne_none_iff_exists'.mp (hmembers _ ⟨k, haccepted, rfl⟩ hthere)
    have hmember : (sys.catalogue.zremrangebyscore now).index (utf8 (S.toRedisKey k)) ≠ none := by
      have hlater : now < score := by
        by_contra hle
        exact hthere (hinorder _ score hscore (not_lt.mp hle))
      show (sys.catalogue.index _).filter _ ≠ none
      rw [hscore, Option.filter_some, if_pos (by simpa using hlater)]
      exact Option.some_ne_none score
    have hglob := globMatches_toRedisPattern hwell hpattern hdata hmatch
    obtain ⟨i, hm, herases⟩ := exists_erases hdata hmatch (hscan _ hwell hmember hglob)
    exact hkept i (List.mem_cons_of_mem _ hm) herases

end Store

/-- **Index completeness.**  In every interleaving of the commands of any number of clients
in which no removal from the index overtakes a write or takes a live key for expired, the index
is complete whenever no operation is in progress. -/
theorem index_complete (S : Store) (hi : S.useIndex = true) (hindex : S.IndexApart)
    (scripted : Bool) (c : Catalogue) (hc : S.Indexed c) (events : List Event)
    (horderly : ∀ n event, events[n]? = some event →
      (stateAt (System.step S scripted) ⟨c, fun _ => []⟩ events n).Orderly event) :
    ∀ n, n ≤ events.length →
      (stateAt (System.step S scripted) ⟨c, fun _ => []⟩ events n).Quiescent →
        S.IndexComplete scripted (stateAt (System.step S scripted) ⟨c, fun _ => []⟩ events n) := by
  have hinitial : S.Covered ⟨c, fun _ => []⟩ :=
    ⟨fun _ => Store.planned_nil, fun w hw hlive => .inl (hc w hw hlive)⟩
  intro n hn hquiet
  exact Store.indexComplete_of_covered hi hindex (Store.covered_run hi hinitial horderly n hn) hquiet

def indexedStore : Store where
  layout := { keyPrefix := str "cache:", wellFormed_keyPrefix := wellFormed_cache }
  versioned := true
  useIndex := true
  batchSize := defaultBatchSize

/-- An empty server. -/
def emptyCatalogue : Catalogue := ⟨⟨0, fun _ => none⟩, fun _ => none⟩

def emptySystem : System := ⟨emptyCatalogue, fun _ => []⟩

/-- One write, and a read that misses another key. -/
def writingRun : List Event :=
  [.invoke 0 (.setEncoded (str "a") [1] 1000 0), .proceed 0 0, .proceed 0 0,
    .invoke 1 (.getEncoded (str "b")), .proceed 1 0, .proceed 1 0]

theorem index_complete_writingRun : indexedStore.IndexComplete true
    (stateAt (System.step indexedStore true) ⟨emptyCatalogue, fun _ => []⟩ writingRun 6) := by
  have hempty : indexedStore.Indexed emptyCatalogue := fun _ _ hlive => absurd rfl hlive
  refine index_complete indexedStore rfl (Store.indexApart_of_default rfl) true emptyCatalogue
    hempty writingRun (fun n event hget => ?_) 6 le_rfl (fun client => ?_)
  · match n with
    | 0 | 1 | 2 | 3 | 4 =>
      cases hget
      exact trivial
    | 5 =>
      cases hget
      -- what is removed from the index has no value
      show ∀ member ∈ [utf8 (indexedStore.toRedisKey (str "b"))], _ ≠ none → _
      intro member hmember hlive
      rw [List.mem_singleton] at hmember
      subst hmember
      exact absurd (by decide) hlive
    | n + 6 => cases hget
  · match client with
    | 0 => rfl
    | 1 => rfl
    | client + 2 => rfl

/-- A read misses, the key is written and indexed, and only then the read removes it from
the index. -/
def overtakingRun : List Event :=
  [.invoke 0 (.getEncoded (str "a")), .proceed 0 0,
    .invoke 1 (.setEncoded (str "a") [1] 1000 0), .proceed 1 0, .proceed 1 0, .proceed 0 0]

/-- The key is live and is not in the index, and clearing the store leaves it there. -/
theorem overtakingRun_incomplete :
    let sys := stateAt (System.step indexedStore true) emptySystem overtakingRun 6
    let key := utf8 (indexedStore.toRedisKey (str "a"))
    sys.Quiescent ∧ indexedStore.IsData key ∧
    sys.catalogue.db.entries key = some ⟨[1], 1000⟩ ∧ sys.catalogue.index key = none ∧
    Store.ZScan (sys.catalogue.zremrangebyscore 0) (indexedStore.toRedisPattern (str "*")) [] ∧
    ([.invoke 0 (.deleteByPattern (str "*") 0 [] []), .proceed 0 0].foldl
      (System.step indexedStore true) sys).catalogue.db.entries key = some ⟨[1], 1000⟩ ∧
    ¬ indexedStore.IndexComplete true sys := by
  intro sys key
  have hdata : indexedStore.IsData key := ⟨str "a", rfl, rfl⟩
  have hlive : sys.catalogue.db.entries key = some ⟨[1], 1000⟩ := by decide
  have hindex : ∀ w, sys.catalogue.index w = none := by
    intro w
    show (if w ∈ [key] then none else Function.update (fun _ => none) key (some 1000) w) = none
    by_cases hw : w = key
    · rw [if_pos (List.mem_singleton.mpr hw)]
    · rw [if_neg (mt List.mem_singleton.mp hw), Function.update_of_ne hw]
  refine ⟨fun client => ?_, hdata, hlive, hindex key, fun s _ hmember => ?_, ?_, fun h => ?_⟩
  · match client with
    | 0 => rfl
    | 1 => rfl
    | client + 2 => rfl
  · refine absurd ?_ hmember
    show (sys.catalogue.index (utf8 s)).filter _ = none
    rw [hindex]
    rfl
  · decide
  · exact h.member key hdata (by rw [hlive]; simp) (hindex key)

end RedisStore
