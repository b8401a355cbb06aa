/-
Deliveries of invalidation events, and their deduplication.

A transport may deliver an event more than once, also while an earlier delivery is still
being handled.  The handler marks an event as seen, applies it, and forgets the mark when
the application fails, so that the event can be delivered again.

* `Subscription` — the cache and everything that has been delivered to it;
* `handleEvent` — the handler up to the application, `Subscription.step` — one event of a run;
* `Covered` — whatever is marked is being applied, or has been;
* `acknowledged_iff_overlap` — an acknowledged event has been applied if and only if no
  redelivery has come in between while an application was under way that failed.
-/
import LazyLayers.HybridRuns
import LazyLayers.Runs

open Js Runs

namespace HybridCache

/-- How a delivery stands.  All but `applying` and `failed` are acknowledged. -/
inductive DeliveryOutcome
  /-- Own events, other scopes, what does not decode, and all that comes after `close`. -/
  | ignored
  | duplicate
  | applying
  | applied
  | failed
  deriving DecidableEq

/-- A call of the handler. -/
structure Delivery (V : Type) where
  raw : RawEvent V
  outcome : DeliveryOutcome

structure Subscription (V : Type) where
  cache : State V
  deliveries : List (Delivery V)

section Handler

variable {V : Type} (cfg : Config V)

def eventIdOf (event : InvalidationEvent V) : JsString := event.id.getD (getLegacyEventId event)

/-- `hasSeenEvent`, with the state after it. -/
def State.hasSeenEvent (s : State V) (id : JsString) : State V × Bool :=
  match s.seenEvents.get id with
  | none => (s, false)
  | some seenAt => if s.now - seenAt > cfg.dedupeTtlMs then (s.removeSeenEvent id, false) else (s, true)

/-- The handler up to the application of the event. -/
def handleEvent (s : State V) (raw : RawEvent V) : State V × DeliveryOutcome :=
  if s.closed || (raw.isObject && foreignScope cfg raw.scope) then (s, .ignored)
  else match raw.decoded with
    | none => (s.markInvalidationUntrusted, .ignored)
    | some event =>
      if foreignScope cfg event.scope then (s, .ignored)
      else
        let (s, seen) := s.hasSeenEvent cfg (eventIdOf event)
        if seen then (s, .duplicate)
        else
          let s := s.markEventSeen cfg (eventIdOf event)
          if event.source = cfg.source then (s, .ignored) else (s, .applying)

/-- What happens next.  Between its start and its end the application of an event does,
like the rest of the cache, whatever it does to the local tiers; it ends in an error when
a call of the L1 adapter rejects. -/
inductive Happening (V : Type)
  | deliver (raw : RawEvent V)
  | settle (delivery : ℕ) (ok : Bool)
  | other (cache : State V)

namespace Subscription

variable (sub : Subscription V)

/-- The end of an application; an event that failed is forgotten. -/
def settle (i : ℕ) (ok : Bool) : Subscription V :=
  match sub.deliveries[i]? with
  | some ⟨raw, .applying⟩ =>
    if ok then { sub with deliveries := sub.deliveries.set i ⟨raw, .applied⟩ }
    else
      { cache := match raw.decoded with
          | some event => sub.cache.removeSeenEvent (eventIdOf event)
          | none => sub.cache
        deliveries := sub.deliveries.set i ⟨raw, .failed⟩ }
  | _ => sub

/-- Only the handler touches the marks, and nobody closes the cache. -/
def step : Happening V → Subscription V
  | .deliver raw =>
    { cache := (handleEvent cfg sub.cache raw).1
      deliveries := sub.deliveries ++ [⟨raw, (handleEvent cfg sub.cache raw).2⟩] }
  | .settle i ok => sub.settle i ok
  | .other cache =>
    { sub with cache := { cache with
        seenEvents := sub.cache.seenEvents
        seenEventBytes := sub.cache.seenEventBytes
        closed := sub.cache.closed } }

end Subscription

/-! ### Runs -/

section Run

variable (event : InvalidationEvent V) (id : JsString)

/-- A delivery of the event that has come to `outcome`. -/
def Subscription.Has (sub : Subscription V) (outcome : DeliveryOutcome) : Prop :=
  ∃ d ∈ sub.deliveries, d.raw.decoded = some event ∧ d.outcome = outcome

/-- The transport takes the event for handled. -/
def Subscription.Acknowledged (sub : Subscription V) : Prop :=
  sub.Has event .ignored ∨ sub.Has event .duplicate ∨ sub.Has event .applied

/-- The dedupe entry of `id` is neither evicted nor expired at a delivery. -/
def Kept (s : State V) (raw : RawEvent V) : Prop :=
  ∀ other, raw.decoded = some other →
    (other.id ≠ some id → (handleEvent cfg s raw).1.seenEvents.get id = s.seenEvents.get id) ∧
    (other.id = some id → ∀ seenAt, s.seenEvents.get id = some seenAt →
      s.now - seenAt ≤ cfg.dedupeTtlMs)

/-- A run of an open subscription to which a foreign event of its scope is delivered, under
an id that is the event's alone. -/
structure Subscribed (start : Subscription V) (acts : List (Happening V)) : Prop where
  isOpen : start.cache.closed = false
  fresh : start.cache.seenEvents.get id = none ∧ start.deliveries = []
  explicit : event.id = some id
  foreign : event.source ≠ cfg.source
  inScope : foreignScope cfg event.scope = false ∧ ∀ raw, .deliver raw ∈ acts →
    raw.decoded = some event → (raw.isObject && foreignScope cfg raw.scope) = false
  alone : ∀ raw other, .deliver raw ∈ acts → raw.decoded = some other → eventIdOf other = id →
    other = event
  kept : ∀ (n : ℕ) raw, acts[n]? = some (.deliver raw) →
    Kept cfg id (stateAt (Subscription.step cfg) start acts n).cache raw

/-- A redelivery comes while the event is marked and an application of it is under way. -/
def Overlap (start : Subscription V) (acts : List (Happening V)) (n : ℕ) : Prop :=
  ∃ m raw, m < n ∧ acts[m]? = some (.deliver raw) ∧ raw.decoded = some event ∧
    let sub := stateAt (Subscription.step cfg) start acts m
    sub.Has event .applying ∧ (sub.cache.seenEvents.get id).isSome

/-- An application of the event ends, and no call of the adapter has rejected. -/
def Succeeds (start : Subscription V) (acts : List (Happening V)) (n : ℕ) : Prop :=
  ∃ m i raw, m < n ∧ acts[m]? = some (.settle i true) ∧ raw.decoded = some event ∧
    (stateAt (Subscription.step cfg) start acts m).deliveries[i]? = some ⟨raw, .applying⟩

end Run

/-! ### The marks -/

section Marks

variable {s : State V} {id other : JsString}

theorem get_removeSeenEvent_self : (s.removeSeenEvent id).seenEvents.get id = none := by
  rw [State.removeSeenEvent]
  split_ifs with h
  · exact JsMap.get_delete_self _ id
  · rwa [JsMap.has, Bool.not_eq_true, Option.isSome_eq_false_iff, Option.isNone_iff_eq_none] at h

theorem get_removeSeenEvent_of_ne (h : id ≠ other) :
    (s.removeSeenEvent other).seenEvents.get id = s.seenEvents.get id := by
  rw [State.removeSeenEvent]
  split_ifs
  · exact JsMap.get_delete_of_ne _ h.symm
  · rfl

end Marks

variable {cfg : Config V} {event : InvalidationEvent V} {id : JsString}

/-- What the handler does with the event: it is a duplicate, or it is applied. -/
theorem handleEvent_of_event {s : State V} {raw : RawEvent V} (hopen : s.closed = false)
    (hid : event.id = some id) (hforeign : event.source ≠ cfg.source)
    (hscope : foreignScope cfg event.scope = false)
    (hraw : (raw.isObject && foreignScope cfg raw.scope) = false)
    (hdecoded : raw.decoded = some event)
    (hfresh : ∀ seenAt, s.seenEvents.get id = some seenAt → s.now - seenAt ≤ cfg.dedupeTtlMs) :
    ((s.seenEvents.get id).isSome → handleEvent cfg s raw = (s, .duplicate)) ∧
    (s.seenEvents.get id = none → (handleEvent cfg s raw).2 = .applying) := by
  have hname : eventIdOf event = id := by rw [eventIdOf, hid, Option.getD_some]
  constructor
  · intro hseen
    obtain ⟨seenAt, hat⟩ := Option.isSome_iff_exists.mp hseen
    have hlate : ¬ s.now - seenAt > cfg.dedupeTtlMs := not_lt.mpr (hfresh seenAt hat)
    have hhas : s.hasSeenEvent cfg id = (s, true) := by
      rw [State.hasSeenEvent, hat]
      exact if_neg hlate
    simp only [handleEvent, hopen, hraw, hdecoded, hscope, hname, hhas, Bool.or_self,
      Bool.false_eq_true, if_false, if_true]
  · intro hnone
    have hhas : s.hasSeenEvent cfg id = (s, false) := by
      rw [State.hasSeenEvent, hnone]
    simp only [handleEvent, hopen, hraw, hdecoded, hscope, hname, hhas, Bool.or_self,
      Bool.false_eq_true, if_false, if_neg hforeign]

/-- Nothing that is not an event touches the marks, and nothing closes the cache. -/
theorem handleEvent_of_none {s : State V} {raw : RawEvent V} (hdecoded : raw.decoded = none) :
    (handleEvent cfg s raw).1.seenEvents = s.seenEvents := by
  rw [handleEvent, hdecoded]
  split_ifs <;> rfl

theorem closed_hasSeenEvent (s : State V) : (s.hasSeenEvent cfg id).1.closed = s.closed := by
  rw [State.hasSeenEvent]
  split
  · rfl
  · split_ifs
    · exact congrArg Core.closed (local_removeSeenEvent s id).core
    · rfl

theorem closed_handleEvent (s : State V) (raw : RawEvent V) :
    (handleEvent cfg s raw).1.closed = s.closed := by
  rw [handleEvent]
  split_ifs
  · rfl
  cases raw.decoded with
  | none => rfl
  | some other =>
    dsimp only
    split_ifs
    · rfl
    · exact closed_hasSeenEvent s
    · exact (congrArg Core.closed (local_markEventSeen ..).core).trans (closed_hasSeenEvent s)
    · exact (congrArg Core.closed (local_markEventSeen ..).core).trans (closed_hasSeenEvent s)

/-! ### The deliveries -/

section Deliveries

variable {sub : Subscription V} {o : DeliveryOutcome}

theorem has_deliver {raw : RawEvent V} : (Subscription.step cfg sub (.deliver raw)).Has event o ↔
    sub.Has event o ∨ raw.decoded = some event ∧ (handleEvent cfg sub.cache raw).2 = o := by
  constructor
  · rintro ⟨d, hd, hevent, ho⟩
    rcases List.mem_append.mp hd with hd | hd
    · exact .inl ⟨d, hd, hevent, ho⟩
    · rw [List.mem_singleton.mp hd] at hevent ho
      exact .inr ⟨hevent, ho⟩
  · rintro (⟨d, hd, hevent, ho⟩ | ⟨hevent, ho⟩)
    · exact ⟨d, List.mem_append_left _ hd, hevent, ho⟩
    · exact ⟨_, List.mem_append_right _ List.mem_cons_self, hevent, ho⟩

/-- Only a delivery that is being applied changes its outcome. -/
theorem has_set {i : ℕ} {raw : RawEvent V} {o' : DeliveryOutcome} {cache : State V}
    (hi : sub.deliveries[i]? = some ⟨raw, .applying⟩) :
    ((⟨cache, sub.deliveries.set i ⟨raw, o'⟩⟩ : Subscription V).Has event o →
      sub.Has event o ∨ raw.decoded = some event ∧ o = o') ∧
    (sub.Has event o → raw.decoded ≠ some event ∨ o ≠ .applying →
      (⟨cache, sub.deliveries.set i ⟨raw, o'⟩⟩ : Subscription V).Has event o) := by
  have hlt := (List.getElem?_eq_some_iff.mp hi).1
  constructor
  · rintro ⟨d, hd, hevent, ho⟩
    rcases List.mem_or_eq_of_mem_set hd with hd | rfl
    · exact .inl ⟨d, hd, hevent, ho⟩
    · exact .inr ⟨hevent, ho.symm⟩
  · rintro ⟨d, hd, hevent, ho⟩ hother
    obtain ⟨j, hj⟩ := List.getElem?_of_mem hd
    refine ⟨d, List.mem_of_getElem? ((List.getElem?_set_ne ?_).trans hj), hevent, ho⟩
    -- the delivery at `i` is one of another event, or has another outcome
    rintro rfl
    obtain rfl := Option.some.inj (hj.symm.trans hi)
    exact hother.elim (· hevent) (· ho.symm)

theorem has_set_self {i : ℕ} {raw : RawEvent V} {cache : State V}
    (hi : sub.deliveries[i]? = some ⟨raw, .applying⟩) (hevent : raw.decoded = some event) :
    (⟨cache, sub.deliveries.set i ⟨raw, o⟩⟩ : Subscription V).Has event o :=
  ⟨_, List.mem_set (List.getElem?_eq_some_iff.mp hi).1 _, hevent, rfl⟩

theorem settle_of_applying {i : ℕ} {ok : Bool} {raw : RawEvent V}
    (hi : sub.deliveries[i]? = some ⟨raw, .applying⟩) : sub.settle i ok =
      if ok then { sub with deliveries := sub.deliveries.set i ⟨raw, .applied⟩ }
      else
        { cache := match raw.decoded with
            | some event => sub.cache.removeSeenEvent (eventIdOf event)
            | none => sub.cache
          deliveries := sub.deliveries.set i ⟨raw, .failed⟩ } := by
  rw [Subscription.settle, hi]

theorem settle_of_not_applying {i : ℕ} {ok : Bool}
    (hi : ∀ raw, sub.deliveries[i]? ≠ some ⟨raw, .applying⟩) : sub.settle i ok = sub := by
  rw [Subscription.settle]
  split
  · next raw h => exact absurd h (hi raw)
  · rfl

end Deliveries

/-! ### What holds of every run -/

variable {start : Subscription V} {acts : List (Happening V)}

/-- Whatever is marked is being applied, or has been; duplicates had a reason. -/
structure Covered (cfg : Config V) (event : InvalidationEvent V) (id : JsString)
    (start : Subscription V) (acts : List (Happening V)) (n : ℕ) (sub : Subscription V) :
    Prop where
  isOpen : sub.cache.closed = false
  delivered : ∀ d ∈ sub.deliveries, Happening.deliver d.raw ∈ acts
  marked : (sub.cache.seenEvents.get id).isSome → sub.Has event .applying ∨ sub.Has event .applied
  ignored : ¬ sub.Has event .ignored
  applied : sub.Has event .applied ↔ Succeeds cfg event start acts n
  duplicate : sub.Has event .duplicate →
    Overlap cfg event id start acts n ∨ sub.Has event .applied
  overlap : Overlap cfg event id start acts n → sub.Has event .duplicate

theorem Overlap.mono {m n : ℕ} (h : Overlap cfg event id start acts m) (hle : m ≤ n) :
    Overlap cfg event id start acts n := by
  obtain ⟨k, raw, hk, hrest⟩ := h
  exact ⟨k, raw, by omega, hrest⟩

/-- An overlap up to `n + 1` is one up to `n`, or comes with the step. -/
theorem overlap_succ {n : ℕ} : Overlap cfg event id start acts (n + 1) ↔
    Overlap cfg event id start acts n ∨ ∃ raw, acts[n]? = some (.deliver raw) ∧
      raw.decoded = some event ∧
      (stateAt (Subscription.step cfg) start acts n).Has event .applying ∧
      ((stateAt (Subscription.step cfg) start acts n).cache.seenEvents.get id).isSome := by
  constructor
  · rintro ⟨m, raw, hm, hget, hevent, happ, hseen⟩
    rcases Nat.lt_succ_iff_lt_or_eq.mp hm with hlt | rfl
    · exact .inl ⟨m, raw, hlt, hget, hevent, happ, hseen⟩
    · exact .inr ⟨raw, hget, hevent, happ, hseen⟩
  · rintro (h | ⟨raw, hget, hevent, happ, hseen⟩)
    · exact h.mono (Nat.le_succ n)
    · exact ⟨n, raw, Nat.lt_succ_self n, hget, hevent, happ, hseen⟩

theorem succeeds_succ {n : ℕ} : Succeeds cfg event start acts (n + 1) ↔
    Succeeds cfg event start acts n ∨ ∃ i raw, acts[n]? = some (.settle i true) ∧
      raw.decoded = some event ∧
      (stateAt (Subscription.step cfg) start acts n).deliveries[i]? = some ⟨raw, .applying⟩ := by
  constructor
  · rintro ⟨m, i, raw, hm, hget, hevent, hi⟩
    rcases Nat.lt_succ_iff_lt_or_eq.mp hm with hlt | rfl
    · exact .inl ⟨m, i, raw, hlt, hget, hevent, hi⟩
    · exact .inr ⟨i, raw, hget, hevent, hi⟩
  · rintro (⟨m, i, raw, hm, hrest⟩ | ⟨i, raw, hrest⟩)
    · exact ⟨m, i, raw, by omega, hrest⟩
    · exact ⟨n, i, raw, Nat.lt_succ_self n, hrest⟩

/-- A delivery. -/
theorem covered_deliver (h : Subscribed cfg event id start acts) {n : ℕ} {raw : RawEvent V}
    (hget : acts[n]? = some (.deliver raw))
    (hc : Covered cfg event id start acts n (stateAt (Subscription.step cfg) start acts n)) :
    Covered cfg event id start acts (n + 1)
      (Subscription.step cfg (stateAt (Subscription.step cfg) start acts n) (.deliver raw)) := by
  have hraw : Happening.deliver raw ∈ acts := List.mem_of_getElem? hget
  have hkept := h.kept n raw hget
  have hover := @overlap_succ V cfg event id start acts n
  have hsucc := @succeeds_succ V cfg event start acts n
  generalize stateAt (Subscription.step cfg) start acts n = sub at *
  have hnot : ∀ i raw', acts[n]? = some (.settle i true) → raw'.decoded = some event →
      ¬ sub.deliveries[i]? = some ⟨raw', .applying⟩ := by
    intro i raw' hsettle
    rw [hget] at hsettle
    cases hsettle
  have hsame : Succeeds cfg event start acts (n + 1) ↔ Succeeds cfg event start acts n := by
    rw [hsucc]
    exact or_iff_left fun ⟨i, raw', hsettle, hevent, hi⟩ => hnot i raw' hsettle hevent hi
  have hdelivered : ∀ d ∈ (Subscription.step cfg sub (.deliver raw)).deliveries,
      Happening.deliver d.raw ∈ acts := by
    intro d hd
    rcases List.mem_append.mp hd with hd | hd
    · exact hc.delivered d hd
    · rw [List.mem_singleton.mp hd]
      exact hraw
  have hisOpen : (Subscription.step cfg sub (.deliver raw)).cache.closed = false :=
    (closed_handleEvent sub.cache raw).trans hc.isOpen
  by_cases hevent : raw.decoded = some event
  · obtain ⟨hdup, hnew⟩ := handleEvent_of_event hc.isOpen h.explicit h.foreign h.inScope.1
      (h.inScope.2 raw hraw hevent) hevent ((hkept event hevent).2 h.explicit)
    by_cases hseen : (sub.cache.seenEvents.get id).isSome
    · -- a duplicate; what marked the event is under way, or is done
      have hhandled := hdup hseen
      have hcache : (Subscription.step cfg sub (.deliver raw)).cache = sub.cache :=
        congrArg Prod.fst hhandled
      have hhas : ∀ o, (Subscription.step cfg sub (.deliver raw)).Has event o ↔
          sub.Has event o ∨ o = .duplicate := by
        intro o
        rw [has_deliver, hhandled, and_iff_right hevent, eq_comm (b := o)]
      refine ⟨hisOpen, hdelivered, fun _ => ?_, ?_, ?_, fun _ => ?_, fun _ => ?_⟩
      · rw [hhas, hhas]
        exact (hc.marked hseen).imp .inl .inl
      · rw [hhas]
        rintro (hi | hi)
        · exact hc.ignored hi
        · cases hi
      · rw [hhas, hsame, ← hc.applied]
        exact or_iff_left nofun
      · rcases hc.marked hseen with happ | happ
        · exact .inl (hover.mpr (.inr ⟨raw, hget, hevent, happ, hseen⟩))
        · exact .inr ((hhas _).mpr (.inl happ))
      · exact (hhas _).mpr (.inr rfl)
    · rw [Bool.not_eq_true, Option.isSome_eq_false_iff, Option.isNone_iff_eq_none] at hseen
      have hhas : ∀ o, (Subscription.step cfg sub (.deliver raw)).Has event o ↔
          sub.Has event o ∨ o = .applying := by
        intro o
        rw [has_deliver, hnew hseen, and_iff_right hevent, eq_comm (b := o)]
      have hsameOver : Overlap cfg event id start acts (n + 1) ↔
          Overlap cfg event id start acts n := by
        rw [hover]
        refine or_iff_left ?_
        rintro ⟨_, _, _, _, hsome⟩
        rw [hseen] at hsome
        cases hsome
      refine ⟨hisOpen, hdelivered, fun _ => .inl ((hhas _).mpr (.inr rfl)), ?_, ?_, ?_, ?_⟩
      · rw [hhas]
        rintro (hi | hi)
        · exact hc.ignored hi
        · cases hi
      · rw [hhas, hsame, ← hc.applied]
        exact or_iff_left nofun
      · rw [hhas, hhas, hsameOver]
        rintro (hd | hd)
        · exact (hc.duplicate hd).imp_right .inl
        · cases hd
      · intro ho
        exact (hhas _).mpr (.inl (hc.overlap (hsameOver.mp ho)))
  · -- another event, or none
    have hhas : ∀ o, (Subscription.step cfg sub (.deliver raw)).Has event o ↔ sub.Has event o := by
      intro o
      rw [has_deliver]
      exact or_iff_left fun ho => hevent ho.1
    have hseen : (Subscription.step cfg sub (.deliver raw)).cache.seenEvents.get id =
        sub.cache.seenEvents.get id := by
      cases hdecoded : raw.decoded with
      | none => exact congrArg (·.get id) (handleEvent_of_none hdecoded)
      | some other =>
        refine (hkept other hdecoded).1 fun hid => hevent ?_
        rw [hdecoded, h.alone raw other hraw hdecoded (by rw [eventIdOf, hid, Option.getD_some])]
    have hsameOver : Overlap cfg event id start acts (n + 1) ↔
        Overlap cfg event id start acts n := by
      rw [hover]
      refine or_iff_left ?_
      rintro ⟨raw', hget', hevent', -⟩
      rw [hget] at hget'
      cases hget'
      exact hevent hevent'
    refine ⟨hisOpen, hdelivered, ?_, ?_, ?_, ?_, ?_⟩
    · rw [hseen, hhas, hhas]
      exact hc.marked
    · rw [hhas]
      exact hc.ignored
    · rw [hhas, hsame]
      exact hc.applied
    · rw [hhas, hhas, hsameOver]
      exact hc.duplicate
    · rw [hhas, hsameOver]
      exact hc.overlap

/-- The end of an application. -/
theorem covered_settle (h : Subscribed cfg event id start acts) {n i : ℕ} {ok : Bool}
    (hget : acts[n]? = some (.settle i ok))
    (hc : Covered cfg event id start acts n (stateAt (Subscription.step cfg) start acts n)) :
    Covered cfg event id start acts (n + 1)
      (Subscription.step cfg (stateAt (Subscription.step cfg) start acts n) (.settle i ok)) := by
  have hover : Overlap cfg event id start acts (n + 1) ↔ Overlap cfg event id start acts n := by
    rw [overlap_succ]
    refine or_iff_left ?_
    rintro ⟨raw, hget', -⟩
    rw [hget] at hget'
    cases hget'
  have hsucc := @succeeds_succ V cfg event start acts n
  generalize stateAt (Subscription.step cfg) start acts n = sub at *
  have hname : eventIdOf event = id := by rw [eventIdOf, h.explicit, Option.getD_some]
  show Covered cfg event id start acts (n + 1) (sub.settle i ok)
  by_cases happ : ∃ raw, sub.deliveries[i]? = some ⟨raw, .applying⟩
  · obtain ⟨raw, hi⟩ := happ
    have hraw : Happening.deliver raw ∈ acts := hc.delivered _ (List.mem_of_getElem? hi)
    have hdelivered : ∀ o', ∀ d ∈ sub.deliveries.set i ⟨raw, o'⟩, Happening.deliver d.raw ∈ acts := by
      intro o' d hd
      rcases List.mem_or_eq_of_mem_set hd with hd | rfl
      · exact hc.delivered d hd
      · exact hraw
    rw [settle_of_applying hi]
    cases ok with
    | true =>
      rw [if_pos rfl]
      refine ⟨hc.isOpen, hdelivered _, fun hseen => ?_, fun hignored => ?_, ?_, fun hd => ?_,
        fun ho => ?_⟩
      · rcases hc.marked hseen with happ | happ
        · by_cases hevent : raw.decoded = some event
          · exact .inr (has_set_self hi hevent)
          · exact .inl ((has_set hi).2 happ (.inl hevent))
        · exact .inr ((has_set hi).2 happ (.inr nofun))
      · rcases (has_set hi).1 hignored with hold | ⟨-, ho⟩
        · exact hc.ignored hold
        · cases ho
      · rw [hsucc, ← hc.applied]
        constructor
        · intro hnew
          rcases (has_set hi).1 hnew with hold | ⟨hevent, -⟩
          · exact .inl hold
          · exact .inr ⟨i, raw, hget, hevent, hi⟩
        · rintro (hold | ⟨j, raw', hget', hevent, hj⟩)
          · exact (has_set hi).2 hold (.inr nofun)
          · rw [hget] at hget'
            cases hget'
            obtain rfl : raw = raw' := by
              rw [hi] at hj
              cases hj
              rfl
            exact has_set_self hi hevent
      · rcases (has_set hi).1 hd with hold | ⟨-, ho⟩
        · exact (hc.duplicate hold).imp hover.mpr fun happ => (has_set hi).2 happ (.inr nofun)
        · cases ho
      · exact (has_set hi).2 (hc.overlap (hover.mp ho)) (.inr nofun)
    | false =>
      rw [if_neg Bool.false_ne_true]
      refine ⟨?_, hdelivered _, fun hseen => ?_, fun hignored => ?_, ?_, fun hd => ?_,
        fun ho => ?_⟩
      · show State.closed _ = false
        cases raw.decoded with
        | none => exact hc.isOpen
        | some other =>
          exact (congrArg Core.closed (local_removeSeenEvent ..).core).trans hc.isOpen
      · -- the mark of the event is gone if it is the event that failed
        by_cases hevent : raw.decoded = some event
        · simp only [hevent, hname, get_removeSeenEvent_self] at hseen
          cases hseen
        · have hkept : (sub.cache.seenEvents.get id).isSome := by
            cases hdecoded : raw.decoded with
            | none => simpa only [hdecoded] using hseen
            | some other =>
              have hne : id ≠ eventIdOf other := by
                intro hid
                rw [h.alone raw other hraw hdecoded hid.symm] at hdecoded
                exact hevent hdecoded
              simpa only [hdecoded, get_removeSeenEvent_of_ne hne] using hseen
          exact (hc.marked hkept).imp (fun happ => (has_set hi).2 happ (.inl hevent))
            fun happ => (has_set hi).2 happ (.inl hevent)
      · rcases (has_set hi).1 hignored with hold | ⟨-, ho⟩
        · exact hc.ignored hold
        · cases ho
      · rw [hsucc, ← hc.applied]
        constructor
        · intro hnew
          rcases (has_set hi).1 hnew with hold | ⟨-, ho⟩
          · exact .inl hold
          · cases ho
        · rintro (hold | ⟨j, raw', hget', -⟩)
          · exact (has_set hi).2 hold (.inr nofun)
          · rw [hget] at hget'
            cases hget'
      · rcases (has_set hi).1 hd with hold | ⟨-, ho⟩
        · exact (hc.duplicate hold).imp hover.mpr fun happ => (has_set hi).2 happ (.inr nofun)
        · cases ho
      · exact (has_set hi).2 (hc.overlap (hover.mp ho)) (.inr nofun)
  · rw [settle_of_not_applying fun raw hi => happ ⟨raw, hi⟩]
    have hsame : Succeeds cfg event start acts (n + 1) ↔ Succeeds cfg event start acts n := by
      rw [hsucc]
      refine or_iff_left ?_
      rintro ⟨j, raw, hget', -, hj⟩
      rw [hget] at hget'
      cases hget'
      exact happ ⟨raw, hj⟩
    exact ⟨hc.isOpen, hc.delivered, hc.marked, hc.ignored, hc.applied.trans hsame.symm,
      fun hd => (hc.duplicate hd).imp_left hover.mpr, fun ho => hc.overlap (hover.mp ho)⟩

/-- **One happening.** -/
theorem covered_step (h : Subscribed cfg event id start acts) {n : ℕ} {act : Happening V}
    (hget : acts[n]? = some act)
    (hc : Covered cfg event id start acts n (stateAt (Subscription.step cfg) start acts n)) :
    Covered cfg event id start acts (n + 1)
      (Subscription.step cfg (stateAt (Subscription.step cfg) start acts n) act) := by
  cases act with
  | deliver raw => exact covered_deliver h hget hc
  | settle i ok => exact covered_settle h hget hc
  | other cache =>
    have hover : Overlap cfg event id start acts (n + 1) ↔ Overlap cfg event id start acts n := by
      rw [overlap_succ]
      refine or_iff_left ?_
      rintro ⟨raw, hget', -⟩
      rw [hget] at hget'
      cases hget'
    have hsucc : Succeeds cfg event start acts (n + 1) ↔ Succeeds cfg event start acts n := by
      rw [succeeds_succ]
      refine or_iff_left ?_
      rintro ⟨i, raw, hget', -⟩
      rw [hget] at hget'
      cases hget'
    exact ⟨hc.isOpen, hc.delivered, hc.marked, hc.ignored, hc.applied.trans hsucc.symm,
      fun hd => (hc.duplicate hd).imp_left hover.mpr, fun ho => hc.overlap (hover.mp ho)⟩

/-- **A run.** -/
theorem covered_run (h : Subscribed cfg event id start acts) {n : ℕ} (hn : n ≤ acts.length) :
    Covered cfg event id start acts n (stateAt (Subscription.step cfg) start acts n) := by
  refine invariant_indexed (P := Covered cfg event id start acts) ?_
    (fun m act hget hc => covered_step h hget hc) n hn
  have hnone : ∀ o, ¬ start.Has event o := by
    rintro o ⟨d, hd, -⟩
    rw [h.fresh.2] at hd
    cases hd
  refine ⟨h.isOpen, ?_, ?_, hnone _, ⟨fun ha => absurd ha (hnone _), ?_⟩,
    fun hd => absurd hd (hnone _), ?_⟩
  · rw [h.fresh.2]
    exact nofun
  · rw [h.fresh.1]
    exact nofun
  · rintro ⟨m, _, _, hm, -⟩
    cases hm
  · rintro ⟨m, _, hm, -⟩
    cases hm

/-- **Deduplication loses an invalidation exactly with an overlapping failure.**  Once no
delivery of a foreign event is in progress, that it is acknowledged means that it has been
applied, if and only if no redelivery has overlapped an application, or some application
has succeeded. -/
theorem acknowledged_iff_overlap (h : Subscribed cfg event id start acts) {n : ℕ}
    (hn : n ≤ acts.length) :
    (¬ (stateAt (Subscription.step cfg) start acts n).Has event .applying →
      (stateAt (Subscription.step cfg) start acts n).Acknowledged event →
        (stateAt (Subscription.step cfg) start acts n).Has event .applied) ↔
    (¬ (stateAt (Subscription.step cfg) start acts n).Has event .applying →
      Overlap cfg event id start acts n → Succeeds cfg event start acts n) := by
  have hc := covered_run h hn
  rw [← hc.applied]
  constructor
  · intro hacked hquiet hover
    exact hacked hquiet (.inr (.inl (hc.overlap hover)))
  · intro hlucky hquiet hacked
    rcases hacked with hi | hd | ha
    · exact absurd hi hc.ignored
    · rcases hc.duplicate hd with hover | ha
      · exact hc.applied.mpr (hc.applied.mp (hlucky hquiet hover))
      · exact ha
    · exact ha

end Handler

/-! ### Two short runs -/

/-- The defaults. -/
def busConfig : Config ℕ := { codec := byteCodec }

def freshSubscription : Subscription ℕ := ⟨State.create busConfig roomy none [], []⟩

/-- A peer has deleted `a`. -/
def remoteDelete : InvalidationEvent ℕ where
  id := some (str "e1")
  source := str "peer"
  ts := 0
  scope := none
  body := .del [str "a"] none none

def remoteDeletion : RawEvent ℕ := ⟨true, none, some remoteDelete⟩

/-- The event is delivered, delivered again while it is applied, and the application
succeeds. -/
def luckyRun : List (Happening ℕ) :=
  [.deliver remoteDeletion, .deliver remoteDeletion, .settle 0 true]

/-- The same with a call of the adapter that rejects. -/
def unluckyRun : List (Happening ℕ) :=
  [.deliver remoteDeletion, .deliver remoteDeletion, .settle 0 false]

/-- Two deliveries of the event, with either end. -/
theorem subscribed_remoteDeletion (ok : Bool) : Subscribed busConfig remoteDelete (str "e1")
    freshSubscription [.deliver remoteDeletion, .deliver remoteDeletion, .settle 0 ok] where
  isOpen := rfl
  fresh := ⟨rfl, rfl⟩
  explicit := rfl
  foreign := by decide
  inScope := ⟨rfl, fun raw hraw _ => by
    have heq : raw = remoteDeletion := by simpa using hraw
    rw [heq]
    rfl⟩
  alone raw other hraw hother _ := by
    have heq : raw = remoteDeletion := by simpa using hraw
    rw [heq] at hother
    exact (Option.some.inj hother).symm
  kept n raw hget other hother := by
    have heq : raw = remoteDeletion := by simpa using List.mem_of_getElem? hget
    rw [heq] at hother ⊢
    obtain rfl := Option.some.inj hother
    refine ⟨fun hne => absurd rfl hne, fun _ seenAt _ => ?_⟩
    -- no time passes in this run
    have hnow : (stateAt (Subscription.step busConfig) freshSubscription
        [.deliver remoteDeletion, .deliver remoteDeletion, .settle 0 ok] n).cache.now = 0 := by
      match n with
      | 0 => rfl
      | 1 => rfl
      | 2 => rfl
      | n + 3 => cases hget
    rw [hnow, Nat.zero_sub]
    exact Nat.zero_le _

theorem acknowledged_luckyRun :
    (stateAt (Subscription.step busConfig) freshSubscription luckyRun 3).Has remoteDelete
      .applied := by
  have hdeliveries : (stateAt (Subscription.step busConfig) freshSubscription luckyRun 3).deliveries =
      [⟨remoteDeletion, .applied⟩, ⟨remoteDeletion, .duplicate⟩] := rfl
  refine (acknowledged_iff_overlap (subscribed_remoteDeletion true) le_rfl).mpr
    (fun _ _ => ⟨2, 0, remoteDeletion, by decide, rfl, rfl, rfl⟩) ?_ (.inr (.inl ?_))
  · rintro ⟨d, hd, -, ho⟩
    change d ∈ (stateAt (Subscription.step busConfig) freshSubscription luckyRun 3).deliveries at hd
    rw [hdeliveries] at hd
    rcases List.mem_pair.mp hd with rfl | rfl <;> cases ho
  · exact ⟨_, hdeliveries ▸ List.mem_cons_of_mem _ List.mem_cons_self, rfl, rfl⟩

/-- The transport takes the event for handled, and nothing has been invalidated. -/
theorem unluckyRun_lost :
    let sub := stateAt (Subscription.step busConfig) freshSubscription unluckyRun 3
    ¬ sub.Has remoteDelete .applying ∧ sub.Acknowledged remoteDelete ∧
      ¬ sub.Has remoteDelete .applied := by
  intro sub
  have hdeliveries : sub.deliveries =
      [⟨remoteDeletion, .failed⟩, ⟨remoteDeletion, .duplicate⟩] := rfl
  have hno : ∀ o, o ≠ .failed → o ≠ .duplicate → ¬ sub.Has remoteDelete o := by
    rintro o hfailed hduplicate ⟨d, hd, -, ho⟩
    rw [hdeliveries] at hd
    rcases List.mem_pair.mp hd with rfl | rfl
    · exact hfailed ho.symm
    · exact hduplicate ho.symm
  refine ⟨hno _ nofun nofun, .inr (.inl ?_), hno _ nofun nofun⟩
  exact ⟨⟨remoteDeletion, .duplicate⟩, by rw [hdeliveries]; simp, rfl, rfl⟩

end HybridCache
