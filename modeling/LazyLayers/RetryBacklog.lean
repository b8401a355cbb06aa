/-
The backlog of the retry queue.

`maxSize` bounds the entries that wait; the entry that is being published comes on
top of them.  An entry whose publication fails waits again, and nothing makes room
for it.

* `waitingSize_add_active` — who waits and who is being published are all there are;
* `Queue.Lined` — the order of the queue and the phases of a drain, for every codec;
* `Spills` — the failures that put an entry on top of a full backlog;
* `waiting_iff` — one turn keeps the bound exactly when it is no such failure;
* `backlog_iff` — the bound over whole runs, and how far it can be missed.
-/
import LazyLayers.RetryQueue

open Runs

namespace RetryQueue

variable {ε : Type} {c : Codec ε} {o : Options} {q r : Queue} {i k : ℕ}

/-! ### The order of the queue -/

/-- The entries are in the order of their acceptance, and a drain publishes the oldest. -/
structure Queue.Lined (q : Queue) : Prop where
  sorted : q.events.Pairwise (· < ·)
  known : ∀ i ∈ q.events, i < q.next
  phase : q.Phase

theorem Queue.Lined.nodup (h : q.Lined) : q.events.Nodup := h.sorted.imp fun hlt => hlt.ne

theorem lined_init : Queue.init.Lined :=
  ⟨List.Pairwise.nil, fun _ hi => absurd hi List.not_mem_nil, Or.inl ⟨rfl, rfl, rfl⟩⟩

/-- Fewer entries of the same queue are in order too. -/
theorem Queue.Lined.sublist (h : q.Lined) (hsub : r.events.Sublist q.events)
    (hnext : r.next = q.next) (hphase : r.Phase) : r.Lined where
  sorted := h.sorted.sublist hsub
  known i hi := by
    rw [hnext]
    exact h.known i (hsub.subset hi)
  phase := hphase

theorem Evicted.lined (h : Evicted q r) (hq : q.Lined) : r.Lined :=
  hq.sublist h.sub (by rw [h.same]) (h.phase hq.nodup hq.phase)

theorem Queue.Lined.add (h : q.Lined) (b : List UInt8) : (q.add b).Lined where
  sorted := by
    refine List.pairwise_append.mpr ⟨h.sorted, List.pairwise_singleton .., fun i hi j hj => ?_⟩
    rw [List.mem_singleton.mp hj]
    exact h.known i hi
  known i hi := by
    rcases List.mem_append.mp hi with hi | hi
    · exact Nat.lt_succ_of_lt (h.known i hi)
    · rw [List.mem_singleton.mp hi]
      exact Nat.lt_succ_self _
  phase := h.phase.add b

/-! ### Who waits -/

/-- How many entries are being published. -/
def Queue.active (q : Queue) : ℕ := if q.flushingEntry.isSome then 1 else 0

theorem active_le_one (q : Queue) : q.active ≤ 1 := by
  unfold Queue.active
  split <;> omega

theorem active_of_none (h : q.flushingEntry = none) : q.active = 0 := by
  simp [Queue.active, h]

theorem active_of_some (h : q.flushingEntry = some i) : q.active = 1 := by
  simp [Queue.active, h]

/-- Every entry waits, but for the one that is being published. -/
theorem waitingSize_add_active (h : q.Phase) : q.waitingSize + q.active = q.events.length := by
  rcases h with ⟨-, -, h⟩ | ⟨-, -, h⟩ | ⟨i, rest, -, -, h, hevents⟩
  · simp [Queue.waitingSize, Queue.active, h]
  · simp [Queue.waitingSize, Queue.active, h]
  · simp [Queue.waitingSize, Queue.active, h, hevents]

/-! ### What an operation does to the length -/

/-- `enqueue` keeps the order, and adds an entry only where there is room for it. -/
theorem enqueue_backlog (c : Codec ε) (o : Options) (h : q.Lined) (e : ε) :
    (q.enqueue c o e).2.Lined ∧ (q.enqueue c o e).2.flushingEntry = q.flushingEntry ∧
      ((q.enqueue c o e).2.events.length ≤ q.events.length ∨
        (q.enqueue c o e).2.events.length ≤ o.maxSizeOf + q.active) := by
  have hlength := waitingSize_add_active h.phase
  obtain ⟨r, hr, ⟨d, heq⟩ | ⟨b, -, -, hroom, heq⟩⟩ := enqueue_cases c o e h.nodup
  · rw [heq]
    have hlined := hr.lined h
    exact ⟨⟨hlined.sorted, hlined.known, hlined.phase⟩, hr.flushingEntry,
      Or.inl hr.sub.length_le⟩
  · rw [heq]
    refine ⟨(hr.lined h).add b, hr.flushingEntry, ?_⟩
    have hle := hr.sub.length_le
    show (r.events ++ [r.next]).length ≤ _ ∨ (r.events ++ [r.next]).length ≤ _
    rw [List.length_append, List.length_singleton]
    omega

/-- Where a drain stands that went on: it deletes what does not decode, and publishes
the oldest entry that is left. -/
structure Resumes (q r : Queue) (d : Drain) : Prop where
  suffix : r.events <:+ q.events
  next : r.next = q.next
  flushing : r.flushing = q.flushing
  drains : r.drains = q.drains
  stands : (d = .finished ∧ r.flushingEntry = none) ∨
    ∃ i rest, d = .publishing i ∧ r.flushingEntry = some i ∧ r.events = i :: rest

theorem resumes_publishNext (c : Codec ε) : ∀ (events : List ℕ) (q : Queue),
    q.events = events → q.flushingEntry = none →
    Resumes q (q.publishNext c events).1 (q.publishNext c events).2 := by
  intro events
  induction events with
  | nil =>
    intro q hevents hf
    exact ⟨List.suffix_refl _, rfl, rfl, rfl, Or.inl ⟨rfl, hf⟩⟩
  | cons i rest ih =>
    intro q hevents hf
    rw [Queue.publishNext]
    rcases Option.eq_none_or_eq_some (c.decodeInvalidationEvent (q.entry i).encoded) with
      hd | ⟨e, hd⟩
    · simp only [hd, delete_oldest hevents]
      have h := ih { q with
        events := rest, bytes := q.bytes - q.byteLength i, flushingEntry := none } rfl rfl
      refine ⟨h.suffix.trans ?_, h.next, h.flushing, h.drains, h.stands⟩
      rw [hevents]
      exact List.suffix_cons i rest
    · simp only [hd]
      exact ⟨List.suffix_refl _, rfl, rfl, rfl, Or.inr ⟨i, rest, rfl, rfl, hevents⟩⟩

/-- The one drain there is stands where it went on to. -/
theorem Resumes.lined {d : Drain} (h : Resumes q r d) (hq : q.events.Pairwise (· < ·))
    (hknown : ∀ i ∈ q.events, i < q.next) :
    Queue.Lined { r with flushing := true, drains := [d] } where
  sorted := hq.sublist h.suffix.sublist
  known i hi := by
    show i < r.next
    rw [h.next]
    exact hknown i (h.suffix.subset hi)
  phase := by
    rcases h.stands with ⟨rfl, hf⟩ | ⟨i, rest, rfl, hf, hevents⟩
    · exact Or.inr (Or.inl ⟨rfl, rfl, hf⟩)
    · exact Or.inr (Or.inr ⟨i, rest, rfl, rfl, hf, hevents⟩)

/-- A flush adds no entry. -/
theorem flush_backlog (c : Codec ε) (h : q.Lined) :
    (q.flush c).Lined ∧ ((q.flush c = q) ∨
      (q.active = 0 ∧ (q.flush c).events.length ≤ q.events.length)) := by
  by_cases hflushing : q.flushing = true
  · have hsame : q.flush c = q := by rw [Queue.flush, if_pos hflushing]
    rw [hsame]
    exact ⟨h, Or.inl rfl⟩
  · obtain ⟨hdrains, hf⟩ := h.phase.idle hflushing
    have hresumes := resumes_publishNext c q.events q rfl hf
    have hflush : q.flush c = { (q.publishNext c q.events).1 with
        flushing := true, drains := [(q.publishNext c q.events).2] } := by
      rw [Queue.flush, if_neg hflushing]
      simp only [hresumes.drains, hdrains, List.nil_append]
    rw [hflush]
    exact ⟨hresumes.lined h.sorted h.known,
      Or.inr ⟨active_of_none hf, hresumes.suffix.length_le⟩⟩

/-- A publication that succeeds takes its entry away. -/
theorem settle_ok_backlog (c : Codec ε) (h : q.Lined)
    (hk : q.drains[k]? = some (.publishing i)) :
    (q.settle c k true).Lined ∧ (q.settle c k true).events.length + 1 ≤ q.events.length := by
  obtain ⟨rest, rfl, hflushing, hdrains, -, hevents⟩ := h.phase.publishing hk
  have hi : i ∉ rest := (List.nodup_cons.mp (hevents ▸ h.nodup)).1
  have hresumes := resumes_publishNext c rest (q.shift i rest) rfl rfl
  have hfl : ((q.shift i rest).publishNext c rest).1.flushing = true :=
    hresumes.flushing.trans hflushing
  have hsettle : q.settle c 0 true = { ((q.shift i rest).publishNext c rest).1 with
      flushing := true, drains := [((q.shift i rest).publishNext c rest).2] } := by
    have hevents' : (q.shift i rest).events = rest := rfl
    have hold : ((q.shift i rest).publishNext c rest).1.drains = [.publishing i] :=
      hresumes.drains.trans hdrains
    simp only [Queue.settle, hdrains, List.getElem?_cons_zero, finish_delete hevents hi, hevents',
      hold, List.set_cons_zero, ← hfl, if_true]
  have hsub : rest.Sublist q.events := by
    rw [hevents]
    exact List.sublist_cons_self i rest
  rw [hsettle]
  refine ⟨hresumes.lined (h.sorted.sublist hsub) fun j hj => h.known j (hsub.subset hj), ?_⟩
  have hle : ((q.shift i rest).publishNext c rest).1.events.length ≤ rest.length :=
    hresumes.suffix.length_le
  rw [hevents, List.length_cons]
  exact Nat.succ_le_succ hle

/-- A publication that fails leaves its entry in the queue, unless `clear` has marked it. -/
theorem settle_err_backlog (c : Codec ε) (h : q.Lined)
    (hk : q.drains[k]? = some (.publishing i)) :
    (q.settle c k false).Lined ∧ (q.settle c k false).active = 0 ∧
      (q.settle c k false).events.length + (if (q.entry i).discardAfterPublish then 1 else 0) =
        q.events.length := by
  obtain ⟨rest, rfl, hflushing, hdrains, -, hevents⟩ := h.phase.publishing hk
  by_cases hdiscard : (q.entry i).discardAfterPublish = true
  · have hsettle : q.settle c 0 false = { q.shift i rest with drains := [.finished] } := by
      simp only [Queue.settle, hdrains, List.getElem?_cons_zero, Queue.finish, if_pos hdiscard,
        delete_oldest hevents, List.set_cons_zero, Bool.false_eq_true, if_false]
      rfl
    rw [hsettle, if_pos hdiscard, hevents]
    refine ⟨h.sublist ?_ rfl (Or.inr (Or.inl ⟨hflushing, rfl, rfl⟩)), active_of_none rfl, rfl⟩
    show rest.Sublist q.events
    rw [hevents]
    exact List.sublist_cons_self i rest
  · have hsettle : q.settle c 0 false =
        { q with flushingEntry := none, drains := [.finished] } := by
      simp only [Queue.settle, hdrains, List.getElem?_cons_zero, Queue.finish, if_neg hdiscard,
        List.set_cons_zero, Bool.false_eq_true, if_false]
    rw [hsettle, if_neg hdiscard]
    exact ⟨h.sublist (List.Sublist.refl _) rfl (Or.inr (Or.inl ⟨hflushing, rfl, rfl⟩)),
      active_of_none rfl, rfl⟩

/-- No other drain can settle. -/
theorem settle_of_ne (c : Codec ε) (b : Bool)
    (hk : ∀ i, q.drains[k]? ≠ some (.publishing i)) : q.settle c k b = q := by
  rcases hd : q.drains[k]? with _ | (i | _)
  · simp only [Queue.settle, hd]
  · exact absurd hd (hk i)
  · simp only [Queue.settle, hd]

theorem reset_backlog (h : q.Lined) (k : ℕ) :
    (q.reset k).Lined ∧ (q.reset k).events = q.events ∧
      (q.reset k).flushingEntry = q.flushingEntry := by
  unfold Queue.reset
  split
  · next hk =>
    refine ⟨h.sublist (List.Sublist.refl _) rfl (Or.inl ?_), rfl, rfl⟩
    -- the only drain there can be is over, and goes
    rcases h.phase with ⟨-, h₂, -⟩ | ⟨-, h₂, h₃⟩ | ⟨i, rest, -, h₂, -⟩
    · simp [h₂] at hk
    · cases k with
      | zero => exact ⟨rfl, by rw [h₂]; rfl, h₃⟩
      | succ k => simp [h₂] at hk
    · rw [h₂] at hk
      cases k <;> simp at hk
  · exact ⟨h, rfl, rfl⟩

/-- After a `clear` only the entry that is being published is left. -/
theorem clear_backlog (h : q.Lined) :
    q.clear.Lined ∧ q.clear.active = q.active ∧ q.clear.events.length = q.active := by
  rcases hf : q.flushingEntry with _ | i
  · have hclear : q.clear = { q with events := [], bytes := 0 } := by
      simp only [Queue.clear, hf]
    rw [hclear, active_of_none hf]
    refine ⟨h.sublist (List.nil_sublist _) rfl ?_, active_of_none hf, rfl⟩
    rcases h.phase with hidle | hover | ⟨i, rest, -, -, h₃, -⟩
    · exact Or.inl hidle
    · exact Or.inr (Or.inl hover)
    · simp [hf] at h₃
  · obtain ⟨rest, hflushing, hdrains, hevents⟩ : ∃ rest, q.flushing = true ∧
        q.drains = [.publishing i] ∧ q.events = i :: rest := by
      rcases h.phase with ⟨-, -, h₃⟩ | ⟨-, -, h₃⟩ | ⟨j, rest, h₁, h₂, h₃, h₄⟩
      · simp [hf] at h₃
      · simp [hf] at h₃
      · obtain rfl : i = j := Option.some_inj.mp (hf.symm.trans h₃)
        exact ⟨rest, h₁, h₂, h₄⟩
    have hclear : q.clear = { q with
        events := [i], bytes := q.byteLength i, entry := q.clear.entry } := by
      simp only [Queue.clear, hf]
    rw [hclear, active_of_some hf]
    refine ⟨h.sublist ?_ rfl (Or.inr (Or.inr ⟨i, [], hflushing, hdrains, hf, rfl⟩)),
      active_of_some hf, rfl⟩
    show [i].Sublist q.events
    rw [hevents]
    exact List.singleton_sublist.mpr List.mem_cons_self

/-! ### The bound, turn by turn -/

/-- A publication fails while as many entries wait as may, and its entry is not one
that `clear` has marked. -/
def Spills (o : Options) (q : Queue) : Action ε → Prop
  | .settle k false => ∃ i, q.drains[k]? = some (.publishing i) ∧
      (q.entry i).discardAfterPublish = false ∧ o.maxSizeOf ≤ q.waitingSize
  | _ => False

/-- What holds of the queue in every run. -/
structure Queue.Backlog (o : Options) (q : Queue) : Prop where
  lined : q.Lined
  length : q.events.length ≤ o.maxSizeOf + 1

/-- The bound on the entries that wait, in terms of all entries. -/
theorem Queue.Lined.waiting_le_iff (h : q.Lined) :
    q.waitingSize ≤ o.maxSizeOf ↔ q.events.length ≤ o.maxSizeOf + q.active := by
  have hlength := waitingSize_add_active h.phase
  omega

/-- A turn from `q` to `r` keeps the backlog, and the bound as well unless it spills. -/
def Queue.Keeps (o : Options) (q r : Queue) (spills : Prop) : Prop :=
  r.Backlog o ∧ (q.waitingSize ≤ o.maxSizeOf → (r.waitingSize ≤ o.maxSizeOf ↔ ¬ spills))

/-- A turn that does not spill has only to add no entry, or to leave room. -/
theorem Queue.Backlog.keeps {spills : Prop} (h : q.Backlog o) (hr : r.Lined)
    (hle : r.events.length ≤ q.events.length ∧ q.active ≤ r.active ∨
      r.events.length ≤ o.maxSizeOf + r.active)
    (hspills : ¬ spills) : Queue.Keeps o q r spills := by
  have hlength := h.length
  have hactive := active_le_one r
  refine ⟨⟨hr, by omega⟩, fun hbound => iff_of_true ?_ hspills⟩
  rw [h.lined.waiting_le_iff] at hbound
  rw [hr.waiting_le_iff]
  omega

theorem Queue.Backlog.keeps_self {spills : Prop} (h : q.Backlog o) (hspills : ¬ spills) :
    Queue.Keeps o q q spills :=
  h.keeps h.lined (Or.inl ⟨le_rfl, le_rfl⟩) hspills

theorem keeps_enqueue (c : Codec ε) (h : q.Backlog o) (e : ε) :
    Queue.Keeps o q (q.enqueue c o e).2 False := by
  obtain ⟨hlined, hf, hle⟩ := enqueue_backlog c o h.lined e
  have hsame : (q.enqueue c o e).2.active = q.active := by
    rw [Queue.active, hf, Queue.active]
  refine h.keeps hlined ?_ not_false
  rw [hsame]
  exact hle.imp_left fun hle => ⟨hle, le_rfl⟩

theorem keeps_flush (c : Codec ε) (h : q.Backlog o) : Queue.Keeps o q (q.flush c) False := by
  obtain ⟨hlined, hsame | ⟨hzero, hle⟩⟩ := flush_backlog c h.lined
  · rw [hsame]
    exact h.keeps_self not_false
  · exact h.keeps hlined (Or.inl ⟨hle, hzero ▸ Nat.zero_le _⟩) not_false

theorem keeps_settle_ok (c : Codec ε) (h : q.Backlog o) (k : ℕ) :
    Queue.Keeps o q (q.settle c k true) False := by
  by_cases hk : ∃ i, q.drains[k]? = some (.publishing i)
  · obtain ⟨i, hi⟩ := hk
    obtain ⟨hlined, hcount⟩ := settle_ok_backlog c h.lined hi
    have hlength := h.length
    exact h.keeps hlined (Or.inr (by omega)) not_false
  · rw [settle_of_ne c true fun i hi => hk ⟨i, hi⟩]
    exact h.keeps_self not_false

/-- The only turn that can put an entry on top of a full backlog. -/
theorem keeps_settle_err (c : Codec ε) (h : q.Backlog o) (k : ℕ) :
    Queue.Keeps o q (q.settle c k false) (Spills o q (.settle k false : Action ε)) := by
  by_cases hk : ∃ i, q.drains[k]? = some (.publishing i)
  · obtain ⟨i, hi⟩ := hk
    obtain ⟨hlined, hzero, hcount⟩ := settle_err_backlog c h.lined hi
    have hlength := h.length
    by_cases hdiscard : (q.entry i).discardAfterPublish = true
    · rw [if_pos hdiscard] at hcount
      refine h.keeps hlined (Or.inr (by omega)) ?_
      rintro ⟨j, hj, hkeep, -⟩
      rw [hi, Option.some.injEq, Drain.publishing.injEq] at hj
      subst hj
      simp [hdiscard] at hkeep
    · -- the entry waits again, on top of those that waited before
      rw [if_neg hdiscard] at hcount
      have hkeep : (q.entry i).discardAfterPublish = false := by simpa using hdiscard
      obtain ⟨rest, -, -, -, hf, -⟩ := h.lined.phase.publishing hi
      have hbefore := waitingSize_add_active h.lined.phase
      have hafter := waitingSize_add_active hlined.phase
      have hone := active_of_some hf
      refine ⟨⟨hlined, by omega⟩, fun hbound => ?_⟩
      constructor
      · rintro hle ⟨-, -, -, hfull⟩
        omega
      · intro hspill
        by_contra hover
        exact hspill ⟨i, hi, hkeep, by omega⟩
  · rw [settle_of_ne c false fun i hi => hk ⟨i, hi⟩]
    refine h.keeps_self ?_
    rintro ⟨i, hi, -⟩
    exact hk ⟨i, hi⟩

theorem keeps_reset (h : q.Backlog o) (k : ℕ) : Queue.Keeps o q (q.reset k) False := by
  obtain ⟨hlined, hevents, hf⟩ := reset_backlog h.lined k
  refine h.keeps hlined (Or.inl ⟨by rw [hevents], ?_⟩) not_false
  rw [Queue.active, Queue.active, hf]

theorem keeps_clear (h : q.Backlog o) : Queue.Keeps o q q.clear False := by
  obtain ⟨hlined, hsame, hcount⟩ := clear_backlog h.lined
  exact h.keeps hlined (Or.inr (by omega)) not_false

/-- **One turn keeps the bound unless it spills.** -/
theorem waiting_iff (c : Codec ε) (s : System) (h : s.queue.Backlog o) (a : Action ε) :
    Queue.Keeps o s.queue (step c o s a).queue (Spills o s.queue a) := by
  rcases a with e | _ | ⟨k, _ | _⟩ | k | _
  · exact keeps_enqueue c h e
  · exact keeps_flush c h
  · exact keeps_settle_err c h k
  · exact keeps_settle_ok c h k
  · exact keeps_reset h k
  · exact keeps_clear h

/-! ### The bound over whole runs -/

theorem backlog_stateOf (c : Codec ε) (o : Options) (acts : List (Action ε)) (n : ℕ) :
    (stateOf c o acts n).queue.Backlog o :=
  invariant (P := fun s : System => s.queue.Backlog o) ⟨lined_init, Nat.zero_le _⟩
    (fun s a h => (waiting_iff c s h a).1) n

/-- **The backlog of the retry queue.**  In every interleaving of the calls with the
publications, for every codec: never do more than `maxSize + 1` entries wait, and as far
as a run goes at most `maxSize` do exactly when no publication has failed on top of a
full backlog. -/
theorem backlog_iff (c : Codec ε) (o : Options) (acts : List (Action ε)) (n : ℕ) :
    (stateOf c o acts n).queue.waitingSize ≤ o.maxSizeOf + 1 ∧
    ((∀ m ≤ n, (stateOf c o acts m).queue.waitingSize ≤ o.maxSizeOf) ↔
      ∀ m < n, ∀ a, acts[m]? = some a → ¬ Spills o (stateOf c o acts m).queue a) := by
  have hbacklog := backlog_stateOf c o acts
  have hstep : ∀ m a, acts[m]? = some a →
      (stateOf c o acts m).queue.waitingSize ≤ o.maxSizeOf →
      ((stateOf c o acts (m + 1)).queue.waitingSize ≤ o.maxSizeOf ↔
        ¬ Spills o (stateOf c o acts m).queue a) := by
    intro m a ha hbound
    rw [stateOf_succ ha]
    exact (waiting_iff c _ (hbacklog m) a).2 hbound
  refine ⟨(Nat.sub_le _ _).trans (hbacklog n).length, ?_, ?_⟩
  · intro hbound m hm a ha
    exact (hstep m a ha (hbound m hm.le)).mp (hbound (m + 1) hm)
  · intro hspill m
    induction m with
    | zero =>
      intro _
      exact Nat.zero_le _
    | succ m ih =>
      intro hm
      rcases hget : acts[m]? with _ | a
      · -- the run is over
        have hsame : stateOf c o acts (m + 1) = stateOf c o acts m := stateAt_succ_of_none hget
        rw [hsame]
        exact ih (by omega)
      · exact (hstep m a hget (ih (by omega))).mpr (hspill m hm a hget)

/-- One entry may wait. -/
def oneWaits : Options := ⟨none, some 1, none⟩

/-- The second event waits while the first is being published, and that fails. -/
def spillingRun : List (Action (List UInt8)) :=
  [.enqueue [1], .flush, .enqueue [2], .settle 0 false, .reset 0, .enqueue [3]]

/-- After the failure two entries wait, and they still do after the next `enqueue`. -/
theorem backlog_spillingRun :
    oneWaits.maxSizeOf = 1 ∧
    (stateOf rawCodec oneWaits spillingRun 3).queue.waitingSize = 1 ∧
    (stateOf rawCodec oneWaits spillingRun 4).queue.waitingSize = 2 ∧
    (stateOf rawCodec oneWaits spillingRun 6).queue.waitingSize = 2 := by
  decide

end RetryQueue
