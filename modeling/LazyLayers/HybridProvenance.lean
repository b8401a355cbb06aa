/-
Where the values come from.

A value goes through many hands: it is encoded for the shared tier and for the L1, read
back and decoded, promoted, remembered as stale, handed to those who wait for a load.
Whoever is answered with it in the end is answered with a value that a `set` of the key was
given or that its loader returned.  With versions more is true: since a deletion starts a
new storage key, a call made after it gets nothing that was supplied before.

* `Codec.Lawful` — what has been encoded decodes to itself;
* `Run.Supplies` — a call brought the value in, under its own guard;
* `Run.supplied_of_l2`, `Run.supplied_of_l1` — what a tier returns has been supplied;
* `Run.supplied_of_loads` — what a load ends with has been supplied;
* `Run.provenance` — what a call returns has been supplied for its key;
* `Run.newer_of_storageKey` — a storage key that came into use after a deletion;
* `Run.versioned_delete_barrier` — what a later call returns was supplied later.
-/
import LazyLayers.HybridGenerations
import LazyLayers.HybridInvalidation
import LazyLayers.HybridReferences

open Js Pattern Async Runs MemoryStore

namespace HybridCache

variable {V : Type} {cfg : Config V}

/-! ### What stands for a value -/

/-- What has been encoded, under whichever policy, decodes to itself. -/
def Codec.Lawful (codec : Codec V) : Prop :=
  ∀ policy v buffer, codec.serialize policy v = some buffer → codec.decode buffer = some v

theorem eq_of_stands (hlaw : cfg.codec.Lawful) {u v : V} {buffer : Octets}
    (hstands : Stands cfg u buffer) (hdecode : cfg.codec.decode buffer = some v) : u = v := by
  rcases hstands with h | ⟨policy, h⟩
  · exact Option.some.inj (h.symm.trans hdecode)
  · exact Option.some.inj ((hlaw policy u buffer h).symm.trans hdecode)

theorem eq_of_holds (hlaw : cfg.codec.Lawful) {u : V} {record : Record V} {life : Option ℕ}
    {hit : L2Hit V} (hholds : record.Holds cfg u) (hdecode : decodeRecord cfg record life = some hit) :
    u = hit.value := by
  cases record with
  | encoded buffer =>
    obtain ⟨policy, hserialize⟩ := hholds
    rw [decodeRecord, hlaw policy u buffer hserialize] at hdecode
    exact congrArg L2Hit.value (Option.some.inj hdecode)
  | plain u' =>
    have hsame : u' = u := hholds
    subst hsame
    exact congrArg L2Hit.value (Option.some.inj hdecode)

namespace Run

variable {r : Run V}

/-! ### Supplies -/

/-- Call `j` took the guard at position `m` and brought the value in under it: the value
is the one it sets, or its loader has returned it before `n`. -/
def Supplies (r : Run V) (m j n : ℕ) (g : MutationGuard) (v : V) : Prop :=
  (∃ mutate, r.Does m j (.observeKey .write g mutate) ∧
      ∃ t opts, r.tasks[j]? = some t ∧ t.call = .set g.key v opts) ∨
    (∃ mutate, r.Does m j (.observeKey .fill g mutate)) ∧
      ∃ k, k < n ∧ r.Does k j (.loaded g.key (some v))

/-- The value was brought in before `n` for a storage key with this text. -/
def Supplied (r : Run V) (n : ℕ) (text : JsString) (v : V) : Prop :=
  ∃ m j g, m < n ∧ g.storageKey.text = text ∧ r.Supplies m j n g v

theorem Supplied.mono {n n' : ℕ} {text : JsString} {v : V}
    (h : r.Supplied n text v) (hle : n ≤ n') : r.Supplied n' text v := by
  obtain ⟨m, j, g, hm, hkey, hsup⟩ := h
  refine ⟨m, j, g, by omega, hkey, hsup.imp_right ?_⟩
  rintro ⟨htaken, k, hk, hloaded⟩
  exact ⟨htaken, k, by omega, hloaded⟩

/-- A `set` supplies the value it was given. -/
theorem supplied_of_set {n i : ℕ} {t : CacheTask V} {g : MutationGuard} {v : V}
    (ht : r.tasks[i]? = some t) (hobs : Observed (r.acts i n) .write g)
    (hcall : ∃ opts, t.call = .set g.key v opts) : r.Supplied n g.storageKey.text v := by
  obtain ⟨mutate, hmem⟩ := hobs
  obtain ⟨m, hm, hdoes⟩ := does_of_mem hmem
  obtain ⟨opts, hcall⟩ := hcall
  exact ⟨m, i, g.base, hm, rfl, .inl ⟨mutate, hdoes, t, opts, ht, hcall⟩⟩

/-- A load supplies what its loader has returned. -/
theorem supplied_of_loaded {n i : ℕ} {g : MutationGuard} {v : V}
    (hobs : Observed (r.acts i n) .fill g) (hloaded : .loaded g.key (some v) ∈ r.acts i n) :
    r.Supplied n g.storageKey.text v := by
  obtain ⟨mutate, hmem⟩ := hobs
  obtain ⟨m, hm, hdoes⟩ := does_of_mem hmem
  obtain ⟨k, hk, hdoes'⟩ := does_of_mem hloaded
  exact ⟨m, i, g.base, hm, rfl, .inr ⟨⟨mutate, hdoes⟩, k, hk, hdoes'⟩⟩

/-- What is written to the shared tier has been supplied for its storage key. -/
theorem supplied_of_dispatch {m i : ℕ} {g : MutationGuard} {op : L2Op V} {key : JsString}
    {record : Record V} (hdoes : r.Does m i (.dispatch (some g) op)) (hgives : op.gives key record) :
    ∃ u, record.Holds r.cfg u ∧ r.Supplied m key u := by
  obtain ⟨t, ht, -, hmay⟩ := rule hdoes
  cases op
  case set key' record' ttlMs =>
    obtain ⟨rfl, rfl⟩ := hgives
    obtain ⟨rfl, -, u, hholds, hwrite⟩ := hmay
    rcases hwrite with ⟨hobs, hcall⟩ | ⟨hobs, -, hloaded⟩
    · exact ⟨u, hholds, supplied_of_set ht hobs hcall⟩
    · exact ⟨u, hholds, supplied_of_loaded hobs hloaded⟩
  case publishIfOwner key' token record' ttlMs =>
    obtain ⟨rfl, rfl⟩ := hgives
    obtain ⟨rfl, -, hobs, -, u, hholds, hloaded⟩ := hmay
    exact ⟨u, hholds, supplied_of_loaded hobs hloaded⟩
  all_goals exact hgives.elim

/-- The value was found under, or brought in by, a guard of the key that a call took at a
position of the kind. -/
def Vouched (r : Run V) (T : ℕ → Prop) (n : ℕ) (key : CacheKey) (v : V) : Prop :=
  ∃ q i o g mutate, T q ∧ q < n ∧ r.Does q i (.observeKey o g mutate) ∧ g.key = key ∧
    (r.Supplies q i n g v ∨ r.Supplied n g.storageKey.text v ∧ (r.at q).closed = false ∧
      (r.at q).versionedCacheSafe r.cfg = true)

theorem safe_mono {m n : ℕ} (h : m ≤ n) (hsafe : (r.at n).versionedCacheSafe r.cfg = true) :
    (r.at m).versionedCacheSafe r.cfg = true := by
  by_contra hnot
  simp only [State.versionedCacheSafe, Bool.or_eq_true, Bool.not_eq_true', not_or,
    Bool.not_eq_false] at hnot hsafe
  have hsat : (r.at n).generationTrackingSaturated = true := (ages h).saturated hnot.2
  rcases hsafe with hver | hsafe
  · rw [hnot.1] at hver
    cases hver
  · rw [hsat] at hsafe
    cases hsafe

theorem open_mono {m n : ℕ} (h : m ≤ n) (hopen : (r.at n).closed = false) :
    (r.at m).closed = false := by
  by_contra hclosed
  rw [Bool.not_eq_false] at hclosed
  rw [closed_mono h hclosed] at hopen
  cases hopen

/-- A guard that is current later was taken in an open cache that answers. -/
theorem open_and_safe_of_current {m n : ℕ} {g : MutationGuard} (h : m ≤ n)
    (hcur : (r.at n).isCurrent r.cfg g = true) :
    (r.at m).closed = false ∧ (r.at m).versionedCacheSafe r.cfg = true := by
  simp only [State.isCurrent, Bool.and_eq_true, Bool.not_eq_true'] at hcur
  exact ⟨open_mono h hcur.1.1.1.1.1, safe_mono h hcur.1.1.1.2⟩

section Tiers

variable (hlaw : r.cfg.codec.Lawful) (halone : r.Alone) (hempty : r.l2 = [])

include hlaw halone hempty

/-- What a read of the shared tier has returned has been supplied. -/
theorem supplied_of_l2 {n i : ℕ} {g : MutationGuard} {v : V}
    (h : FromL2 r.cfg (r.acts i n) g v) : r.Supplied n g.storageKey.text v := by
  obtain ⟨record, life, hit, hmem, hdecode, rfl⟩ := h
  obtain ⟨k, e, hk, hread, he, rfl⟩ := read_of_returned hmem
  obtain ⟨m, j, g', op, hm, hdoes, hgives⟩ := stored halone hempty (lt_length hread).le he
  obtain ⟨u, hholds, hsup⟩ := supplied_of_dispatch hdoes hgives
  obtain rfl := eq_of_holds hlaw hholds hdecode
  exact hsup.mono (by omega)

variable (hl2 : r.cfg.l2.isSome = true)

include hl2

/-- What is placed in a local tier has been supplied, if it is not a copy out of the L1. -/
theorem supplied_of_justified {n i : ℕ} {t : CacheTask V} {o : Origin} {g : MutationGuard} {v : V}
    (ht : r.tasks[i]? = some t) (hobs : Observed (r.acts i n) o g)
    (hjust : Justified r.cfg t.call (r.acts i n) g v o) : r.Supplied n g.storageKey.text v := by
  cases o with
  | write => exact supplied_of_set ht hobs hjust
  | fill => exact supplied_of_loaded hobs hjust.1
  | read => exact supplied_of_l2 hlaw halone hempty hjust
  | remote => exact supplied_of_l2 hlaw halone hempty (hjust hl2)

/-- What a read of the L1 has returned has been supplied. -/
theorem supplied_of_l1 {n i : ℕ} {g : MutationGuard} {v : V}
    (h : FromL1 r.cfg (r.acts i n) g v) : r.Supplied n g.storageKey.text v := by
  obtain ⟨buffer, hmem, hdecode⟩ := h
  obtain ⟨k, hk, hread⟩ := does_of_mem hmem
  obtain ⟨-, -, -, -, -, -, -, hhit⟩ := rule hread
  obtain ⟨e, he, rfl⟩ := Option.map_eq_some_iff.mp hhit.symm
  rcases put_since (x := .l1 g.storageKey e) (Nat.zero_le k) (lt_length hread).le he with
    hstart | ⟨m, j, a, -, hm, hdoes, hputs⟩
  · -- at first the L1 is empty
    have hnone : (r.at 0).l1Entry g.storageKey = none := by
      show (Option.bind (if r.cfg.hasL1 then some [] else none) _).filter _ = none
      split <;> rfl
    rw [show (r.at 0).l1Entry g.storageKey = some e from hstart] at hnone
    cases hnone
  obtain ⟨t, ht, -, hrule⟩ := rule hdoes
  cases a
  case insertL1 o g' u buffer ttlMs =>
    obtain ⟨hkey, rfl⟩ := hputs
    obtain ⟨hobs, -, hjust, hstands⟩ := hrule
    obtain rfl := eq_of_stands hlaw hstands hdecode
    have hsup := supplied_of_justified hlaw halone hempty hl2 ht hobs hjust
    rw [hkey] at hsup
    exact hsup.mono (by omega)
  all_goals exact hputs.elim

/-- What a lookup has found has been supplied. -/
theorem supplied_of_found {n i : ℕ} {g : MutationGuard} {v : V}
    (h : Found r.cfg (r.acts i n) g v) : r.Supplied n g.storageKey.text v :=
  h.elim (supplied_of_l1 hlaw halone hempty hl2) (supplied_of_l2 hlaw halone hempty)

/-- What is remembered as stale has been supplied. -/
theorem supplied_of_rememberStale {n i : ℕ} {o : Origin} {g : MutationGuard} {v : V}
    {encoded : Octets} {opts : Options} (h : r.Does n i (.rememberStale o g v encoded opts)) :
    r.Supplied n g.storageKey.text v := by
  obtain ⟨t, ht, -, hobs, -, hjust | ⟨-, hfound⟩, -⟩ := rule h
  · exact supplied_of_justified hlaw halone hempty hl2 ht hobs hjust
  · exact supplied_of_l1 hlaw halone hempty hl2 hfound

/-- What a load of the key ends with is vouched for.  `u` are the acts of the load, which
come at positions of the kind `T`; its guards and those of the stale values that it may
fall back on were taken at such positions. -/
theorem vouched_of_loads {n i : ℕ} {key : CacheKey} {v : V} {u : List (Act V)} {T : ℕ → Prop}
    (hacts : ∀ a ∈ u, ∃ p, p < n ∧ T p ∧ r.Does p i a)
    (hfill : ∀ p g mutate, r.Does p i (.observeKey .fill g mutate) → T p)
    (hstale : ∀ p e, p < n → T p → (r.at p).stale.get key = some e →
      ∃ k j o g w opts, k < p ∧ r.Does k j (.rememberStale o g w e.encoded opts) ∧ g.key = key ∧
        ∀ q mutate, r.Does q j (.observeKey o g.base mutate) → T q)
    (h : Loads r.cfg u key v) : r.Vouched T n key v := by
  have hsub : u ⊆ r.acts i n := by
    intro a ha
    obtain ⟨p, hp, -, hdoes⟩ := hacts a ha
    exact mem_acts hdoes hp
  rcases h with ⟨g, rfl, hmem, hfound⟩ | hhit | hloaded | ⟨g, rfl, ⟨mutate, hmem⟩, hread, hl2'⟩
  · -- found under the guard of a lookup
    obtain ⟨q, hq, hT, hdoes⟩ := hacts _ hmem
    obtain ⟨_, -, -, -, -, hopen, hsafe⟩ := rule hdoes
    refine ⟨q, i, .read, g, false, hT, hq, hdoes, rfl,
      .inr ⟨?_, hopen (fun ho => by cases ho), hsafe rfl⟩⟩
    refine supplied_of_found (i := i) hlaw halone hempty hl2 (hfound.imp ?_ ?_)
    · rintro ⟨buffer, hmem, hdecode⟩
      exact ⟨buffer, hsub hmem, hdecode⟩
    · rintro ⟨record, life, hit, hmem, hdecode⟩
      exact ⟨record, life, hit, hsub hmem, hdecode⟩
  · -- a stale value, under the guard of whoever has remembered it
    obtain ⟨p, hp, hT, hdoes⟩ := hacts _ hhit
    obtain ⟨_, -, -, hlive⟩ := rule hdoes
    change (r.at p).staleLive r.cfg key = some v at hlive
    rw [State.staleLive] at hlive
    split at hlive
    · cases hlive
    obtain ⟨e, he, hdecode⟩ := Option.bind_eq_some_iff.mp hlive
    obtain ⟨k, j, o, g, w, opts, hk, hput, rfl, hT'⟩ :=
      hstale p e hp hT (Option.filter_eq_some_iff.mp he).1
    obtain ⟨_, -, -, ⟨mutate, hobs⟩, hcur, -, hstands⟩ := rule hput
    obtain rfl := eq_of_stands hlaw hstands hdecode
    obtain ⟨q, hq, htaken⟩ := does_of_mem hobs
    refine ⟨q, j, o, g.base, mutate, hT' q mutate htaken, by omega, htaken, rfl, .inr ⟨?_, ?_⟩⟩
    · exact (supplied_of_rememberStale hlaw halone hempty hl2 hput).mono (by omega)
    · exact open_and_safe_of_current hq.le hcur
  · -- the load's own value
    obtain ⟨p, hp, -, hdoes⟩ := hacts _ hloaded
    obtain ⟨_, -, -, hstart⟩ := rule hdoes
    obtain ⟨p', hp', hdoes'⟩ := does_of_mem hstart
    obtain ⟨_, -, -, -, ⟨g, rfl, mutate, hobs⟩, -⟩ := rule hdoes'
    obtain ⟨q, hq, htaken⟩ := does_of_mem hobs
    exact ⟨q, i, .fill, g.base, mutate, hfill q g.base mutate htaken, by omega, htaken, rfl,
      .inl (.inr ⟨⟨mutate, htaken⟩, p, hp, hdoes⟩)⟩
  · -- read back after a publication, for which the guard was current
    obtain ⟨op, reply, hwrites, hreturned⟩ := hread
    obtain ⟨p, hp, -, hdoes⟩ := hacts _ hreturned
    obtain ⟨_, -, -, hexecuted⟩ := rule hdoes
    obtain ⟨p₁, hp₁, hdoes₁⟩ := does_of_mem hexecuted
    obtain ⟨_, -, -, -, hsend⟩ := rule hdoes₁
    have hdispatch : .dispatch (some g) op ∈ r.acts i p₁ := by
      refine hsend.resolve_right ?_
      rintro ⟨hnone, -⟩
      cases hnone
    obtain ⟨p₂, hp₂, hdoes₂⟩ := does_of_mem hdispatch
    obtain ⟨t, ht, -, hmay⟩ := rule hdoes₂
    have hguard : Observed (r.acts i p₂) .fill g ∧ (r.at p₂).isCurrent r.cfg g = true := by
      cases op
      case set key' record ttlMs =>
        obtain ⟨-, hcur, _, -, hwrite⟩ := hmay
        rcases hwrite with ⟨-, opts, hcall⟩ | ⟨hobs, -⟩
        · -- a `set` takes no guard for a load
          obtain ⟨q, -, -, htaken⟩ := hacts _ hmem
          obtain ⟨t', ht', -, hallows, -⟩ := rule htaken
          obtain rfl := Option.some.inj (ht.symm.trans ht')
          rw [hcall] at hallows
          exact hallows.elim
        · exact ⟨hobs, hcur⟩
      case publishIfOwner key' token record ttlMs => exact ⟨hmay.2.2.1, hmay.2.1⟩
      all_goals cases hwrites
    obtain ⟨⟨mutate', hobs⟩, hcur⟩ := hguard
    obtain ⟨q, hq, htaken⟩ := does_of_mem hobs
    have hsup : r.Supplied n g.storageKey.text v := by
      obtain ⟨record, life, hit, hmem', hdecode⟩ := hl2'
      exact supplied_of_l2 (i := i) hlaw halone hempty ⟨record, life, hit, hsub hmem', hdecode⟩
    exact ⟨q, i, .fill, g.base, mutate', hfill q g.base mutate' htaken, by omega, htaken, rfl,
      .inr ⟨hsup, open_and_safe_of_current hq.le hcur⟩⟩

end Tiers

/-! ### Answers -/

/-- The acts behind an act of a call come at positions behind its position. -/
theorem position_of_split {n i : ℕ} {a : Act V} {l₁ u : List (Act V)}
    (h : r.acts i n = l₁ ++ a :: u) :
    ∃ k, k < n ∧ r.Does k i a ∧ ∀ b ∈ u, ∃ p, p < n ∧ k < p ∧ r.Does p i b := by
  induction n generalizing u with
  | zero => exact absurd h.symm (by simp [acts, own])
  | succ n ih =>
    have hgrow : r.acts i n = l₁ ++ a :: u → ∃ k, k < n + 1 ∧ r.Does k i a ∧
        ∀ b ∈ u, ∃ p, p < n + 1 ∧ k < p ∧ r.Does p i b := by
      intro h
      obtain ⟨k, hk, hdoes, hlater⟩ := ih h
      refine ⟨k, by omega, hdoes, fun b hb => ?_⟩
      obtain ⟨p, hp, hkp, hdoes'⟩ := hlater b hb
      exact ⟨p, by omega, hkp, hdoes'⟩
    rcases hget : r.trace[n]? with _ | ⟨j, b⟩ | e
    · refine hgrow (h ▸ ?_)
      rw [acts, acts, List.take_add_one, hget, Option.toList_none, List.append_nil]
    · have hdoes : r.Does n j b := hget
      rw [acts_succ_own hdoes] at h
      by_cases hij : j = i
      · subst hij
        rw [if_pos rfl] at h
        -- the new act is the one looked for, or one behind it
        rcases List.eq_nil_or_concat u with rfl | ⟨u', b', rfl⟩
        · obtain ⟨-, hab⟩ := List.append_inj' h rfl
          obtain rfl : b = a := by simpa using hab
          exact ⟨n, Nat.lt_succ_self n, hdoes, fun c hc => (List.not_mem_nil hc).elim⟩
        · have hassoc : r.acts j n ++ [b] = (l₁ ++ a :: u') ++ [b'] := by
            rw [h]
            simp
          obtain ⟨hfront, hbb⟩ := List.append_inj' hassoc rfl
          obtain rfl : b = b' := by simpa using hbb
          obtain ⟨k, hk, hdoes', hlater⟩ := ih hfront
          refine ⟨k, by omega, hdoes', fun c hc => ?_⟩
          rw [List.concat_eq_append, List.mem_append, List.mem_singleton] at hc
          rcases hc with hc | rfl
          · obtain ⟨p, hp, hkp, hdoes''⟩ := hlater c hc
            exact ⟨p, by omega, hkp, hdoes''⟩
          · exact ⟨n, Nat.lt_succ_self n, hk, hdoes⟩
      · rw [if_neg hij] at h
        exact hgrow h
    · rw [acts_succ_env hget] at h
      exact hgrow h

/-- The call has returned the value for the key. -/
def Returned (r : Run V) (i : ℕ) (key : CacheKey) (v : V) : Prop :=
  ∃ t, r.tasks[i]? = some t ∧ t.rest = Prog.ofExcept (.ok (.value (some v))) ∧
    (t.call = .get key ∨ ∃ opts timing, t.call = .getOrSet key opts timing)

/-- The call has joined a load of the key that another call tracked at position `k`, and
that has ended with the value; `u` is what that call has done for it. -/
def Joined (r : Run V) (i : ℕ) (key : CacheKey) (v : V) (k : ℕ) (u : List (Act V)) : Prop :=
  ∃ j id opts p n, r.Does k j (.trackInflight key id opts) ∧ r.Does p i (.follow key id) ∧
    ((r.at p).inflight.get key).map InflightEntry.id = some id ∧ n ≤ r.trace.length ∧
    (∀ b ∈ u, ∃ q, q < n ∧ k < q ∧ r.Does q j b) ∧ Loads r.cfg u key v

/-- What a call returns is what its own load ends with, or the load that it joined. -/
theorem loads_of_returned {i : ℕ} {key : CacheKey} {v : V} (h : r.Returned i key v) :
    Loads r.cfg (r.acts i r.trace.length) key v ∨ ∃ k u, r.Joined i key v k u := by
  obtain ⟨t, ht, hrest, hcall⟩ := h
  obtain ⟨-, hend⟩ := finished ht hrest
  rcases hcall with hcall | ⟨opts, rounds, hcall⟩
  · rw [hcall] at hend
    exact .inl (.inl (hend v rfl))
  · rw [hcall] at hend
    rcases hend with ⟨-, hloads⟩ | ⟨l₁, id, outcome, hacts, -, hout⟩
    · exact .inl (hloads v rfl)
    right
    have houtcome : outcome = .ok (some v) := (value_eq hout.symm).symm ▸ rfl
    subst houtcome
    have hmem : ∀ {a : Act V}, a ∈ [Act.follow key id, .joined key id (.ok (some v)), .unfollow] →
        ∃ p, p < r.trace.length ∧ r.Does p i a := by
      intro a ha
      exact does_of_mem (by rw [hacts]; exact List.mem_append_right l₁ ha)
    obtain ⟨p, hp, hfollow⟩ := hmem (List.mem_cons_self ..)
    obtain ⟨p', hp', hjoined⟩ := hmem (List.mem_cons_of_mem _ (List.mem_cons_self ..))
    obtain ⟨_, -, -, -, hget⟩ := rule hfollow
    obtain ⟨_, -, -, -, hsome⟩ := rule hjoined
    obtain ⟨n, j, key', hn, hfinish⟩ := outcome_of hp'.le hsome
    obtain ⟨_, -, -, l₂, opts', u, hsplit, hloads⟩ := rule hfinish
    obtain ⟨k, hk, htrack, hlater⟩ := position_of_split hsplit
    -- the load that is joined is the one that has ended
    obtain ⟨e, he, hid⟩ := Option.map_eq_some_iff.mp hget
    subst hid
    obtain ⟨k', j', opts'', -, -, htrack'⟩ :=
      (inflight_since (Nat.zero_le p) hp.le he).resolve_left nofun
    obtain rfl := track_unique htrack htrack'
    cases Option.some.inj (htrack.symm.trans htrack')
    exact ⟨k, u, j, e.id, opts', p, n, htrack, hfollow, by rw [he]; rfl, (lt_length hfinish).le,
      hlater, hloads v rfl⟩



/-- What is known of a guard from the text of its storage key. -/
theorem key_of_storageKey {m n i j : ℕ} {o o' : Origin} {g g' : MutationGuard}
    {mutate mutate' : Bool} (hg : r.Does m i (.observeKey o g mutate))
    (hg' : r.Does n j (.observeKey o' g' mutate')) (h : g'.storageKey.text = g.storageKey.text) :
    g'.key.text = g.key.text ∧
      (r.cfg.versioning = true →
        (r.at n).getGeneration g.key.text = (r.at m).getGeneration g.key.text) := by
  obtain ⟨_, hguard, -⟩ := guard_of_takes hg (.inl ⟨o, mutate, rfl⟩)
  obtain ⟨_, hguard', -⟩ := guard_of_takes hg' (.inl ⟨o', mutate', rfl⟩)
  have hstorage : g.storageKey = (r.at m).toStorageKey r.cfg g.key :=
    congrArg MutationGuard.storageKey hguard
  have hstorage' : g'.storageKey = (r.at n).toStorageKey r.cfg g'.key :=
    congrArg MutationGuard.storageKey hguard'
  rw [hstorage, hstorage'] at h
  rcases hver : r.cfg.versioning with _ | _
  · exact ⟨by simpa [State.toStorageKey, hver] using h, fun hoff => by cases hoff⟩
  · -- a versioned storage key is a string
    have hsame : (r.at n).toStorageKey r.cfg g'.key = (r.at m).toStorageKey r.cfg g.key := by
      simp only [State.toStorageKey, hver, if_true, CacheKey.ofString] at h ⊢
      rw [h]
    obtain ⟨htext, hgen⟩ := (toStorageKey_inj hver ..).mp hsame
    exact ⟨htext, fun _ => htext ▸ hgen⟩

theorem Supplies.mono {m j n n' : ℕ} {g : MutationGuard} {v : V} (h : r.Supplies m j n g v)
    (hle : n ≤ n') : r.Supplies m j n' g v := by
  refine h.imp_right ?_
  rintro ⟨htaken, k, hk, hloaded⟩
  exact ⟨htaken, k, by omega, hloaded⟩

theorem Supplies.taken {m j n : ℕ} {g : MutationGuard} {v : V} (h : r.Supplies m j n g v) :
    ∃ o mutate, r.Does m j (.observeKey o g mutate) := by
  rcases h with ⟨mutate, hdoes, -⟩ | ⟨⟨mutate, hdoes⟩, -⟩
  · exact ⟨.write, mutate, hdoes⟩
  · exact ⟨.fill, mutate, hdoes⟩

/-- Where a stale value comes from. -/
theorem remembered {p : ℕ} {key : CacheKey} {e : StaleEntry} {m : ℕ} (hmp : m ≤ p)
    (hp : p ≤ r.trace.length) (he : (r.at p).stale.get key = some e) :
    (r.at m).stale.get key = some e ∨
      ∃ k j o g w opts, m ≤ k ∧ k < p ∧ r.Does k j (.rememberStale o g w e.encoded opts) ∧
        g.key = key := by
  refine (put_since (x := .stale key e) hmp hp he).imp_right ?_
  rintro ⟨k, j, a, hk, hkp, hdoes, hputs⟩
  cases a
  case rememberStale o g w encoded opts =>
    obtain ⟨hkey, hencoded⟩ := hputs
    exact ⟨k, j, o, g, w, opts, hk, hkp, hencoded ▸ hdoes, hkey⟩
  all_goals exact hputs.elim

section Answers

variable (hlaw : r.cfg.codec.Lawful) (halone : r.Alone) (hempty : r.l2 = [])
  (hl2 : r.cfg.l2.isSome = true)

include hlaw halone hempty hl2

/-- **What a call returns has been supplied for its key.**  A cache that has a shared tier of
its own, empty at first, and whose codec is lawful, answers a `get` or `getOrSet` with nothing
but a value that a `set` of the key was given or that a loader of the key has returned, or of
the key of the other type with the same text, which the shared tier does not tell from it:
through both tiers, stale values, loads in flight and events of other instances. -/
theorem provenance {i : ℕ} {key : CacheKey} {v : V} (h : r.Returned i key v) :
    ∃ m j g, r.Supplies m j r.trace.length g v ∧ g.key.text = key.text := by
  have hstale : ∀ p e, p < r.trace.length → True → (r.at p).stale.get key = some e →
      ∃ k j o g w opts, k < p ∧ r.Does k j (.rememberStale o g w e.encoded opts) ∧ g.key = key ∧
        ∀ q mutate, r.Does q j (.observeKey o g.base mutate) → True := by
    intro p e hp _ he
    obtain ⟨k, j, o, g, w, opts, -, hk, hdoes, hkey⟩ :=
      (remembered (Nat.zero_le p) hp.le he).resolve_left nofun
    exact ⟨k, j, o, g, w, opts, hk, hdoes, hkey, fun _ _ _ => trivial⟩
  have hvouched : ∃ n, n ≤ r.trace.length ∧ r.Vouched (fun _ => True) n key v := by
    rcases loads_of_returned h with hloads | ⟨k, u, j, id, opts, p, n, -, -, -, hn, hlater, hloads⟩
    · refine ⟨r.trace.length, le_rfl, vouched_of_loads (i := i) hlaw halone hempty hl2 ?_ ?_ ?_
        hloads⟩
      · intro a ha
        obtain ⟨p, hp, hdoes⟩ := does_of_mem ha
        exact ⟨p, hp, trivial, hdoes⟩
      · exact fun _ _ _ _ => trivial
      · exact hstale
    · refine ⟨n, hn, vouched_of_loads (i := j) hlaw halone hempty hl2 ?_ ?_ ?_ hloads⟩
      · intro a ha
        obtain ⟨q, hq, -, hdoes⟩ := hlater a ha
        exact ⟨q, hq, trivial, hdoes⟩
      · exact fun _ _ _ _ => trivial
      · exact fun p e hp => hstale p e (by omega)
  obtain ⟨n, hn, q, i', o, g, mutate, -, hq, htaken, rfl, hsup | ⟨hsup, -⟩⟩ := hvouched
  · exact ⟨q, i', g, hsup.mono hn, rfl⟩
  · obtain ⟨m, j, g', hm, hstorage, hsup⟩ := hsup
    obtain ⟨o', mutate', htaken'⟩ := hsup.taken
    exact ⟨m, j, g', hsup.mono hn, (key_of_storageKey htaken htaken' hstorage).1⟩

end Answers

/-- Numbers in unary. -/
def unaryCodec : Codec ℕ where
  serialize _ v := some (List.replicate v 0)
  decode buffer := some buffer.length

theorem lawful_unaryCodec : unaryCodec.Lawful := by
  rintro policy v buffer hbuffer
  cases hbuffer
  simp [unaryCodec]

/-- A deletion, a write that follows it, and a lookup that returns what it wrote. -/
def writtenThenRead (versioning : Bool) : Run ℕ :=
  demo { codec := unaryCodec, eventBus := false, versioning := versioning } []
    ([.start (.delete theKey), .start (.set theKey 2 {}), .start (.get theKey)] ++
      List.replicate 6 (.resume 2 healthy))

/-- Where nothing happens from outside, nobody else writes to the shared tier. -/
theorem alone_of_no_env (h : (r.trace.all fun x => match x with
    | .own _ _ => true
    | .env _ => false) = true) : r.Alone := by
  intro n l2 locks hget
  have hown := List.all_eq_true.mp h _ (List.mem_of_getElem? hget)
  cases hown

theorem provenance_writtenThenRead : ∃ m j g,
    (writtenThenRead false).Supplies m j (writtenThenRead false).trace.length g 2 ∧
      g.key.text = theKey.text :=
  provenance (r := writtenThenRead false) (i := 2) lawful_unaryCodec (alone_of_no_env rfl) rfl rfl
    ⟨(writtenThenRead false).tasks[2], rfl, rfl, .inl rfl⟩

/-! ### After a deletion -/

/-- A deletion takes the load in flight out of the map. -/
theorem inflight_of_invalidateKey (s : State V) (g : MutationGuard) (generation : Option ℕ) :
    (s.invalidateKey g generation).inflight.get g.key = none := by
  by_contra hsome
  obtain ⟨e, he⟩ := Option.ne_none_iff_exists'.mp hsome
  rw [State.invalidateKey] at he
  have hgone : ((s.observeKey g.key true).removeInflight g.key).inflight.get g.key = none := by
    rw [State.removeInflight]
    split
    · assumption
    · exact JsMap.get_delete_self ..
  generalize (s.observeKey g.key true).removeInflight g.key = s₁ at he hgone
  have hdrops := ((local_removeNegative s₁ g.key).trans (local_removeStale _ g.key)).toDrops.trans
    (drops_advanceGenerationAfterDelete _ g.key.text generation)
  have hbefore := hdrops.inflight g.key e he
  rw [hgone] at hbefore
  cases hbefore

/-- A deletion starts a new generation, unless generations can no longer be tracked. -/
theorem generation_of_invalidateKey {s : State V} {g : MutationGuard}
    (hsat : (s.invalidateKey g none).generationTrackingSaturated = false) :
    s.getGeneration g.key.text < (s.invalidateKey g none).getGeneration g.key.text := by
  rcases books_invalidateKey s g none with ⟨-, h⟩ | ⟨-, h⟩
  · have hgen : (s.invalidateKey g none).generations = _ := congrArg Books.generations h
    rw [getGeneration_of_set hgen, if_pos rfl]
    exact Nat.lt_succ_self _
  · rw [h] at hsat
    cases hsat

/-- A guard with a storage key that came into use after a deletion was taken after it. -/
theorem newer_of_storageKey (hver : r.cfg.versioning = true) {m q q' d i j : ℕ} {o o' : Origin}
    {gd g g' : MutationGuard} {mutate mutate' : Bool} (hdel : r.Does m d (.invalidateKey gd none))
    (htext : g.key.text = gd.key.text) (hg : r.Does q i (.observeKey o g mutate)) (hmq : m < q)
    (hopen : (r.at q).closed = false) (hsafe : (r.at q).versionedCacheSafe r.cfg = true)
    (hg' : r.Does q' j (.observeKey o' g' mutate'))
    (hstorage : g'.storageKey.text = g.storageKey.text) : m < q' := by
  by_contra hle
  have hbefore : (r.at q').getGeneration gd.key.text ≤ (r.at m).getGeneration gd.key.text :=
    getGeneration_mono (Nat.le_of_not_lt hle) (open_mono hmq.le hopen) _
  have hsat : (r.at (m + 1)).generationTrackingSaturated = false := by
    have hsafe' := safe_mono (r := r) hmq hsafe
    simpa [State.versionedCacheSafe, hver] using hsafe'
  have hstep : (r.at m).getGeneration gd.key.text < (r.at (m + 1)).getGeneration gd.key.text := by
    rw [at_succ_own hdel] at hsat ⊢
    exact generation_of_invalidateKey hsat
  have hafter : (r.at (m + 1)).getGeneration gd.key.text ≤ (r.at q).getGeneration gd.key.text :=
    getGeneration_mono hmq hopen _
  have hsame := (key_of_storageKey hg hg' hstorage).2 hver
  rw [htext] at hsame
  omega

/-- A stale value that is found after a deletion was remembered under a guard that was taken
after it. -/
theorem remembered_since {m d p : ℕ} {g : MutationGuard} {generation : Option ℕ} {e : StaleEntry}
    (hdel : r.Does m d (.invalidateKey g generation)) (hmp : m < p) (hp : p ≤ r.trace.length)
    (he : (r.at p).stale.get g.key = some e) :
    ∃ k j o g' w opts, k < p ∧ r.Does k j (.rememberStale o g' w e.encoded opts) ∧
      g'.key = g.key ∧ ∀ q mutate, r.Does q j (.observeKey o g'.base mutate) → m < q := by
  rcases remembered (m := m + 1) hmp hp he with hold | ⟨k, j, o, g', w, opts, hk, hkp, hput, hkey⟩
  · rw [at_succ_own hdel] at hold
    exact absurd hold (not_holds_of_invalidates r.cfg (r.at m)
      (a := .invalidateKey g generation) (x := .stale g.key e) rfl)
  refine ⟨k, j, o, g', w, opts, hkp, hput, hkey, ?_⟩
  intro q mutate htaken
  have hmutates : (Act.invalidateKey (V := V) g generation).mutates g'.key = true := by
    simp [Act.mutates, hkey]
  have hle : m ≤ q := newer_of_places hdel hk hput rfl (.inl hmutates) q j _ htaken
    (.inl ⟨o, mutate, rfl⟩)
  refine Nat.lt_of_le_of_ne hle ?_
  rintro rfl
  cases Option.some.inj (hdel.symm.trans htaken)

/-- A load of the key that is joined after a deletion was tracked after it. -/
theorem tracked_since {m d p k j : ℕ} {g : MutationGuard} {generation : Option ℕ} {id : ℕ}
    {opts : Options} (hdel : r.Does m d (.invalidateKey g generation)) (hmp : m < p)
    (hp : p ≤ r.trace.length) (htrack : r.Does k j (.trackInflight g.key id opts))
    (hget : ((r.at p).inflight.get g.key).map InflightEntry.id = some id) : m < k := by
  obtain ⟨e, he, rfl⟩ := Option.map_eq_some_iff.mp hget
  rcases inflight_since (m := m + 1) hmp hp he with hold | ⟨k', j', opts', hk', -, htrack'⟩
  · rw [at_succ_own hdel] at hold
    have hgone : ((Act.invalidateKey (V := V) g generation).apply r.cfg (r.at m)).inflight.get g.key =
        none := inflight_of_invalidateKey ..
    rw [hgone] at hold
    cases hold
  · rw [track_unique htrack htrack']
    exact hk'

section Answers

variable (hlaw : r.cfg.codec.Lawful) (halone : r.Alone) (hempty : r.l2 = [])
  (hl2 : r.cfg.l2.isSome = true)

include hlaw halone hempty hl2

/-- **The versioned deletion barrier.**  With versions, a `get` or `getOrSet` that is called
after a `delete` of the key returns only what has been supplied under a guard that was taken
after the `delete` was called: no matter which commands are still on their way to the shared
tier, or which loads and promotions were under way. -/
theorem versioned_delete_barrier (hver : r.cfg.versioning = true) {d i : ℕ} {td t : CacheTask V}
    {key : CacheKey} {v : V} (htd : r.tasks[d]? = some td) (hdelete : td.call = .delete key)
    (ht : r.tasks[i]? = some t) (hlater : td.started < t.started) (h : r.Returned i key v) :
    ∃ m j g, td.started < m ∧ r.Supplies m j r.trace.length g v ∧ g.key.text = key.text := by
  have hbehind : ∀ {p a}, r.Does p i a → td.started < p := by
    intro p a hdoes
    obtain ⟨t', ht', hle, -⟩ := rule hdoes
    obtain rfl := Option.some.inj (ht.symm.trans ht')
    omega
  -- a closed cache returns nothing
  have hopen : (r.at td.started).closed = false := by
    by_contra hclosed
    rw [Bool.not_eq_false] at hclosed
    obtain ⟨t', ht', hrest, hcall⟩ := h
    obtain rfl := Option.some.inj (ht.symm.trans ht')
    have hneeds : t.call.needsOpen = true := by
      rcases hcall with hcall | ⟨opts, rounds, hcall⟩ <;> rw [hcall] <;> rfl
    have hrefused := (refused_of_closed ht hneeds (closed_mono hlater.le hclosed)).1
    rw [hrest] at hrefused
    cases hrefused
  obtain ⟨gd, rfl, hdel⟩ := invalidates_at htd hdelete hopen
  have hvouched : ∃ n, n ≤ r.trace.length ∧ r.Vouched (td.started < ·) n gd.key v := by
    rcases loads_of_returned h with
      hloads | ⟨k, u, j, id, opts, p, n, htrack, hfollow, hget, hn, hacts, hloads⟩
    · refine ⟨r.trace.length, le_rfl, vouched_of_loads (i := i) hlaw halone hempty hl2 ?_ ?_ ?_
        hloads⟩
      · intro a ha
        obtain ⟨p, hp, hdoes⟩ := does_of_mem ha
        exact ⟨p, hp, hbehind hdoes, hdoes⟩
      · exact fun p g mutate hdoes => hbehind hdoes
      · exact fun p e hp hlt he => remembered_since hdel hlt hp.le he
    · have hlt : td.started < k :=
        tracked_since hdel (hbehind hfollow) (lt_length hfollow).le htrack hget
      refine ⟨n, hn, vouched_of_loads (i := j) hlaw halone hempty hl2 ?_ ?_ ?_ hloads⟩
      · intro a ha
        obtain ⟨q, hq, hkq, hdoes⟩ := hacts a ha
        exact ⟨q, hq, by omega, hdoes⟩
      · -- the load takes its guard after it has been tracked
        intro p' g mutate htaken
        obtain ⟨tj, htj, -, -, -, -, rounds, hcall⟩ := rule htrack
        have hkp := lt_of_stage htrack htaken htj (by rw [hcall]; rfl) Nat.one_lt_two nofun
        omega
      · exact fun p' e hp hlt' he => remembered_since hdel hlt' (by omega) he
  obtain ⟨n, hn, q, i', o, g, mutate, hq, -, htaken, hkey, hsup | ⟨hsup, hopen', hsafe⟩⟩ := hvouched
  · exact ⟨q, i', g, hq, hsup.mono hn, congrArg CacheKey.text hkey⟩
  · obtain ⟨m, j, g', -, hstorage, hsup⟩ := hsup
    obtain ⟨o', mutate', htaken'⟩ := hsup.taken
    refine ⟨m, j, g', ?_, hsup.mono hn, ?_⟩
    · exact newer_of_storageKey hver hdel (congrArg CacheKey.text hkey) htaken hq hopen' hsafe
        htaken' hstorage
    · exact (key_of_storageKey htaken htaken' hstorage).1.trans (congrArg CacheKey.text hkey)

end Answers

theorem versioned_delete_barrier_writtenThenRead : ∃ m j g, 0 < m ∧
    (writtenThenRead true).Supplies m j (writtenThenRead true).trace.length g 2 ∧
      g.key.text = theKey.text := by
  have hdelete : (writtenThenRead true).tasks[0]? = some (writtenThenRead true).tasks[0] := rfl
  have hread : (writtenThenRead true).tasks[2]? = some (writtenThenRead true).tasks[2] := rfl
  exact versioned_delete_barrier lawful_unaryCodec (alone_of_no_env rfl) rfl rfl rfl hdelete rfl
    hread (by decide) ⟨_, hread, rfl, .inl rfl⟩

end Run

end HybridCache
