/-
The methods of the cache keep to the discipline.

One lemma for each method, with what the acts of a call tell about its result
once it has ended.

* `meets_get` — a value that `get` returns was found under its guard, and a miss
  leaves its mark;
* `meets_set` — a `set` ends with its value written, or with the reason why not;
* `meets_delete`, `meets_deleteByPattern` — the same for invalidations;
* `meets_loadAndStore` — a loaded value is published as its lease allows, and what
  the load returns was looked up, loaded or kept as stale;
* `meets_getOrSet` — a caller that joins a load in flight returns its outcome;
* `meets_onEvent` — a remote `set` that is not ignored replaces the local entry;
* `disciplined` — every act of every run satisfies its `Rule`, and every call that
  has ended its postcondition.
-/
import LazyLayers.HybridDiscipline

open Js Pattern Async Async.Prog

namespace HybridCache

variable {V α β : Type} {cfg : Config V} {w : World (State V) (Act V) (Env V) Query} {c : Call V}
  {l : List (Act V)} {p : P V α}

/-! ### Lookups -/

/-- What a lookup without an await leaves alone. -/
structure Undisturbed (s s' : State V) : Prop where
  closed : s'.closed = s.closed
  saturated : s'.generationTrackingSaturated = s.generationTrackingSaturated
  inflight : s'.inflight = s.inflight
  generations : s'.generations = s.generations

theorem Undisturbed.refl (s : State V) : Undisturbed s s := ⟨rfl, rfl, rfl, rfl⟩

theorem Undisturbed.storageKey {s s' : State V} (h : Undisturbed s s') (key : CacheKey) :
    s'.toStorageKey cfg key = s.toStorageKey cfg key := by
  rw [State.toStorageKey, State.toStorageKey, State.getGeneration, State.getGeneration,
    h.generations]

theorem Undisturbed.safe {s s' : State V} (h : Undisturbed s s') :
    s'.versionedCacheSafe cfg = s.versionedCacheSafe cfg := by
  rw [State.versionedCacheSafe, State.versionedCacheSafe, h.saturated]

/-- A negative entry was found, or there is none at that moment. -/
def NegativeEnd (cfg : Config V) (key : CacheKey) (l l' : List (Act V)) (s' : State V) :
    Bool → Prop
  | true => Since (.negativeHit key ∈ ·) l l'
  | false => s'.negativeLive cfg key = false

theorem wp_hasNegative [Faithful cfg w] {key : CacheKey} {s : State V} :
    wp w (Rule cfg c) (hasNegative cfg key) (fun r l' s' => Extends l l' ∧ Undisturbed s s' ∧
      ∃ b, r = .ok b ∧ NegativeEnd cfg key l l' s' b) l s := by
  rw [hasNegative, wp_getState]
  split
  · rename_i hoff
    refine ⟨.refl l, .refl s, false, rfl, ?_⟩
    simp only [Bool.or_eq_true, Bool.not_eq_true'] at hoff
    rcases hoff with (hoff | hoff) | hoff <;> simp [NegativeEnd, State.negativeLive, hoff]
  rename_i hon
  simp only [Bool.or_eq_true, Bool.not_eq_true', not_or, Bool.not_eq_false] at hon
  split
  · rename_i hnone
    exact ⟨.refl l, .refl s, false, rfl, by simp [NegativeEnd, State.negativeLive, hnone]⟩
  rename_i e he
  split
  · have hstate : w.apply s (.removeNegative key) = s.removeNegative key :=
      apply_of_faithful cfg s _
    refine ⟨trivial, (Extends.refl l).concat (.of_eq rfl), ?_, false, rfl, ?_⟩
    · rw [hstate, State.removeNegative, he]
      exact ⟨rfl, rfl, rfl, rfl⟩
    · rw [NegativeEnd, hstate, State.removeNegative, he]
      simp [State.negativeLive]
  · rename_i hlive
    have hfresh : s.now < e.expiresAt := Nat.lt_of_not_le hlive
    refine ⟨?_, (Extends.refl l).concat (.of_eq rfl), ?_, true, rfl, since_concat (by simp)⟩
    · simp [Rule, State.negativeLive, hon, he, hfresh]
    · rw [apply_of_faithful cfg]
      exact ⟨rfl, rfl, rfl, rfl⟩

theorem meets_hasNegative [Faithful cfg w] {key : CacheKey} :
    Meets cfg w c l (hasNegative cfg key)
      (Returns fun b l' => b = true → Since (.negativeHit key ∈ ·) l l') := by
  intro s
  refine wp_mono ?_ wp_hasNegative
  rintro r l' s' ⟨hext, -, b, rfl, hend⟩
  refine ⟨hext, returns_ok fun hb => ?_⟩
  subst hb
  exact hend

theorem wp_trustedNegative [Faithful cfg w] {key : CacheKey} {s : State V} :
    wp w (Rule cfg c) (trustedNegative cfg key) (fun r l' s' => Extends l l' ∧ Undisturbed s s' ∧
      ∃ b, r = .ok b ∧ NegativeEnd cfg key l l' s' b) l s := by
  rw [trustedNegative, wp_getState]
  split
  · exact wp_hasNegative
  · rename_i hoff
    rw [Bool.not_eq_true] at hoff
    exact ⟨.refl l, .refl s, false, rfl, by simp [NegativeEnd, State.negativeLive, hoff]⟩

theorem meets_getStale {key : CacheKey} :
    Meets cfg w c l (getStale cfg key)
      (Returns fun r l' => ∀ v, r = some v → Since (.staleHit key v ∈ ·) l l') := by
  refine meets_read fun s => ?_
  split
  · exact meets_pure (returns_ok fun _ hv => by cases hv) s
  rename_i hon
  split
  · exact meets_pure (returns_ok fun _ hv => by cases hv) s
  rename_i e he
  split
  · exact wp_perform_then (.of_eq rfl) trivial (.refl l)
      (meets_pure (returns_ok fun _ hv => by cases hv))
  rename_i hlive
  split
  · exact meets_pure (returns_ok fun _ hv => by cases hv) s
  rename_i v hdec
  refine wp_perform_then (.of_eq rfl) ?_ (.refl l) (meets_pure (returns_ok fun v' hv' => ?_))
  · have hfresh : s.now < e.expiresAt := Nat.lt_of_not_le hlive
    rw [Rule, State.staleLive, if_neg hon, he, Option.filter_some, if_pos (by simpa using hfresh)]
    exact hdec
  · cases hv'
    exact since_concat (by simp)

/-! ### Local writes -/

section Installing

variable {o : Origin} {g : MutationGuard} {v : V} {opts : Options} {s : State V}

/-- The value was offered to the map of stale values, if it can be encoded. -/
def Remembered (cfg : Config V) (o : Origin) (g : MutationGuard) (v : V) (opts : Options)
    (reusable : Option Octets) (l : List (Act V)) : Prop :=
  ∀ encoded, reusable.or (cfg.codec.serialize defaultPolicy v) = some encoded →
    .rememberStale o g v encoded opts ∈ l

/-- Bytes that are at hand for the value stand for it. -/
def Reusable (cfg : Config V) (v : V) (bytes : Option Octets) : Prop :=
  ∀ buffer, bytes = some buffer → Stands cfg v buffer

theorem reusable_serialize (policy : Policy) : Reusable cfg v (cfg.codec.serialize policy v) :=
  fun _ hbuffer => .inr ⟨policy, hbuffer⟩

theorem Reusable.or {bytes bytes' : Option Octets} (h : Reusable cfg v bytes)
    (h' : Reusable cfg v bytes') : Reusable cfg v (bytes.or bytes') := by
  intro buffer hbuffer
  cases bytes with
  | none => exact h' buffer (by simpa using hbuffer)
  | some first =>
    obtain rfl : first = buffer := by simpa using hbuffer
    exact h first rfl

theorem wp_rememberStale {reusable : Option Octets} (hobs : Observed l o g)
    (hcur : s.isCurrent cfg g = true)
    (hjust : Justified cfg c l g v o ∨ o = .read ∧ FromL1 cfg l g v)
    (hbytes : Reusable cfg v reusable) :
    wp w (Rule cfg c) (rememberStale cfg o g v opts reusable)
      (fun r l' _ => Extends l l' ∧
        Returns (fun _ l' => Remembered cfg o g v opts reusable l') r l') l s := by
  rw [rememberStale]
  split
  · rename_i encoded henc
    have hstands : Stands cfg v encoded := hbytes.or (reusable_serialize defaultPolicy) encoded henc
    refine ⟨⟨hobs, hcur, hjust, hstands⟩, (Extends.refl l).concat (.of_eq rfl),
      returns_ok fun encoded' henc' => ?_⟩
    rw [henc, Option.some.injEq] at henc'
    subst henc'
    exact List.mem_concat_self ..
  · rename_i hnone
    refine meets_pure (returns_ok fun encoded henc => ?_) s
    rw [hnone] at henc
    cases henc

/-- The L1 was given the value or, where that has no encoding, dropped its entry. -/
def Stored (cfg : Config V) (o : Origin) (g : MutationGuard) (v : V) (opts : Options)
    (encoded : Option Octets) (l : List (Act V)) : Prop :=
  cfg.hasL1 = true → match encoded.or (cfg.codec.serialize cfg.storeCodec v) with
    | some buffer => .insertL1 o g v buffer opts.ttlMs ∈ l
    | none => .deleteL1 o g ∈ l

theorem Stored.grows {encoded : Option Octets} : Grows (Stored cfg o g v opts encoded) := by
  intro u u' hsub h hl1
  have hu := h hl1
  split at hu
  · exact hsub hu
  · exact hsub hu

theorem wp_setL1Only {encoded : Option Octets} (hobs : Observed l o g)
    (hcur : s.isCurrent cfg g = true) (hjust : Justified cfg c l g v o)
    (hbytes : Reusable cfg v encoded) :
    wp w (Rule cfg c) (setL1Only cfg o g v opts encoded)
      (fun r l' _ => Extends l l' ∧
        Returns (fun _ l' => Stored cfg o g v opts encoded l') r l') l s := by
  rw [setL1Only]
  split
  · split
    · rename_i buffer hbuffer
      have hstands : Stands cfg v buffer :=
        hbytes.or (reusable_serialize cfg.storeCodec) buffer hbuffer
      refine ⟨⟨hobs, hcur, hjust, hstands⟩, (Extends.refl l).concat (.of_eq rfl),
        returns_ok fun _ => ?_⟩
      rw [hbuffer]
      exact List.mem_concat_self ..
    · rename_i hnone
      refine ⟨⟨hobs, hcur⟩, (Extends.refl l).concat (.of_eq rfl), returns_ok fun _ => ?_⟩
      rw [hnone]
      exact List.mem_concat_self ..
  · rename_i hno
    exact meets_pure (returns_ok fun hyes => absurd hyes hno) s

/-- The L1 was told about the value, or to drop its entry. -/
def Told (cfg : Config V) (o : Origin) (g : MutationGuard) (l : List (Act V)) : Prop :=
  cfg.hasL1 = true →
    (∃ v buffer ttlMs, .insertL1 o g v buffer ttlMs ∈ l) ∨ .deleteL1 o g ∈ l

theorem Told.grows : Grows (Told cfg o g) := by
  intro u u' hsub h hl1
  refine (h hl1).imp ?_ fun h => hsub h
  rintro ⟨v, buffer, ttlMs, hmem⟩
  exact ⟨v, buffer, ttlMs, hsub hmem⟩

theorem wp_bypass {invalidateOnBypass : Bool} (hobs : Observed l o g)
    (hcur : s.isCurrent cfg g = true) :
    wp w (Rule cfg c) (bypass o g invalidateOnBypass) (fun r l' _ => Extends l l' ∧
      Returns (fun _ l' => invalidateOnBypass = true → Told cfg o g l') r l') l s := by
  rw [bypass]
  split
  · refine wp_perform_then (.of_eq rfl) ⟨hobs, hcur⟩ (.refl l)
      (meets_hop (returns_ok fun _ _ => ?_))
    exact .inr (List.mem_concat_self ..)
  · rename_i hno
    exact meets_pure (returns_ok fun hyes => absurd hyes hno) s

theorem reusable_promotedBytes {reusable : Option (Octets × Option ℕ)}
    (hbytes : Reusable cfg v (reusable.map Prod.fst)) :
    Reusable cfg v (promotedBytes cfg v opts reusable) := by
  rcases reusable with _ | ⟨buffer, life⟩
  · exact reusable_serialize opts.codecL1
  · change Reusable cfg v
      (if opts.codecL1 = opts.codecL2 then some buffer else cfg.codec.serialize opts.codecL1 v)
    split
    · exact hbytes
    · exact reusable_serialize _

theorem wp_promoteToL1 {reusable : Option (Octets × Option ℕ)} {invalidateOnBypass : Bool}
    (hobs : Observed l o g) (hcur : s.isCurrent cfg g = true)
    (hjust : Justified cfg c l g v o) (hbytes : Reusable cfg v (reusable.map Prod.fst)) :
    wp w (Rule cfg c) (promoteToL1 cfg o g v opts reusable invalidateOnBypass)
      (fun r l' _ => Extends l l' ∧
        Returns (fun _ l' => invalidateOnBypass = true → Told cfg o g l') r l') l s := by
  rw [promoteToL1, wp_getState]
  split
  · rename_i hno
    refine meets_pure (returns_ok fun _ hyes => ?_) s
    rw [hyes] at hno
    cases hno
  split
  · exact wp_bypass hobs hcur
  rename_i buffer hbuffer
  split
  · exact wp_bypass hobs hcur
  split
  · exact wp_bypass hobs hcur
  have hstands : Stands cfg v buffer := reusable_promotedBytes hbytes buffer hbuffer
  refine wp_perform_then (.of_eq rfl) ⟨hobs, hcur, hjust, hstands⟩ (.refl l) ?_
  refine meets_ask_bind fun _ => meets_perform_bind (.of_eq rfl) (fun _ => trivial) ?_
  refine meets_hop (returns_ok fun _ _ => ?_)
  exact .inl ⟨_, _, _, List.mem_append_left _ (List.mem_concat_self ..)⟩

end Installing

/-! ### Reads -/

theorem FromL1.grows (g : MutationGuard) (v : V) : Grows fun u => FromL1 cfg u g v := by
  rintro u u' hsub ⟨buffer, hmem, hdec⟩
  exact ⟨buffer, hsub hmem, hdec⟩

theorem Found.grows (g : MutationGuard) (v : V) : Grows fun u => Found cfg u g v :=
  fun _ _ hsub h => h.imp (FromL1.grows g v hsub) (FromL2.grows g v hsub)

theorem LookedUp.grows (key : CacheKey) (v : V) : Grows fun u => LookedUp cfg u key v := by
  rintro u u' hsub ⟨g, hkey, hmem, hfound⟩
  exact ⟨g, hkey, hsub hmem, Found.grows g v hsub hfound⟩

theorem Missed.grows (key : CacheKey) : Grows fun u => Missed cfg u key := by
  rintro u u' hsub (⟨g, hit, hmem, hrest⟩ | ⟨g, hmem, hkey⟩ | hmem | hmem)
  · exact .inl ⟨g, hit, hsub hmem, hrest⟩
  · exact .inr (.inl ⟨g, hsub hmem, hkey⟩)
  · exact .inr (.inr (.inl (hsub hmem)))
  · exact .inr (.inr (.inr (hsub hmem)))

/-- How a lookup of the key may end. -/
def ReadEnd (cfg : Config V) (g : MutationGuard) (u : List (Act V)) : Option V → Prop
  | some v => Found cfg u g v
  | none => Missed cfg u g.key

theorem ReadEnd.grows (g : MutationGuard) (r : Option V) : Grows fun u => ReadEnd cfg g u r := by
  cases r with
  | some v => exact Found.grows g v
  | none => exact Missed.grows g.key

theorem wp_readL1 {g : MutationGuard} {s : State V} (hobs : Observed l .read g)
    (hopen : s.closed = false) (hsafe : s.versionedCacheSafe cfg = true)
    (hneg : s.negativeLive cfg g.key = false) (hkey : g.storageKey = s.toStorageKey cfg g.key) :
    wp w (Rule cfg c) (readL1 cfg g) (fun r l' _ => Extends l l' ∧
      Returns (fun r l' => Since (fun u => ReadEnd cfg g u r) l l') r l') l s := by
  rw [readL1, wp_getState]
  split
  · rename_i hoff
    simp only [Bool.or_eq_true, Bool.not_eq_true'] at hoff
    refine wp_perform_then (.of_eq rfl) hoff (.refl l) (meets_pure (returns_ok (since_concat ?_)))
    exact .inr (.inl ⟨g, by simp, rfl⟩)
  rename_i htrusted
  simp only [Bool.or_eq_true, Bool.not_eq_true', not_or, Bool.not_eq_false] at htrusted
  refine wp_perform_then (.of_eq rfl) ⟨hobs, ⟨hopen, htrusted.1, hsafe⟩, hneg, hkey, rfl⟩ (.refl l)
    (meets_ask_bind fun _ => meets_read fun s' => ?_)
  -- a hit that does not decode counts as a miss
  have hmiss : ∀ hit : Option Octets, hit.bind cfg.codec.decode = none →
      Since (fun u => ReadEnd cfg g u none) l (l ++ [Act.readL1 g hit]) :=
    fun hit hhit => since_concat (.inl ⟨g, hit, by simp, rfl, hhit⟩)
  split
  · rename_i hhit
    rw [hhit]
    refine meets_pure (returns_ok ?_) s'
    exact hmiss none rfl
  rename_i buffer hhit
  rw [hhit]
  have hext : Extends l (l ++ [Act.readL1 g (some buffer)]) := (Extends.refl l).concat (.of_eq rfl)
  split
  · rename_i hdec
    have hnone := hmiss (some buffer) hdec
    split
    · rename_i hcur
      rw [Bool.and_eq_true] at hcur
      refine wp_perform_then (.of_eq rfl) ⟨hobs.mono hext.subset, hcur.1⟩ (.refl _)
        (meets_ask_bind fun _ => meets_pure (returns_ok ?_))
      exact hnone.mono (ReadEnd.grows g none) ((Extends.refl _).concat (.of_eq rfl))
    · refine meets_pure (returns_ok ?_) s'
      exact hnone
  rename_i v hdec
  have hfrom : Since (fun u => FromL1 cfg u g v) l (l ++ [Act.readL1 g (some buffer)]) :=
    since_concat ⟨buffer, by simp, hdec⟩
  split
  · rename_i hcur
    rw [Bool.and_eq_true] at hcur
    have hbytes : Reusable cfg v (some buffer) := by
      intro buffer' hbuffer'
      cases hbuffer'
      exact .inl hdec
    refine wp_next (wp_rememberStale (hobs.mono hext.subset) hcur.1
      (.inr ⟨rfl, hfrom.all (FromL1.grows g v)⟩) hbytes) (.refl _)
      fun _ l' hext' _ => meets_pure (returns_ok ?_)
    exact (hfrom.mono (FromL1.grows g v) hext').imp fun u hu => .inl hu
  · refine meets_pure (returns_ok ?_) s'
    exact hfrom.imp fun u hu => .inl hu

theorem L2Hit.Sound.reusable {hit : L2Hit V} (h : hit.Sound cfg) :
    Reusable cfg hit.value (hit.reusable.map Prod.fst) := by
  intro buffer hbuffer
  obtain ⟨⟨buffer', life⟩, hreusable, rfl⟩ := Option.map_eq_some_iff.mp hbuffer
  exact .inl (h buffer' life hreusable)

theorem L2Hit.Sound.agedBy {hit : L2Hit V} (h : hit.Sound cfg) (started now : ℕ) :
    Reusable cfg hit.value ((hit.agedBy started now).map Prod.fst) := by
  have hsame : (hit.agedBy started now).map Prod.fst = hit.reusable.map Prod.fst := by
    rw [L2Hit.agedBy, Option.map_map]
    rfl
  rw [hsame]
  exact h.reusable

theorem meets_promoteHit {g : MutationGuard} {started : ℕ} {hit : L2Hit V}
    (hobs : Observed l .read g) (hfrom : FromL2 cfg l g hit.value) (hsound : hit.Sound cfg) :
    Meets cfg w c l (promoteHit cfg g started hit) (Returns fun r _ => r = some hit.value) := by
  refine meets_read fun s => ?_
  split
  · exact ⟨.refl l, returns_ok rfl⟩
  rename_i hcur
  simp only [Bool.or_eq_true, Bool.not_eq_true', not_or, Bool.not_eq_false] at hcur
  refine wp_next (wp_later (wp_promoteToL1 hobs hcur.2 hfrom (hsound.agedBy started s.now)))
    (.refl l) fun _ l' hext _ => meets_read fun s' => ?_
  split
  · exact wp_perform_then (.of_eq rfl) nofun (.refl l')
      (meets_ask_bind fun _ => meets_pure (returns_ok rfl))
  rename_i hcur'
  simp only [Bool.or_eq_true, Bool.not_eq_true', not_or, Bool.not_eq_false] at hcur'
  have hfrom' : FromL2 cfg l' g hit.value := FromL2.grows g _ hext.subset hfrom
  exact wp_next (wp_rememberStale (hobs.mono hext.subset) hcur'.2 (.inl hfrom')
    hsound.reusable) (.refl l') fun _ l'' _ _ => meets_pure (returns_ok rfl)

theorem wp_readValue [Faithful cfg w] {g : MutationGuard} {s : State V}
    (hobs : Observed l .read g) (hopen : s.closed = false)
    (hsafe : s.versionedCacheSafe cfg = true) (hkey : g.storageKey = s.toStorageKey cfg g.key) :
    wp w (Rule cfg c) (readValue cfg g) (fun r l' _ => Extends l l' ∧
      Returns (fun r l' => Since (fun u => ReadEnd cfg g u r) l l') r l') l s := by
  refine wp_bind wp_trustedNegative ?_ (fun e l₁ s₁ ⟨_, _, b, hb, _⟩ => by cases hb)
  rintro negative l₁ s₁ ⟨h₁, hsame, b, hb, hneg⟩
  cases hb
  split
  · rename_i htrue
    subst htrue
    refine ⟨h₁, returns_ok ?_⟩
    exact Since.imp (fun u hu => .inr (.inr (.inr hu))) hneg
  have hopen₁ : s₁.closed = false := hsame.closed.trans hopen
  have hsafe₁ : s₁.versionedCacheSafe cfg = true := hsame.safe.trans hsafe
  have hneg₁ : s₁.negativeLive cfg g.key = false := by
    cases negative with
    | true => exact absurd rfl ‹¬ true = true›
    | false => exact hneg
  have hkey₁ : g.storageKey = s₁.toStorageKey cfg g.key := hkey.trans (hsame.storageKey g.key).symm
  refine wp_next (wp_readL1 (hobs.mono h₁.subset) hopen₁ hsafe₁ hneg₁ hkey₁) h₁
    fun local' l₂ h₂ hlocal => ?_
  have hback : Since (fun u => ReadEnd cfg g u local') l l₂ :=
    hlocal.of_extends (ReadEnd.grows g local') h₁
  split
  · exact meets_pure (returns_ok hback)
  have hobs₂ := (hobs.mono h₁.subset).mono h₂.subset
  refine meets_read fun s => ?_
  refine (Meets.next (meets_readL2 hobs₂ nofun).later fun hit l₃ h₃ hhit => ?_) s
  split
  · exact meets_pure (returns_ok (hback.mono (ReadEnd.grows g none) h₃))
  rename_i hit
  obtain ⟨hfrom, hsound⟩ := hhit hit rfl
  refine (meets_promoteHit (hobs₂.mono h₃.subset) (hfrom.all (FromL2.grows g _)) hsound).mono ?_
  rintro r l' hext ⟨v, rfl, rfl⟩
  refine returns_ok ?_
  have hall : Since (fun u => FromL2 cfg u g hit.value) l l' :=
    (hfrom.mono (FromL2.grows g _) hext).of_extends (FromL2.grows g _) (h₁.trans h₂)
  exact hall.imp fun u hu => .inr hu

/-- `ensureOpen` lets only an open cache through. -/
theorem wp_ensureOpen {f : Unit → P V α} {s : State V}
    {post : Except Err α → List (Act V) → State V → Prop} (herr : post (.error .cacheClosed) l s)
    (hok : s.closed = false → wp w (Rule cfg c) (f ()) post l s) :
    wp w (Rule cfg c) (ensureOpen >>= f) post l s := by
  refine wp_bind (M := fun r l' s' => (r = .error .cacheClosed ∨ r = .ok () ∧ s.closed = false) ∧
    l' = l ∧ s' = s) ?_ ?_ ?_
  · rw [ensureOpen, wp_getState]
    split
    · exact ⟨.inl rfl, rfl, rfl⟩
    · rename_i hopen
      exact ⟨.inr ⟨rfl, by simpa using hopen⟩, rfl, rfl⟩
  · rintro a l' s' ⟨hr, rfl, rfl⟩
    rcases hr with hr | ⟨-, hopen⟩
    · cases hr
    · exact hok hopen
  · rintro e l' s' ⟨hr, rfl, rfl⟩
    rcases hr with hr | ⟨hr, -⟩
    · cases hr
      exact herr
    · cases hr

/-- How `get` may end. -/
def GetEnd (cfg : Config V) (key : CacheKey) (u : List (Act V)) : Option V → Prop
  | some v => LookedUp cfg u key v
  | none => Missed cfg u key

theorem GetEnd.grows (key : CacheKey) (r : Option V) : Grows fun u => GetEnd cfg key u r := by
  cases r with
  | some v => exact LookedUp.grows key v
  | none => exact Missed.grows key

/-- To observe a key says nothing about the cache as a whole. -/
theorem undisturbed_observeKey (s : State V) (key : CacheKey) (mutate : Bool) :
    Undisturbed s (s.observeKey key mutate) := by
  rw [State.observeKey]
  dsimp only
  split
  · exact ⟨rfl, rfl, rfl, rfl⟩
  · split <;> exact ⟨rfl, rfl, rfl, rfl⟩

/-- What `get` returns was found under a guard that it took for the key. -/
theorem meets_get [Faithful cfg w] {key : CacheKey} :
    Meets cfg w c l (get cfg key) fun r l' => ∀ a, r = .ok a →
      Since (fun u => GetEnd cfg key u a) l l' := by
  intro s
  refine wp_ensureOpen ⟨.refl l, nofun⟩ fun hopen => ?_
  rw [wp_getState]
  split
  · rename_i hunsafe
    rw [Bool.not_eq_true'] at hunsafe
    refine wp_perform_then (.of_eq rfl) hunsafe (.refl l) (meets_pure fun a ha => ?_)
    cases ha
    exact since_concat (.inr (.inr (.inl (by simp))))
  rename_i hsafe
  rw [Bool.not_eq_true', Bool.not_eq_false] at hsafe
  have hobs : Observed (l ++ [Act.observeKey .read (s.guardFor cfg key false) false]) .read
      (s.guardFor cfg key false) := ⟨false, List.mem_concat_self ..⟩
  have hcore : (w.apply s (.observeKey .read (s.guardFor cfg key false) false)) =
      s.observeKey key false := apply_of_faithful cfg s _
  have hsame := undisturbed_observeKey s key false
  have hkey : (s.guardFor cfg key false).storageKey = (s.observeKey key false).toStorageKey cfg key :=
    (hsame.storageKey key).symm
  have hread := wp_later (wp_readValue (w := w) (c := c) hobs (hsame.closed.trans hopen)
    (hsame.safe.trans hsafe) hkey)
  rw [← hcore] at hread
  refine wp_guarded (g := s.guardFor cfg key false)
    ⟨trivial, rfl, fun _ => hopen, fun _ => hsafe⟩ (fun _ => rfl) rfl (.refl l) hread ?_
  rintro r l' - ⟨a, rfl, hend⟩ b hb
  cases hb
  obtain ⟨u, rfl, hu⟩ := hend
  refine ⟨.observeKey .read (s.guardFor cfg key false) false :: u ++
    [.releaseKey (s.guardFor cfg key false)], by simp, ?_⟩
  have hsub : u ⊆ .observeKey .read (s.guardFor cfg key false) false :: u ++
      [.releaseKey (s.guardFor cfg key false)] :=
    fun x hx => by simp [hx]
  cases a with
  | some v => exact ⟨s.guardFor cfg key false, rfl, by simp, Found.grows _ v hsub hu⟩
  | none => exact Missed.grows key hsub hu

theorem meets_ensureOpen : Meets cfg w c l ensureOpen fun _ _ => True := by
  refine meets_read fun s => ?_
  split
  · exact meets_throw trivial s
  · exact meets_pure trivial s

/-- The question to the shared tier. -/
theorem meets_has_l2 [Faithful cfg w] (l : List (Act V)) (storageKey : CacheKey) :
    Meets cfg w c l (do
      let reply ← runL2 cfg storageKey.text 0 (command none (.has storageKey))
      match reply with
      | some (.flag b) => pure b
      | _ => pure false) fun _ _ => True := by
  have hdisp : ∀ l', Extends l l' → ∀ s, MayDispatch cfg c l' s none (.has storageKey) :=
    fun _ _ _ => trivial
  refine (meets_runL2_command hdisp).next fun reply l' _ _ => ?_
  split
  · exact meets_pure trivial
  · exact meets_pure trivial

theorem meets_has [Faithful cfg w] {key : CacheKey} :
    Meets cfg w c l (has cfg key) fun _ _ => True := by
  intro s
  refine wp_ensureOpen ⟨.refl l, trivial⟩ fun hopen => ?_
  rw [wp_getState]
  split
  · rename_i hunsafe
    rw [Bool.not_eq_true'] at hunsafe
    exact wp_perform_then (.of_eq rfl) hunsafe (.refl l) (meets_pure trivial)
  rename_i hsafe
  rw [Bool.not_eq_true', Bool.not_eq_false] at hsafe
  refine wp_bind wp_hasNegative ?_ (fun e l₁ s₁ ⟨h₁, _⟩ => ⟨h₁, trivial⟩)
  rintro negative l₁ s₁ ⟨h₁, hsame, -⟩
  split
  · exact ⟨h₁, trivial⟩
  rw [wp_getState]
  split
  · rename_i htrusted
    rw [Bool.and_eq_true] at htrusted
    have hanswers : s₁.Answers cfg :=
      ⟨hsame.closed.trans hopen, htrusted.1, hsame.safe.trans hsafe⟩
    refine wp_perform_then (.of_eq rfl) ⟨hanswers, rfl⟩ h₁ (meets_ask_bind fun _ => ?_)
    split
    · exact meets_pure trivial
    · exact meets_has_l2 _ _
  · exact (meets_has_l2 _ _).at h₁ s₁

/-! ### Writes -/

section Writing

variable {o : Origin} {g : MutationGuard} {v : V} {opts : Options}

/-- The call of a `set` still holds the reference it took. -/
def Holds (o : Origin) (g : MutationGuard) (l : List (Act V)) : Prop :=
  o = .write → 0 < balance l (.revision g.cell)

theorem Holds.mono {l' : List (Act V)} (h : Holds o g l) (hext : Extends l l') : Holds o g l' := by
  intro ho
  rw [hext.balance_eq]
  exact h ho

/-- The write to the shared tier returned. -/
def Written (cfg : Config V) (g : MutationGuard) (v : V) (opts : Options) (l : List (Act V)) :
    Prop :=
  ∃ reply, .returned (some g)
    (.set g.storageKey (recordOf v (encodeL2 cfg v opts)) opts.l2TtlMs) reply ∈ l

theorem Written.grows : Grows (Written cfg g v opts) := by
  rintro u u' hsub ⟨reply, hmem⟩
  exact ⟨reply, hsub hmem⟩

theorem recordOf_holds : (recordOf v (encodeL2 cfg v opts)).Holds cfg v := by
  rcases hbuffer : encodeL2 cfg v opts with _ | buffer
  · rfl
  · rw [encodeL2] at hbuffer
    split at hbuffer
    · exact ⟨opts.codecL2, hbuffer⟩
    · cases hbuffer

theorem meets_writeL2 (hmay : MayWrite cfg c l g v) (hheld : Holds o g l) :
    Meets cfg w c l (writeL2 cfg o g v opts)
      (Returns fun r l' => ∀ u, r = .ok u → .skip o g ∈ l' ∨ Written cfg g v opts l') := by
  refine meets_read fun s => ?_
  split
  · rename_i hobsolete
    rw [Bool.not_eq_true'] at hobsolete
    exact wp_perform_then (.of_eq rfl) ⟨.inl hobsolete, hheld⟩ (.refl l)
      (meets_ask_bind fun _ => meets_pure (returns_ok fun _ _ => .inl (List.mem_concat_self ..)))
  rename_i hcur
  rw [Bool.not_eq_true', Bool.not_eq_false] at hcur
  refine wp_next (wp_command ⟨rfl, hcur, v, recordOf_holds, hmay⟩) (.refl l)
    fun r l' _ hr => ?_
  refine meets_pure (returns_ok fun u hu => ?_)
  cases r with
  | ok reply => exact .inr ⟨reply, (hr reply rfl).all (grows_mem _)⟩
  | error failure => cases hu

/-- How a write may end. -/
def WriteEnd (cfg : Config V) (o : Origin) (g : MutationGuard) (v : V) (opts : Options)
    (l : List (Act V)) : Prop :=
  .skip o g ∈ l ∨ .discardObsoleteL1 o g ∈ l ∨
    Stored cfg o g v opts (encodeL1 cfg v opts) l ∧
      (cfg.l2.isSome = true → Marked l ∨ Written cfg g v opts l) ∧
      Remembered cfg o g v opts ((encodeL1 cfg v opts).or (encodeL2 cfg v opts)) l

theorem WriteEnd.grows : Grows (WriteEnd cfg o g v opts) := by
  rintro u u' hsub (h | h | ⟨hstored, hl2, hrem⟩)
  · exact .inl (hsub h)
  · exact .inr (.inl (hsub h))
  · refine .inr (.inr ⟨Stored.grows hsub hstored, fun hsome => (hl2 hsome).imp ?_ ?_, ?_⟩)
    · exact fun h => h.mono hsub
    · exact fun h => Written.grows hsub h
    · exact fun encoded henc => hsub (hrem encoded henc)

theorem MayWrite.mono {l' : List (Act V)} (h : MayWrite cfg c l g v) (hsub : l ⊆ l') :
    MayWrite cfg c l' g v :=
  h.imp (fun h => ⟨h.1.mono hsub, h.2⟩) fun h => ⟨h.1.mono hsub, h.2.1, hsub h.2.2⟩

theorem Published.mono {l' : List (Act V)} {key : CacheKey} (h : Published cfg l key v)
    (hsub : l ⊆ l') : Published cfg l' key v := by
  obtain ⟨g, token, policy, buffer, ttlMs, hser, hmem⟩ := h
  exact ⟨g, token, policy, buffer, ttlMs, hser, hsub hmem⟩

theorem Justified.mono {l' : List (Act V)} (h : Justified cfg c l g v o) (hsub : l ⊆ l') :
    Justified cfg c l' g v o := by
  cases o with
  | write => exact h
  | fill => exact ⟨hsub h.1, fun hc => (h.2 hc).mono hsub⟩
  | read => exact FromL2.grows g v hsub h
  | remote => exact fun hl2 => FromL2.grows g v hsub (h hl2)

/-- The check after an await of a write: give up, or go on. -/
theorem meets_ifCurrent {p : P V Bool} (hheld : Holds o g l)
    (hp : ∀ s, s.isCurrent cfg g = true → wp w (Rule cfg c) p (fun r l' _ => Extends l l' ∧
      Returns (fun _ l' => WriteEnd cfg o g v opts l') r l') l s) :
    Meets cfg w c l (do
      let s ← getState
      if !s.isCurrent cfg g then do
        perform (.discardObsoleteL1 o g)
        hop
        pure false
      else p) (Returns fun _ l' => WriteEnd cfg o g v opts l') := by
  refine meets_read fun s => ?_
  split
  · rename_i hobsolete
    rw [Bool.not_eq_true'] at hobsolete
    refine wp_perform_then (.of_eq rfl) (fun ho => ⟨hobsolete, hheld ho⟩) (.refl l)
      (meets_ask_bind fun _ => meets_pure (returns_ok ?_))
    exact .inr (.inl (List.mem_concat_self ..))
  · rename_i hcur
    rw [Bool.not_eq_true', Bool.not_eq_false] at hcur
    exact hp s hcur

theorem reusable_encodeL2 : Reusable cfg v (encodeL2 cfg v opts) := by
  rw [encodeL2]
  split
  · exact reusable_serialize _
  · exact nofun

theorem meets_writeValue (hobs : Observed l o g) (hmay : MayWrite cfg c l g v)
    (hheld : Holds o g l) (hjust : Justified cfg c l g v o) :
    Meets cfg w c l (writeValue cfg o g v opts)
      (Returns fun _ l' => WriteEnd cfg o g v opts l') := by
  refine meets_read fun s => ?_
  split
  · rename_i hobsolete
    rw [Bool.not_eq_true'] at hobsolete
    exact wp_perform_then (.of_eq rfl) ⟨.inl hobsolete, hheld⟩ (.refl l)
      (meets_pure (returns_ok (.inl (List.mem_concat_self ..))))
  rename_i hcur
  rw [Bool.not_eq_true', Bool.not_eq_false] at hcur
  refine wp_next (wp_later (wp_setL1Only hobs hcur hjust (reusable_serialize opts.codecL1)))
    (.refl l) fun _ l₁ h₁ hstored => ?_
  refine meets_ifCurrent (hheld.mono h₁) fun s₁ _ => ?_
  -- the write to the shared tier
  have hl2 : Meets cfg w c l₁ (runL2 cfg g.storageKey.text
      (((encodeL2 cfg v opts).map List.length).getD 0) (writeL2 cfg o g v opts))
      (Returns (Outcome cfg fun _ l' => .skip o g ∈ l' ∨ Written cfg g v opts l')) :=
    meets_runL2 (fun l' hext => meets_writeL2 ((hmay.mono h₁.subset).mono hext.subset)
        ((hheld.mono h₁).mono hext))
      fun _ _ _ hext => Or.imp (fun h => hext.subset h) fun h => Written.grows hext.subset h
  refine wp_next (wp_later (hl2 s₁)) (.refl l₁) fun r l₂ h₂ hr => ?_
  refine meets_ifCurrent (hheld.mono (h₁.trans h₂)) fun s₂ hcur₂ => ?_
  have h₁₂ := (h₁.trans h₂).subset
  have hbytes : Reusable cfg v ((encodeL1 cfg v opts).or (encodeL2 cfg v opts)) :=
    (reusable_serialize opts.codecL1).or reusable_encodeL2
  refine wp_next (wp_rememberStale (hobs.mono h₁₂) hcur₂ (.inl (hjust.mono h₁₂)) hbytes) (.refl l₂)
    fun _ l₃ h₃ hrem => meets_perform_bind (.of_eq rfl) (fun _ => trivial)
      (meets_pure (returns_ok ?_))
  refine WriteEnd.grows (List.subset_append_left ..) ?_
  have hstored₃ := Stored.grows (h₂.trans h₃).subset hstored
  cases r with
  | none =>
    exact .inr (.inr ⟨hstored₃, fun hsome => .inl ((hr hsome).mono h₃.subset), hrem⟩)
  | some u =>
    rcases hr with hskip | hwritten
    · exact .inl (h₃.subset hskip)
    · exact .inr (.inr ⟨hstored₃, fun _ => .inr (Written.grows h₃.subset hwritten), hrem⟩)

theorem meets_set {key : CacheKey} (hc : c = .set key v opts)
    (hfree : ∀ x, 0 ≤ balance l x) :
    Meets cfg w c l (set cfg key v opts) fun r l' => r = .ok () →
      ∃ g, g.key = key ∧ .observeKey .write g true ∈ l' ∧ WriteEnd cfg .write g v opts l' := by
  intro s
  refine wp_ensureOpen ⟨.refl l, nofun⟩ fun hopen => ?_
  rw [validateCacheBudgets]
  split
  · exact ⟨.refl l, nofun⟩
  have hmem : Act.observeKey .write (s.guardFor cfg key true) true ∈
      l ++ [Act.observeKey .write (s.guardFor cfg key true) true] := List.mem_concat_self ..
  have hrule : Rule cfg c l s (.observeKey .write (s.guardFor cfg key true) true) := by
    rw [hc]
    exact ⟨trivial, rfl, fun _ => hopen, nofun⟩
  have hjust : Justified cfg c (l ++ [Act.observeKey .write (s.guardFor cfg key true) true])
      (s.guardFor cfg key true) v .write := ⟨opts, hc⟩
  have hheld : Holds .write (s.guardFor cfg key true)
      (l ++ [Act.observeKey .write (s.guardFor cfg key true) true]) := by
    intro _
    have hone : Act.delta (.revision (s.guardFor cfg key true).cell)
        (Act.observeKey (V := V) .write (s.guardFor cfg key true) true) = 1 := if_pos rfl
    have hzero := hfree (.revision (s.guardFor cfg key true).cell)
    rw [balance_concat, hone]
    omega
  refine wp_guarded (g := s.guardFor cfg key true) (Q := fun _ l' =>
    WriteEnd cfg .write (s.guardFor cfg key true) v opts l') hrule (fun _ => rfl) rfl (.refl l)
    (Meets.next (meets_writeValue ⟨true, hmem⟩ (.inl ⟨⟨true, hmem⟩, opts, hc⟩) hheld
      hjust).later ?_ _) ?_
  · exact fun _ l' _ hend => meets_pure hend
  · intro r l' hext hend _
    have hsub := List.subset_append_left l' [Act.releaseKey (s.guardFor cfg key true)]
    exact ⟨_, rfl, hsub (hext.subset hmem), WriteEnd.grows hsub hend⟩

end Writing

/-! ### Invalidation -/

theorem meets_publishInvalidation {event : InvalidationEvent V}
    (hset : ∀ keys keyTypes v ttlMs generation, event.body = .set keys keyTypes v ttlMs generation →
      c.coordinated cfg = true → Announces cfg l keys v) :
    Meets cfg w c l (publishInvalidation cfg event) (Returns fun _ _ => True) := by
  refine meets_read fun s => ?_
  split
  · exact meets_pure (returns_ok trivial) s
  rename_i hopen
  simp only [Bool.or_eq_true, not_or, Bool.not_eq_true] at hopen
  refine wp_perform_then (.of_eq rfl) ⟨hopen.1.1, ?_⟩ (.refl l) (meets_hop (returns_ok trivial))
  cases hbody : event.body with
  | set keys keyTypes v ttlMs generation => exact hset _ _ _ _ _ hbody
  | _ => trivial

/-- How the deletion of a key in the shared tier may end. -/
def DeleteEnd (cfg : Config V) (g : MutationGuard) (l : List (Act V)) : Prop :=
  .skipDelete g ∈ l ∨ (cfg.l2.isSome = true → Marked l) ∨
    ∃ reply, .returned (some g) (.delete g.storageKey) reply ∈ l

theorem meets_deleteL2 {g : MutationGuard} {generation : Option ℕ}
    (hinv : .invalidateKey g generation ∈ l) :
    Meets cfg w c l (deleteL2 cfg g) (Returns fun r l' => ∀ u, r = .ok u → DeleteEnd cfg g l') := by
  refine meets_read fun s => ?_
  split
  · rename_i hmust
    refine wp_next (wp_command ⟨rfl, hmust, generation, hinv⟩) (.refl l) fun r l' _ hr => ?_
    refine meets_pure (returns_ok fun u hu => ?_)
    cases r with
    | ok reply => exact .inr (.inr ⟨reply, (hr reply rfl).all (grows_mem _)⟩)
    | error failure => cases hu
  · rename_i hskip
    rw [Bool.not_eq_true] at hskip
    exact wp_perform_then (.of_eq rfl) hskip (.refl l) (meets_ask_bind fun _ =>
      meets_pure (returns_ok fun _ _ => .inl (List.mem_concat_self ..)))

theorem DeleteEnd.mono {l' : List (Act V)} {g : MutationGuard} (h : DeleteEnd cfg g l)
    (hsub : l ⊆ l') : DeleteEnd cfg g l' :=
  h.imp (fun h => hsub h)
    (Or.imp (fun h hl2 => (h hl2).mono hsub) fun ⟨reply, h⟩ => ⟨reply, hsub h⟩)

theorem meets_deleteLocal {shared : Bool} {key : CacheKey} {generation : Option ℕ} :
    Meets cfg w c l (deleteLocal cfg shared key generation) (Returns fun _ l' =>
      ∃ g, g.key = key ∧ .invalidateKey g generation ∈ l' ∧
        (shared = true → DeleteEnd cfg g l')) := by
  refine meets_read fun s => ?_
  have hmem : Act.invalidateKey (s.guardFor cfg key true) generation ∈
      l ++ [Act.invalidateKey (s.guardFor cfg key true) generation] := List.mem_concat_self ..
  refine wp_guarded (g := s.guardFor cfg key true) (Q := Returns fun _ l' =>
    shared = true → DeleteEnd cfg (s.guardFor cfg key true) l') rfl (fun _ => rfl) rfl (.refl l)
    (meets_ask_bind (fun _ => ?_) _) ?_
  · split
    · refine Meets.next (meets_runL2 (fun l' hext => meets_deleteL2 (hext.subset hmem))
        fun _ _ _ hext h => h.mono hext.subset).later fun r l' _ hr => ?_
      refine meets_pure (returns_ok fun _ => ?_)
      cases r with
      | none => exact .inr (.inl hr)
      | some u => exact hr
    · rename_i hno
      exact meets_pure (returns_ok fun hyes => absurd hyes hno)
  · rintro r l' hext ⟨u, rfl, hend⟩
    have hsub := List.subset_append_left l' [Act.releaseKey (s.guardFor cfg key true)]
    exact returns_ok ⟨_, rfl, hsub (hext.subset hmem), fun hyes => (hend hyes).mono hsub⟩

theorem meets_delete {key : CacheKey} :
    Meets cfg w c l (delete cfg key) fun r l' => r = .ok () →
      ∃ g, g.key = key ∧ .invalidateKey g none ∈ l' ∧ DeleteEnd cfg g l' := by
  refine meets_ensureOpen.bind (fun _ l₁ _ _ => ?_) (fun _ _ _ _ => nofun)
  refine Meets.next meets_deleteLocal.later fun _ l₂ _ hdel => meets_read fun s => ?_
  obtain ⟨g, hkey, hinv, hend⟩ := hdel
  refine (Meets.later (meets_publishInvalidation nofun)).mono ?_ s
  rintro r l₃ h₃ - -
  exact ⟨g, hkey, h₃.subset hinv, (hend rfl).mono h₃.subset⟩

theorem meets_deleteScanned {pattern : JsString} {found : List CacheKey} {keys : List CacheKey}
    (hpat : .dispatchPattern pattern found ∈ l)
    (hkeys : ∀ key ∈ keys, matchesPattern key.text pattern = true) :
    Meets cfg w c l (deleteScanned keys) (Returns fun r l' => ∀ u, r = .ok u →
      ∀ key ∈ keys, .execute none (.delete key) .done ∈ l') := by
  have hsend : ∀ (l' : List (Act V)) (rest : List CacheKey), l ⊆ l' → rest ⊆ keys →
      ∀ key ∈ rest, Sendable l' none (.delete key) := by
    intro l' rest hsub hrest key hkey
    exact .inr ⟨rfl, key, pattern, found, rfl, hsub hpat, hkeys key (hrest hkey)⟩
  clear hkeys
  induction keys generalizing l with
  | nil => exact meets_pure (returns_ok fun _ _ => nofun)
  | cons key keys ih =>
    refine meets_ask_bind fun sent => ?_
    have hnow := hsend l _ (List.Subset.refl l) (List.Subset.refl _)
    cases sent with
    | executed =>
      refine meets_perform_bind (.of_eq rfl) (fun s => ⟨rfl, hnow key List.mem_cons_self⟩) ?_
      have hsub := List.subset_append_left l [Act.execute none (.delete key) .done]
      refine (ih (hsub hpat) fun l' rest hl' hrest => hsend l' rest (List.Subset.trans hsub hl')
        (List.Subset.trans hrest (List.subset_cons_self ..))).mono ?_
      rintro r l' hext ⟨a, rfl, ha⟩
      refine returns_ok fun u hu key' hkey' => ?_
      rcases List.mem_cons.mp hkey' with rfl | hkey'
      · exact hext.subset (List.mem_concat_self ..)
      · exact ha u hu key' hkey'
    | failed => exact meets_pure (returns_ok nofun)
    | timedOut =>
      refine meets_perform_bind (.of_eq rfl) (fun _ => ?_) (meets_pure (returns_ok nofun))
      intro op hop
      obtain ⟨key', hkey', rfl⟩ := List.mem_map.mp hop
      exact ⟨none, hnow key' hkey'⟩

/-- Every key that the scan had to find was deleted. -/
def Scanned (pattern : JsString) (l : List (Act V)) : Prop :=
  ∃ keys, .dispatchPattern pattern keys ∈ l ∧ ∀ key ∈ keys, .execute none (.delete key) .done ∈ l

theorem Scanned.mono {pattern : JsString} {l' : List (Act V)} (h : Scanned pattern l)
    (hsub : l ⊆ l') : Scanned pattern l' := by
  obtain ⟨keys, hdisp, hexec⟩ := h
  exact ⟨keys, hsub hdisp, fun key hkey => hsub (hexec key hkey)⟩

theorem meets_deleteByPatternL2 {pattern : JsString} (hlocal : .deleteByPatternLocal pattern ∈ l) :
    Meets cfg w c l (deleteByPatternL2 pattern)
      (Returns fun r l' => ∀ u, r = .ok u → Scanned pattern l') := by
  refine meets_read fun s => ?_
  refine wp_perform_then (.of_eq rfl) ⟨hlocal, rfl⟩ (.refl l) (meets_ask_bind fun scanned => ?_)
  split
  · exact meets_pure (returns_ok nofun)
  refine (meets_deleteScanned (List.mem_concat_self ..) ?_).mono ?_
  · intro key hkey
    rcases List.mem_append.mp hkey with hkey | hkey
    · exact (List.mem_filter.mp hkey).2
    · obtain ⟨text, htext, rfl⟩ := List.mem_map.mp hkey
      exact (List.mem_filter.mp htext).2
  · rintro r l' hext ⟨a, rfl, ha⟩
    refine returns_ok fun u hu => ⟨_, hext.subset (List.mem_concat_self ..), fun key hkey => ?_⟩
    exact ha u hu key (List.mem_append_right _ hkey)

theorem meets_deleteByPatternLocal {shared : Bool} {pattern : JsString} :
    Meets cfg w c l (deleteByPatternLocal cfg shared pattern) (Returns fun _ l' =>
      .deleteByPatternLocal pattern ∈ l' ∧
        (shared = true → (cfg.l2.isSome = true → Marked l') ∨ Scanned pattern l')) := by
  refine meets_perform_bind (.of_eq rfl) (fun _ => trivial) (meets_ask_bind fun _ => ?_)
  have hmem : Act.deleteByPatternLocal pattern ∈ l ++ [Act.deleteByPatternLocal pattern] :=
    List.mem_concat_self ..
  split
  · refine Meets.next (meets_runL2 (fun l' hext => meets_deleteByPatternL2 (hext.subset hmem))
      fun _ _ _ hext h => h.mono hext.subset).later fun r l' hext hr => ?_
    refine meets_pure (returns_ok ⟨hext.subset hmem, fun _ => ?_⟩)
    cases r with
    | none => exact .inl hr
    | some u => exact .inr hr
  · rename_i hno
    exact meets_pure (returns_ok ⟨hmem, fun hyes => absurd hyes hno⟩)

theorem meets_deleteByPattern {pattern : JsString} :
    Meets cfg w c l (deleteByPattern cfg pattern) fun r l' => r = .ok () →
      .deleteByPatternLocal pattern ∈ l' ∧
        ((cfg.l2.isSome = true → Marked l') ∨ Scanned pattern l') := by
  refine meets_ensureOpen.bind (fun _ l₁ _ _ => ?_) (fun _ _ _ _ => nofun)
  refine Meets.next meets_deleteByPatternLocal.later fun _ l₂ _ hdel => meets_read fun s => ?_
  refine (Meets.later (meets_publishInvalidation nofun)).mono ?_ s
  rintro r l₃ h₃ - -
  refine ⟨h₃.subset hdel.1, (hdel.2 rfl).imp (fun h hl2 => ?_) fun h => h.mono h₃.subset⟩
  exact (h hl2).mono h₃.subset

/-! ### Loads -/

/-- A call that returns leaves marks of its result among its new acts. -/
def Ends (R : α → List (Act V) → Prop) (l : List (Act V)) (r : Except Err α)
    (l' : List (Act V)) : Prop :=
  ∀ a, r = .ok a → Since (R a) l l'

theorem since_refl {P : List (Act V) → Prop} (h : P []) : Since P l l := ⟨[], by simp, h⟩

theorem ends_ok {R : α → List (Act V) → Prop} {a : α} {l' : List (Act V)}
    (h : Since (R a) l l') : Ends R l (.ok a) l' := by
  intro b hb
  cases hb
  exact h

/-- The result of a part is the result of the whole. -/
theorem Meets.since {R : α → List (Act V) → Prop} {l₀ : List (Act V)} (hR : ∀ a, Grows (R a))
    (hext : Extends l₀ l) (h : Meets cfg w c l p (Ends R l)) : Meets cfg w c l p (Ends R l₀) :=
  h.mono fun _ _ _ hend a ha => (hend a ha).of_extends (hR a) hext

theorem wp_andEnds {f : α → P V β} {Q : Except Err α → List (Act V) → Prop}
    {R : β → List (Act V) → Prop} {l₀ l₁ : List (Act V)} {s : State V} (hext : Extends l₁ l)
    (hp : wp w (Rule cfg c) p (fun r l' _ => Extends l l' ∧ Q r l') l s)
    (hf : ∀ a l', Extends l l' → Q (.ok a) l' → Meets cfg w c l' (f a) (Ends R l₀)) :
    wp w (Rule cfg c) (p >>= f) (fun r l' _ => Extends l₁ l' ∧ Ends R l₀ r l') l s := by
  refine wp_bind hp ?_ ?_
  · rintro a l' s' ⟨hext', hQ⟩
    exact (hf a l' hext' hQ).at (hext.trans hext') s'
  · rintro e l' s' ⟨hext', -⟩
    exact ⟨hext.trans hext', nofun⟩

/-- Sequencing towards a result. -/
theorem Meets.andEnds {f : α → P V β} {Q : Except Err α → List (Act V) → Prop}
    {R : β → List (Act V) → Prop} {l₀ : List (Act V)} (hp : Meets cfg w c l p Q)
    (hf : ∀ a l', Extends l l' → Q (.ok a) l' → Meets cfg w c l' (f a) (Ends R l₀)) :
    Meets cfg w c l (p >>= f) (Ends R l₀) :=
  fun s => wp_andEnds (.refl l) (hp s) hf

section Loading

variable {key : CacheKey} {g : MutationGuard} {opts : Options} {controller : ℕ}
  {lease : Option LoadLease}

theorem meets_throwIfAborted : Meets cfg w c l (throwIfAborted controller) fun _ _ => True := by
  refine meets_read fun s => ?_
  split
  · exact meets_throw trivial s
  · exact meets_pure trivial s

theorem meets_assertOwned : Meets cfg w c l (assertOwned key lease) fun _ _ => True := by
  refine meets_read fun s => ?_
  split
  · split
    · exact meets_throw trivial s
    · exact meets_pure trivial s
  · exact meets_pure trivial s

/-- How the check before a load may end: with a value, a known absence, or a miss. -/
def RecheckEnd (cfg : Config V) (key : CacheKey) : Option (Option V) → List (Act V) → Prop
  | some (some v), u => LookedUp cfg u key v
  | some none, _ => True
  | none, u => Missed cfg u key

theorem RecheckEnd.grows (r : Option (Option V)) : Grows (RecheckEnd cfg key r) :=
  match r with
  | some (some v) => LookedUp.grows key v
  | some none => fun _ _ _ h => h
  | none => Missed.grows key

theorem meets_recheck [Faithful cfg w] :
    Meets cfg w c l (recheck cfg key) (Ends (RecheckEnd cfg key) l) := by
  refine Meets.bind meets_get.later (fun cached l₁ h₁ hcached => ?_) fun _ _ _ _ => nofun
  have hend := hcached cached rfl
  split
  · exact meets_pure (ends_ok hend)
  refine meets_hasNegative.next fun negative l₂ h₂ _ => meets_pure (ends_ok ?_)
  cases negative with
  | true => exact (hend.mono (Missed.grows key) h₂).imp fun _ _ => trivial
  | false => exact hend.mono (Missed.grows key) h₂

theorem meets_acquireOrigin : Meets cfg w c l (acquireOrigin opts) fun _ _ => True := by
  rw [acquireOrigin]
  split
  · refine meets_ask_bind fun refused => ?_
    split
    · exact meets_throw trivial
    · exact meets_pure trivial
  · exact meets_pure trivial

theorem grows_loaded (v : Option V) : Grows fun u => Act.loaded key v ∈ u :=
  fun _ _ hsub h => hsub h

/-- The loader is started when a lookup of the load has missed. -/
theorem wp_runLoader {s : State V} (hneg : s.negativeLive cfg key = false)
    (hobs : ∃ g, g.key = key ∧ Observed l .fill g)
    (hmiss : ∃ l₁ u, l = l₁ ++ u ∧ Leads l₁ key ∧ Missed cfg u key) :
    wp w (Rule cfg c) (runLoader cfg key controller)
      (fun r l' _ => Extends l l' ∧ Ends (fun v u => .loaded key v ∈ u) l r l') l s := by
  refine wp_perform_then (.of_eq rfl) ⟨hneg, hobs, hmiss⟩ (.refl l) ?_
  have h₁ : Extends l (l ++ [Act.startLoader key]) := (Extends.refl l).concat (.of_eq rfl)
  refine Meets.andEnds meets_getStale fun _ l₂ h₂ _ => meets_ask_bind fun loaded => ?_
  split
  · have hstarted : Act.startLoader key ∈ l₂ := h₂.subset (List.mem_concat_self ..)
    refine meets_perform_bind (.of_eq rfl) (fun _ => hstarted) (meets_pure (ends_ok ?_))
    exact (since_concat (by simp)).of_extends (grows_loaded _) (h₁.trans h₂)
  · exact meets_throw nofun
  · exact meets_perform_bind (.of_eq rfl) (fun _ => trivial) (meets_throw nofun)

/-- How the first half of a load may end: with an answer, or with the loader's value. -/
def LoadEnd (cfg : Config V) (key : CacheKey) : Option V ⊕ Option V → List (Act V) → Prop
  | .inl (some v), u => LookedUp cfg u key v ∨ .staleHit key v ∈ u
  | .inl none, _ => True
  | .inr v, u => .loaded key v ∈ u

theorem LoadEnd.grows (r : Option V ⊕ Option V) : Grows (LoadEnd cfg key r) :=
  match r with
  | .inl (some v) => fun _ _ hsub => Or.imp (fun h => LookedUp.grows key v hsub h) fun h => hsub h
  | .inl none => fun _ _ _ h => h
  | .inr _ => fun _ _ hsub h => hsub h

theorem meets_loadValue [Faithful cfg w] (hlead : Leads l key)
    (hobs : ∃ g, g.key = key ∧ Observed l .fill g) :
    Meets cfg w c l (loadValue cfg key opts controller lease) (Ends (LoadEnd cfg key) l) := by
  refine Meets.andEnds meets_throwIfAborted fun _ l₁ h₁ _ => ?_
  refine Meets.andEnds meets_assertOwned fun _ l₂ h₂ _ => ?_
  refine Meets.andEnds meets_recheck fun queued l₃ h₃ hqueued => ?_
  have h₀₃ := (h₁.trans h₂).trans h₃
  split
  · rename_i answer
    refine meets_pure (ends_ok ?_)
    have hend := (hqueued _ rfl).of_extends (RecheckEnd.grows _) (h₁.trans h₂)
    cases answer with
    | none => exact hend
    | some v => exact hend.imp fun u hu => .inl hu
  refine Meets.andEnds meets_acquireOrigin fun _ l₄ h₄ _ => ?_
  refine Meets.andEnds meets_throwIfAborted fun _ l₅ h₅ _ => ?_
  refine Meets.andEnds meets_assertOwned fun _ l₆ h₆ _ => ?_
  refine Meets.andEnds meets_get.later fun admitted l₇ h₇ hadmitted => ?_
  refine Meets.andEnds meets_throwIfAborted fun _ l₈ h₈ _ => ?_
  refine Meets.andEnds meets_assertOwned fun _ l₉ h₉ _ => ?_
  have h₀₆ := ((h₀₃.trans h₄).trans h₅).trans h₆
  have hend : Since (fun u => GetEnd cfg key u admitted) l l₉ :=
    ((hadmitted admitted rfl).of_extends (GetEnd.grows key _) h₀₆).mono (GetEnd.grows key _)
      (h₈.trans h₉)
  have h₀₉ := ((h₀₆.trans h₇).trans h₈).trans h₉
  split
  · exact meets_pure (ends_ok (hend.imp fun u hu => .inl hu))
  -- the lookup has missed; the check of the negative entries is the last one
  intro s
  refine wp_bind wp_hasNegative ?_ ?_
  · rintro negative l₁₀ s₁₀ ⟨h₁₀, -, b, hb, hneg⟩
    cases hb
    cases negative with
    | true => exact ⟨h₁₀, ends_ok ((hend.mono (Missed.grows key) h₁₀).imp fun _ _ => trivial)⟩
    | false =>
      obtain ⟨u, hu, hmiss⟩ := hend.mono (Missed.grows key) h₁₀
      obtain ⟨g, hg, hobs⟩ := hobs
      have hobs₁₀ : Observed l₁₀ .fill g := hobs.mono (h₀₉.trans h₁₀).subset
      have hrun := @wp_runLoader V cfg w c l₁₀ key controller s₁₀ hneg ⟨g, hg, hobs₁₀⟩
        ⟨l, u, hu, hlead, hmiss⟩
      refine wp_andEnds h₁₀ (wp_later hrun) fun v l₁₁ h₁₁ hv => ?_
      refine Meets.andEnds meets_assertOwned fun _ l₁₂ h₁₂ _ => meets_pure (ends_ok ?_)
      exact ((hv v rfl).of_extends (grows_loaded v) (h₀₉.trans h₁₀)).mono (grows_loaded v) h₁₂
  · rintro e l₁₀ s₁₀ ⟨-, -, b, hb, -⟩
    cases hb

theorem meets_failSafe {otherwise : P V (Option V)} {R : Option V → List (Act V) → Prop}
    {l₀ : List (Act V)} (hR : ∀ a, Grows (R a)) (hext : Extends l₀ l)
    (hstale : ∀ v u, .staleHit key v ∈ u → R (some v) u)
    (h : ∀ l', Extends l l' → Meets cfg w c l' otherwise (Ends R l₀)) :
    Meets cfg w c l (failSafe cfg key opts otherwise) (Ends R l₀) := by
  refine meets_getStale.next fun stale l' hext' hhit => ?_
  split
  · rename_i hsome
    rw [Bool.and_eq_true] at hsome
    obtain ⟨v, rfl⟩ := Option.isSome_iff_exists.mp hsome.1
    exact meets_pure (ends_ok (((hhit v rfl).imp (hstale v)).of_extends (hR _) hext))
  · exact h l' hext'

variable {v : V}

/-- How a load under the guard may end after its loader returned `loaded`. -/
def StoreEnd (cfg : Config V) (g : MutationGuard) (loaded : Option V) :
    Option V → List (Act V) → Prop
  | some v, u => loaded = some v ∨ .staleHit g.key v ∈ u ∨
      ∃ g', g'.base = g.base ∧ MayRead u g' ∧ FromL2 cfg u g' v
  | none, _ => True

theorem StoreEnd.grows (loaded r : Option V) : Grows (StoreEnd cfg g loaded r) :=
  match r with
  | none => fun _ _ _ h => h
  | some v => by
    rintro u u' hsub (h | h | ⟨g', hbase, hmay, h⟩)
    · exact .inl h
    · exact .inr (.inl (hsub h))
    · exact .inr (.inr ⟨g', hbase, hmay.mono hsub, FromL2.grows g' v hsub h⟩)

/-- The loader's value is returned as it is. -/
theorem meets_loaded {l₀ : List (Act V)} (hext : Extends l₀ l) :
    Meets cfg w c l (pure (some v) : P V (Option V)) (Ends (StoreEnd cfg g (some v)) l₀) :=
  meets_pure (ends_ok ((since_refl (.inl rfl)).of_extends (StoreEnd.grows _ _) hext))

theorem meets_broadcast (hobs : Observed l .fill g)
    (hpub : c.coordinated cfg = true → Published cfg l g.storageKey v) :
    Meets cfg w c l (broadcast cfg g v opts) (Returns fun _ _ => True) := by
  refine meets_read fun s => ?_
  split
  · refine (Meets.later (meets_publishInvalidation ?_)) s
    intro keys keyTypes v' ttlMs generation hbody hc
    cases hbody
    exact ⟨g, hobs, rfl, hpub hc⟩
  · exact meets_pure (returns_ok trivial) s

theorem meets_installPublished {buffer : Octets} {l₀ : List (Act V)} (hext : Extends l₀ l)
    (hobs : Observed l .fill g) (hloaded : .loaded g.key (some v) ∈ l)
    (hser : cfg.codec.serialize opts.codecL2 v = some buffer)
    (hpub : Published cfg l g.storageKey v) :
    Meets cfg w c l (installPublished cfg g v opts buffer)
      (Ends (StoreEnd cfg g (some v)) l₀) := by
  refine meets_read fun s => ?_
  split
  · exact meets_loaded hext s
  rename_i hcur
  simp only [Bool.or_eq_true, Bool.not_eq_true', not_or, Bool.not_eq_false] at hcur
  have hjust : Justified cfg c l g v .fill := ⟨hloaded, fun _ => hpub⟩
  have hbuffer : Reusable cfg v (some buffer) := by
    intro buffer' hbuffer'
    cases hbuffer'
    exact .inr ⟨opts.codecL2, hser⟩
  have hbytes : Reusable cfg v (if opts.codecL1 = opts.codecL2 then some buffer
      else cfg.codec.serialize opts.codecL1 v) := by
    split
    · exact hbuffer
    · exact reusable_serialize _
  refine wp_andEnds (.refl l) (wp_later (wp_setL1Only hobs hcur.2 hjust hbytes))
    fun _ l₁ h₁ _ => meets_read fun s₁ => ?_
  split
  · refine wp_perform_then (.of_eq rfl) nofun (.refl l₁) (meets_ask_bind fun _ => ?_)
    exact meets_loaded ((hext.trans h₁).concat (.of_eq rfl))
  rename_i hcur₁
  simp only [Bool.or_eq_true, Bool.not_eq_true', not_or, Bool.not_eq_false] at hcur₁
  refine wp_andEnds (.refl l₁) (wp_rememberStale (hobs.mono h₁.subset) hcur₁.2
    (.inl (hjust.mono h₁.subset)) (hbytes.or hbuffer)) fun _ l₂ h₂ _ =>
      meets_perform_bind (.of_eq rfl) (fun _ => trivial) ?_
  have hsub : l ⊆ l₂ ++ [.removeNegative g.key] := fun a ha =>
    List.mem_append_left _ ((h₁.trans h₂).subset ha)
  refine Meets.andEnds (meets_broadcast (hobs.mono hsub) fun _ => hpub.mono hsub)
    fun _ l₃ h₃ _ => ?_
  exact meets_loaded ((((hext.trans h₁).trans h₂).concat (.of_eq rfl)).trans h₃)

theorem meets_publishL2 {token : ℕ} {buffer : Octets} (hobs : Observed l .fill g)
    (hacq : Acquired l g.storageKey token) (hloaded : .loaded g.key (some v) ∈ l)
    (hser : cfg.codec.serialize opts.codecL2 v = some buffer) :
    Meets cfg w c l (publishL2 cfg g token buffer opts) (Returns fun r l' =>
      ∀ reply, r = .ok (some reply) → Since (.returned (some g)
        (.publishIfOwner g.storageKey token (.encoded buffer) opts.l2TtlMs) reply ∈ ·) l l') := by
  refine meets_read fun s => ?_
  split
  · rename_i hcur
    refine wp_next (wp_command ⟨rfl, hcur, hobs, hacq, v, ⟨opts.codecL2, hser⟩, hloaded⟩)
      (.refl l) fun r l' _ hr => ?_
    refine meets_pure (returns_ok fun reply hreply => ?_)
    cases r with
    | ok reply' =>
      cases hreply
      exact hr reply rfl
    | error failure => cases hreply
  · rename_i hobsolete
    rw [Bool.not_eq_true] at hobsolete
    exact wp_perform_then (.of_eq rfl) ⟨.inl hobsolete, nofun⟩ (.refl l)
      (meets_ask_bind fun _ => meets_pure (returns_ok nofun))

theorem Acquired.mono {l' : List (Act V)} {token : ℕ} (h : Acquired l key token)
    (hsub : l ⊆ l') : Acquired l' key token := by
  obtain ⟨g, hmem⟩ := h
  exact ⟨g, hsub hmem⟩

theorem meets_publishAtomically {token : ℕ} (hobs : Observed l .fill g)
    (hloaded : .loaded g.key (some v) ∈ l) (hacq : Acquired l g.storageKey token) :
    Meets cfg w c l (publishAtomically cfg g v opts token)
      (Ends (StoreEnd cfg g (some v)) l) := by
  rw [publishAtomically]
  split
  · exact meets_loaded (.refl l)
  rename_i buffer hser
  have hrun : Meets cfg w c l (runL2 cfg g.storageKey.text buffer.length
      (publishL2 cfg g token buffer opts)) (Returns (Outcome cfg fun r l' => ∀ reply,
        r = some reply → Since (.returned (some g)
          (.publishIfOwner g.storageKey token (.encoded buffer) opts.l2TtlMs) reply ∈ ·) l l')) := by
    refine meets_runL2 (fun l' hext => ?_)
      fun _ _ _ hext h reply hreply => (h reply hreply).mono (grows_mem _) hext
    refine (meets_publishL2 (hobs.mono hext.subset) (hacq.mono hext.subset)
      (hext.subset hloaded) hser).mono ?_
    rintro r l'' - ⟨a, rfl, hr⟩
    exact returns_ok fun b hb reply hreply =>
      (hr reply (by rw [hb, hreply])).of_extends (grows_mem _) hext
  refine Meets.andEnds hrun.later fun publication l₁ h₁ hpubl => ?_
  obtain ⟨a, ha, hpubl⟩ := hpubl
  cases ha
  split
  · have hmay : Since (fun u => MayRead u g) l l₁ :=
      (hpubl _ rfl).imp fun u hu => ⟨_, _, rfl, hu⟩
    have hgrows : Grows fun u : List (Act V) => MayRead u g := fun _ _ hsub h => h.mono hsub
    refine Meets.andEnds (Meets.later
      (meets_readL2 (hobs.mono h₁.subset) fun _ => hmay.all hgrows))
      fun winner l₂ h₂ hwinner => ?_
    obtain ⟨b, hb, hwinner⟩ := hwinner
    cases hb
    split
    · rename_i hit
      refine meets_pure (ends_ok ?_)
      have hfrom := (hwinner hit rfl).1.of_extends (FromL2.grows g hit.value) h₁
      exact ((hmay.mono hgrows h₂).and hfrom).imp fun u hu => .inr (.inr ⟨g, rfl, hu.1, hu.2⟩)
    · exact meets_throw nofun
  · exact meets_installPublished h₁ (hobs.mono h₁.subset) (h₁.subset hloaded) hser
      ⟨some g, token, opts.codecL2, buffer, opts.l2TtlMs, hser, (hpubl _ rfl).all (grows_mem _)⟩
  · exact meets_loaded h₁

theorem meets_publishPlainly (hobs : Observed l .fill g) (hloaded : .loaded g.key (some v) ∈ l)
    (hplain : c.coordinated cfg = false) :
    Meets cfg w c l (publishPlainly cfg g v opts lease) (Ends (StoreEnd cfg g (some v)) l) := by
  have hno : ∀ {P : Prop}, c.coordinated cfg = true → P := by
    intro P hyes
    rw [hplain] at hyes
    cases hyes
  have hjust : Justified cfg c l g v .fill := ⟨hloaded, hno⟩
  refine Meets.andEnds (meets_writeValue hobs (.inr ⟨hobs, hplain, hloaded⟩) nofun hjust).later
    fun written l₁ h₁ _ => ?_
  split
  · refine Meets.andEnds meets_assertOwned fun _ l₂ h₂ _ => ?_
    refine Meets.andEnds (meets_broadcast (hobs.mono (h₁.trans h₂).subset) hno)
      fun _ l₃ h₃ _ => ?_
    exact meets_loaded ((h₁.trans h₂).trans h₃)
  · exact meets_loaded h₁

/-- What entitles a load to store its value: a lease that it acquired or, where no lease
is needed, the permission on its guard. -/
def Entitled (cfg : Config V) (c : Call V) (l : List (Act V)) (g : MutationGuard) :
    Option LoadLease → Prop
  | some held => Acquired l g.storageKey held.token
  | none => c.coordinated cfg = true → g.publicationAllowed = false

theorem Entitled.mono {l' : List (Act V)} (h : Entitled cfg c l g lease) (hsub : l ⊆ l') :
    Entitled cfg c l' g lease := by
  cases lease with
  | some held => exact Acquired.mono h hsub
  | none => exact h

/-- Without an atomic publisher a load is not coordinated. -/
theorem not_coordinated (h : atomicPublisher cfg = false) : c.coordinated cfg = false := by
  cases c <;> simp [Call.coordinated, h]

theorem meets_storeLoaded {v : Option V} (hobs : Observed l .fill g)
    (hloaded : .loaded g.key v ∈ l) (hent : Entitled cfg c l g lease) :
    Meets cfg w c l (storeLoaded cfg g opts lease v) (Ends (StoreEnd cfg g v) l) := by
  cases v with
  | none =>
    have hnone : ∀ {l' : List (Act V)}, Extends l l' →
        Since (StoreEnd cfg g (none : Option V) none) l l' :=
      fun hext => (since_refl trivial).of_extends (StoreEnd.grows none none) hext
    refine meets_read fun s => ?_
    split
    · exact meets_pure (ends_ok (hnone (.refl l))) s
    rename_i hcur
    simp only [Bool.or_eq_true, Bool.not_eq_true', not_or, Bool.not_eq_false] at hcur
    have hext : Extends l (l ++ [Act.setNegative g opts]) := (Extends.refl l).concat (.of_eq rfl)
    refine wp_perform_then (.of_eq rfl) ⟨hobs, hcur.2, hloaded⟩ (.refl l) ?_
    refine meets_failSafe (StoreEnd.grows none) hext (fun v u hu => .inr (.inl hu)) ?_
    exact fun l' hext' => meets_pure (ends_ok (hnone (hext.trans hext')))
  | some v =>
    refine Meets.andEnds meets_assertOwned fun _ l₁ h₁ _ => meets_read fun s => ?_
    have hobs₁ := hobs.mono h₁.subset
    have hloaded₁ := h₁.subset hloaded
    split
    · exact meets_loaded h₁ s
    rename_i hcur
    simp only [Bool.or_eq_true, Bool.not_eq_true', not_or, Bool.not_eq_false] at hcur
    refine Meets.since (StoreEnd.grows _) h₁ ?_ s
    cases lease with
    | some held =>
      dsimp only
      split
      · exact meets_publishAtomically hobs₁ hloaded₁ (hent.mono h₁.subset)
      · rename_i hatomic
        exact meets_publishPlainly hobs₁ hloaded₁ (not_coordinated (by simpa using hatomic))
    | none =>
      refine meets_publishPlainly hobs₁ hloaded₁ ?_
      by_contra hcoord
      have hdenied := hent (by simpa using hcoord)
      rw [hcur.1] at hdenied
      cases hdenied

/-- Where the result of a load under the guard comes from. -/
def LoadedBy (cfg : Config V) (g : MutationGuard) : Option V → List (Act V) → Prop
  | some v, u => LookedUp cfg u g.key v ∨ .staleHit g.key v ∈ u ∨ .loaded g.key (some v) ∈ u ∨
      ∃ g', g'.base = g.base ∧ MayRead u g' ∧ FromL2 cfg u g' v
  | none, _ => True

theorem LoadedBy.grows (r : Option V) : Grows (LoadedBy cfg g r) :=
  match r with
  | none => fun _ _ _ h => h
  | some v => by
    rintro u u' hsub (h | h | h | ⟨g', hbase, hmay, h⟩)
    · exact .inl (LookedUp.grows g.key v hsub h)
    · exact .inr (.inl (hsub h))
    · exact .inr (.inr (.inl (hsub h)))
    · exact .inr (.inr (.inr ⟨g', hbase, hmay.mono hsub, FromL2.grows g' v hsub h⟩))

theorem meets_loadAndStore [Faithful cfg w] (hobs : Observed l .fill g)
    (hent : Entitled cfg c l g lease) (hlead : Leads l g.key) :
    Meets cfg w c l (loadAndStore cfg g opts controller lease) (Ends (LoadedBy cfg g) l) := by
  refine Meets.andEnds (Q := Ends (LoadEnd cfg g.key) l) (Meets.catching
    (meets_loadValue hlead ⟨g, rfl, hobs⟩) (fun _ _ _ h => h) ?_) ?_
  · intro e l₁ h₁ _
    have hstale : Meets cfg w c l₁ (failSafe cfg g.key opts (.throw e))
        (Ends (fun r => LoadEnd cfg g.key (.inl r)) l) :=
      meets_failSafe (fun r => LoadEnd.grows _) h₁ (fun v u hu => .inr hu)
        fun _ _ => meets_throw nofun
    exact Meets.andEnds hstale fun r l₂ _ hr => meets_pure (ends_ok (hr r rfl))
  · intro outcome l₁ h₁ houtcome
    have hend := houtcome outcome rfl
    split
    · rename_i answer
      refine meets_pure (ends_ok (hend.imp fun u hu => ?_))
      cases answer with
      | none => trivial
      | some v => exact hu.imp id .inl
    · rename_i v
      have hloaded : .loaded g.key v ∈ l₁ := hend.all (grows_loaded v)
      refine (meets_storeLoaded (hobs.mono h₁.subset) hloaded (hent.mono h₁.subset)).mono ?_
      intro r l₂ h₂ hr a ha
      cases a with
      | none => exact (hend.mono (grows_loaded v) h₂).imp fun _ _ => trivial
      | some v' =>
        obtain ⟨u, hu, hstore⟩ := hr _ ha
        rcases hstore with rfl | hstale | hwinner
        · exact (hend.mono (grows_loaded _) h₂).imp fun _ hmem => .inr (.inr (.inl hmem))
        · exact (Since.of_extends (grows_mem _) h₁ ⟨u, hu, hstale⟩).imp fun _ h => .inr (.inl h)
        · refine Since.of_extends (LoadedBy.grows (some v')) h₁ ⟨u, hu, ?_⟩
          exact .inr (.inr (.inr hwinner))

theorem meets_loadLeased [Faithful cfg w] {token : ℕ} (hobs : Observed l .fill g)
    (hacq : Acquired l g.storageKey token) (hlead : Leads l g.key) :
    Meets cfg w c l (loadLeased cfg g opts controller token) (Ends (LoadedBy cfg g) l) := by
  refine meets_read fun s => ?_
  refine wp_perform_then (.of_eq rfl) trivial (.refl l) ?_
  have hext : Extends l (l ++ [Act.startLease s.nextController controller]) :=
    (Extends.refl l).concat (.of_eq rfl)
  refine Meets.finally' (Q := Ends (LoadedBy cfg g) l) ?_ ?_
  · refine Meets.andEnds meets_recheck fun found l₁ h₁ hfound => ?_
    have hend := (hfound found rfl).of_extends (RecheckEnd.grows found) hext
    split
    · rename_i answer
      refine meets_pure (ends_ok (hend.imp fun u hu => ?_))
      cases answer with
      | none => trivial
      | some v => exact .inl hu
    · have h₀₁ := hext.trans h₁
      have hobs₁ : Observed l₁ .fill { g with signal := some s.nextController } :=
        hobs.mono h₀₁.subset
      have hent : Entitled cfg c l₁ { g with signal := some s.nextController }
          (some ⟨s.nextController, token⟩) := Acquired.mono hacq h₀₁.subset
      exact Meets.since LoadedBy.grows h₀₁
        (meets_loadAndStore hobs₁ hent (Leads.mono hlead h₀₁.subset)).later
  · intro r l₁ h₁ hr
    have hdisp : ∀ l', Extends l₁ l' → ∀ s,
        MayDispatch cfg c l' s (some g) (.releaseLock g.storageKey token) := fun _ _ _ => trivial
    refine Meets.next (meets_runL2_command hdisp).later fun _ l₂ h₂ _ => meets_pure ⟨rfl, ?_⟩
    exact fun a ha => (hr a ha).mono (LoadedBy.grows a) h₂

theorem meets_loadUnleased [Faithful cfg w] (hobs : Observed l .fill g) (hlead : Leads l g.key) :
    Meets cfg w c l (loadUnleased cfg g opts controller) (Ends (LoadedBy cfg g) l) := by
  rw [loadUnleased]
  split
  · exact meets_loadAndStore (g := { g with publicationAllowed := false }) hobs (fun _ => rfl) hlead
  · rename_i hatomic
    refine meets_loadAndStore hobs (fun hcoord => ?_) hlead
    rw [not_coordinated (by simpa using hatomic)] at hcoord
    cases hcoord

theorem meets_lockTimedOut [Faithful cfg w] (hobs : Observed l .fill g) (hlead : Leads l g.key) :
    Meets cfg w c l (lockTimedOut cfg g opts controller) (Ends (LoadedBy cfg g) l) := by
  rw [lockTimedOut]
  split
  · exact meets_loadUnleased hobs hlead
  · exact meets_failSafe LoadedBy.grows (.refl l) (fun v u hu => .inr (.inl hu))
      fun _ _ => meets_throw nofun

theorem meets_acquireLoop [Faithful cfg w] {token rounds : ℕ} {contended : Bool}
    (hobs : Observed l .fill g) (hlead : Leads l g.key) :
    Meets cfg w c l (acquireLoop cfg g opts controller token rounds contended)
      (Ends (LoadedBy cfg g) l) := by
  induction rounds generalizing l contended with
  | zero => exact meets_lockTimedOut hobs hlead
  | succ rounds ih =>
    refine Meets.andEnds meets_throwIfAborted fun _ l₁ h₁ _ => ?_
    refine Meets.andEnds meets_ensureOpen fun _ l₂ h₂ _ => ?_
    have hdisp : ∀ l', Extends l₂ l' → ∀ s,
        MayDispatch cfg c l' s (some g) (.acquireLock g.storageKey token) := fun _ _ _ => trivial
    refine Meets.andEnds (meets_runL2_command hdisp).later fun acquired l₃ h₃ hacq => ?_
    obtain ⟨a, ha, hacq⟩ := hacq
    cases ha
    have h₀₃ := (h₁.trans h₂).trans h₃
    have hobs₃ := hobs.mono h₀₃.subset
    have hlead₃ := Leads.mono hlead h₀₃.subset
    split
    · exact Meets.since LoadedBy.grows h₀₃
        (meets_loadLeased hobs₃ ⟨some g, hacq.all (grows_mem _)⟩ hlead₃)
    · exact Meets.since LoadedBy.grows h₀₃ (meets_loadUnleased hobs₃ hlead₃)
    · refine meets_ask_bind fun (slept, expired) => meets_read fun s => ?_
      split
      · exact meets_throw nofun s
      refine (Meets.andEnds meets_recheck fun found l₄ h₄ hfound => ?_) s
      have h₀₄ := h₀₃.trans h₄
      have hend := (hfound found rfl).of_extends (RecheckEnd.grows found) h₀₃
      split
      · rename_i answer
        refine meets_pure (ends_ok (hend.imp fun u hu => ?_))
        cases answer with
        | none => trivial
        | some v => exact .inl hu
      split
      · exact Meets.since LoadedBy.grows h₀₄
          (meets_lockTimedOut (hobs₃.mono h₄.subset) (Leads.mono hlead₃ h₄.subset))
      · exact Meets.since LoadedBy.grows h₀₄
          (ih (hobs₃.mono h₄.subset) (Leads.mono hlead₃ h₄.subset))

theorem meets_loadWithDistributedLockInternal [Faithful cfg w] {rounds : ℕ} {timing : Timing}
    (hobs : Observed l .fill g) (hlead : Leads l g.key) (hc : c = .getOrSet key opts timing) :
    Meets cfg w c l (loadWithDistributedLockInternal cfg g opts controller rounds)
      (Ends (LoadedBy cfg g) l) := by
  rw [loadWithDistributedLockInternal]
  split
  · rename_i hoff
    refine meets_loadAndStore hobs (fun hcoord => ?_) hlead
    rw [hc] at hcoord
    simp only [Call.coordinated, Bool.and_eq_true] at hcoord
    rw [hcoord.1.1, hcoord.1.2] at hoff
    cases hoff
  · refine meets_read fun s => ?_
    refine wp_perform_then (.of_eq rfl) trivial (.refl l) ?_
    have hext : Extends l (l ++ [Act.takeToken]) := (Extends.refl l).concat (.of_eq rfl)
    exact Meets.since LoadedBy.grows hext
      (meets_acquireLoop (hobs.mono hext.subset) (Leads.mono hlead hext.subset))

/-- Where the result of a load comes from. -/
def LoadsTo (cfg : Config V) (key : CacheKey) : Option V → List (Act V) → Prop
  | some v, u => Loads cfg u key v
  | none, _ => True

theorem LoadsTo.grows (r : Option V) : Grows (LoadsTo cfg key r) :=
  match r with
  | none => fun _ _ _ h => h
  | some v => by
    rintro u u' hsub (h | h | h | ⟨g, hkey, hobs, hmay, h⟩)
    · exact .inl (LookedUp.grows key v hsub h)
    · exact .inr (.inl (hsub h))
    · exact .inr (.inr (.inl (hsub h)))
    · exact .inr (.inr (.inr ⟨g, hkey, hobs.mono hsub, hmay.mono hsub, FromL2.grows g v hsub h⟩))

theorem meets_loadWithDistributedLock [Faithful cfg w] {rounds : ℕ} {timing : Timing}
    (hlead : Leads l key) (hc : c = .getOrSet key opts timing) :
    Meets cfg w c l (loadWithDistributedLock cfg key opts rounds) (Ends (LoadsTo cfg key) l) := by
  intro s
  refine wp_ensureOpen ⟨.refl l, nofun⟩ fun hopen => ?_
  rw [wp_getState]
  split
  · exact meets_failSafe LoadsTo.grows (.refl l) (fun v u hu => .inr (.inl hu))
      (fun _ _ => meets_throw nofun) s
  have hrule : Rule cfg c l s (.observeKey .fill (s.guardFor cfg key false) false) := by
    rw [hc]
    exact ⟨trivial, rfl, fun _ => hopen, nofun⟩
  have hobs : Observed (l ++ [Act.observeKey .fill (s.guardFor cfg key false) false] ++
      [Act.lead s.nextController]) .fill
      { s.guardFor cfg key false with signal := some s.nextController } :=
    ⟨false, List.mem_append_left _ (List.mem_concat_self ..)⟩
  have hlead' : Leads (l ++ [Act.observeKey .fill (s.guardFor cfg key false) false] ++
      [Act.lead s.nextController]) key :=
    Leads.mono (Leads.mono hlead (List.subset_append_left ..)) (List.subset_append_left ..)
  refine ⟨hrule, trivial, ?_⟩
  refine wp_finally (wp_later (meets_loadWithDistributedLockInternal hobs hlead' hc _)) ?_
  rintro r l₂ s₂ ⟨h₂, hr⟩
  refine ⟨trivial, ?_⟩
  have hback : Extends (l ++ [Act.observeKey .fill (s.guardFor cfg key false) false])
      (l₂ ++ [Act.unlead s.nextController]) :=
    (((Extends.refl _).concat (.of_eq rfl)).trans h₂).concat (.of_eq rfl)
  obtain ⟨hrel, hext⟩ := @rule_releaseKey V cfg c _ _ _ (s.guardFor cfg key false) hback
    (fun _ => rfl) rfl (w.apply s₂ (.unlead s.nextController))
  refine ⟨hrel, rfl, hext, fun a ha => ?_⟩
  obtain ⟨u, rfl, hu⟩ := hr a ha
  refine ⟨.observeKey .fill (s.guardFor cfg key false) false :: .lead s.nextController :: u ++
    [.unlead s.nextController, .releaseKey (s.guardFor cfg key false)], by simp, ?_⟩
  cases a with
  | none => trivial
  | some v =>
    have hsub : u ⊆ .observeKey .fill (s.guardFor cfg key false) false ::
        .lead s.nextController :: u ++
          [.unlead s.nextController, .releaseKey (s.guardFor cfg key false)] :=
      fun x hx => by simp [hx]
    rcases hu with h | h | h | ⟨g', hbase, hmay, h⟩
    · exact .inl (LookedUp.grows key v hsub h)
    · exact .inr (.inl (hsub h))
    · exact .inr (.inr (.inl (hsub h)))
    · refine .inr (.inr (.inr ⟨g', congrArg MutationGuard.key hbase, ⟨false, ?_⟩,
        hmay.mono hsub, FromL2.grows g' v hsub h⟩))
      have hguard : g'.base = s.guardFor cfg key false := hbase
      rw [hguard]
      simp

/-! ### Single flight -/

/-- How a call that may join a load in flight ends: with the outcome of that load, or
with its own. -/
def SharedEnd (cfg : Config V) (key : CacheKey) (l : List (Act V)) (r : Except Err (Option V))
    (l' : List (Act V)) : Prop :=
  Extends l l' ∧ Ends (LoadsTo cfg key) l r l' ∨
    ∃ l₁ id, Extends l l₁ ∧ l' = l₁ ++ [.follow key id, .joined key id r, .unfollow]

theorem SharedEnd.of_extends {r : Except Err (Option V)} {l' l'' : List (Act V)}
    (hext : Extends l l') (h : SharedEnd cfg key l' r l'') : SharedEnd cfg key l r l'' := by
  rcases h with ⟨hext', hend⟩ | ⟨l₁, id, hext', hl⟩
  · exact .inl ⟨hext.trans hext', fun a ha => (hend a ha).of_extends (LoadsTo.grows a) hext⟩
  · exact .inr ⟨l₁, id, hext.trans hext', hl⟩

theorem wp_joinInflight [Faithful cfg w] {id : ℕ} {s : State V}
    (hlive : (s.inflight.get key).map InflightEntry.id = some id) :
    wp w (Rule cfg c) (joinInflight cfg key id opts)
      (fun r l' _ => SharedEnd cfg key l r l') l s := by
  rw [joinInflight, wp_getState]
  split
  · exact .inl ⟨.refl l, nofun⟩
  rename_i hroom
  simp only [Bool.or_eq_true, decide_eq_true_eq, not_or, ge_iff_le, not_le] at hroom
  refine ⟨⟨lt_of_lt_of_le hroom.1 (min_le_left _ _), hlive⟩, ?_⟩
  refine wp_finally (M := fun r l' _ => l' = l ++ [.follow key id, .joined key id r]) ?_ ?_
  · intro _ s' hready
    obtain ⟨outcome, houtcome⟩ := Option.isSome_iff_exists.mp (outcome_of_ready cfg hready)
    change wp w (Rule cfg c) (getState >>= _) _ (l ++ [.follow key id]) s'
    rw [wp_getState, houtcome]
    refine ⟨⟨List.mem_concat_self .., houtcome⟩, ?_⟩
    refine wp_ofExcept.mpr ?_
    simp
  · rintro r l' s' rfl
    refine ⟨⟨l, key, id, r, rfl⟩, rfl, .inr ⟨l, id, .refl l, by simp⟩⟩

/-- What expired before it was looked for is gone. -/
theorem wp_pruneInflightKey [Faithful cfg w] {s : State V} :
    wp w (Rule cfg c) (pruneInflightKey key) (fun r l' s' => Extends l l' ∧
      s'.closed = s.closed ∧ r = .ok ()) l s := by
  rw [pruneInflightKey, wp_getState]
  split
  · rename_i hexpired
    obtain ⟨e, he, hle⟩ := (Option.any_eq_true ..).mp hexpired
    have hstate : w.apply s (.removeInflight key) = s.removeInflight key :=
      apply_of_faithful cfg s _
    refine ⟨.inl ⟨e, he, of_decide_eq_true hle⟩, (Extends.refl l).concat (.of_eq rfl), ?_, rfl⟩
    rw [hstate, State.removeInflight, he]
    rfl
  · exact ⟨.refl l, rfl, rfl⟩

/-- The load that is found is in the map, and one that is not found has expired. -/
theorem wp_liveInflight [Faithful cfg w] {ms : ℕ} {s : State V} :
    wp w (Rule cfg c) (liveInflight key ms) (fun r l' s' => Extends l l' ∧
      s'.closed = s.closed ∧ ∃ found, r = .ok found ∧
        (∀ id, found = some id → (s'.inflight.get key).map InflightEntry.id = some id) ∧
        (found = none → ∀ e, s'.inflight.get key = some e → e.expiresAt ≤ s'.now)) l s := by
  refine wp_bind wp_pruneInflightKey ?_ ?_
  case refine_2 =>
    rintro e l₁ s₁ ⟨-, -, hr⟩
    cases hr
  rintro - l₁ s₁ ⟨h₁, hclosed, -⟩
  have hstate : w.apply s₁ (.pause ms) = { s₁ with now := s₁.now + ms } :=
    apply_of_faithful cfg s₁ _
  refine ⟨trivial, ?_⟩
  change wp w (Rule cfg c) (getState >>= _) _ _ (w.apply s₁ (.pause ms))
  rw [wp_getState, hstate]
  refine ⟨h₁.concat (.of_eq rfl), hclosed, _, rfl, fun id hid => ?_, fun hnone e he => ?_⟩
  · obtain ⟨e, he, rfl⟩ := Option.map_eq_some_iff.mp hid
    rw [(Option.filter_eq_some_iff.mp he).1]
    rfl
  · rw [Option.map_eq_none_iff, Option.filter_eq_none_iff] at hnone
    by_contra hlive
    exact hnone e he (decide_eq_true (not_le.mp hlive))

theorem meets_loadAlone [Faithful cfg w] {rounds : ℕ} {timing : Timing} {s : State V}
    (hc : c = .getOrSet key opts timing)
    (halone : opts.inflight = false ∨ s.canTrackInflight key cfg.options = false) :
    wp w (Rule cfg c) (loadAlone cfg key opts rounds)
      (fun r l' _ => Extends l l' ∧ Ends (LoadsTo cfg key) l r l') l s := by
  have hext : Extends l (l ++ [Act.bypassInflight key]) := (Extends.refl l).concat (.of_eq rfl)
  refine wp_perform_then (.of_eq rfl) ⟨opts, timing, hc, halone⟩ (.refl l) ?_
  have hlead : Leads (l ++ [Act.bypassInflight key]) key := .inr (List.mem_concat_self ..)
  exact Meets.since LoadsTo.grows hext (meets_loadWithDistributedLock hlead hc).later

/-- A load that others may join tells them how it ended. -/
theorem wp_startLoad [Faithful cfg w] {timing : Timing} {s : State V}
    (hc : c = .getOrSet key opts timing) (hopen : s.closed = false)
    (hexpired : ∀ e, s.inflight.get key = some e → e.expiresAt ≤ s.now) :
    wp w (Rule cfg c) (startLoad cfg key opts timing)
      (fun r l' _ => Extends l l' ∧ Ends (LoadsTo cfg key) l r l') l s := by
  rw [startLoad, wp_getState]
  split
  case isFalse =>
    rename_i hfull
    exact meets_loadAlone hc (.inr (by simpa using hfull))
  have hstate : w.apply s (.pause timing.entry) = { s with now := s.now + timing.entry } :=
    apply_of_faithful cfg s _
  have hpause : Extends l (l ++ [Act.pause timing.entry]) := (Extends.refl l).concat (.of_eq rfl)
  have hwhole : ∀ {r : Except Err (Option V)} {l' : List (Act V)},
      Extends (l ++ [Act.pause timing.entry]) l' ∧
        Ends (LoadsTo cfg key) (l ++ [Act.pause timing.entry]) r l' →
      Extends l l' ∧ Ends (LoadsTo cfg key) l r l' := fun h =>
    ⟨hpause.trans h.1, fun a ha => (h.2 a ha).of_extends (LoadsTo.grows a) hpause⟩
  refine ⟨trivial, wp_mono (fun _ _ _ h => hwhole h) ?_⟩
  rw [hstate]
  generalize l ++ [Act.pause timing.entry] = l₁
  have hext : Extends l₁ (l₁ ++ [Act.trackInflight key s.nextInflight opts]) :=
    (Extends.refl l₁).concat (.of_eq rfl)
  have hlead : Leads (l₁ ++ [Act.trackInflight key s.nextInflight opts]) key :=
    .inl ⟨_, _, List.mem_concat_self ..⟩
  refine ⟨⟨hopen, fun e he => (hexpired e he).trans (Nat.le_add_right ..), rfl, timing, hc⟩, ?_⟩
  change wp w (Rule cfg c) (tracked key s.nextInflight (do
    hop
    later (loadWithDistributedLock cfg key opts timing.rounds))) _ _ _
  rw [tracked, wp_andThen]
  have hload : Meets cfg w c (l₁ ++ [Act.trackInflight key s.nextInflight opts]) (do
      hop
      later (loadWithDistributedLock cfg key opts timing.rounds))
      (Ends (LoadsTo cfg key) (l₁ ++ [Act.trackInflight key s.nextInflight opts])) :=
    meets_ask_bind fun _ => (meets_loadWithDistributedLock hlead hc).later
  refine wp_mono ?_ (hload _)
  rintro r l' s' ⟨h', hr⟩
  rw [wp_andThen]
  refine ⟨?_, wp_ofExcept.mpr ⟨(hext.trans h').concat (.of_eq rfl), fun a ha => ?_⟩⟩
  · obtain ⟨u, hu, -⟩ := h'
    refine ⟨l₁, opts, u, by rw [hu]; simp, fun v hv => ?_⟩
    obtain ⟨u', hu', hloads⟩ := hr _ hv
    have hsame : u = u' := List.append_cancel_left (hu.symm.trans hu')
    rw [hsame]
    exact hloads
  · exact ((hr a ha).of_extends (LoadsTo.grows a) hext).mono (LoadsTo.grows a)
      ((Extends.refl _).concat (.of_eq rfl))

theorem wp_getOrLoad [Faithful cfg w] {timing : Timing} {s : State V}
    (hc : c = .getOrSet key opts timing) :
    wp w (Rule cfg c) (getOrLoad cfg key opts timing)
      (fun r l' _ => SharedEnd cfg key l r l') l s := by
  refine wp_bind (meets_get.later s) ?_ ?_
  case refine_2 =>
    rintro e l₁ s₁ ⟨h₁, -⟩
    exact .inl ⟨h₁, nofun⟩
  rintro cached l₁ s₁ ⟨h₁, hcached⟩
  have hend := hcached cached rfl
  split
  · exact .inl ⟨h₁, ends_ok (hend.imp fun u hu => .inl hu)⟩
  rw [wp_getState]
  split
  · exact .inl ⟨h₁, nofun⟩
  rename_i hopen
  rw [Bool.not_eq_true] at hopen
  -- from here to the entry in the map there is no await
  refine wp_bind wp_trustedNegative ?_ ?_
  case refine_2 =>
    rintro e l₂ s₂ ⟨-, -, b, hb, -⟩
    cases hb
  rintro negative l₂ s₂ ⟨h₂, hsame, b, hb, -⟩
  cases hb
  have hopen₂ : s₂.closed = false := by rw [hsame.closed, hopen]
  have hwhole : ∀ {r : Except Err (Option V)} {l' : List (Act V)},
      SharedEnd cfg key l₂ r l' → SharedEnd cfg key l r l' :=
    fun h => h.of_extends (h₁.trans h₂)
  split
  · exact hwhole (.inl ⟨.refl l₂, ends_ok (since_refl trivial)⟩)
  split
  · rename_i hoff
    rw [Bool.not_eq_true'] at hoff
    exact wp_mono (fun r l' _ h => hwhole (.inl h)) (meets_loadAlone hc (.inl hoff))
  refine wp_bind wp_liveInflight ?_ ?_
  case refine_2 =>
    rintro e l₃ s₃ ⟨-, -, b, hb, -⟩
    cases hb
  rintro existing l₃ s₃ ⟨h₃, hclosed, found, hfound, hlive, hexpired⟩
  cases hfound
  split
  · exact wp_mono (fun r l' _ h => hwhole (h.of_extends h₃)) (wp_joinInflight (hlive _ rfl))
  · have hopen₃ : s₃.closed = false := by rw [hclosed, hopen₂]
    exact wp_mono (fun r l' _ h => hwhole (SharedEnd.of_extends h₃ (.inl h)))
      (wp_startLoad hc hopen₃ (hexpired rfl))

theorem wp_getOrSet [Faithful cfg w] {timing : Timing} {s : State V}
    (hc : c = .getOrSet key opts timing) :
    wp w (Rule cfg c) (getOrSet cfg key opts timing)
      (fun r l' _ => SharedEnd cfg key l r l') l s := by
  refine wp_ensureOpen (.inl ⟨.refl l, nofun⟩) fun hopen => ?_
  rw [validateCacheBudgets]
  split
  · exact .inl ⟨.refl l, nofun⟩
  change wp w (Rule cfg c) (if !opts.inflight then getOrLoad cfg key opts timing else _) _ l s
  split
  · exact wp_getOrLoad hc
  refine wp_bind wp_liveInflight ?_ ?_
  case refine_2 =>
    rintro e l₁ s₁ ⟨-, -, b, hb, -⟩
    cases hb
  rintro existing l₁ s₁ ⟨h₁, -, found, hfound, hlive, -⟩
  cases hfound
  split
  · exact wp_mono (fun r l' _ h => h.of_extends h₁) (wp_joinInflight (hlive _ rfl))
  · exact wp_mono (fun r l' _ h => h.of_extends h₁) (wp_getOrLoad hc)

end Loading

/-! ### The event bus -/

theorem meets_restoreInvalidationTrust :
    Meets cfg w c l restoreInvalidationTrust fun _ _ => True := by
  refine meets_read fun s => ?_
  refine wp_perform_then (.of_eq rfl) rfl (.refl l) (meets_ask_bind fun _ => ?_)
  refine meets_read fun s' => ?_
  split
  · rename_i hmay
    exact ⟨⟨List.mem_concat_self .., hmay⟩, (Extends.refl _).concat (.of_eq rfl), trivial⟩
  · exact meets_pure trivial s'

theorem meets_onStatus {status : EventBusStatus} :
    Meets cfg w c l (onStatus status) fun _ _ => True := by
  refine meets_read fun s => ?_
  split
  · exact meets_pure trivial s
  refine wp_perform_then (.of_eq rfl) trivial (.refl l) ?_
  split
  · exact meets_restoreInvalidationTrust
  · exact meets_pure trivial

theorem Meets.andAny {f : α → P V β} {Q : Except Err α → List (Act V) → Prop}
    (hp : Meets cfg w c l p Q) (hf : ∀ a l', Extends l l' → Meets cfg w c l' (f a) fun _ _ => True) :
    Meets cfg w c l (p >>= f) fun _ _ => True :=
  hp.bind (fun a l' hext _ => hf a l' hext) fun _ _ _ _ => trivial

theorem meets_applyRemoteDelete {keyTypes : Option (List Bool)} {generation : Option ℕ}
    {keys : List (JsString × ℕ)} :
    Meets cfg w c l (applyRemoteDelete cfg keyTypes generation keys) fun _ _ => True := by
  induction keys generalizing l with
  | nil => exact meets_pure trivial
  | cons key keys ih =>
    refine meets_read fun s => ?_
    split
    · exact meets_pure trivial s
    refine (Meets.andAny (Q := fun _ _ => True) ?_ fun _ l₁ _ => ?_) s
    · refine meets_read fun s => ?_
      split
      · exact wp_perform_then (.of_eq rfl) trivial (.refl l) (meets_hop trivial)
      · exact meets_pure trivial s
    refine Meets.andAny meets_deleteLocal.later fun _ l₂ _ => ?_
    refine Meets.andAny (Q := fun _ _ => True) ?_ fun _ l₃ _ => ih
    rw [deleteAlias]
    split
    · exact meets_deleteLocal.later.mono fun _ _ _ _ => trivial
    · exact meets_pure trivial

/-- How the priming of a key may end. -/
def Primed (cfg : Config V) (g : MutationGuard) (l : List (Act V)) : Prop :=
  .skip .remote g ∈ l ∨ Told cfg .remote g l

theorem Primed.mono {l' : List (Act V)} {g : MutationGuard} (h : Primed cfg g l)
    (hsub : l ⊆ l') : Primed cfg g l' :=
  h.imp (fun h => hsub h) fun h => Told.grows hsub h

theorem meets_primeAbsent {g : MutationGuard} (hobs : Observed l .remote g) :
    Meets cfg w c l (primeAbsent cfg g) (Returns fun _ l' => Primed cfg g l') := by
  refine meets_read fun s => ?_
  split
  · rename_i hobsolete
    simp only [Bool.or_eq_true, Bool.not_eq_true'] at hobsolete
    exact ⟨⟨hobsolete.imp id fun h => ⟨rfl, h⟩, nofun⟩, (Extends.refl l).concat (.of_eq rfl),
      returns_ok (.inl (List.mem_concat_self ..))⟩
  · rename_i hcur
    simp only [Bool.or_eq_true, Bool.not_eq_true', not_or, Bool.not_eq_false] at hcur
    refine wp_perform_then (.of_eq rfl) ⟨hobs, hcur.1⟩ (.refl l) (meets_ask_bind fun _ => ?_)
    refine meets_perform_bind (.of_eq rfl) (fun _ => trivial) ?_
    refine meets_perform (.of_eq rfl) (fun _ => trivial) (returns_ok (.inr fun _ => .inr ?_))
    exact List.mem_append_left _ (List.mem_append_left _ (List.mem_concat_self ..))

theorem meets_primeWith {rawKey : JsString} {g : MutationGuard} {v : V} {opts : Options}
    {generation : Option ℕ} {reusable : Option (Octets × Option ℕ)} {raw : RawEvent V}
    (hc : c = .event raw) (hobs : Observed l .remote g) (hjust : Justified cfg c l g v .remote)
    (hbytes : Reusable cfg v (reusable.map Prod.fst)) :
    Meets cfg w c l (primeWith cfg rawKey g v opts generation reusable)
      (Returns fun _ l' => Primed cfg g l') := by
  refine meets_read fun s => ?_
  split
  · rename_i hobsolete
    simp only [Bool.or_eq_true, Bool.not_eq_true'] at hobsolete
    exact ⟨⟨hobsolete.imp id fun h => ⟨rfl, h⟩, nofun⟩, (Extends.refl l).concat (.of_eq rfl),
      returns_ok (.inl (List.mem_concat_self ..))⟩
  rename_i hcur
  simp only [Bool.or_eq_true, Bool.not_eq_true', not_or, Bool.not_eq_false] at hcur
  refine wp_next (wp_later (wp_promoteToL1 hobs hcur.1 hjust hbytes)) (.refl l)
    fun _ l₁ h₁ htold => meets_read fun s₁ => ?_
  have hprimed : Primed cfg g l₁ := .inr (htold rfl)
  split
  · exact wp_perform_then (.of_eq rfl) nofun (.refl l₁)
      (meets_hop (returns_ok (hprimed.mono (List.subset_append_left ..))))
  rename_i hcur₁
  simp only [Bool.or_eq_true, Bool.not_eq_true', not_or, Bool.not_eq_false] at hcur₁
  refine wp_next (wp_rememberStale (hobs.mono h₁.subset) hcur₁.1.1
    (.inl (hjust.mono h₁.subset)) hbytes) (.refl l₁) fun _ l₂ h₂ _ => ?_
  refine meets_perform_bind (.of_eq rfl) (fun _ => trivial) ?_
  refine meets_perform (.of_eq rfl) (fun _ => .inr ⟨raw, hc⟩) (returns_ok ?_)
  exact ((hprimed.mono h₂.subset).mono (List.subset_append_left ..)).mono
    (List.subset_append_left ..)

theorem meets_prime {rawKey : JsString} {g : MutationGuard} {v : V} {opts : Options}
    {generation : Option ℕ} {raw : RawEvent V} (hc : c = .event raw)
    (hobs : Observed l .remote g) :
    Meets cfg w c l (prime cfg rawKey g v opts generation)
      (Returns fun _ l' => Primed cfg g l') := by
  rw [prime]
  split
  · refine meets_read fun s => ?_
    refine (Meets.next (meets_readL2 hobs nofun).later fun hit l₁ h₁ hhit => ?_) s
    split
    · exact meets_primeAbsent (hobs.mono h₁.subset)
    · rename_i hit
      obtain ⟨hfrom, hsound⟩ := hhit hit rfl
      have hjust : Justified cfg c l₁ g hit.value .remote := fun _ => hfrom.all (FromL2.grows g _)
      exact meets_read fun s' =>
        meets_primeWith hc (hobs.mono h₁.subset) hjust (hsound.agedBy s.now s'.now) s'
  · rename_i hno
    exact meets_primeWith hc hobs (fun hyes => absurd hyes hno) nofun

theorem meets_primeKey {rawKey : JsString} {key : CacheKey} {v : V} {opts : Options}
    {generation : Option ℕ} {raw : RawEvent V} (hc : c = .event raw) :
    Meets cfg w c l (primeKey cfg rawKey key v opts generation) (Returns fun _ l' =>
      ∃ g, g.key = key ∧ .observeKey .remote g true ∈ l' ∧ Primed cfg g l') := by
  refine meets_read fun s => ?_
  have hmem : Act.observeKey .remote (s.guardFor cfg key true) true ∈
      l ++ [Act.observeKey .remote (s.guardFor cfg key true) true] := List.mem_concat_self ..
  have hrule : Rule cfg c l s (.observeKey .remote (s.guardFor cfg key true) true) := by
    rw [hc]
    exact ⟨trivial, rfl, fun h => absurd rfl h, nofun⟩
  refine wp_guarded hrule (fun _ => rfl) rfl (.refl l) (meets_prime hc ⟨true, hmem⟩ _) ?_
  rintro r l' hext ⟨u, rfl, hprimed⟩
  have hsub := List.subset_append_left l' [Act.releaseKey (s.guardFor cfg key true)]
  exact returns_ok ⟨_, rfl, hsub (hext.subset hmem), hprimed.mono hsub⟩

/-- How the handling of a remote `set` may end for one of its keys. -/
def KeyHandled (cfg : Config V) (keyTypes : Option (List Bool)) (l : List (Act V))
    (key : JsString × ℕ) : Prop :=
  .ignoreEvent ∈ l ∨ .ignoreKey key.1 ∈ l ∨
    ∃ g, g.key = eventKey cfg key.1 (keyTypes.bind fun ts => ts[key.2]?) ∧
      .observeKey .remote g true ∈ l ∧ Primed cfg g l

theorem KeyHandled.mono {keyTypes : Option (List Bool)} {l' : List (Act V)} {key : JsString × ℕ}
    (h : KeyHandled cfg keyTypes l key) (hsub : l ⊆ l') : KeyHandled cfg keyTypes l' key := by
  refine h.imp (fun h => hsub h) (Or.imp (fun h => hsub h) ?_)
  rintro ⟨g, hkey, hmem, hprimed⟩
  exact ⟨g, hkey, hsub hmem, hprimed.mono hsub⟩

theorem meets_applyRemoteSetKeys {v : V} {opts : Options} {keyTypes : Option (List Bool)}
    {generation : Option ℕ} {keys : List (JsString × ℕ)} {raw : RawEvent V} (hc : c = .event raw) :
    Meets cfg w c l (applyRemoteSetKeys cfg v opts keyTypes generation keys)
      (Returns fun _ l' => ∀ key ∈ keys, KeyHandled cfg keyTypes l' key) := by
  induction keys generalizing l with
  | nil => exact meets_pure (returns_ok nofun)
  | cons key keys ih =>
    -- the rest of the keys, once this one is dealt with
    have hrest : ∀ l₁, KeyHandled cfg keyTypes l₁ key → Meets cfg w c l₁
        (applyRemoteSetKeys cfg v opts keyTypes generation keys)
        (Returns fun _ l' => ∀ key' ∈ key :: keys, KeyHandled cfg keyTypes l' key') := by
      intro l₁ hkey
      refine (ih (l := l₁)).mono ?_
      rintro r l₂ h₂ ⟨u, rfl, hkeys⟩
      refine returns_ok fun key' hmem => ?_
      rcases List.mem_cons.mp hmem with rfl | hmem
      · exact hkey.mono h₂.subset
      · exact hkeys key' hmem
    refine meets_read fun s => ?_
    split
    · exact ⟨trivial, (Extends.refl l).concat (.of_eq rfl),
        returns_ok fun _ _ => .inl (List.mem_concat_self ..)⟩
    split
    · exact wp_perform_then (.of_eq rfl) trivial (.refl l)
        (hrest _ (.inr (.inl (List.mem_concat_self ..))))
    refine wp_perform_then (.of_eq rfl) trivial (.refl l) ?_
    exact (meets_primeKey hc).next fun _ l₁ _ hkey => hrest l₁ (.inr (.inr hkey))

theorem meets_applyRemoteSet {keys : List JsString} {keyTypes : Option (List Bool)} {v : V}
    {ttlMs generation : Option ℕ} {raw : RawEvent V} (hc : c = .event raw) :
    Meets cfg w c l (applyRemoteSet cfg keys keyTypes v ttlMs generation)
      (Returns fun _ l' => ∀ key ∈ keys.zipIdx, KeyHandled cfg keyTypes l' key) := by
  refine meets_read fun s => ?_
  split
  · exact ⟨trivial, (Extends.refl l).concat (.of_eq rfl),
      returns_ok fun _ _ => .inl (List.mem_concat_self ..)⟩
  · exact meets_applyRemoteSetKeys hc s

/-- Every key of a remote `set` was handled. -/
def EventHandled (cfg : Config V) (event : InvalidationEvent V) (l : List (Act V)) : Prop :=
  match event.body with
  | .set keys keyTypes _ _ _ => ∀ key ∈ keys.zipIdx, KeyHandled cfg keyTypes l key
  | _ => True

theorem eventHandled_of_ignored {event : InvalidationEvent V} (h : .ignoreEvent ∈ l) :
    EventHandled cfg event l := by
  rw [EventHandled]
  split
  · exact fun _ _ => .inl h
  · trivial

theorem meets_applyRemote {event : InvalidationEvent V} {raw : RawEvent V} (hc : c = .event raw) :
    Meets cfg w c l (applyRemote cfg event)
      fun r l' => r = .ok () → EventHandled cfg event l' := by
  rw [applyRemote]
  split
  · rename_i hbody
    refine meets_applyRemoteDelete.later.mono fun r l' _ _ _ => ?_
    rw [EventHandled, hbody]
    trivial
  · rename_i hbody
    refine (meets_applyRemoteSet hc).later.mono fun r l' _ hend _ => ?_
    obtain ⟨u, -, hkeys⟩ := hend
    rw [EventHandled, hbody]
    exact hkeys
  · rename_i hbody
    refine meets_deleteByPatternLocal.later.mono fun r l' _ _ _ => ?_
    rw [EventHandled, hbody]
    trivial

theorem meets_hasSeenEvent {id : JsString} :
    Meets cfg w c l (hasSeenEvent cfg id) (Returns fun _ _ => True) := by
  refine meets_read fun s => ?_
  split
  · exact meets_pure (returns_ok trivial) s
  split
  · exact wp_perform_then (.of_eq rfl) trivial (.refl l) (meets_pure (returns_ok trivial))
  · exact meets_pure (returns_ok trivial) s

theorem meets_onDecoded {event : InvalidationEvent V} {raw : RawEvent V} (hc : c = .event raw) :
    Meets cfg w c l (onDecoded cfg event) fun r l' => r = .ok () → EventHandled cfg event l' := by
  refine meets_hasSeenEvent.next fun seen l₁ _ _ => ?_
  have hignored : ∀ l : List (Act V), EventHandled cfg event (l ++ [.ignoreEvent]) :=
    fun l => eventHandled_of_ignored (List.mem_concat_self ..)
  split
  · exact meets_perform (.of_eq rfl) (fun _ => trivial) fun _ => hignored l₁
  refine meets_perform_bind (.of_eq rfl) (fun _ => trivial) ?_
  split
  · exact meets_perform (.of_eq rfl) (fun _ => trivial) fun _ => hignored _
  · refine (meets_applyRemote hc).catching (fun _ _ _ h => h) fun e l₂ _ _ => ?_
    exact meets_perform_bind (.of_eq rfl) (fun _ => trivial) (meets_throw nofun)

theorem meets_onEvent {raw : RawEvent V} (hc : c = .event raw) :
    Meets cfg w c l (onEvent cfg raw) fun r l' => r = .ok () →
      ∀ event, raw.decoded = some event → EventHandled cfg event l' := by
  refine meets_read fun s => ?_
  split
  · exact ⟨trivial, (Extends.refl l).concat (.of_eq rfl),
      fun _ _ _ => eventHandled_of_ignored (List.mem_concat_self ..)⟩
  split
  · rename_i hnone
    refine ⟨trivial, (Extends.refl l).concat (.of_eq rfl), fun _ event hsome => ?_⟩
    rw [hnone] at hsome
    cases hsome
  rename_i event hevent
  split
  · exact ⟨trivial, (Extends.refl l).concat (.of_eq rfl),
      fun _ _ _ => eventHandled_of_ignored (List.mem_concat_self ..)⟩
  · refine ((meets_onDecoded hc).mono fun r l' _ h hr event' hevent' => ?_) s
    rw [hevent] at hevent'
    cases hevent'
    exact h hr

theorem meets_close : Meets cfg w c l close fun _ _ => True := by
  refine meets_read fun s => ?_
  split
  · exact meets_hop trivial s
  · exact wp_perform_then (.of_eq rfl) trivial (.refl l) (meets_hop trivial)

/-! ### Every call -/

/-- What the acts of a call tell about it once it has ended. -/
def Call.Ended (cfg : Config V) (r : Except Err (Result V)) (l : List (Act V)) : Call V → Prop
  | get key => ∀ v, r = .ok (.value (some v)) → LookedUp cfg l key v
  | set key v opts => r = .ok .done →
      ∃ g, g.key = key ∧ .observeKey .write g true ∈ l ∧ WriteEnd cfg .write g v opts l
  | getOrSet key _ _ =>
      ((∀ a ∈ l, a.follows = false) ∧ ∀ v, r = .ok (.value (some v)) → Loads cfg l key v) ∨
      ∃ l₁ id outcome, l = l₁ ++ [.follow key id, .joined key id outcome, .unfollow] ∧
        (∀ a ∈ l₁, a.follows = false) ∧ r = outcome.map .value
  | delete key => r = .ok .done →
      ∃ g, g.key = key ∧ .invalidateKey g none ∈ l ∧ DeleteEnd cfg g l
  | deleteByPattern pattern => r = .ok .done → .deleteByPatternLocal pattern ∈ l ∧
      ((cfg.l2.isSome = true → Marked l) ∨ Scanned pattern l)
  | event raw => r = .ok .done →
      ∀ event, raw.decoded = some event → EventHandled cfg event l
  | _ => True

/-- The acts of a call that has ended: nothing that it took is still its own. -/
def Call.Finished (cfg : Config V) (c : Call V) (r : Except Err (Result V)) (l : List (Act V)) :
    Prop :=
  (∀ x, balance l x = 0) ∧ c.Ended cfg r l

theorem Extends.balanced (h : Extends [] l) (x : Resource) : balance l x = 0 :=
  h.balance_eq x

theorem Extends.quiet (h : Extends [] l) : ∀ a ∈ l, a.follows = false := by
  obtain ⟨u, rfl, -, hu⟩ := h
  simpa using hu

theorem wp_map {f : α → β} {post : Except Err α → List (Act V) → State V → Prop}
    {post' : Except Err β → List (Act V) → State V → Prop} {s : State V}
    (hp : wp w (Rule cfg c) p post l s)
    (himp : ∀ r l' s', post r l' s' → post' (r.map f) l' s') :
    wp w (Rule cfg c) (f <$> p) post' l s :=
  wp_bind (f := fun a => pure (f a)) hp (fun _ l' s' h => himp _ l' s' h)
    fun _ l' s' h => himp _ l' s' h

/-- The result of a call that says no more than that it is done. -/
theorem done_eq {r : Except Err Unit}
    (h : r.map (fun _ => (Result.done : Result V)) = .ok .done) : r = .ok () := by
  cases r with
  | error e => cases h
  | ok u => rfl

theorem value_eq {r : Except Err (Option V)} {v : V}
    (h : r.map Result.value = .ok (.value (some v))) : r = .ok (some v) := by
  cases r with
  | error e => cases h
  | ok a =>
    cases h
    rfl

theorem wp_body [Faithful cfg w] (c : Call V) (s : State V) :
    wp w (Rule cfg c) (c.body cfg) (fun r l' _ => c.Finished cfg r l') [] s := by
  cases c with
  | get key =>
    refine wp_map (meets_get s) ?_
    rintro r l' - ⟨hext, h⟩
    refine ⟨hext.balanced, fun v hv => ?_⟩
    exact (h _ (value_eq hv)).all (LookedUp.grows key v)
  | has key =>
    refine wp_map (meets_has s) ?_
    rintro r l' - ⟨hext, -⟩
    exact ⟨hext.balanced, trivial⟩
  | set key v opts =>
    refine wp_map (meets_set rfl (fun x => le_rfl) s) ?_
    rintro r l' - ⟨hext, h⟩
    exact ⟨hext.balanced, fun hr => h (done_eq hr)⟩
  | getOrSet key opts timing =>
    refine wp_map (wp_getOrSet rfl) ?_
    rintro r l' - (⟨hext, h⟩ | ⟨l₁, id, hext, rfl⟩)
    · refine ⟨hext.balanced, .inl ⟨hext.quiet, fun v hv => ?_⟩⟩
      exact (h _ (value_eq hv)).all (LoadsTo.grows (some v))
    · refine ⟨fun x => ?_, .inr ⟨l₁, id, r, rfl, hext.quiet, rfl⟩⟩
      rw [balance_append, hext.balanced]
      cases x <;> rfl
  | delete key =>
    refine wp_map (meets_delete s) ?_
    rintro r l' - ⟨hext, h⟩
    exact ⟨hext.balanced, fun hr => h (done_eq hr)⟩
  | deleteByPattern pattern =>
    refine wp_map (meets_deleteByPattern s) ?_
    rintro r l' - ⟨hext, h⟩
    exact ⟨hext.balanced, fun hr => h (done_eq hr)⟩
  | status st =>
    refine wp_map (meets_onStatus s) ?_
    rintro r l' - ⟨hext, -⟩
    exact ⟨hext.balanced, trivial⟩
  | event raw =>
    refine wp_map (meets_onEvent rfl s) ?_
    rintro r l' - ⟨hext, h⟩
    exact ⟨hext.balanced, fun hr => h (done_eq hr)⟩
  | subscribed =>
    refine wp_map (meets_restoreInvalidationTrust s) ?_
    rintro r l' - ⟨hext, -⟩
    exact ⟨hext.balanced, trivial⟩
  | close =>
    refine wp_map (meets_close s) ?_
    rintro r l' - ⟨hext, -⟩
    exact ⟨hext.balanced, trivial⟩

instance faithful_system (cfg : Config V) (budget : MemoryBudget) (history : Option (ℕ → ℕ))
    (l2 : JsMap JsString (L2Entry V)) :
    Faithful cfg (system cfg budget history l2).toWorld where
  apply_eq _ _ := rfl
  ready_join _ _ h := h

/-- **Every run keeps to the discipline.** -/
theorem disciplined (cfg : Config V) (budget : MemoryBudget) (history : Option (ℕ → ℕ))
    (l2 : JsMap JsString (L2Entry V)) (events : List (Event (Env V) Query (Resp V) (Call V))) :
    ((system cfg budget history l2).run events).Sound (system cfg budget history l2) (Rule cfg)
      (fun c r l _ => c.Finished cfg r l) :=
  sound wp_body events

end HybridCache
