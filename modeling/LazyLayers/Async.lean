/-
Cooperative tasks over a shared state.

An asynchronous function is a tree (`Prog`): it reads the shared state, performs
atomic acts on it, and gives up control at its `await`s.  Between two awaits
nothing else runs; at an await anything may.  A schedule starts calls, resumes
suspended ones with an answer to the query they are waiting for, once it is
ready, and lets the environment act; every interleaving of any number of calls
is a schedule.

The trace of a run records every act with the task that performed it, so the
state is a function of the trace and history needs no variables of its own.

* `total_eq_sum` — what acts add up to, task by task;
* `wp` — the weakest precondition of a task over the acts it has performed so
  far and the shared state: each act satisfies the guarantee `G`, whatever the
  state has become at an await;
* `wp_andThen`, `wp_mono` — sequencing and consequence;
* `Keeps`, `wp_bracket` — programs that relate what has been done before and after them,
  and what they take and give back;
* `sound` — the rule for runs: if every call meets its `wp`, then every act of
  every run satisfies its guarantee, and the postcondition of a call holds of
  its acts where it ends;
* `Rises` — acts that occur in the order of their stages, each stage once;
* `opened` — a call begins with the acts up to its first await, in one turn;
* `run_append` — how a run continues.
-/
import Mathlib.Tactic

namespace Async

/-- An asynchronous function.  `read` sees the shared state, `act` changes it,
`await q` suspends until the query `q` is answered. -/
inductive Prog (σ A Q : Type) (Resp : Q → Type) (ε α : Type) : Type
  | ret (a : α)
  | throw (e : ε)
  | read (k : σ → Prog σ A Q Resp ε α)
  | act (a : A) (k : Prog σ A Q Resp ε α)
  | await (q : Q) (k : Resp q → Prog σ A Q Resp ε α)

namespace Prog

variable {σ A Q ε α β : Type} {Resp : Q → Type}

/-- Continue with the outcome of `p`, a value or an exception. -/
def andThen (p : Prog σ A Q Resp ε α) (f : Except ε α → Prog σ A Q Resp ε β) :
    Prog σ A Q Resp ε β :=
  match p with
  | ret a => f (.ok a)
  | throw e => f (.error e)
  | read k => read fun s => (k s).andThen f
  | act a k => act a (k.andThen f)
  | await q k => await q fun r => (k r).andThen f

def ofExcept : Except ε α → Prog σ A Q Resp ε α
  | .ok a => ret a
  | .error e => throw e

instance : Monad (Prog σ A Q Resp ε) where
  pure := ret
  bind p f := p.andThen fun
    | .ok a => f a
    | .error e => throw e

/-- `try p catch (e) { h(e) }`. -/
def catching (p : Prog σ A Q Resp ε α) (h : ε → Prog σ A Q Resp ε α) : Prog σ A Q Resp ε α :=
  p.andThen fun
    | .ok a => ret a
    | .error e => h e

/-- `try p finally f`. -/
def finally' (p : Prog σ A Q Resp ε α) (f : Prog σ A Q Resp ε Unit) : Prog σ A Q Resp ε α :=
  p.andThen fun r => f.andThen fun
    | .ok () => ofExcept r
    | .error e => throw e

def getState : Prog σ A Q Resp ε σ := read ret

def perform (a : A) : Prog σ A Q Resp ε Unit := act a (ret ())

def ask (q : Q) : Prog σ A Q Resp ε (Resp q) := await q ret

end Prog

/-- An entry of the trace: an act of a task, or of the environment. -/
inductive Entry (A E : Type)
  | own (task : ℕ) (a : A)
  | env (e : E)

/-- The act, if the entry is one of task `me`. -/
def Entry.act? {A E : Type} (me : ℕ) : Entry A E → Option A
  | own task a => if task = me then some a else none
  | env _ => none

/-- The acts of task `me`, in order. -/
def own {A E : Type} (me : ℕ) (h : List (Entry A E)) : List A := h.filterMap (Entry.act? me)

/-- What acts do to the shared state, and when a query can be answered in it. -/
structure World (σ A E Q : Type) where
  init : σ
  apply : σ → A → σ
  applyEnv : σ → E → σ
  ready : Q → σ → Bool := fun _ _ => true

section Traces

variable {σ A E Q : Type} (w : World σ A E Q)

def World.stepEntry (s : σ) : Entry A E → σ
  | .own _ a => w.apply s a
  | .env e => w.applyEnv s e

/-- The state that a trace leads to. -/
def World.state (h : List (Entry A E)) : σ := h.foldl w.stepEntry w.init

theorem World.state_concat (h : List (Entry A E)) (x : Entry A E) :
    w.state (h ++ [x]) = w.stepEntry (w.state h) x := by
  simp [state]

@[simp] theorem own_append (me : ℕ) (h h' : List (Entry A E)) :
    own me (h ++ h') = own me h ++ own me h' := List.filterMap_append ..

@[simp] theorem own_map_own (me : ℕ) (u : List A) :
    own me (u.map (Entry.own (E := E) me)) = u := by
  induction u with
  | nil => rfl
  | cons a u ih =>
    rw [List.map_cons, own, List.filterMap_cons, Entry.act?, if_pos rfl]
    exact congrArg (a :: ·) ih

theorem own_map_own_of_ne {me i : ℕ} (hne : i ≠ me) (u : List A) :
    own me (u.map (Entry.own (E := E) i)) = [] := by
  rw [own, List.filterMap_eq_nil_iff]
  intro x hx
  obtain ⟨a, -, rfl⟩ := List.mem_map.mp hx
  exact if_neg hne

theorem mem_own {me : ℕ} {a : A} {h : List (Entry A E)} :
    a ∈ own me h ↔ ∃ m : ℕ, h[m]? = some (.own me a) := by
  rw [own, List.mem_filterMap]
  constructor
  · rintro ⟨x, hx, hact⟩
    cases x with
    | own task b =>
      rw [Entry.act?, Option.ite_none_right_eq_some] at hact
      obtain ⟨rfl, hab⟩ := hact
      cases hab
      exact List.getElem?_of_mem hx
    | env e => cases hact
  · rintro ⟨m, hm⟩
    exact ⟨_, List.mem_of_getElem? hm, if_pos rfl⟩

/-- An act among the first `n` entries has its position there. -/
theorem mem_own_take {me n : ℕ} {a : A} {h : List (Entry A E)} (ha : a ∈ own me (h.take n)) :
    ∃ m, m < n ∧ h[m]? = some (.own me a) := by
  obtain ⟨m, hm⟩ := mem_own.mp ha
  have hlt := (List.getElem?_eq_some_iff.mp hm).1
  rw [List.length_take] at hlt
  rw [List.getElem?_take_of_lt (by omega)] at hm
  exact ⟨m, by omega, hm⟩

theorem own_eq_nil {me : ℕ} {h : List (Entry A E)} (hnone : ∀ a, Entry.own me a ∉ h) :
    own me h = [] := by
  rw [List.eq_nil_iff_forall_not_mem]
  intro a ha
  obtain ⟨m, hm⟩ := mem_own.mp ha
  exact hnone a (List.mem_of_getElem? hm)

/-- The sum of `f` over the acts of all tasks. -/
def total (f : A → ℤ) (h : List (Entry A E)) : ℤ :=
  (h.map fun
    | .own _ a => f a
    | .env _ => 0).sum

theorem total_concat (f : A → ℤ) (h : List (Entry A E)) (x : Entry A E) :
    total f (h ++ [x]) = total f h + total f [x] := by
  simp [total]

/-- The sum over all acts is the sum over the tasks. -/
theorem total_eq_sum (f : A → ℤ) {n : ℕ} (h : List (Entry A E))
    (hlt : ∀ i a, Entry.own i a ∈ h → i < n) :
    total f h = ∑ i ∈ Finset.range n, ((own i h).map f).sum := by
  induction h using List.reverseRecOn with
  | nil => simp [total, own]
  | append_singleton h x ih =>
    rw [total_concat, ih fun i a hmem => hlt i a (List.mem_append_left _ hmem)]
    simp only [own_append, List.map_append, List.sum_append, Finset.sum_add_distrib]
    congr 1
    cases x with
    | env e => simp [total, own, Entry.act?, List.filterMap_cons]
    | own i a =>
      have hi : i ∈ Finset.range n := Finset.mem_range.mpr (hlt i a (by simp))
      rw [Finset.sum_eq_single i]
      · simp [total, own, Entry.act?]
      · intro j _ hj
        simp [own, Entry.act?, Ne.symm hj]
      · exact fun hnot => absurd hi hnot

end Traces

/-! ### Weakest preconditions -/

section Wp

variable {σ A E Q ε α β : Type} {Resp : Q → Type}
variable (w : World σ A E Q) (G : List A → σ → A → Prop)

/-- After the acts `l`, in state `s`, the program `p` performs only acts that `G`
allows and ends in `post`.  At an await the state may become anything in which the
query is ready. -/
def wp : Prog σ A Q Resp ε α → (Except ε α → List A → σ → Prop) → List A → σ → Prop
  | .ret a, post, l, s => post (.ok a) l s
  | .throw e, post, l, s => post (.error e) l s
  | .read k, post, l, s => wp (k s) post l s
  | .act a k, post, l, s => G l s a ∧ wp k post (l ++ [a]) (w.apply s a)
  | .await q k, post, l, _ => ∀ r s', w.ready q s' = true → wp (k r) post l s'

variable {w G} {p : Prog σ A Q Resp ε α} {l : List A} {s : σ}

theorem wp_mono {post post' : Except ε α → List A → σ → Prop}
    (himp : ∀ r l s, post r l s → post' r l s) (hwp : wp w G p post l s) :
    wp w G p post' l s := by
  induction p generalizing l s with
  | ret a => exact himp _ _ _ hwp
  | throw e => exact himp _ _ _ hwp
  | read k ih => exact ih s hwp
  | act a k ih => exact ⟨hwp.1, ih hwp.2⟩
  | await q k ih => exact fun r s' hready => ih r (hwp r s' hready)

/-- A weaker guarantee. -/
theorem wp_weaken {G' : List A → σ → A → Prop} {post : Except ε α → List A → σ → Prop}
    (himp : ∀ l s a, G l s a → G' l s a) (hwp : wp w G p post l s) : wp w G' p post l s := by
  induction p generalizing l s with
  | ret a => exact hwp
  | throw e => exact hwp
  | read k ih => exact ih s hwp
  | act a k ih => exact ⟨himp _ _ _ hwp.1, ih hwp.2⟩
  | await q k ih => exact fun r s' hready => ih r (hwp r s' hready)

/-- A guarantee and a postcondition that always hold. -/
theorem wp_of_always {post : Except ε α → List A → σ → Prop} (hG : ∀ l s a, G l s a)
    (hpost : ∀ r l s, post r l s) : wp w G p post l s := by
  induction p generalizing l s with
  | ret a => exact hpost _ _ _
  | throw e => exact hpost _ _ _
  | read k ih => exact ih s
  | act a k ih => exact ⟨hG _ _ _, ih⟩
  | await q k ih => exact fun r _ _ => ih r

theorem wp_andThen {f : Except ε α → Prog σ A Q Resp ε β}
    {post : Except ε β → List A → σ → Prop} :
    wp w G (p.andThen f) post l s ↔ wp w G p (fun r l s => wp w G (f r) post l s) l s := by
  induction p generalizing l s with
  | ret a => rfl
  | throw e => rfl
  | read k ih => exact ih s
  | act a k ih => exact and_congr_right fun _ => ih
  | await q k ih =>
    exact forall_congr' fun r => forall_congr' fun s' => forall_congr' fun _ => ih r

@[simp] theorem wp_pure {a : α} {post : Except ε α → List A → σ → Prop} :
    wp w G (pure a : Prog σ A Q Resp ε α) post l s ↔ post (.ok a) l s := Iff.rfl

@[simp] theorem wp_throw {e : ε} {post : Except ε α → List A → σ → Prop} :
    wp w G (.throw e : Prog σ A Q Resp ε α) post l s ↔ post (.error e) l s := Iff.rfl

@[simp] theorem wp_getState {f : σ → Prog σ A Q Resp ε α}
    {post : Except ε α → List A → σ → Prop} :
    wp w G (Prog.getState >>= f) post l s ↔ wp w G (f s) post l s := Iff.rfl

@[simp] theorem wp_perform {a : A} {post : Except ε Unit → List A → σ → Prop} :
    wp w G (Prog.perform a : Prog σ A Q Resp ε Unit) post l s ↔
      G l s a ∧ post (.ok ()) (l ++ [a]) (w.apply s a) := Iff.rfl

@[simp] theorem wp_perform_bind {a : A} {f : Unit → Prog σ A Q Resp ε α}
    {post : Except ε α → List A → σ → Prop} :
    wp w G (Prog.perform a >>= f) post l s ↔
      G l s a ∧ wp w G (f ()) post (l ++ [a]) (w.apply s a) := Iff.rfl

@[simp] theorem wp_ask {q : Q} {post : Except ε (Resp q) → List A → σ → Prop} :
    wp w G (Prog.ask q : Prog σ A Q Resp ε (Resp q)) post l s ↔
      ∀ r s', w.ready q s' = true → post (.ok r) l s' := Iff.rfl

@[simp] theorem wp_ask_bind {q : Q} {f : Resp q → Prog σ A Q Resp ε α}
    {post : Except ε α → List A → σ → Prop} :
    wp w G (Prog.ask q >>= f) post l s ↔
      ∀ r s', w.ready q s' = true → wp w G (f r) post l s' := Iff.rfl

/-- Sequencing: an exception leaves the block. -/
theorem wp_bind {f : α → Prog σ A Q Resp ε β} {post : Except ε β → List A → σ → Prop}
    {M : Except ε α → List A → σ → Prop} (hp : wp w G p M l s)
    (hok : ∀ a l s, M (.ok a) l s → wp w G (f a) post l s)
    (herr : ∀ e l s, M (.error e) l s → post (.error e) l s) :
    wp w G (p >>= f) post l s := by
  change wp w G (p.andThen _) post l s
  rw [wp_andThen]
  refine wp_mono ?_ hp
  intro r l s hr
  cases r with
  | ok a => exact hok a l s hr
  | error e => exact herr e l s hr

theorem wp_catching {f : ε → Prog σ A Q Resp ε α} {post M : Except ε α → List A → σ → Prop}
    (hp : wp w G p M l s) (hok : ∀ a l s, M (.ok a) l s → post (.ok a) l s)
    (herr : ∀ e l s, M (.error e) l s → wp w G (f e) post l s) :
    wp w G (p.catching f) post l s := by
  rw [Prog.catching, wp_andThen]
  refine wp_mono ?_ hp
  intro r l s hr
  cases r with
  | ok a => exact hok a l s hr
  | error e => exact herr e l s hr

theorem wp_ofExcept {r : Except ε α} {post : Except ε α → List A → σ → Prop} :
    wp w G (Prog.ofExcept r : Prog σ A Q Resp ε α) post l s ↔ post r l s := by
  cases r <;> rfl

/-- `finally` with a cleanup that cannot fail. -/
theorem wp_finally {f : Prog σ A Q Resp ε Unit} {post M : Except ε α → List A → σ → Prop}
    (hp : wp w G p M l s)
    (hf : ∀ r l s, M r l s → wp w G f (fun u l s => u = .ok () ∧ post r l s) l s) :
    wp w G (p.finally' f) post l s := by
  rw [Prog.finally', wp_andThen]
  refine wp_mono ?_ hp
  intro r l s hr
  rw [wp_andThen]
  refine wp_mono ?_ (hf r l s hr)
  rintro u l s ⟨rfl, hpost⟩
  exact wp_ofExcept.mpr hpost

end Wp

/-! ### Programs that keep a relation -/

section Keeps

variable {σ A E Q ε α β : Type} {Resp : Q → Type}
variable (w : World σ A E Q) (G : List A → σ → A → Prop) (R : List A → List A → Prop)

/-- From the acts `l` on, whatever the state, the program performs only acts that `G` allows
and ends with acts that are `R`-related to `l`. -/
def Keeps (l : List A) (p : Prog σ A Q Resp ε α) : Prop := ∀ s, wp w G p (fun _ l' _ => R l l') l s

variable {w G R} {p : Prog σ A Q Resp ε α} {l l' : List A}

/-- What `a` takes, `b` gives back on every way out. -/
theorem wp_bracket {a b : A} {s : σ} (hG : G l s a) (hp : Keeps w G R (l ++ [a]) p)
    (hb : ∀ l' s', R (l ++ [a]) l' → G l' s' b ∧ R l (l' ++ [b])) :
    wp w G (Prog.perform a >>= fun _ => p.finally' (Prog.perform b)) (fun _ l' _ => R l l') l s := by
  refine ⟨hG, wp_finally (hp _) ?_⟩
  intro r l' s' hR
  obtain ⟨hG', hR'⟩ := hb l' s' hR
  exact ⟨hG', rfl, hR'⟩

variable [IsPreorder (List A) R]

/-- A program that has come from `l` to `l'` may go on from there. -/
theorem Keeps.at (h : Keeps w G R l' p) (hR : R l l') (s : σ) :
    wp w G p (fun _ l'' _ => R l l'') l' s := by
  refine wp_mono ?_ (h s)
  intro r l'' s' hR'
  exact trans_of R hR hR'

theorem keeps_pure (a : α) : Keeps w G R l (pure a : Prog σ A Q Resp ε α) := fun _ => refl_of R l

theorem keeps_throw (e : ε) : Keeps w G R l (.throw e : Prog σ A Q Resp ε α) :=
  fun _ => refl_of R l

theorem keeps_ofExcept (r : Except ε α) :
    Keeps w G R l (Prog.ofExcept r : Prog σ A Q Resp ε α) := by
  cases r with
  | ok a => exact keeps_pure a
  | error e => exact keeps_throw e

theorem Keeps.andThen {f : Except ε α → Prog σ A Q Resp ε β} (hp : Keeps w G R l p)
    (hf : ∀ r l', R l l' → Keeps w G R l' (f r)) : Keeps w G R l (p.andThen f) := by
  intro s
  rw [wp_andThen]
  refine wp_mono ?_ (hp s)
  intro r l' s' hR
  exact (hf r l' hR).at hR s'

theorem Keeps.bind {f : α → Prog σ A Q Resp ε β} (hp : Keeps w G R l p)
    (hf : ∀ a l', R l l' → Keeps w G R l' (f a)) : Keeps w G R l (p >>= f) := by
  refine hp.andThen fun r l' hR => ?_
  cases r with
  | ok a => exact hf a l' hR
  | error e => exact keeps_throw e

theorem Keeps.map {f : α → β} (hp : Keeps w G R l p) : Keeps w G R l (f <$> p) :=
  hp.bind fun a _ _ => keeps_pure (f a)

theorem Keeps.catching {f : ε → Prog σ A Q Resp ε α} (hp : Keeps w G R l p)
    (hf : ∀ e l', R l l' → Keeps w G R l' (f e)) : Keeps w G R l (p.catching f) := by
  refine hp.andThen fun r l' hR => ?_
  cases r with
  | ok a => exact keeps_pure a
  | error e => exact hf e l' hR

theorem keeps_ask (q : Q) : Keeps w G R l (Prog.ask q : Prog σ A Q Resp ε (Resp q)) :=
  fun _ _ _ _ => refl_of R l

/-- An act that is allowed in the state that has just been read. -/
theorem wp_perform_keeps {a : A} {f : Unit → Prog σ A Q Resp ε α} {s : σ} (hG : G l s a)
    (hR : R l (l ++ [a])) (hf : Keeps w G R (l ++ [a]) (f ())) :
    wp w G (Prog.perform a >>= f) (fun _ l' _ => R l l') l s :=
  ⟨hG, hf.at hR _⟩

theorem keeps_perform_bind {a : A} {f : Unit → Prog σ A Q Resp ε α} (hG : ∀ s, G l s a)
    (hR : R l (l ++ [a])) (hf : Keeps w G R (l ++ [a]) (f ())) :
    Keeps w G R l (Prog.perform a >>= f) :=
  fun s => wp_perform_keeps (hG s) hR hf

end Keeps

/-! ### Stages -/

section Stages

variable {σ A E Q ε α β : Type} {Resp : Q → Type} (f : A → ℕ)

/-- Acts of stage 0 may occur anywhere; along every path the other stages rise, from above
`lo` to `hi` at most. -/
def Rises : Prog σ A Q Resp ε α → ℕ → ℕ → Prop
  | .ret _, lo, hi => lo ≤ hi
  | .throw _, lo, hi => lo ≤ hi
  | .read k, lo, hi => ∀ s, Rises (k s) lo hi
  | .act a k, lo, hi => f a = 0 ∧ Rises k lo hi ∨ lo < f a ∧ Rises k (f a) hi
  | .await _ k, lo, hi => ∀ r, Rises (k r) lo hi

/-- All acts of the program are of stage 0. -/
structure Plain (p : Prog σ A Q Resp ε α) : Prop where
  level : ∀ n, Rises f p n n

variable {f} {p : Prog σ A Q Resp ε α} {lo hi : ℕ}

theorem Rises.of_le {lo' : ℕ} (h : Rises f p lo hi) (hle : lo' ≤ lo) : Rises f p lo' hi := by
  induction p generalizing lo lo' with
  | ret a => exact hle.trans h
  | throw e => exact hle.trans h
  | read k ih => exact fun s => ih s (h s) hle
  | act a k ih =>
    rcases h with ⟨hzero, h⟩ | ⟨hlt, h⟩
    · exact .inl ⟨hzero, ih h hle⟩
    · exact .inr ⟨hle.trans_lt hlt, h⟩
  | await q k ih => exact fun r => ih r (h r) hle

theorem Rises.to_le {hi' : ℕ} (h : Rises f p lo hi) (hle : hi ≤ hi') : Rises f p lo hi' := by
  induction p generalizing lo with
  | ret a => exact le_trans h hle
  | throw e => exact le_trans h hle
  | read k ih => exact fun s => ih s (h s)
  | act a k ih => exact h.imp (fun h => ⟨h.1, ih h.2⟩) fun h => ⟨h.1, ih h.2⟩
  | await q k ih => exact fun r => ih r (h r)

theorem Rises.andThen {M : ℕ} {k : Except ε α → Prog σ A Q Resp ε β} (hp : Rises f p lo M)
    (hk : ∀ r, Rises f (k r) M hi) : Rises f (p.andThen k) lo hi := by
  induction p generalizing lo with
  | ret a => exact (hk (.ok a)).of_le hp
  | throw e => exact (hk (.error e)).of_le hp
  | read k' ih => exact fun s => ih s (hp s)
  | act a k' ih => exact hp.imp (fun h => ⟨h.1, ih h.2⟩) fun h => ⟨h.1, ih h.2⟩
  | await q k' ih => exact fun r => ih r (hp r)

theorem Rises.bind {M : ℕ} {k : α → Prog σ A Q Resp ε β} (hp : Rises f p lo M) (hle : M ≤ hi)
    (hk : ∀ a, Rises f (k a) M hi) : Rises f (p >>= k) lo hi := by
  refine Rises.andThen hp fun r => ?_
  cases r with
  | ok a => exact hk a
  | error e => exact hle

theorem Rises.catching {M : ℕ} {k : ε → Prog σ A Q Resp ε α} (hp : Rises f p lo M) (hle : M ≤ hi)
    (hk : ∀ e, Rises f (k e) M hi) : Rises f (p.catching k) lo hi := by
  refine Rises.andThen hp fun r => ?_
  cases r with
  | ok a => exact hle
  | error e => exact hk e

theorem Rises.finally' {k : Prog σ A Q Resp ε Unit} (hp : Rises f p lo hi) (hk : Plain f k) :
    Rises f (p.finally' k) lo hi := by
  refine Rises.andThen hp fun r => Rises.andThen (hk.level hi) fun u => ?_
  cases u with
  | ok _ => cases r <;> exact le_rfl
  | error _ => exact le_rfl

theorem rises_perform {a : A} (h : lo < f a) (hle : f a ≤ hi) :
    Rises f (Prog.perform a : Prog σ A Q Resp ε Unit) lo hi := .inr ⟨h, hle⟩

theorem rises_read {k : σ → Prog σ A Q Resp ε α} (h : ∀ s, Rises f (k s) lo hi) :
    Rises f (Prog.getState >>= k) lo hi := h

theorem Plain.rises (h : Plain f p) (hle : lo ≤ hi) : Rises f p lo hi := (h.level lo).to_le hle

/-- Plain acts first. -/
theorem Plain.andRises {k : α → Prog σ A Q Resp ε β} (hp : Plain f p) (hle : lo ≤ hi)
    (hk : ∀ a, Rises f (k a) lo hi) : Rises f (p >>= k) lo hi :=
  (hp.level lo).bind hle hk

theorem plain_pure {a : α} : Plain f (pure a : Prog σ A Q Resp ε α) := ⟨fun _ => le_rfl⟩

theorem plain_throw {e : ε} : Plain f (.throw e : Prog σ A Q Resp ε α) := ⟨fun _ => le_rfl⟩

theorem plain_perform {a : A} (h : f a = 0) :
    Plain f (Prog.perform a : Prog σ A Q Resp ε Unit) := ⟨fun _ => .inl ⟨h, le_rfl⟩⟩

theorem plain_ask {q : Q} : Plain f (Prog.ask q : Prog σ A Q Resp ε (Resp q)) :=
  ⟨fun _ _ => le_rfl⟩

theorem plain_ofExcept {r : Except ε α} : Plain f (Prog.ofExcept r : Prog σ A Q Resp ε α) := by
  cases r <;> exact ⟨fun _ => le_rfl⟩

theorem plain_read {k : σ → Prog σ A Q Resp ε α} (h : ∀ s, Plain f (k s)) :
    Plain f (Prog.getState >>= k) := ⟨fun n s => (h s).level n⟩

theorem Plain.andThen {k : Except ε α → Prog σ A Q Resp ε β} (hp : Plain f p)
    (hk : ∀ r, Plain f (k r)) : Plain f (p.andThen k) :=
  ⟨fun n => (hp.level n).andThen fun r => (hk r).level n⟩

theorem Plain.bind {k : α → Prog σ A Q Resp ε β} (hp : Plain f p) (hk : ∀ a, Plain f (k a)) :
    Plain f (p >>= k) := ⟨fun n => (hp.level n).bind le_rfl fun a => (hk a).level n⟩

theorem Plain.finally' {k : Prog σ A Q Resp ε Unit} (hp : Plain f p) (hk : Plain f k) :
    Plain f (p.finally' k) := ⟨fun n => (hp.level n).finally' hk⟩

/-- An act of a later stage than all before it, unless it is of stage 0. -/
def Later (f : A → ℕ) (l : List A) (a : A) : Prop := f a = 0 ∨ ∀ b ∈ l, f b < f a

/-- What rises meets the guarantee that it does. -/
theorem wp_of_rises {w : World σ A E Q} : ∀ {l : List A} {s : σ} {lo : ℕ}, (∀ b ∈ l, f b ≤ lo) →
    Rises f p lo hi → wp w (fun l _ a => Later f l a) p (fun _ _ _ => True) l s := by
  induction p with
  | ret a => exact fun _ _ => trivial
  | throw e => exact fun _ _ => trivial
  | read k ih => exact fun hl h => ih _ hl (h _)
  | act a k ih =>
    intro l s lo hl h
    have hnext : ∀ m, lo ≤ m → f a ≤ m → ∀ b ∈ l ++ [a], f b ≤ m := by
      intro m hm ha b hb
      rcases List.mem_append.mp hb with hb | hb
      · exact (hl b hb).trans hm
      · rw [List.mem_singleton.mp hb]
        exact ha
    rcases h with ⟨hzero, h⟩ | ⟨hlt, h⟩
    · exact ⟨.inl hzero, ih (hnext lo le_rfl (by omega)) h⟩
    · exact ⟨.inr fun b hb => (hl b hb).trans_lt hlt, ih (hnext (f a) hlt.le le_rfl) h⟩
  | await q k ih => exact fun hl h r s' _ => ih r hl (h r)

end Stages

/-! ### Schedules -/

/-- A shared state together with the calls that may be made on it. -/
structure System (σ A E Q : Type) (Resp : Q → Type) (ε α C : Type) extends World σ A E Q where
  body : C → Prog σ A Q Resp ε α

section Schedule

variable {σ A E Q ε α C : Type} {Resp : Q → Type}

/-- What the scheduler does next. -/
inductive Event (E Q : Type) (Resp : Q → Type) (C : Type)
  | start (c : C)
  | resume (task : ℕ) (answer : ∀ q, Resp q)
  | env (e : E)

/-- A call that was made: what is left of it, and the length of the trace where it
started. -/
structure Task (σ A Q : Type) (Resp : Q → Type) (ε α C : Type) where
  call : C
  rest : Prog σ A Q Resp ε α
  started : ℕ

structure Sys (σ A E Q : Type) (Resp : Q → Type) (ε α C : Type) where
  state : σ
  trace : List (Entry A E)
  tasks : List (Task σ A Q Resp ε α C)

/-- Run a task up to its next await, or to its end. -/
def drive (w : World σ A E Q) (me : ℕ) :
    Prog σ A Q Resp ε α → σ → List (Entry A E) → Prog σ A Q Resp ε α × σ × List (Entry A E)
  | .ret a, s, h => (.ret a, s, h)
  | .throw e, s, h => (.throw e, s, h)
  | .read k, s, h => drive w me (k s) s h
  | .act a k, s, h => drive w me k (w.apply s a) (h ++ [.own me a])
  | .await q k, s, h => (.await q k, s, h)

namespace System

variable (S : System σ A E Q Resp ε α C)

def initial : Sys σ A E Q Resp ε α C := ⟨S.init, [], []⟩

def step (y : Sys σ A E Q Resp ε α C) : Event E Q Resp C → Sys σ A E Q Resp ε α C
  | .start c =>
    let r := drive S.toWorld y.tasks.length (S.body c) y.state y.trace
    ⟨r.2.1, r.2.2, y.tasks ++ [⟨c, r.1, y.trace.length⟩]⟩
  | .resume i answer =>
    match y.tasks[i]? with
    | some ⟨c, .await q k, started⟩ =>
      if S.ready q y.state then
        let r := drive S.toWorld i (k (answer q)) y.state y.trace
        ⟨r.2.1, r.2.2, y.tasks.set i ⟨c, r.1, started⟩⟩
      else y
    | _ => y
  | .env e => ⟨S.applyEnv y.state e, y.trace ++ [.env e], y.tasks⟩

/-- Where a schedule leads. -/
def run (events : List (Event E Q Resp C)) : Sys σ A E Q Resp ε α C :=
  events.foldl S.step S.initial

/-- The system when `later` follows `events`. -/
theorem run_append (events later : List (Event E Q Resp C)) :
    S.run (events ++ later) = later.foldl S.step (S.run events) := List.foldl_append ..

theorem run_concat (events : List (Event E Q Resp C)) (ev : Event E Q Resp C) :
    S.run (events ++ [ev]) = S.step (S.run events) ev := S.run_append ..

end System

/-! ### How calls begin -/

section Opening

/-- The acts of a program up to its first await. -/
def opening (w : World σ A E Q) : Prog σ A Q Resp ε α → σ → List A
  | .ret _, _ => []
  | .throw _, _ => []
  | .read k, s => opening w (k s) s
  | .act a k, s => a :: opening w k (w.apply s a)
  | .await _ _, _ => []

theorem opening_map {β : Type} (w : World σ A E Q) (f : α → β) (p : Prog σ A Q Resp ε α) :
    ∀ s, opening w (f <$> p) s = opening w p s := by
  induction p with
  | ret a => exact fun _ => rfl
  | throw e => exact fun _ => rfl
  | read k ih => exact fun s => ih s s
  | act a k ih => exact fun s => congrArg (a :: ·) (ih (w.apply s a))
  | await q k ih => exact fun _ => rfl

theorem drive_trace (w : World σ A E Q) (me : ℕ) (p : Prog σ A Q Resp ε α) :
    ∀ s h, (drive w me p s h).2.2 = h ++ (opening w p s).map (.own me) := by
  induction p with
  | ret a => simp [drive, opening]
  | throw e => simp [drive, opening]
  | read k ih => exact fun s h => ih s s h
  | act a k ih =>
    intro s h
    rw [drive, ih, opening, List.map_cons, List.append_assoc]
    rfl
  | await q k ih => simp [drive, opening]

theorem drive_state (w : World σ A E Q) (me : ℕ) (p : Prog σ A Q Resp ε α) :
    ∀ h, (drive w me p (w.state h) h).2.1 = w.state (drive w me p (w.state h) h).2.2 := by
  induction p with
  | ret a => exact fun _ => rfl
  | throw e => exact fun _ => rfl
  | read k ih => exact fun h => ih (w.state h) h
  | act a k ih =>
    intro h
    have hnext : w.state (h ++ [.own me a]) = w.apply (w.state h) a := w.state_concat ..
    rw [drive, ← hnext]
    exact ih (h ++ [.own me a])
  | await q k ih => exact fun _ => rfl

/-- How a program ends that ends before its first await. -/
def settles (w : World σ A E Q) : Prog σ A Q Resp ε α → σ → Option (Except ε α)
  | .ret a, _ => some (.ok a)
  | .throw e, _ => some (.error e)
  | .read k, s => settles w (k s) s
  | .act a k, s => settles w k (w.apply s a)
  | .await _ _, _ => none

theorem settles_map {β : Type} (w : World σ A E Q) (f : α → β) (p : Prog σ A Q Resp ε α) :
    ∀ s, settles w (f <$> p) s = (settles w p s).map fun r => r.map f := by
  induction p with
  | ret a => exact fun _ => rfl
  | throw e => exact fun _ => rfl
  | read k ih => exact fun s => ih s s
  | act a k ih => exact fun s => ih (w.apply s a)
  | await q k ih => exact fun _ => rfl

theorem drive_settled (w : World σ A E Q) (me : ℕ) (p : Prog σ A Q Resp ε α) {r : Except ε α} :
    ∀ s h, settles w p s = some r → (drive w me p s h).1 = Prog.ofExcept r := by
  induction p with
  | ret a =>
    rintro s h hr
    cases hr
    rfl
  | throw e =>
    rintro s h hr
    cases hr
    rfl
  | read k ih => exact fun s h hr => ih s s h hr
  | act a k ih => exact fun _ _ hr => ih _ _ hr
  | await q k ih =>
    rintro s h hr
    cases hr

/-- Every call has begun with the acts up to its first await, all in one turn, before the
calls made after it; if it ended with them, nothing has been added since. -/
structure Sys.Opened (S : System σ A E Q Resp ε α C) (y : Sys σ A E Q Resp ε α C) : Prop where
  state_eq : y.state = S.state y.trace
  opens : ∀ (i : ℕ) (t : Task σ A Q Resp ε α C), y.tasks[i]? = some t →
    t.started ≤ y.trace.length ∧ ∃ v, y.trace.drop t.started =
      (opening S.toWorld (S.body t.call) (S.state (y.trace.take t.started))).map (.own i) ++ v
  fresh : ∀ i, y.tasks.length ≤ i → own i y.trace = []
  settled : ∀ (i : ℕ) (t : Task σ A Q Resp ε α C) (r : Except ε α), y.tasks[i]? = some t →
    settles S.toWorld (S.body t.call) (S.state (y.trace.take t.started)) = some r →
    t.rest = Prog.ofExcept r ∧ own i y.trace =
      opening S.toWorld (S.body t.call) (S.state (y.trace.take t.started))
  ordered : ∀ (i j : ℕ) (t t' : Task σ A Q Resp ε α C), i < j → y.tasks[i]? = some t →
    y.tasks[j]? = some t' → t.started + (opening S.toWorld (S.body t.call)
      (S.state (y.trace.take t.started))).length ≤ t'.started

variable {S : System σ A E Q Resp ε α C} {y : Sys σ A E Q Resp ε α C}

theorem Sys.Opened.grow (hy : y.Opened S) {i : ℕ} {t : Task σ A Q Resp ε α C}
    (ht : y.tasks[i]? = some t) (u : List (Entry A E)) : t.started ≤ (y.trace ++ u).length ∧
      ∃ v, (y.trace ++ u).drop t.started = (opening S.toWorld (S.body t.call)
        (S.state ((y.trace ++ u).take t.started))).map (.own i) ++ v := by
  obtain ⟨hle, v, hv⟩ := hy.opens i t ht
  refine ⟨by rw [List.length_append]; omega, v ++ u, ?_⟩
  rw [List.drop_append_of_le_length hle, List.take_append_of_le_length hle, hv, List.append_assoc]

/-- Where a call started the trace does not change any more. -/
theorem Sys.Opened.take_eq (hy : y.Opened S) {i : ℕ} {t : Task σ A Q Resp ε α C}
    (ht : y.tasks[i]? = some t) (u : List (Entry A E)) :
    (y.trace ++ u).take t.started = y.trace.take t.started :=
  List.take_append_of_le_length (hy.opens i t ht).1

/-- The acts of a call that has ended at once are before those of the next call. -/
theorem Sys.Opened.opening_le (hy : y.Opened S) {i : ℕ} {t : Task σ A Q Resp ε α C}
    (ht : y.tasks[i]? = some t) : t.started + (opening S.toWorld (S.body t.call)
      (S.state (y.trace.take t.started))).length ≤ y.trace.length := by
  obtain ⟨hle, v, hv⟩ := hy.opens i t ht
  have hlen := congrArg List.length hv
  rw [List.length_drop, List.length_append, List.length_map] at hlen
  omega

theorem opened_start (hy : y.Opened S) (c : C) : (S.step y (.start c)).Opened S := by
  have hstate : (drive S.toWorld y.tasks.length (S.body c) y.state y.trace).2.1 =
      S.state (drive S.toWorld y.tasks.length (S.body c) y.state y.trace).2.2 := by
    rw [hy.state_eq]
    exact drive_state S.toWorld _ _ y.trace
  -- a task is an old one, or the new one
  have htask : ∀ {i : ℕ} {t : Task σ A Q Resp ε α C}, (y.tasks ++ [⟨c, (drive S.toWorld
      y.tasks.length (S.body c) y.state y.trace).1, y.trace.length⟩])[i]? = some t →
      i < y.tasks.length ∧ y.tasks[i]? = some t ∨ i = y.tasks.length ∧ t = ⟨c, (drive S.toWorld
        y.tasks.length (S.body c) y.state y.trace).1, y.trace.length⟩ := by
    intro i t ht
    rcases Nat.lt_or_ge i y.tasks.length with hlt | hge
    · rw [List.getElem?_append_left hlt] at ht
      exact .inl ⟨hlt, ht⟩
    · rw [List.getElem?_append_right hge, List.getElem?_singleton] at ht
      split at ht
      · exact .inr ⟨by omega, (Option.some.inj ht).symm⟩
      · cases ht
  have hnew : (y.trace ++ (opening S.toWorld (S.body c) y.state).map
      (Entry.own (E := E) y.tasks.length)).take y.trace.length = y.trace := List.take_left ..
  refine ⟨hstate, ?_, ?_, ?_, ?_⟩
  · intro i t ht
    simp only [System.step] at ht ⊢
    rw [drive_trace]
    rcases htask ht with ⟨-, ht⟩ | ⟨rfl, rfl⟩
    · exact hy.grow ht _
    · refine ⟨by simp, [], ?_⟩
      rw [List.drop_left, hnew, List.append_nil, ← hy.state_eq]
  · intro i hi
    simp only [System.step, List.length_append, List.length_singleton] at hi ⊢
    have hne : y.tasks.length ≠ i := by omega
    rw [drive_trace, own_append, own_map_own_of_ne hne, hy.fresh i (by omega), List.append_nil]
  · intro i t r ht hr
    simp only [System.step] at ht hr ⊢
    rw [drive_trace] at hr ⊢
    rcases htask ht with ⟨hlt, ht⟩ | ⟨rfl, rfl⟩
    · have hne : y.tasks.length ≠ i := by omega
      rw [hy.take_eq ht] at hr ⊢
      rw [own_append, own_map_own_of_ne hne, List.append_nil]
      exact hy.settled i t r ht hr
    · dsimp only at hr ⊢
      rw [hnew, ← hy.state_eq] at hr ⊢
      refine ⟨drive_settled S.toWorld _ _ _ _ hr, ?_⟩
      rw [own_append, own_map_own, hy.fresh _ le_rfl, List.nil_append]
  · intro i j t t' hij ht ht'
    simp only [System.step] at ht ht' ⊢
    rw [drive_trace]
    rcases htask ht with ⟨hlt, ht⟩ | ⟨rfl, -⟩
    · rw [hy.take_eq ht]
      rcases htask ht' with ⟨-, ht'⟩ | ⟨-, rfl⟩
      · exact hy.ordered i j t t' hij ht ht'
      · exact hy.opening_le ht
    · rcases htask ht' with ⟨hlt, -⟩ | ⟨rfl, -⟩ <;> omega

theorem opened_step (hy : y.Opened S) (ev : Event E Q Resp C) : (S.step y ev).Opened S := by
  cases ev with
  | start c => exact opened_start hy c
  | resume i answer =>
    simp only [System.step]
    split
    · rename_i c q k started hti
      split
      case isFalse => exact hy
      have hlt := (List.getElem?_eq_some_iff.mp hti).1
      -- the tasks are the old ones, but for what is left of one of them
      have htask : ∀ {j : ℕ} {t : Task σ A Q Resp ε α C},
          (y.tasks.set i ⟨c, (drive S.toWorld i (k (answer q)) y.state y.trace).1, started⟩)[j]? =
            some t → ∃ t₀, y.tasks[j]? = some t₀ ∧ t₀.call = t.call ∧ t₀.started = t.started ∧
              (j = i ∨ t₀ = t) := by
        intro j t ht
        by_cases hj : j = i
        · subst hj
          rw [List.getElem?_set_self hlt] at ht
          cases Option.some.inj ht
          exact ⟨_, hti, rfl, rfl, .inl rfl⟩
        · rw [List.getElem?_set_ne (Ne.symm hj)] at ht
          exact ⟨t, ht, rfl, rfl, .inr rfl⟩
      refine ⟨?_, ?_, ?_, ?_, ?_⟩
      · rw [hy.state_eq]
        exact drive_state S.toWorld _ _ y.trace
      · intro j t ht
        obtain ⟨t₀, ht₀, hcall, hstarted, -⟩ := htask ht
        simp only
        rw [drive_trace, ← hcall, ← hstarted]
        exact hy.grow ht₀ _
      · intro j hj
        simp only [List.length_set] at hj ⊢
        rw [drive_trace, own_append, own_map_own_of_ne (by omega), hy.fresh j hj, List.append_nil]
      · intro j t r ht hr
        obtain ⟨t₀, ht₀, hcall, hstarted, hsame⟩ := htask ht
        simp only at hr ⊢
        rw [drive_trace, ← hcall, ← hstarted, hy.take_eq ht₀] at hr
        rw [drive_trace, ← hcall, ← hstarted, hy.take_eq ht₀]
        obtain ⟨hrest, hown⟩ := hy.settled j t₀ r ht₀ hr
        rcases hsame with rfl | rfl
        · -- a call that has ended waits for nothing
          obtain rfl := Option.some.inj (hti.symm.trans ht₀)
          cases r <;> cases hrest
        · by_cases hj : j = i
          · subst hj
            obtain rfl := Option.some.inj (hti.symm.trans ht₀)
            cases r <;> cases hrest
          · rw [own_append, own_map_own_of_ne (Ne.symm hj), List.append_nil]
            exact ⟨hrest, hown⟩
      · intro j l t t' hjl ht ht'
        obtain ⟨t₀, ht₀, hcall, hstarted, -⟩ := htask ht
        obtain ⟨t₁, ht₁, -, hstarted', -⟩ := htask ht'
        simp only
        rw [drive_trace, ← hcall, ← hstarted, ← hstarted', hy.take_eq ht₀]
        exact hy.ordered j l t₀ t₁ hjl ht₀ ht₁
    · exact hy
  | env e =>
    have hown : ∀ i, own i (y.trace ++ [Entry.env e]) = own i y.trace := by
      intro i
      rw [own_append]
      exact List.append_nil _
    refine ⟨?_, fun i t ht => hy.grow ht _, ?_, ?_, ?_⟩
    · simp [System.step, World.state_concat, World.stepEntry, hy.state_eq]
    · intro i hi
      simp only [System.step] at hi ⊢
      rw [hown]
      exact hy.fresh i hi
    · intro i t r ht hr
      simp only [System.step] at ht hr ⊢
      rw [hy.take_eq ht] at hr ⊢
      rw [hown]
      exact hy.settled i t r ht hr
    · intro i j t t' hij ht ht'
      simp only [System.step] at ht ht' ⊢
      rw [hy.take_eq ht]
      exact hy.ordered i j t t' hij ht ht'

theorem opened (S : System σ A E Q Resp ε α C) (events : List (Event E Q Resp C)) :
    (S.run events).Opened S := by
  induction events using List.reverseRecOn with
  | nil =>
    refine ⟨rfl, ?_, fun _ _ => rfl, ?_, ?_⟩
    · intro i t ht
      simp [System.run, System.initial] at ht
    · intro i t r ht
      simp [System.run, System.initial] at ht
    · intro i j t t' _ ht
      simp [System.run, System.initial] at ht
  | append_singleton events ev ih =>
    rw [S.run_concat]
    exact opened_step ih ev

/-- The acts up to the first await stand where the call started. -/
theorem opened_at (S : System σ A E Q Resp ε α C) (events : List (Event E Q Resp C)) {i k : ℕ}
    {t : Task σ A Q Resp ε α C} {a : A} (ht : (S.run events).tasks[i]? = some t)
    (ha : (opening S.toWorld (S.body t.call)
      (S.state ((S.run events).trace.take t.started)))[k]? = some a) :
    (S.run events).trace[t.started + k]? = some (.own i a) := by
  obtain ⟨-, v, hv⟩ := (opened S events).opens i t ht
  rw [← List.getElem?_drop, hv]
  have hlt : k < (List.map (Entry.own (E := E) i) (opening S.toWorld (S.body t.call)
      (S.state ((S.run events).trace.take t.started)))).length := by
    rw [List.length_map]
    exact (List.getElem?_eq_some_iff.mp ha).1
  rw [List.getElem?_append_left hlt, List.getElem?_map, ha]
  rfl

end Opening

/-! ### Soundness -/

variable {S : System σ A E Q Resp ε α C} {G : C → List A → σ → A → Prop}
  {post : C → Except ε α → List A → σ → Prop}

/-- A segment keeps the state in step with the trace, to which it adds its own acts;
each of them is allowed, and what is left meets the `wp` again. -/
theorem drive_wp (me : ℕ) {g : List A → σ → A → Prop} {q : Except ε α → List A → σ → Prop}
    (p : Prog σ A Q Resp ε α) : ∀ h, wp S.toWorld g p q (own me h) (S.state h) →
      ∃ u p', drive S.toWorld me p (S.state h) h =
          (p', S.state (h ++ u.map (.own me)), h ++ u.map (.own me)) ∧
        (∀ n a, u[n]? = some a →
          g (own me h ++ u.take n) (S.state (h ++ (u.take n).map (.own me))) a) ∧
        wp S.toWorld g p' q (own me h ++ u) (S.state (h ++ u.map (.own me))) := by
  induction p with
  | ret a => exact fun h hwp => ⟨[], .ret a, by simp [drive], nofun, by simpa using hwp⟩
  | throw e => exact fun h hwp => ⟨[], .throw e, by simp [drive], nofun, by simpa using hwp⟩
  | await q k ih => exact fun h hwp => ⟨[], .await q k, by simp [drive], nofun, by simpa using hwp⟩
  | read k ih => exact fun h hwp => ih (S.state h) h hwp
  | act a k ih =>
    intro h hwp
    have hone : own me (h ++ [.own me a]) = own me h ++ [a] := by
      simpa using own_map_own (E := E) me [a]
    obtain ⟨u, p', hd, hg, hrest⟩ := ih (h ++ [.own me a]) (by
      rw [hone, S.state_concat]
      exact hwp.2)
    rw [S.state_concat] at hd
    rw [hone] at hg hrest
    refine ⟨a :: u, p', ?_, ?_, ?_⟩
    · simpa [drive, World.stepEntry] using hd
    · intro n b hb
      cases n with
      | zero =>
        obtain rfl : a = b := by simpa using hb
        simpa using hwp.1
      | succ n => simpa using hg n b (by simpa using hb)
    · simpa using hrest

/-- What holds of every system that a schedule leads to. -/
structure Sys.Sound (S : System σ A E Q Resp ε α C) (G : C → List A → σ → A → Prop)
    (post : C → Except ε α → List A → σ → Prop) (y : Sys σ A E Q Resp ε α C) : Prop where
  state_eq : y.state = S.state y.trace
  keeps : ∀ (m i : ℕ) (a : A), y.trace[m]? = some (.own i a) →
    ∃ t, y.tasks[i]? = some t ∧ t.started ≤ m ∧
      G t.call (own i (y.trace.take m)) (S.state (y.trace.take m)) a
  rest : ∀ (i : ℕ) (t : Task σ A Q Resp ε α C), y.tasks[i]? = some t →
    t.started ≤ y.trace.length ∧
      ∃ s, wp S.toWorld (G t.call) t.rest (post t.call) (own i y.trace) s

theorem Sys.Sound.own_nil {y : Sys σ A E Q Resp ε α C} (hy : y.Sound S G post) {i : ℕ}
    (hi : y.tasks.length ≤ i) : own i y.trace = [] := by
  refine own_eq_nil fun a ha => ?_
  obtain ⟨m, hm⟩ := List.getElem?_of_mem ha
  obtain ⟨t, ht, -⟩ := hy.keeps m i a hm
  exact absurd (List.getElem?_eq_some_iff.mp ht).1 (by omega)

/-- A segment `u` of task `i`, which now is `t`, keeps the system sound. -/
theorem Sys.Sound.segment {y : Sys σ A E Q Resp ε α C} (hy : y.Sound S G post) {i : ℕ}
    {t : Task σ A Q Resp ε α C} {u : List A} {tasks : List (Task σ A Q Resp ε α C)}
    (hti : tasks[i]? = some t) (hstarted : t.started ≤ y.trace.length)
    (hother : ∀ j t, j ≠ i → tasks[j]? = some t → y.tasks[j]? = some t)
    (hsame : ∀ t', y.tasks[i]? = some t' → t'.call = t.call ∧ t'.started = t.started)
    (hkept : ∀ j t, j ≠ i → y.tasks[j]? = some t → tasks[j]? = some t)
    (hg : ∀ n a, u[n]? = some a →
      G t.call (own i y.trace ++ u.take n) (S.state (y.trace ++ (u.take n).map (.own i))) a)
    (hrest : wp S.toWorld (G t.call) t.rest (post t.call) (own i y.trace ++ u)
      (S.state (y.trace ++ u.map (.own i)))) :
    (⟨S.state (y.trace ++ u.map (.own i)), y.trace ++ u.map (.own i), tasks⟩ :
      Sys σ A E Q Resp ε α C).Sound S G post := by
  refine ⟨rfl, ?_, ?_⟩
  · intro m j a hm
    rcases Nat.lt_or_ge m y.trace.length with hlt | hge
    · rw [List.getElem?_append_left hlt] at hm
      rw [List.take_append_of_le_length (Nat.le_of_lt hlt)]
      obtain ⟨t', ht', hm', hG⟩ := hy.keeps m j a hm
      by_cases hj : j = i
      · subst hj
        obtain ⟨hcall, hst⟩ := hsame t' ht'
        exact ⟨t, hti, by omega, hcall ▸ hG⟩
      · exact ⟨t', hkept j t' hj ht', hm', hG⟩
    · rw [List.getElem?_append_right hge, List.getElem?_map, Option.map_eq_some_iff] at hm
      obtain ⟨b, hb, hown⟩ := hm
      cases hown
      have hlen := (List.getElem?_eq_some_iff.mp hb).1
      have htake : (y.trace ++ u.map (Entry.own (E := E) i)).take m =
          y.trace ++ (u.take (m - y.trace.length)).map (Entry.own i) := by
        rw [List.take_append, List.take_of_length_le hge, List.map_take]
      refine ⟨t, hti, by omega, ?_⟩
      rw [htake, own_append, own_map_own]
      exact hg _ _ hb
  · intro j t' ht'
    rw [List.length_append]
    by_cases hj : j = i
    · subst hj
      obtain rfl : t = t' := Option.some.inj (hti.symm.trans ht')
      refine ⟨by omega, S.state (y.trace ++ u.map (.own j)), ?_⟩
      rw [own_append, own_map_own]
      exact hrest
    · obtain ⟨hst, s, hs⟩ := hy.rest j t' (hother j t' hj ht')
      refine ⟨by omega, s, ?_⟩
      rw [own_append, own_map_own_of_ne (Ne.symm hj), List.append_nil]
      exact hs

theorem sound_step (hbody : ∀ c s, wp S.toWorld (G c) (S.body c) (post c) [] s)
    {y : Sys σ A E Q Resp ε α C} (hy : y.Sound S G post) (ev : Event E Q Resp C) :
    (S.step y ev).Sound S G post := by
  cases ev with
  | start c =>
    have hnil := hy.own_nil le_rfl
    obtain ⟨u, p', hd, hg, hrest⟩ := drive_wp (S := S) y.tasks.length (g := G c) (q := post c)
      (S.body c) y.trace (by rw [hnil]; exact hbody c _)
    rw [← hy.state_eq] at hd
    simp only [System.step, hd]
    refine hy.segment (t := ⟨c, p', y.trace.length⟩) (by simp) le_rfl ?_ ?_ ?_ hg hrest
    · intro j t hj ht
      rcases Nat.lt_trichotomy j y.tasks.length with hlt | heq | hgt
      · rwa [List.getElem?_append_left hlt] at ht
      · exact absurd heq hj
      · rw [List.getElem?_eq_none_iff.mpr (by simpa using hgt)] at ht
        cases ht
    · intro t' ht'
      rw [List.getElem?_eq_none_iff.mpr le_rfl] at ht'
      cases ht'
    · intro j t hj ht
      rwa [List.getElem?_append_left (List.getElem?_eq_some_iff.mp ht).1]
  | resume i answer =>
    simp only [System.step]
    split
    · rename_i c q k started hti
      split
      case isFalse => exact hy
      rename_i hready
      rw [hy.state_eq] at hready
      obtain ⟨hst, s, hs⟩ := hy.rest i _ hti
      obtain ⟨u, p', hd, hg, hrest⟩ := drive_wp (S := S) i (g := G c) (q := post c)
        (k (answer q)) y.trace (hs (answer q) _ hready)
      rw [← hy.state_eq] at hd
      simp only [hd]
      have hlt := (List.getElem?_eq_some_iff.mp hti).1
      refine hy.segment (t := ⟨c, p', started⟩) (List.getElem?_set_self hlt) hst ?_ ?_ ?_ hg hrest
      · intro j t hj ht
        rwa [List.getElem?_set_ne (Ne.symm hj)] at ht
      · intro t' ht'
        obtain rfl := Option.some.inj (hti.symm.trans ht')
        exact ⟨rfl, rfl⟩
      · intro j t hj ht
        rwa [List.getElem?_set_ne (Ne.symm hj)]
    · exact hy
  | env e =>
    refine ⟨?_, ?_, ?_⟩
    · simp [System.step, World.state_concat, World.stepEntry, hy.state_eq]
    · intro m i a hm
      simp only [System.step] at hm ⊢
      have hlt : m < y.trace.length := by
        have hle := (List.getElem?_eq_some_iff.mp hm).1
        rw [List.length_append, List.length_singleton] at hle
        refine lt_of_le_of_ne (by omega) fun heq => ?_
        subst heq
        simp at hm
      rw [List.getElem?_append_left hlt] at hm
      rw [List.take_append_of_le_length (Nat.le_of_lt hlt)]
      exact hy.keeps m i a hm
    · intro i t ht
      obtain ⟨hst, s, hs⟩ := hy.rest i t ht
      refine ⟨by simp only [System.step, List.length_append]; omega, s, ?_⟩
      have hnone : own i [Entry.env (A := A) e] = [] := rfl
      rw [System.step, own_append, hnone, List.append_nil]
      exact hs

/-- **The rule for runs.** -/
theorem sound (hbody : ∀ c s, wp S.toWorld (G c) (S.body c) (post c) [] s)
    (events : List (Event E Q Resp C)) : (S.run events).Sound S G post := by
  induction events using List.reverseRecOn with
  | nil => exact ⟨rfl, by simp [System.run, System.initial], by simp [System.run, System.initial]⟩
  | append_singleton events ev ih =>
    rw [S.run_concat]
    exact sound_step hbody ih ev

end Schedule

end Async
