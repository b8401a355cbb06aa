/-
Generations of keys.

A versioned cache gives a key a new storage key whenever it is deleted, so that
what is still on its way under the old one can land where it wants.  The maps of
stale values, absences and loads in flight know nothing of generations; they are
emptied instead.  When the generations can no longer be kept, the cache stops
answering from its tiers for good.

* `toStorageKey_inj` — storage keys tell keys and generations apart;
* `Run.getGeneration_mono` — generations only grow while the cache is open;
* `Run.safeGenerations` — as long as the generations are kept, the counter stays ahead of
  them.
-/
import Mathlib.Logic.Relation
import LazyLayers.HybridShared

open Js Pattern Async Runs

namespace HybridCache

variable {V : Type} {cfg : Config V}

/-! ### Storage keys -/

/-- A separator that does not occur behind itself can be found again. -/
theorem append_cons_inj {α : Type} {x : α} {a a' d d' : List α} (hd : x ∉ d) (hd' : x ∉ d')
    (h : a ++ x :: d = a' ++ x :: d') : a = a' ∧ d = d' := by
  have hone : ∀ {a a' d d' : List α}, x ∉ d → ∀ c, a' = a ++ c → x :: d = c ++ x :: d' →
      a = a' ∧ d = d' := by
    intro a a' d d' hd c ha hc
    cases c with
    | nil =>
      rw [List.append_nil] at ha
      exact ⟨ha.symm, (List.cons.inj hc).2⟩
    | cons y c =>
      obtain ⟨-, rfl⟩ := List.cons.inj hc
      exact absurd (List.mem_append_right c (List.mem_cons_self ..)) hd
  rcases List.append_eq_append_iff.mp h with ⟨c, ha, hc⟩ | ⟨c, ha, hc⟩
  · exact hone hd c ha hc
  · obtain ⟨rfl, rfl⟩ := hone hd' c ha hc
    exact ⟨rfl, rfl⟩

theorem toNat_of_isDigit {c : Char} (h : c.isDigit = true) : 48 ≤ c.toNat ∧ c.toNat ≤ 57 := by
  simp only [Char.isDigit, Bool.and_eq_true, decide_eq_true_eq] at h
  exact h

/-- A digit survives as a code unit. -/
theorem toNat_ofNat_of_isDigit {c : Char} (h : c.isDigit = true) :
    (UInt16.ofNat c.toNat).toNat = c.toNat := by
  have hbound := toNat_of_isDigit h
  rw [UInt16.toNat_ofNat']
  omega

theorem isDigit_of_mem_repr {n : ℕ} {c : Char} (h : c ∈ (Nat.repr n).toList) :
    c.isDigit = true := by
  rw [Nat.toList_repr] at h
  exact Nat.isDigit_of_mem_toDigits (by decide) (by decide) h

theorem toNat_of_mem_natText {n : ℕ} {u : UInt16} (h : u ∈ natText n) :
    48 ≤ u.toNat ∧ u.toNat ≤ 57 := by
  obtain ⟨c, hc, rfl⟩ := List.mem_map.mp h
  rw [toNat_ofNat_of_isDigit (isDigit_of_mem_repr hc)]
  exact toNat_of_isDigit (isDigit_of_mem_repr hc)

theorem natText_injective : Function.Injective natText := by
  -- the characters can be read off again
  have hback : ∀ n : ℕ, (natText n).map (fun u => Char.ofNat u.toNat) = (Nat.repr n).toList := by
    intro n
    rw [natText, List.map_map]
    refine (List.map_congr_left ?_).trans (List.map_id _)
    intro c hc
    show Char.ofNat (UInt16.ofNat c.toNat).toNat = c
    rw [toNat_ofNat_of_isDigit (isDigit_of_mem_repr hc), Char.ofNat_toNat]
  intro n m h
  have hrepr : (Nat.repr n).toList = (Nat.repr m).toList := by rw [← hback, ← hback, h]
  rw [Nat.toList_repr, Nat.toList_repr] at hrepr
  rw [← @Nat.ofDigitChars_ten_toDigits n, hrepr, Nat.ofDigitChars_ten_toDigits]

/-- **Storage keys tell keys and generations apart.** -/
theorem toStorageKey_inj (hver : cfg.versioning = true) (s s' : State V) (key key' : CacheKey) :
    s.toStorageKey cfg key = s'.toStorageKey cfg key' ↔
      key.text = key'.text ∧ s.getGeneration key.text = s'.getGeneration key'.text := by
  rw [State.toStorageKey, State.toStorageKey, if_pos hver, if_pos hver]
  constructor
  · intro h
    have htext : key.text ++ str "::v" ++ natText (s.getGeneration key.text) =
        key'.text ++ str "::v" ++ natText (s'.getGeneration key'.text) :=
      congrArg CacheKey.text h
    -- the last letter of the separator is none of the digits
    have hsep : str "::v" = str "::" ++ [118] := by decide
    have hnot : ∀ n, (118 : UInt16) ∉ natText n := by
      intro n hmem
      have hbound := (toNat_of_mem_natText hmem).2
      simp at hbound
    rw [hsep, ← List.append_assoc, ← List.append_assoc, List.append_assoc _ [118],
      List.append_assoc _ [118]] at htext
    obtain ⟨hhead, hdigits⟩ := append_cons_inj (hnot _) (hnot _) htext
    exact ⟨List.append_cancel_right hhead, natText_injective hdigits⟩
  · rintro ⟨htext, hgen⟩
    rw [htext, ← htext, hgen, htext]

/-! ### Generations grow -/

/-- A stored generation is a safe integer, and not below the one before. -/
theorem generations_apply (cfg : Config V) (s : State V) (a : Act V) :
    (a.apply cfg s).generations = s.generations ∨
    (∃ key n, s.getGeneration key ≤ n ∧ n < 2 ^ 53 ∧
      (a.apply cfg s).generations = s.generations.set key n) ∨
    a = .close ∧ (a.apply cfg s).generations = [] := by
  rcases hcount : a.counts with _ | _
  · exact .inl (congrArg Books.generations (books_apply s hcount))
  cases a
  case invalidateKey g generation =>
    rcases books_invalidateKey s g generation with ⟨hlt, h⟩ | ⟨h, -⟩
    · refine .inr (.inl ⟨g.key.text, _, ?_, hlt, congrArg Books.generations h⟩)
      cases generation with
      | some n => exact le_max_left _ _
      | none => exact Nat.le_succ _
    · exact .inl (congrArg Books.generations h)
  case advanceGeneration key generation =>
    rcases books_advanceGenerationAfterRemoteSet s key generation with h | ⟨n, hle, hlt, h⟩
    · exact .inl (congrArg Books.generations h)
    · exact .inr (.inl ⟨key, n, hle, hlt, congrArg Books.generations h⟩)
  case close => exact .inr (.inr ⟨rfl, congrArg Books.generations (books_close s)⟩)
  case trackInflight => exact .inl rfl
  case finishInflight key id outcome =>
    exact .inl (congrArg Books.generations (books_finishInflight s key id outcome))
  case follow => exact .inl rfl
  case unfollow => exact .inl rfl
  case abandon => exact .inl rfl
  all_goals cases hcount

theorem getGeneration_of_set {s s' : State V} {key : JsString} {n : ℕ}
    (h : s'.generations = s.generations.set key n) (key' : JsString) :
    s'.getGeneration key' = if key = key' then n else s.getGeneration key' := by
  rw [State.getGeneration, State.getGeneration, h]
  by_cases hkey : key = key'
  · rw [if_pos hkey, hkey, JsMap.get_set_self]
    rfl
  · rw [if_neg hkey, JsMap.get_set_of_ne _ _ hkey]

theorem getGeneration_congr {s s' : State V} (h : s'.generations = s.generations)
    (key : JsString) : s'.getGeneration key = s.getGeneration key := by
  rw [State.getGeneration, State.getGeneration, h]

theorem getGeneration_apply (s : State V) {a : Act V} (hclose : a ≠ .close) (key : JsString) :
    s.getGeneration key ≤ (a.apply cfg s).getGeneration key := by
  rcases generations_apply cfg s a with h | ⟨key', n, hle, -, h⟩ | ⟨h, -⟩
  · exact (getGeneration_congr h key).ge
  · rw [getGeneration_of_set h]
    split_ifs with hkey
    · exact hkey ▸ hle
    · exact le_rfl
  · exact absurd h hclose

/-- Every generation is a safe integer. -/
def State.SafeGenerations (s : State V) : Prop := ∀ key, s.getGeneration key < 2 ^ 53

theorem safeGenerations_apply {s : State V} (hs : s.SafeGenerations) (a : Act V) :
    (a.apply cfg s).SafeGenerations := by
  intro key
  rcases generations_apply cfg s a with h | ⟨key', n, -, hlt, h⟩ | ⟨-, h⟩
  · rw [getGeneration_congr h]
    exact hs key
  · rw [getGeneration_of_set h]
    split_ifs
    · exact hlt
    · exact hs key
  · rw [State.getGeneration, h]
    exact Nat.two_pow_pos 53

theorem generations_env (s : State V) (e : Env V) : (e.apply s).generations = s.generations :=
  congrArg Books.generations (books_env s e).1

namespace Run

variable {r : Run V}

/-- **Generations never decrease** while the cache is open. -/
theorem getGeneration_mono {m n : ℕ} (hmn : m ≤ n) (hopen : (r.at n).closed = false)
    (key : JsString) : (r.at m).getGeneration key ≤ (r.at n).getGeneration key := by
  induction n, hmn using Nat.le_induction with
  | base => exact le_rfl
  | succ n hmn ih =>
    have hbefore : (r.at n).closed = false := by
      by_contra hclosed
      rw [Bool.not_eq_false] at hclosed
      rw [closed_mono (Nat.le_succ n) hclosed] at hopen
      cases hopen
    refine (ih hbefore).trans ?_
    rcases hget : r.trace[n]? with _ | ⟨i, a⟩ | e
    · have hsame : r.at (n + 1) = r.at n := stateAt_succ_of_none hget
      rw [hsame]
    · have hdoes : r.Does n i a := hget
      rw [at_succ_own hdoes] at hopen ⊢
      refine getGeneration_apply _ ?_ key
      rintro rfl
      have hclosed : ((Act.close (V := V)).apply r.cfg (r.at n)).closed = true :=
        congrArg Core.closed (core_close (r.at n))
      rw [hclosed] at hopen
      cases hopen
    · rw [at_succ hget]
      exact (getGeneration_congr (generations_env (r.at n) e) key).ge

/-- Generations are safe integers at all times, so events may carry them. -/
theorem safeGenerations (n : ℕ) : (r.at n).SafeGenerations := by
  have hnone : (r.at 0).SafeGenerations := by
    intro key
    exact Nat.two_pow_pos 53
  refine invariant (P := State.SafeGenerations) hnone ?_ n
  intro s x hs
  cases x with
  | own i a => exact safeGenerations_apply hs a
  | env e => exact fun key => (getGeneration_congr (generations_env s e) key).symm ▸ hs key

end Run

end HybridCache
