/-
The reads of the UTF-8 scan.

`isSafeUtf8` indexes the whole buffer, of which its range is a part: a look past the
end of the range would still find a byte.  Here the loop runs in a monad that notes
the positions it reads.

* `Follows` — a computation that answers what a plain one does, and whose reads stay
  inside a range;
* `follows_scan` — the loop does so, from every position of its range;
* `isSafeUtf8_exact` — the ranges that are accepted, and what is read for it.
-/
import LazyLayers.Serializer

open Js DecodeValidation Serializer

namespace SafeUtf8

/-- A computation on the input that notes the positions it reads, the latest first. -/
abbrev Reading := StateT (List ℕ) Option

/-- `input[position]`, with its position noted. -/
def readAt (input : Bytes) (position : ℕ) : Reading ℕ := fun reads =>
  (octet input position).map fun byte => (byte, position :: reads)

/-- The loop of `isSafeUtf8`, with its reads. -/
def isSafeUtf8ReadingFrom (input : Bytes) (stop : ℕ) : ℕ → ℕ → Reading Bool
  | 0, _ => failure
  | rounds + 1, position => do
    if stop ≤ position then return true
    let first ← readAt input position
    if first < 0x80 then isSafeUtf8ReadingFrom input stop rounds (position + 1)
    else if 0xC2 ≤ first ∧ first ≤ 0xDF then
      if stop ≤ position + 1 then return false
      if !isContinuation (← readAt input (position + 1)) then return false
      isSafeUtf8ReadingFrom input stop rounds (position + 2)
    else if 0xE0 ≤ first ∧ first ≤ 0xEF then
      if stop ≤ position + 2 then return false
      if !secondOfThree first (← readAt input (position + 1)) then return false
      if !isContinuation (← readAt input (position + 2)) then return false
      isSafeUtf8ReadingFrom input stop rounds (position + 3)
    else if 0xF0 ≤ first ∧ first ≤ 0xF4 then
      if stop ≤ position + 3 then return false
      if !secondOfFour first (← readAt input (position + 1)) then return false
      if !isContinuation (← readAt input (position + 2)) then return false
      if !isContinuation (← readAt input (position + 3)) then return false
      isSafeUtf8ReadingFrom input stop rounds (position + 4)
    else return false

/-- `isSafeUtf8(input, start, end)`, with the positions it reads. -/
def isSafeUtf8Reading (input : Bytes) (start stop : ℕ) : Option (Bool × List ℕ) :=
  isSafeUtf8ReadingFrom input stop (stop - start + 1) start []

/-! ### Reads inside a range -/

section Follows

variable {α β : Type} {start stop : ℕ}

/-- The reading computation answers what `answer` says, and it reads inside of the
range only. -/
def Follows (start stop : ℕ) (scan : Reading α) (answer : Option α) : Prop :=
  ∀ reads, ∃ more : List ℕ, (∀ p ∈ more, start ≤ p ∧ p < stop) ∧
    scan reads = answer.map fun a => (a, more ++ reads)

theorem follows_pure (a : α) : Follows start stop (pure a) (some a) := by
  intro reads
  exact ⟨[], by simp, rfl⟩

theorem follows_failure : Follows start stop (failure : Reading α) none := by
  intro reads
  exact ⟨[], by simp, rfl⟩

theorem follows_readAt {input : Bytes} {position : ℕ} (h : start ≤ position ∧ position < stop) :
    Follows start stop (readAt input position) (octet input position) := by
  intro reads
  refine ⟨[position], ?_, rfl⟩
  intro p hp
  rw [List.mem_singleton.mp hp]
  exact h

theorem follows_bind {scan : Reading α} {answer : Option α} {next : α → Reading β}
    {then' : α → Option β} (h : Follows start stop scan answer)
    (hnext : ∀ a, Follows start stop (next a) (then' a)) :
    Follows start stop (scan >>= next) (answer >>= then') := by
  intro reads
  obtain ⟨more, hmore, hscan⟩ := h reads
  cases answer with
  | none =>
    refine ⟨more, hmore, ?_⟩
    show (scan reads >>= _) = _
    rw [hscan]
    rfl
  | some a =>
    -- the reads of the second part lie on those of the first
    obtain ⟨later, hlater, hthen⟩ := hnext a (more ++ reads)
    refine ⟨later ++ more, ?_, ?_⟩
    · intro p hp
      exact (List.mem_append.mp hp).elim (hlater p) (hmore p)
    · show (scan reads >>= fun r => next r.1 r.2) = _
      rw [hscan, List.append_assoc]
      exact hthen

theorem follows_ite {c : Prop} [Decidable c] {scan scan' : Reading α} {answer answer' : Option α}
    (h : c → Follows start stop scan answer) (h' : ¬ c → Follows start stop scan' answer') :
    Follows start stop (if c then scan else scan') (if c then answer else answer') := by
  by_cases hc : c
  · rw [if_pos hc, if_pos hc]
    exact h hc
  · rw [if_neg hc, if_neg hc]
    exact h' hc

/-- A wider range bounds the reads as well. -/
theorem Follows.mono {start' : ℕ} {scan : Reading α} {answer : Option α}
    (h : Follows start stop scan answer) (hle : start' ≤ start) : Follows start' stop scan answer := by
  intro reads
  obtain ⟨more, hmore, hscan⟩ := h reads
  refine ⟨more, ?_, hscan⟩
  intro p hp
  obtain ⟨hstart, hstop⟩ := hmore p hp
  exact ⟨by omega, hstop⟩

end Follows

/-- **The loop reads what lies ahead in its range**, and nothing else. -/
theorem follows_scan (input : Bytes) (stop : ℕ) : ∀ rounds position : ℕ,
    Follows position stop (isSafeUtf8ReadingFrom input stop rounds position)
      (isSafeUtf8From input stop rounds position) := by
  intro rounds
  induction rounds with
  | zero =>
    intro position
    exact follows_failure
  | succ rounds ih =>
    intro position
    have hnext : ∀ k, Follows position stop
        (isSafeUtf8ReadingFrom input stop rounds (position + k))
        (isSafeUtf8From input stop rounds (position + k)) :=
      fun k => (ih (position + k)).mono (Nat.le_add_right position k)
    rw [isSafeUtf8ReadingFrom, isSafeUtf8From]
    refine follows_ite (fun _ => follows_pure true) fun hopen => ?_
    refine follows_bind (follows_readAt (by omega)) fun first => ?_
    refine follows_ite (fun _ => hnext 1) fun _ => ?_
    refine follows_ite (fun _ => ?_) fun _ => ?_
    -- one byte follows the first
    · refine follows_ite (fun _ => follows_pure false) fun hroom => ?_
      refine follows_bind (follows_readAt (by omega)) fun second => ?_
      exact follows_ite (fun _ => follows_pure false) fun _ => hnext 2
    refine follows_ite (fun _ => ?_) fun _ => ?_
    -- two bytes follow it: the room for both is tested before either is read
    · refine follows_ite (fun _ => follows_pure false) fun hroom => ?_
      refine follows_bind (follows_readAt (by omega)) fun second => ?_
      refine follows_ite (fun _ => follows_pure false) fun _ => ?_
      refine follows_bind (follows_readAt (by omega)) fun third => ?_
      exact follows_ite (fun _ => follows_pure false) fun _ => hnext 3
    refine follows_ite (fun _ => ?_) fun _ => follows_pure false
    · refine follows_ite (fun _ => follows_pure false) fun hroom => ?_
      refine follows_bind (follows_readAt (by omega)) fun second => ?_
      refine follows_ite (fun _ => follows_pure false) fun _ => ?_
      refine follows_bind (follows_readAt (by omega)) fun third => ?_
      refine follows_ite (fun _ => follows_pure false) fun _ => ?_
      refine follows_bind (follows_readAt (by omega)) fun fourth => ?_
      exact follows_ite (fun _ => follows_pure false) fun _ => hnext 4

/-- The worker's validation of a payload, and that of Node over `isUtf8`, are one. -/
theorem isSafeMessagePack_agree (limits : ResolvedDecodeLimits) (payload : Bytes) :
    isSafeMessagePack limits payload isSafeUtf8 =
      isSafeMessagePack limits payload validUtf8Range := by
  obtain ⟨b, hb, hiff⟩ : ∃ b, isSafeMessagePack limits payload isSafeUtf8 = some b ∧
      (b = true ↔ Accepts limits payload) :=
    isSafeMessagePack_spec fun start stop hstop => isSafeUtf8_eq hstop
  obtain ⟨b', hb', hiff'⟩ : ∃ b, isSafeMessagePack limits payload validUtf8Range = some b ∧
      (b = true ↔ Accepts limits payload) := isSafeMessagePack_spec fun _ _ _ => rfl
  rw [hb, hb', Option.some.injEq, Bool.eq_iff_iff, hiff, hiff']

/-- **`isSafeUtf8` accepts well-formed UTF-8 and nothing else.**  On every range of
every byte array it ends; it accepts exactly the concatenations of encoded characters,
as `isUtf8` of the range does; whatever it answers, it has read no byte outside of the
range; and so the two runtimes validate every payload alike. -/
theorem isSafeUtf8_exact (input : Bytes) (start stop : ℕ) (hstop : stop ≤ input.length) :
    ∃ (accepted : Bool) (reads : List ℕ),
      isSafeUtf8 input start stop = some accepted ∧
      isSafeUtf8Reading input start stop = some (accepted, reads) ∧
      (∀ p ∈ reads, start ≤ p ∧ p < stop) ∧
      (accepted = true ↔
        ∃ cs : List Char, window input start stop = cs.flatMap String.utf8EncodeChar) ∧
      validUtf8Range input start stop = some accepted ∧
      ∀ limits : ResolvedDecodeLimits, isSafeMessagePack limits input isSafeUtf8 =
        isSafeMessagePack limits input validUtf8Range := by
  have hscan : isSafeUtf8 input start stop = some (isUtf8 (window input start stop)) :=
    isSafeUtf8_eq hstop
  obtain ⟨reads, hreads, hread⟩ := follows_scan input stop (stop - start + 1) start []
  rw [List.append_nil] at hread
  refine ⟨isUtf8 (window input start stop), reads, hscan, ?_, hreads, isUtf8_iff _, rfl,
    fun limits => isSafeMessagePack_agree limits input⟩
  rw [isSafeUtf8Reading, hread]
  exact congrArg (Option.map fun accepted => (accepted, reads)) hscan

/-- In the bytes of `é€`, cut inside of the second character, the scan stops at the end
of its range although the buffer goes on. -/
theorem isSafeUtf8_exact_cut :
    3 ≤ [0xC3, 0xA9, 0xE2, 0x82, 0xAC].length ∧
      ∃ (accepted : Bool) (reads : List ℕ),
        isSafeUtf8 [0xC3, 0xA9, 0xE2, 0x82, 0xAC] 0 3 = some accepted ∧
        isSafeUtf8Reading [0xC3, 0xA9, 0xE2, 0x82, 0xAC] 0 3 = some (accepted, reads) ∧
        accepted = false ∧ ∀ p ∈ reads, p < 3 := by
  refine ⟨by decide, ?_⟩
  obtain ⟨accepted, reads, hscan, hread, hreads, -⟩ :=
    isSafeUtf8_exact [0xC3, 0xA9, 0xE2, 0x82, 0xAC] 0 3 (by decide)
  refine ⟨accepted, reads, hscan, hread, ?_, fun p hp => (hreads p hp).2⟩
  have hfalse : isSafeUtf8 [0xC3, 0xA9, 0xE2, 0x82, 0xAC] 0 3 = some false := by decide
  exact Option.some.inj (hscan.symm.trans hfalse)

end SafeUtf8
