/-
A bounded cache that the program does not implement itself (`lru-cache`).

The package is a parameter.  `T` is the type of its clock, `κ` that of the keys and `ε` that
of the values.  What a program may rely on is documented behaviour, in two groups.

* `LruCache` — the calls, and what they answer;
* `Disposing` — whatever leaves is disposed of once, and no more than `maxSize` stay;
* `Reading` — a value is found under the key that it was set for, until it is deleted or
  has expired;
* `Disposing.sum_run` — what a call does to a sum over the values;
* `Below` — one cache answers what another one does, or less.
-/
import Mathlib.Tactic

/-- The calls that may change a cache. -/
inductive LruCall (T κ ε : Type)
  | get (now : T) (key : κ)
  | set (now : T) (key : κ) (value : ε) (ttl : T)
  | delete (key : κ)
  | pop
  | clear
  | purgeStale (now : T)

/-- What a call leaves: the cache, the values that `dispose` has been called with, and the
answer. -/
structure LruAfter (C ε : Type) where
  cache : C
  disposed : List ε
  answer : Option ε

/-- `LRUCache` with a count-valued size bound; `rentries` with `allowStale`, so it visits every
entry, the least recently used one first. -/
structure LruCache (T κ ε : Type) where
  Cache : Type
  make : ℕ → Cache
  maxSize : Cache → ℕ
  size : Cache → ℕ
  peek : Cache → T → κ → Option ε
  has : Cache → T → κ → Bool
  keys : Cache → T → List κ
  rentries : Cache → List (κ × ε)
  getRemainingTTL : Cache → T → κ → T
  run : Cache → LruCall T κ ε → LruAfter Cache ε

namespace LruCache

variable {T κ ε : Type} (lru : LruCache T κ ε)

/-- The values of the resident entries, expired or not. -/
def values (c : lru.Cache) : List ε := (lru.rentries c).map Prod.snd

/-- What a call puts into the cache. -/
def added : LruCall T κ ε → List ε
  | .set _ _ value _ => [value]
  | _ => []

/-- `dispose` is called exactly once for each entry that leaves, and there are never more
than `maxSize` entries. -/
structure Disposing : Prop where
  values_make : ∀ max, lru.values (lru.make max) = []
  maxSize_make : ∀ max, lru.maxSize (lru.make max) = max
  maxSize_run : ∀ c call, lru.maxSize (lru.run c call).cache = lru.maxSize c
  size_le : ∀ c, lru.size c ≤ lru.maxSize c
  values_clear : ∀ c, lru.values (lru.run c .clear).cache = []
  disposed : ∀ c call, 0 < lru.maxSize c →
    (lru.values (lru.run c call).cache ++ (lru.run c call).disposed).Perm (added call ++ lru.values c)

/-- One cache answers what another one does, or less. -/
def Below (c' c : lru.Cache) : Prop :=
  ∀ later key value, lru.peek c' later key = some value → lru.peek c later key = some value

/-- `get` and `peek` find what was set for the key, unless it has left or expired.  Time only
takes away, and so does every call but the one that sets the key. -/
structure Reading [Preorder T] : Prop where
  peek_make : ∀ max now key, lru.peek (lru.make max) now key = none
  answer_get : ∀ c now key, (lru.run c (.get now key)).answer = lru.peek c now key
  expired : ∀ c key {now later}, now ≤ later → lru.peek c now key = none →
    lru.peek c later key = none
  peek_set_self : ∀ c key value ttl {now later found},
    lru.peek (lru.run c (.set now key value ttl)).cache later key = some found → found = value
  peek_set_other : ∀ c key value ttl {now later key' found}, key ≠ key' →
    lru.peek (lru.run c (.set now key value ttl)).cache later key' = some found →
      lru.peek c later key' = some found
  peek_delete : ∀ c key later, lru.peek (lru.run c (.delete key)).cache later key = none
  below : ∀ c call, added call = [] → lru.Below (lru.run c call).cache c

variable {lru}

/-- A sum over the values, before and after a call. -/
theorem Disposing.sum_run (h : lru.Disposing) (c : lru.Cache) (call : LruCall T κ ε)
    (hpositive : 0 < lru.maxSize c) (f : ε → ℕ) :
    ((lru.values (lru.run c call).cache).map f).sum + ((lru.run c call).disposed.map f).sum =
      ((added call).map f).sum + ((lru.values c).map f).sum := by
  have hsum := ((h.disposed c call hpositive).map f).sum_eq
  rwa [List.map_append, List.map_append, List.sum_append, List.sum_append] at hsum

theorem Below.refl (c : lru.Cache) : lru.Below c c := fun _ _ _ h => h

theorem Below.trans {c c' c'' : lru.Cache} (h : lru.Below c'' c') (h' : lru.Below c' c) :
    lru.Below c'' c := fun later key value hvalue => h' later key value (h later key value hvalue)

end LruCache

