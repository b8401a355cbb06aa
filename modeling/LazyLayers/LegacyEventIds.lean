/-
The ids of events that come without one (`hybridCache.ts`).

A peer of an older version sends no id.  The receiver makes one of the source, the time,
the type and the keys or the pattern, joined with colons and commas, and drops an event
whose id it has seen.  Nothing is escaped, so the text of one event can be that of another,
and it can be the id that a third one brings along.

* `getLegacyEventId` — the id, of any value that the codec accepts;
* `Dropped` — the id is among those of the events received before;
* `Naming` — what an event says of itself and of the keys that it is about;
* `Unambiguous` — the keys are rigid, and one place of the text can be the header;
* `text_inj_iff` — a text belongs to one naming within the limits exactly when it is
  unambiguous;
* `legacy_id_iff` — the ids of accepted events, and which events they drop.
-/
import LazyLayers.EventCodec
import LazyLayers.Joins

open Js Double

namespace LegacyEventId

open EventCodec

/-! ### The id -/

section Id

variable {O : Type}

/-- `String(event.ts)` -/
def timeText : Value O → JsString
  | .num n => n.toText
  | _ => []

/-- `event.keys`, of an event that has been accepted. -/
def keysOf (event : Value O) : List JsString := (event.member (str "keys")).items.map Value.text

/-- `getLegacyEventId(event)` -/
def getLegacyEventId (event : Value O) : JsString :=
  let type := (event.member (str "type")).text
  let suffix :=
    if type = str "del" ∨ type = str "set" then List.intercalate (str ",") (keysOf event)
    else (event.member (str "pattern")).text
  (event.member (str "source")).text ++ str ":" ++ timeText (event.member (str "ts")) ++ str ":" ++
    type ++ str ":" ++ suffix

/-- `event.id ?? this.getLegacyEventId(event)`; an accepted id is a string. -/
def eventId (event : Value O) : JsString :=
  match event.member (str "id") with
  | .undefined => getLegacyEventId event
  | id => id.text

/-- `hasSeenEvent` and `markEventSeen`, while nothing is forgotten. -/
def receive (seen : List JsString) (event : Value O) : List JsString :=
  if eventId event ∈ seen then seen else eventId event :: seen

/-- Behind the events of `history`, the ones received within the window, the event is taken
for a duplicate. -/
def Dropped (history : List (Value O)) (event : Value O) : Prop :=
  eventId event ∈ history.foldl receive []

theorem mem_foldl_receive {history : List (Value O)} {seen : List JsString} {id : JsString} :
    id ∈ history.foldl receive seen ↔ id ∈ seen ∨ ∃ x ∈ history, eventId x = id := by
  induction history generalizing seen with
  | nil => simp
  | cons x history ih =>
    have hreceive : id ∈ receive seen x ↔ id ∈ seen ∨ eventId x = id := by
      rw [receive]
      split_ifs with hseen
      · exact ⟨.inl, fun h => h.elim (fun h => h) fun heq => heq ▸ hseen⟩
      · rw [List.mem_cons, or_comm, eq_comm]
    rw [List.foldl_cons, ih, hreceive, List.exists_mem_cons_iff, or_assoc]

/-- The transport has delivered something that decodes to the event; no caller sets limits of
its own. -/
def Accepted (wire : Wire O) (event : Value O) : Prop :=
  ∃ raw, decodeInvalidationEvent wire raw {} = .ok (some event)

/-- An accepted event without an id of its own. -/
def IdLess (wire : Wire O) (event : Value O) : Prop :=
  Accepted wire event ∧ event.member (str "id") = .undefined

end Id

/-! ### What an event names -/

/-- The keys or the pattern that an event is about. -/
inductive Target
  | del (keys : List JsString)
  | set (keys : List JsString)
  | pattern (text : JsString)
  deriving DecidableEq

def Target.type : Target → JsString
  | .del .. => str "del"
  | .set .. => str "set"
  | .pattern .. => str "pattern"

def Target.suffix : Target → JsString
  | .del keys => List.intercalate (str ",") keys
  | .set keys => List.intercalate (str ",") keys
  | .pattern text => text

/-- The keys, or the pattern. -/
def Target.names : Target → List JsString ⊕ JsString
  | .del keys => .inl keys
  | .set keys => .inl keys
  | .pattern text => .inr text

/-- Source, time, and type with keys or pattern. -/
structure Naming where
  source : JsString
  ts : Number
  target : Target

/-- What stands between the source and the keys. -/
def header (ts : Number) (type : JsString) : JsString :=
  58 :: (ts.toText ++ 58 :: (type ++ [58]))

def Naming.text (n : Naming) : JsString :=
  n.source ++ (header n.ts n.target.type ++ n.target.suffix)

/-- The naming of an accepted event. -/
def naming {O : Type} (event : Value O) : Naming where
  source := (event.member (str "source")).text
  ts := match event.member (str "ts") with
    | .num n => n
    | _ => .nan
  target :=
    if (event.member (str "type")).text = str "del" then .del (keysOf event)
    else if (event.member (str "type")).text = str "set" then .set (keysOf event)
    else .pattern (event.member (str "pattern")).text

/-- At most so many keys, and each text of at most that size. -/
def Target.Bounded (maxKeys maxSize : ℕ) : Target → Prop
  | .del keys => keys.length ≤ maxKeys ∧ ∀ key ∈ keys, byteLength key ≤ maxSize
  | .set keys => keys.length ≤ maxKeys ∧ ∀ key ∈ keys, byteLength key ≤ maxSize
  | .pattern text => byteLength text ≤ maxSize

instance (maxKeys maxSize : ℕ) (t : Target) : Decidable (t.Bounded maxKeys maxSize) :=
  match t with
  | .del keys =>
    inferInstanceAs (Decidable (keys.length ≤ maxKeys ∧ ∀ key ∈ keys, byteLength key ≤ maxSize))
  | .set keys =>
    inferInstanceAs (Decidable (keys.length ≤ maxKeys ∧ ∀ key ∈ keys, byteLength key ≤ maxSize))
  | .pattern text => inferInstanceAs (Decidable (byteLength text ≤ maxSize))

structure Naming.Bounded (n : Naming) (maxKeys maxSize : ℕ) : Prop where
  source : byteLength n.source ≤ maxSize
  target : n.target.Bounded maxKeys maxSize

/-- The keys cannot be cut at a comma or put together in another way. -/
def Target.Rigid (maxKeys maxSize : ℕ) : Target → Prop
  | .del keys => Joins.Rigid 44 byteLength maxKeys maxSize keys
  | .set keys => Joins.Rigid 44 byteLength maxKeys maxSize keys
  | .pattern _ => True

/-- The keys are rigid, and the only place of the text where the header and the rest of an
acceptable event can stand is the one behind the source. -/
def Unambiguous (maxKeys maxSize : ℕ) (n : Naming) : Prop :=
  n.target.Rigid maxKeys maxSize ∧ ∀ source ts (target : Target), ts.isFinite = true →
    byteLength source ≤ maxSize → target.Bounded maxKeys maxSize →
      n.text = source ++ (header ts target.type ++ target.suffix) → source = n.source

/-! ### Texts and their parts -/

theorem colon_not_mem_toText {ts : Number} (h : ts.isFinite = true) : (58 : UInt16) ∉ ts.toText := by
  intro hmem
  exact absurd ((toText_spec h).2 58 hmem) (by decide)

theorem colon_not_mem_type (t : Target) : (58 : UInt16) ∉ t.type := by
  have hdel : (58 : UInt16) ∉ str "del" := by decide
  have hset : (58 : UInt16) ∉ str "set" := by decide
  have hpattern : (58 : UInt16) ∉ str "pattern" := by decide
  cases t with
  | del keys => exact hdel
  | set keys => exact hset
  | pattern text => exact hpattern

/-- What stands before the first separator, and what stands behind it. -/
theorem cut_inj {x : UInt16} {c d : JsString} : ∀ {a b : JsString}, x ∉ a → x ∉ b →
    a ++ x :: c = b ++ x :: d → a = b ∧ c = d := by
  intro a
  induction a with
  | nil =>
    intro b _ hb h
    cases b with
    | nil => exact ⟨rfl, (List.cons.inj h).2⟩
    | cons u b => exact absurd ((List.cons.inj h).1 ▸ List.mem_cons_self) hb
  | cons u a ih =>
    intro b ha hb h
    cases b with
    | nil => exact absurd ((List.cons.inj h).1 ▸ List.mem_cons_self) ha
    | cons v b =>
      obtain ⟨huv, hrest⟩ := List.cons.inj h
      obtain ⟨hab, hcd⟩ := ih (fun hmem => ha (List.mem_cons_of_mem u hmem))
        (fun hmem => hb (List.mem_cons_of_mem v hmem)) hrest
      exact ⟨by rw [huv, hab], hcd⟩

/-- Behind the same source, the header and what follows it can be told apart. -/
theorem header_inj {ts ts' : Number} {t t' : Target} {rest rest' : JsString}
    (hts : ts.isFinite = true) (hts' : ts'.isFinite = true)
    (h : header ts t.type ++ rest = header ts' t'.type ++ rest') :
    ts = ts' ∧ t.type = t'.type ∧ rest = rest' := by
  have hform : ∀ (ts : Number) (type rest : JsString),
      header ts type ++ rest = 58 :: (ts.toText ++ 58 :: (type ++ 58 :: rest)) := by
    intro ts type rest
    simp [header]
  rw [hform, hform, List.cons.injEq] at h
  obtain ⟨htext, h⟩ := cut_inj (colon_not_mem_toText hts) (colon_not_mem_toText hts') h.2
  obtain ⟨htype, hrest⟩ := cut_inj (colon_not_mem_type t) (colon_not_mem_type t') h
  refine ⟨?_, htype, hrest⟩
  -- the text of a number is read as the number
  rw [← Number.ofText_toText ts, htext, Number.ofText_toText]

/-- Where the keys or the pattern are the same, the rest of the text can be told apart. -/
theorem eq_of_target {n n' : Naming} (hn : n.ts.isFinite = true) (hn' : n'.ts.isFinite = true)
    (htext : n'.text = n.text) (htarget : n'.target = n.target) : n' = n := by
  obtain ⟨source, ts, target⟩ := n
  obtain ⟨source', ts', target'⟩ := n'
  obtain rfl : target' = target := htarget
  have hform : ∀ (source : JsString) (ts : Number), Naming.text ⟨source, ts, target'⟩ =
      (source ++ 58 :: ts.toText) ++ 58 :: (target'.type ++ 58 :: target'.suffix) := by
    intro source ts
    simp [Naming.text, header]
  rw [hform, hform] at htext
  -- the last colon in front of the type is the one behind the source
  have hreverse := congrArg List.reverse (List.append_cancel_right htext)
  simp only [List.reverse_append, List.reverse_cons, List.append_assoc, List.singleton_append]
    at hreverse
  obtain ⟨htime, hsource⟩ := cut_inj (mt List.mem_reverse.mp (colon_not_mem_toText hn'))
    (mt List.mem_reverse.mp (colon_not_mem_toText hn)) hreverse
  obtain rfl : source' = source := List.reverse_injective hsource
  obtain rfl : ts' = ts := by
    rw [← Number.ofText_toText ts', List.reverse_injective htime, Number.ofText_toText]
  rfl

/-- Texts that are the same with the same keys or pattern have the same type. -/
theorem target_of_names {n n' : Naming} (htext : n'.text = n.text)
    (hnames : n'.target.names = n.target.names) : n'.target = n.target := by
  have hsuffix : n'.target.suffix = n.target.suffix := by
    have hform : ∀ t : Target, t.suffix = t.names.elim (List.intercalate (str ",")) id := by
      intro t
      cases t <;> rfl
    rw [hform, hform, hnames]
  have hform : ∀ n : Naming, n.text =
      (n.source ++ 58 :: (n.ts.toText ++ 58 :: (n.target.type ++ [58]))) ++ n.target.suffix := by
    intro n
    simp [Naming.text, header]
  rw [hform, hform, hsuffix] at htext
  have hreverse := congrArg List.reverse (List.append_cancel_right htext)
  simp only [List.reverse_append, List.reverse_cons, List.append_assoc, List.reverse_nil,
    List.nil_append, List.cons_append, List.cons.injEq, true_and] at hreverse
  -- the type stands between the last two colons
  obtain ⟨htype, -⟩ := cut_inj (mt List.mem_reverse.mp (colon_not_mem_type _))
    (mt List.mem_reverse.mp (colon_not_mem_type _)) hreverse
  have hdistinct : str "del" ≠ str "set" := by decide
  have htype := List.reverse_injective htype
  revert hnames htype
  cases n'.target <;> cases n.target <;> simp [Target.names, Target.type, hdistinct, hdistinct.symm]

theorem byteLength_join (x y : JsString) :
    byteLength (x ++ 44 :: y) = byteLength x + 1 + byteLength y := by
  have hlow : ¬ isLow 44 := by decide
  have hbytes : utf8 (x ++ 44 :: y) = utf8 x ++ utf8 (44 :: y) := by
    rw [utf8, scalars_append_of_not_low x hlow, List.flatMap_append]
    rfl
  rw [byteLength, hbytes, List.length_append, utf8_cons_ascii (by decide), List.length_cons,
    byteLength, byteLength]
  omega

/-- Within the limits, targets of one type with one text are the same exactly when the keys
are rigid. -/
theorem target_unique_iff {maxKeys maxSize : ℕ} (hmax : 0 < maxKeys) {t : Target}
    (ht : t.Bounded maxKeys maxSize) :
    (∀ t' : Target, t'.Bounded maxKeys maxSize → t'.type = t.type → t'.suffix = t.suffix → t' = t) ↔
      t.Rigid maxKeys maxSize := by
  have hnames : str "del" ≠ str "set" ∧ str "del" ≠ str "pattern" ∧ str "set" ≠ str "pattern" := by
    decide
  have hkeys : ∀ keys : List JsString,
      (keys.length ≤ maxKeys ∧ ∀ key ∈ keys, byteLength key ≤ maxSize) →
      ((∀ keys' : List JsString, (keys'.length ≤ maxKeys ∧ ∀ key ∈ keys', byteLength key ≤ maxSize) →
        List.intercalate (str ",") keys' = List.intercalate (str ",") keys → keys' = keys) ↔
        Joins.Rigid 44 byteLength maxKeys maxSize keys) := by
    intro keys h
    rw [← Joins.unique_iff byteLength_join (Nat.zero_le _) hmax h.1 h.2]
    exact ⟨fun hall keys' hcount hsizes => hall keys' ⟨hcount, hsizes⟩,
      fun hall keys' hbounded => hall keys' hbounded.1 hbounded.2⟩
  cases t with
  | del keys =>
    refine Iff.trans ?_ (hkeys keys ht)
    constructor
    · exact fun hall keys' hbounded hjoin =>
        Target.del.inj (hall (.del keys') hbounded rfl hjoin)
    · intro hall t' hbounded htype hsuffix
      cases t' with
      | del keys' => rw [hall keys' hbounded hsuffix]
      | set keys' => exact absurd htype.symm hnames.1
      | pattern text => exact absurd htype.symm hnames.2.1
  | set keys =>
    refine Iff.trans ?_ (hkeys keys ht)
    constructor
    · exact fun hall keys' hbounded hjoin =>
        Target.set.inj (hall (.set keys') hbounded rfl hjoin)
    · intro hall t' hbounded htype hsuffix
      cases t' with
      | del keys' => exact absurd htype hnames.1
      | set keys' => rw [hall keys' hbounded hsuffix]
      | pattern text => exact absurd htype.symm hnames.2.2
  | pattern text =>
    refine ⟨fun _ => trivial, fun _ t' _ htype hsuffix => ?_⟩
    cases t' with
    | del keys' => exact absurd htype hnames.2.1
    | set keys' => exact absurd htype hnames.2.2
    | pattern text' => rw [show text' = text from hsuffix]

/-- **A text belongs to one naming within the limits exactly when it is unambiguous.** -/
theorem text_inj_iff {maxKeys maxSize : ℕ} (hmax : 0 < maxKeys) {n : Naming}
    (hn : n.ts.isFinite = true) (hbounded : n.Bounded maxKeys maxSize) :
    (∀ n' : Naming, n'.ts.isFinite = true → n'.Bounded maxKeys maxSize → n'.text = n.text → n' = n) ↔
      Unambiguous maxKeys maxSize n := by
  rw [Unambiguous, ← target_unique_iff hmax hbounded.target]
  constructor
  · refine fun hinj => ⟨fun t' ht' htype hsuffix => ?_, fun source ts t' hts hsource ht' htext => ?_⟩
    · exact congrArg Naming.target (hinj ⟨n.source, n.ts, t'⟩ hn ⟨hbounded.source, ht'⟩
        (by rw [Naming.text, Naming.text, htype, hsuffix]))
    · exact congrArg Naming.source (hinj ⟨source, ts, t'⟩ hts ⟨hsource, ht'⟩ htext.symm)
  · rintro ⟨htarget, hplace⟩ n' hn' hbounded' htext
    have hsource := hplace n'.source n'.ts n'.target hn' hbounded'.source hbounded'.target htext.symm
    have hsame := htext
    rw [Naming.text, Naming.text, hsource] at hsame
    obtain ⟨-, htype, hsuffix⟩ := header_inj hn' hn (List.append_cancel_left hsame)
    exact eq_of_target hn hn' htext (htarget n'.target hbounded'.target htype hsuffix)

/-! ### Accepted events -/

section Events

variable {O : Type} {wire : Wire O} {event : Value O} {maxKeys maxKeyBytes : ℕ}

theorem accepted_iff :
    Accepted wire event ↔ isInvalidationEvent event 4096 (64 * 1024) = true := by
  have hkeys : decodeLimit none 4096 = some 4096 := decodeLimit_none (by norm_num) (by norm_num)
  have hbytes : decodeLimit none (64 * 1024) = some (64 * 1024) :=
    decodeLimit_none (by norm_num) (by norm_num)
  constructor
  · rintro ⟨raw, h⟩
    rw [decodeInvalidationEvent.eq_def] at h
    dsimp only at h
    rw [hkeys, hbytes] at h
    exact (Option.filter_eq_some_iff.mp (Except.ok.inj h)).2
  · intro h
    refine ⟨.value event, ?_⟩
    rw [decodeInvalidationEvent.eq_def]
    dsimp only
    rw [hkeys, hbytes]
    dsimp only
    rw [Option.filter_some, if_pos h]

theorem text_of_isText {value : Value O} (h : value.isText maxKeyBytes = true) :
    byteLength value.text ≤ maxKeyBytes := by
  cases value with
  | str s => exact of_decide_eq_true h
  | _ => cases h

theorem keys_of_isDeleteEvent (h : isDeleteEvent event maxKeys maxKeyBytes = true) :
    (keysOf event).length ≤ maxKeys ∧ ∀ key ∈ keysOf event, byteLength key ≤ maxKeyBytes := by
  rw [isDeleteEvent] at h
  split at h
  · next keys hkeys =>
    split at h
    · cases h
    · next hfits =>
      rw [Bool.or_eq_true, not_or, decide_eq_true_eq, not_lt, Bool.not_eq_true',
        Bool.not_eq_false] at hfits
      rw [keysOf, hkeys, Value.items]
      refine ⟨by rw [List.length_map]; exact hfits.1, fun key hkey => ?_⟩
      obtain ⟨value, hvalue, rfl⟩ := List.mem_map.mp hkey
      exact text_of_isText (List.all_eq_true.mp hfits.2 value hvalue)
  · cases h

theorem type_ne : str "set" ≠ str "del" ∧ str "pattern" ≠ str "del" ∧
    str "pattern" ≠ str "set" := by
  decide

/-- The target of an accepted event has its type and its keys. -/
theorem target_spec (h : isInvalidationEvent event maxKeys maxKeyBytes = true) :
    (event.member (str "type")).text = (naming event).target.type ∧
      (naming event).target.Bounded maxKeys maxKeyBytes := by
  rw [isInvalidationEvent, Bool.and_eq_true] at h
  obtain ⟨-, htype⟩ := h
  split at htype
  · next type hmember =>
    have htext : (event.member (str "type")).text = type := by rw [hmember]; rfl
    split at htype
    · next hdel =>
      have htarget : (naming event).target = .del (keysOf event) := by
        rw [naming, htext, if_pos hdel]
      rw [htarget, htext]
      exact ⟨hdel, keys_of_isDeleteEvent htype⟩
    next hdel =>
    split at htype
    · next hpattern =>
      have htarget : (naming event).target = .pattern (event.member (str "pattern")).text := by
        rw [naming, htext, if_neg hdel, if_neg (hpattern ▸ type_ne.2.2)]
      rw [htarget, htext]
      exact ⟨hpattern, text_of_isText htype⟩
    split at htype
    · next hset =>
      rw [isSetEvent, Bool.and_eq_true, Bool.and_eq_true] at htype
      have htarget : (naming event).target = .set (keysOf event) := by
        rw [naming, htext, if_neg hdel, if_pos hset]
      rw [htarget, htext]
      exact ⟨hset, keys_of_isDeleteEvent htype.1.1⟩
    · cases htype
  · cases htype

theorem suffix_naming (event : Value O) : (naming event).target.suffix =
    if (event.member (str "type")).text = str "del" ∨ (event.member (str "type")).text = str "set"
    then List.intercalate (str ",") (keysOf event) else (event.member (str "pattern")).text := by
  rw [naming]
  by_cases hdel : (event.member (str "type")).text = str "del"
  · rw [if_pos hdel, if_pos (Or.inl hdel)]
    rfl
  rw [if_neg hdel]
  by_cases hset : (event.member (str "type")).text = str "set"
  · rw [if_pos hset, if_pos (Or.inr hset)]
    rfl
  · rw [if_neg hset, if_neg (not_or.mpr ⟨hdel, hset⟩)]
    rfl

/-- The naming of an accepted event is as large as the limits allow, and its text is the id
of the event. -/
theorem naming_spec (h : isInvalidationEvent event maxKeys maxKeyBytes = true) :
    (naming event).ts.isFinite = true ∧ (naming event).Bounded maxKeys maxKeyBytes ∧
      getLegacyEventId event = (naming event).text := by
  obtain ⟨htype, hbounded⟩ := target_spec h
  simp only [isInvalidationEvent, hasHeader, Bool.and_eq_true] at h
  obtain ⟨⟨⟨⟨⟨⟨-, hfinite⟩, -⟩, -⟩, hsource⟩, -⟩, -⟩ := h
  obtain ⟨ts, hts⟩ : ∃ ts, event.member (str "ts") = .num ts := by
    cases hmember : event.member (str "ts") with
    | num ts => exact ⟨ts, rfl⟩
    | _ =>
      rw [hmember] at hfinite
      cases hfinite
  have htime : (naming event).ts = ts := by rw [naming, hts]
  refine ⟨?_, ⟨text_of_isText hsource, hbounded⟩, ?_⟩
  · rw [htime]
    rw [hts] at hfinite
    exact hfinite
  · rw [getLegacyEventId, ← suffix_naming, Naming.text, htype, htime, hts]
    simp [header, timeText, naming, str]

/-- An event with the naming, and with an id if there is one. -/
def eventOf (id : Option JsString) (n : Naming) : Value O :=
  .obj ([
    (str "source", .str n.source),
    (str "ts", .num n.ts),
    (str "type", .str n.target.type)] ++ (id.toList.map fun id => (str "id", .str id)) ++
    match n.target with
    | .del keys => [(str "keys", .arr (keys.map .str))]
    | .set keys => [(str "keys", .arr (keys.map .str)), (str "value", .null)]
    | .pattern text => [(str "pattern", .str text)])

/-- What all of them have, and what none of them has. -/
theorem member_eventOf (id : Option JsString) (n : Naming) :
    (eventOf id n : Value O).member (str "source") = .str n.source ∧
    (eventOf id n : Value O).member (str "ts") = .num n.ts ∧
    (eventOf id n : Value O).member (str "type") = .str n.target.type ∧
    (eventOf id n : Value O).member (str "id") = id.elim .undefined .str ∧
    (eventOf id n : Value O).member (str "namespace") = .undefined ∧
    (eventOf id n : Value O).member (str "generation") = .undefined ∧
    (eventOf id n : Value O).member (str "keyTypes") = .undefined := by
  obtain ⟨source, ts, target⟩ := n
  cases id <;> cases target <;> exact ⟨rfl, rfl, rfl, rfl, rfl, rfl, rfl⟩

/-- The keys or the pattern stand behind an id. -/
theorem target_eventOf (id : Option JsString) (source : JsString) (ts : Number) :
    (∀ keys, (eventOf id ⟨source, ts, .del keys⟩ : Value O).member (str "keys") =
      .arr (keys.map .str)) ∧
    (∀ keys, (eventOf id ⟨source, ts, .set keys⟩ : Value O).member (str "keys") =
      .arr (keys.map .str)) ∧
    ∀ text, (eventOf id ⟨source, ts, .pattern text⟩ : Value O).member (str "pattern") = .str text := by
  cases id <;> exact ⟨fun _ => rfl, fun _ => rfl, fun _ => rfl⟩

theorem keys_of_texts (keys : List JsString) :
    (keys.map fun key => (Value.str key : Value O)).map Value.text = keys := by
  rw [List.map_map]
  exact List.map_id keys

/-- It is accepted within the limits, and names what it was made for. -/
theorem accepted_eventOf (id : Option JsString) (n : Naming) (hfinite : n.ts.isFinite = true)
    (h : n.Bounded maxKeys maxKeyBytes)
    (hlong : ∀ text, id = some text → byteLength text ≤ maxKeyBytes) :
    isInvalidationEvent (eventOf id n : Value O) maxKeys maxKeyBytes = true ∧
      naming (eventOf id n : Value O) = n := by
  obtain ⟨hsource, hts, htype, hid, hnamespace, hgeneration, hkeyTypes⟩ :=
    member_eventOf (O := O) id n
  obtain ⟨hdel, hset, hpattern⟩ := target_eventOf (O := O) id n.source n.ts
  have hhead : hasHeader (eventOf id n : Value O) maxKeyBytes = true := by
    have hoptional : (id.elim .undefined .str : Value O).isOptional (Value.isText maxKeyBytes) =
        true := by
      cases id with
      | none => rfl
      | some text => exact decide_eq_true (hlong text rfl)
    have hnone : ∀ p : Value O → Bool, (Value.undefined : Value O).isOptional p = true :=
      fun _ => rfl
    simp only [hasHeader, hsource, hts, hid, hnamespace, hgeneration, hoptional, hnone,
      Value.isFiniteNumber, Value.isText, hfinite, Bool.and_true, Bool.and_eq_true,
      decide_eq_true_eq]
    exact ⟨rfl, h.source⟩
  have hkeys : ∀ keys : List JsString,
      (eventOf id n : Value O).member (str "keys") = .arr (keys.map .str) →
      (keys.length ≤ maxKeys ∧ ∀ key ∈ keys, byteLength key ≤ maxKeyBytes) →
      isDeleteEvent (eventOf id n : Value O) maxKeys maxKeyBytes = true := by
    rintro keys hmember ⟨hcount, hsizes⟩
    have hall : (keys.map fun key => (Value.str key : Value O)).all
        (Value.isText maxKeyBytes) = true := by
      rw [List.all_map, List.all_eq_true]
      exact fun key hkey => decide_eq_true (hsizes key hkey)
    rw [isDeleteEvent, hmember]
    dsimp only
    rw [hall, hkeyTypes, List.length_map, if_neg]
    simp [hcount]
  have hbounded := h.target
  obtain ⟨source, ts, target⟩ := n
  refine ⟨?_, ?_⟩
  · rw [isInvalidationEvent, hhead, htype, Bool.true_and]
    dsimp only
    cases target with
    | del keys => exact hkeys keys (hdel keys) hbounded
    | set keys =>
      have hdelete := hkeys keys (hset keys) hbounded
      show isSetEvent (eventOf id ⟨source, ts, .set keys⟩ : Value O) maxKeys maxKeyBytes = true
      rw [isSetEvent, hdelete]
      cases id <;> rfl
    | pattern text =>
      show isPatternEvent (eventOf id ⟨source, ts, .pattern text⟩ : Value O) maxKeyBytes = true
      rw [isPatternEvent, hpattern text]
      exact decide_eq_true hbounded
  · rw [naming, hsource, hts, htype]
    cases target with
    | del keys => simp only [Target.type, Value.text, if_true, keysOf, hdel keys, Value.items,
        keys_of_texts]
    | set keys => simp only [Target.type, Value.text, if_neg type_ne.1, if_true, keysOf, hset keys,
        Value.items, keys_of_texts]
    | pattern text => simp only [Target.type, Value.text, if_neg type_ne.2.1, if_neg type_ne.2.2,
        hpattern text]

/-- The id that an accepted event brings along is as short as its keys. -/
theorem explicit_id (h : isInvalidationEvent event maxKeys maxKeyBytes = true) :
    event.member (str "id") = .undefined ∨
      ∃ id, event.member (str "id") = .str id ∧ byteLength id ≤ maxKeyBytes := by
  simp only [isInvalidationEvent, hasHeader, Bool.and_eq_true] at h
  obtain ⟨⟨⟨⟨⟨-, -⟩, hid⟩, -⟩, -⟩, -⟩ := h
  cases hmember : event.member (str "id") with
  | undefined => exact .inl rfl
  | str id =>
    rw [hmember] at hid
    exact .inr ⟨id, rfl, of_decide_eq_true hid⟩
  | _ =>
    rw [hmember] at hid
    cases hid

end Events

/-! ### Faithful ids -/

section Faithful

variable {O : Type} {wire : Wire O} {event event' : Value O}

theorem eventId_of_idLess (h : event.member (str "id") = .undefined) :
    eventId event = getLegacyEventId event := by
  rw [eventId, h]

theorem eventId_of_str {id : JsString} (h : event.member (str "id") = .str id) :
    eventId event = id := by
  rw [eventId, h]
  rfl

theorem dropped_iff {history : List (Value O)} :
    Dropped history event ↔ ∃ x ∈ history, eventId x = eventId event := by
  rw [Dropped, mem_foldl_receive, or_iff_right List.not_mem_nil]

/-- Among the namings of the limits, a text that two of them share shows up in events. -/
theorem unambiguous_of_events (h : IdLess wire event)
    (hall : ∀ event', IdLess wire event' → getLegacyEventId event' = getLegacyEventId event →
      (naming event').target.names = (naming event).target.names) :
    Unambiguous 4096 (64 * 1024) (naming event) := by
  obtain ⟨hfinite, hbounded, hid⟩ := naming_spec (accepted_iff.mp h.1)
  refine (text_inj_iff (by norm_num) hfinite hbounded).mp fun n hn hn' htext => ?_
  obtain ⟨haccepted, hnaming⟩ := accepted_eventOf (O := O) none n hn hn' (by simp)
  have hnames := hall (eventOf none n) ⟨accepted_iff.mpr haccepted, (member_eventOf none n).2.2.2.1⟩
    (by rw [(naming_spec haccepted).2.2, hnaming, htext, hid])
  rw [hnaming] at hnames
  exact eq_of_target hfinite hn htext (target_of_names htext hnames)

theorem naming_of_unambiguous (h : IdLess wire event)
    (hunambiguous : Unambiguous 4096 (64 * 1024) (naming event)) (h' : IdLess wire event')
    (hid : getLegacyEventId event' = getLegacyEventId event) : naming event' = naming event := by
  obtain ⟨hfinite, hbounded, htext⟩ := naming_spec (accepted_iff.mp h.1)
  obtain ⟨hfinite', hbounded', htext'⟩ := naming_spec (accepted_iff.mp h'.1)
  rw [htext, htext'] at hid
  exact (text_inj_iff (by norm_num) hfinite hbounded).mpr hunambiguous _ hfinite' hbounded' hid

variable (wire) in
/-- An event that has the id as its own, and is about something else. -/
theorem exists_explicit {id : JsString} (hid : byteLength id ≤ 64 * 1024) (target : Target) :
    ∃ x : Value O, Accepted wire x ∧ x.member (str "id") = .str id ∧
      (naming x).target.names ≠ target.names := by
  have hother : ∃ t : Target, t.Bounded 4096 (64 * 1024) ∧ t.names ≠ target.names := by
    cases target with
    | del keys => exact ⟨.pattern [], by decide, Sum.inr_ne_inl⟩
    | set keys => exact ⟨.pattern [], by decide, Sum.inr_ne_inl⟩
    | pattern text => exact ⟨.del [], by decide, Sum.inl_ne_inr⟩
  obtain ⟨t, ht, hne⟩ := hother
  have hbounded : Naming.Bounded ⟨[], zero, t⟩ 4096 (64 * 1024) := ⟨Nat.zero_le _, ht⟩
  obtain ⟨haccepted, hnaming⟩ := accepted_eventOf (O := O) (some id) ⟨[], zero, t⟩ rfl hbounded
    fun text htext => Option.some.inj htext ▸ hid
  exact ⟨eventOf (some id) ⟨[], zero, t⟩, accepted_iff.mpr haccepted,
    (member_eventOf (some id) _).2.2.2.1, by rwa [hnaming]⟩

variable (wire) in
/-- **Ids that are made for events.**  For every accepted event without an id:

* whatever accepted event without an id has the same synthetic id names the same source,
  time, type and keys or pattern, if and only if the event is unambiguous;
* as long as no event brings this id along as its own, the event is dropped only behind one
  that names the same keys or the same pattern, again if and only if it is unambiguous;
* and among events of any kind if and only if, besides, no id of an event can be as long. -/
theorem legacy_id_iff (event : Value O) (h : IdLess wire event) :
    ((∀ event', IdLess wire event' → getLegacyEventId event' = getLegacyEventId event →
        naming event' = naming event) ↔ Unambiguous 4096 (64 * 1024) (naming event)) ∧
    ((∀ history, (∀ x ∈ history, Accepted wire x ∧
          x.member (str "id") ≠ .str (getLegacyEventId event)) →
        Dropped history event →
          ∃ x ∈ history, (naming x).target.names = (naming event).target.names) ↔
      Unambiguous 4096 (64 * 1024) (naming event)) ∧
    ((∀ history, (∀ x ∈ history, Accepted wire x) → Dropped history event →
          ∃ x ∈ history, (naming x).target.names = (naming event).target.names) ↔
      Unambiguous 4096 (64 * 1024) (naming event) ∧
        64 * 1024 < byteLength (getLegacyEventId event)) := by
  have hevent := eventId_of_idLess h.2
  -- an event of the same text alone in the window
  have halone : ∀ event', IdLess wire event' → getLegacyEventId event' = getLegacyEventId event →
      Dropped [event'] event := by
    intro event' h' hid
    rw [dropped_iff, hevent]
    exact ⟨event', List.mem_singleton_self _, (eventId_of_idLess h'.2).trans hid⟩
  have hdropped : ∀ {history : List (Value O)}, Unambiguous 4096 (64 * 1024) (naming event) →
      (∀ x ∈ history, Accepted wire x ∧ x.member (str "id") ≠ .str (getLegacyEventId event)) →
      Dropped history event →
        ∃ x ∈ history, (naming x).target.names = (naming event).target.names := by
    intro history hunambiguous hhistory hdrop
    obtain ⟨x, hx, hid⟩ := dropped_iff.mp hdrop
    obtain ⟨haccepted, hne⟩ := hhistory x hx
    rw [hevent] at hid
    rcases explicit_id (accepted_iff.mp haccepted) with hnone | ⟨id, hsome, -⟩
    · rw [eventId_of_idLess hnone] at hid
      exact ⟨x, hx, by rw [naming_of_unambiguous h hunambiguous ⟨haccepted, hnone⟩ hid]⟩
    · rw [eventId_of_str hsome] at hid
      exact absurd (hid ▸ hsome) hne
  refine ⟨⟨fun hall => ?_, fun hunambiguous event' h' => naming_of_unambiguous h hunambiguous h'⟩,
    ⟨fun hall => ?_, fun hunambiguous history => hdropped hunambiguous⟩, ?_⟩
  · exact unambiguous_of_events h fun event' h' hid => by rw [hall event' h' hid]
  · refine unambiguous_of_events h fun event' h' hid => ?_
    obtain ⟨x, hx, hnames⟩ := hall [event'] (by simpa [h'.2] using h'.1) (halone event' h' hid)
    rwa [List.mem_singleton.mp hx] at hnames
  · constructor
    · refine fun hall => ⟨unambiguous_of_events h fun event' h' hid => ?_, ?_⟩
      · obtain ⟨x, hx, hnames⟩ := hall [event'] (by simpa using h'.1) (halone event' h' hid)
        rwa [List.mem_singleton.mp hx] at hnames
      · by_contra hshort
        obtain ⟨x, haccepted, hid, hnames⟩ :=
          exists_explicit wire (not_lt.mp hshort) (naming event).target
        obtain ⟨y, hy, hsame⟩ := hall [x] (by simpa using haccepted)
          (dropped_iff.mpr ⟨x, List.mem_singleton_self _, (eventId_of_str hid).trans hevent.symm⟩)
        rw [List.mem_singleton.mp hy] at hsame
        exact hnames hsame
    · rintro ⟨hunambiguous, hlong⟩ history hhistory
      refine hdropped hunambiguous fun x hx => ⟨hhistory x hx, fun hid => ?_⟩
      rcases explicit_id (accepted_iff.mp (hhistory x hx)) with hnone | ⟨id, hsome, hle⟩
      · rw [hnone] at hid
        cases hid
      · rw [hsome, Value.str.injEq] at hid
        rw [hid] at hle
        exact absurd hlong (not_lt.mpr hle)

end Faithful

/-! ### Events with and without a double -/

/-- Where no part has a colon, one place only looks like a header. -/
theorem unambiguous_of_not_mem {maxKeys maxSize : ℕ} {n : Naming} (hfinite : n.ts.isFinite = true)
    (hrigid : n.target.Rigid maxKeys maxSize) (hsource : (58 : UInt16) ∉ n.source)
    (hsuffix : (58 : UInt16) ∉ n.target.suffix) : Unambiguous maxKeys maxSize n := by
  refine ⟨hrigid, ?_⟩
  intro source ts target hts _ _ htext
  have hform : ∀ (ts : Number) (type rest : JsString),
      header ts type ++ rest = 58 :: (ts.toText ++ 58 :: (type ++ 58 :: rest)) := by
    intro ts type rest
    simp [header]
  rw [Naming.text, hform, hform] at htext
  have hcount := congrArg (List.count (58 : UInt16)) htext
  simp only [List.count_append, List.count_cons_self,
    List.count_eq_zero.mpr hsource, List.count_eq_zero.mpr hsuffix,
    List.count_eq_zero.mpr (colon_not_mem_toText hfinite),
    List.count_eq_zero.mpr (colon_not_mem_toText hts),
    List.count_eq_zero.mpr (colon_not_mem_type _)] at hcount
  -- the three colons of the text are those of the other header
  have hother : (58 : UInt16) ∉ source := List.count_eq_zero.mp (by omega)
  exact (cut_inj hsource hother htext).1.symm

/-- One key without a comma is rigid. -/
theorem rigid_singleton {maxKeys maxSize : ℕ} {key : JsString} (hne : key ≠ [])
    (hcomma : (44 : UInt16) ∉ key) : (Target.del [key]).Rigid maxKeys maxSize where
  ne_nil := List.cons_ne_nil _ _
  ne_blank := fun h => hne (List.cons.inj h).1
  whole := by simpa using fun _ => hcomma
  stiff := List.isChain_singleton _

/-- A wire that carries nothing. -/
def silent : Wire Empty := ⟨fun _ => none, fun _ => none⟩

/-- A naming at time zero. -/
def atZero (source : JsString) (target : Target) : Naming := ⟨source, zero, target⟩

/-- An object with that naming, delivered as it is. -/
theorem idLess_atZero {source : JsString} {target : Target}
    (hsource : byteLength source ≤ 64 * 1024)
    (htarget : target.Bounded 4096 (64 * 1024)) :
    IdLess silent (eventOf none (atZero source target)) ∧
      naming (eventOf none (atZero source target) : Value Empty) = atZero source target ∧
      getLegacyEventId (eventOf none (atZero source target) : Value Empty) =
        (atZero source target).text := by
  obtain ⟨haccepted, hnaming⟩ := accepted_eventOf (O := Empty) none (atZero source target) rfl
    ⟨hsource, htarget⟩ (by simp)
  refine ⟨⟨accepted_iff.mpr haccepted, (member_eventOf none _).2.2.2.1⟩, hnaming, ?_⟩
  rw [(naming_spec haccepted).2.2, hnaming]

/-- One key, and no colon but those of the header. -/
def plainKey : Value Empty := eventOf none (atZero (str "a") (.del [str "k"]))

theorem legacy_id_iff_plainKey :
    IdLess silent plainKey ∧
      (∀ event', IdLess silent event' →
        getLegacyEventId event' = getLegacyEventId plainKey → naming event' = naming plainKey) ∧
      ∀ history, (∀ x ∈ history, Accepted silent x ∧
          x.member (str "id") ≠ .str (getLegacyEventId plainKey)) →
        Dropped history plainKey →
          ∃ x ∈ history, (naming x).target.names = (naming plainKey).target.names := by
  obtain ⟨hidless, hnaming, -⟩ :=
    @idLess_atZero (str "a") (.del [str "k"]) (by decide) (by decide)
  obtain ⟨hsame, hdropped, -⟩ := legacy_id_iff silent plainKey hidless
  have hunambiguous : Unambiguous 4096 (64 * 1024) (naming plainKey) := by
    rw [plainKey, hnaming]
    exact unambiguous_of_not_mem rfl (rigid_singleton (by decide) (by decide)) (by decide) (by decide)
  exact ⟨hidless, hsame.mpr hunambiguous, hdropped.mpr hunambiguous⟩

/-- Both are accepted without an id, have the same one made for them, and differ. -/
def Collide (n n' : Naming) : Prop :=
  IdLess silent (eventOf none n) ∧ IdLess silent (eventOf none n') ∧
    getLegacyEventId (eventOf none n : Value Empty) = getLegacyEventId (eventOf none n' : Value Empty) ∧
    naming (eventOf none n : Value Empty) ≠ naming (eventOf none n' : Value Empty)

/-- A deletion of the key `a,b` has the id of one of the keys `a` and `b`, one of no key
has that of one of the empty key, a key can hold the header of another event, and a pattern
event can bring along the id that is made for a deletion. -/
theorem legacy_ids_collide :
    Collide (atZero (str "s") (.del [str "a,b"])) (atZero (str "s") (.del [str "a", str "b"])) ∧
    Collide (atZero (str "s") (.del [])) (atZero (str "s") (.del [[]])) ∧
    Collide (atZero (str "s") (.del [str "a:0:del:b"])) (atZero (str "s:0:del:a") (.del [str "b"])) ∧
    (Accepted silent (eventOf (some (str "s:0:del:a")) (atZero (str "t") (.pattern (str "x")))) ∧
      IdLess silent (eventOf none (atZero (str "s") (.del [str "a"]))) ∧
      Dropped [eventOf (some (str "s:0:del:a")) (atZero (str "t") (.pattern (str "x")))]
        (eventOf none (atZero (str "s") (.del [str "a"])) : Value Empty)) := by
  have hcollide : ∀ {source source' : JsString} {t t' : Target}, byteLength source ≤ 64 * 1024 →
      byteLength source' ≤ 64 * 1024 → t.Bounded 4096 (64 * 1024) →
      t'.Bounded 4096 (64 * 1024) → t ≠ t' →
      (atZero source t).text = (atZero source' t').text →
      Collide (atZero source t) (atZero source' t') := by
    intro source source' t t' hs hs' ht ht' hne htext
    obtain ⟨hidless, hnaming, hid⟩ := idLess_atZero hs ht
    obtain ⟨hidless', hnaming', hid'⟩ := idLess_atZero hs' ht'
    refine ⟨hidless, hidless', ?_, ?_⟩
    · rw [hid, hid', htext]
    · rw [hnaming, hnaming']
      exact fun heq => hne (congrArg Naming.target heq)
  refine ⟨?_, ?_, ?_, ?_, ?_, ?_⟩
  · exact hcollide (by decide) (by decide) (by decide) (by decide) (by decide) (by decide)
  · exact hcollide (by decide) (by decide) (by decide) (by decide) (by decide) (by decide)
  · exact hcollide (by decide) (by decide) (by decide) (by decide) (by decide) (by decide)
  · have hbounded : (atZero (str "t") (.pattern (str "x"))).Bounded 4096 (64 * 1024) :=
      ⟨by decide, by decide⟩
    obtain ⟨haccepted, -⟩ := accepted_eventOf (O := Empty) (some (str "s:0:del:a"))
      (atZero (str "t") (.pattern (str "x"))) rfl hbounded
      fun text htext => Option.some.inj htext ▸ by decide
    exact accepted_iff.mpr haccepted
  · exact (@idLess_atZero (str "s") (.del [str "a"]) (by decide) (by decide)).1
  · obtain ⟨⟨-, hnone⟩, -, hid⟩ :=
      @idLess_atZero (str "s") (.del [str "a"]) (by decide) (by decide)
    refine dropped_iff.mpr ⟨_, List.mem_singleton_self _, ?_⟩
    rw [eventId_of_idLess hnone, hid, eventId_of_str (member_eventOf _ _).2.2.2.1]
    decide

end LegacyEventId
