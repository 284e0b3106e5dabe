import Holos.Engine.Load
/-!
# A load on two threads

One thread parses and hands batches over a bounded channel; the other calls back on every quad.
`Step` interleaves the two, a step of either at a time. What a run will come to, `ahead`, no step
changes, so every interleaving ends the same way, and `spent` says that every one ends.

The serial load calls back on each quad as it is parsed. A parse error drops the batch that was
being filled, so the two agree up to the last full batch.
-/

namespace Holos.Engine.LoadThreads

open Lib

/-- Batches the parse thread may run ahead by. -/
def parseQueue : Nat := 4

/-- What is handed over: a batch, or what stopped the parser. -/
abbrev Message := Except String (List Quad)

/-! ## Calling back -/

section Calls
variable {σ : Type}

/-- The callback's state, the quads it was called on, and how many of them counted. -/
structure Calls (σ : Type) where
  state : σ
  called : List Quad
  n : Nat

variable (each : Quad → σ → Except EngineError Bool × σ)

/-- One call, and the failure if it failed. -/
def call (c : Calls σ) (quad : Quad) : Calls σ × Option EngineError :=
  match each quad c.state with
  | (.ok counts, s) => (⟨s, c.called ++ [quad], if counts then c.n + 1 else c.n⟩, none)
  | (.error e, s) => (⟨s, c.called ++ [quad], c.n⟩, some e)

/-- Calls back on each quad up to the first failure. -/
def feed (c : Calls σ) : List Quad → Calls σ × Option EngineError
  | [] => (c, none)
  | quad :: quads =>
    match call each c quad with
    | (c, some e) => (c, some e)
    | (c, none) => feed c quads

/-- The serial load: parse a quad, call back, repeat. -/
def serial (c : Calls σ) (parsed : List Quad × Option String) : Calls σ × Except EngineError Nat :=
  match feed each c parsed.1 with
  | (c, some e) => (c, .error e)
  | (c, none) =>
    match parsed.2 with
    | none => (c, .ok c.n)
    | some e => (c, .error (.parse e))

end Calls

/-! ## The two threads -/

/-- Where the parse thread is. What is sent is followed by the quads left to parse, or by
nothing. -/
inductive Parsing where
  | reading (unread batch : List Quad)
  | sending (message : Message) (next : Option (List Quad))
  | done

/-- Where the loading thread is. -/
inductive Loading where
  | receiving
  | loading (rest : List Quad)
  | finished (result : Except EngineError Nat)

/-- Both threads, and the channel. A channel whose receiver is dropped holds nothing any more
that is read. -/
structure Threads (σ : Type) where
  parsing : Parsing
  channel : List Message
  loading : Loading
  calls : Calls σ

variable {σ : Type}

/-- A quad parsed: a full batch is sent. -/
def afterRead (quad : Quad) (unread batch : List Quad) : Parsing :=
  if (batch ++ [quad]).length = parseBatch then .sending (.ok (batch ++ [quad])) (some unread) else .reading unread (batch ++ [quad])

/-- Nothing left to parse: what stopped the parser is sent, or the last batch. -/
def afterEnd (stopped : Option String) (batch : List Quad) : Parsing :=
  match stopped with
  | some e => .sending (.error e) none
  | none => if batch.isEmpty then .done else .sending (.ok batch) none

def afterSend : Option (List Quad) → Parsing
  | some unread => .reading unread []
  | none => .done

def start (parsed : List Quad × Option String) (s : σ) : Threads σ := ⟨.reading parsed.1 [], [], .receiving, ⟨s, [], 0⟩⟩

/-- A step of one of the two threads. -/
inductive Step (each : Quad → σ → Except EngineError Bool × σ) (stopped : Option String) : Threads σ → Threads σ → Prop where
  | read (quad : Quad) (unread batch : List Quad) (channel : List Message) (loading : Loading) (c : Calls σ) :
      Step each stopped ⟨.reading (quad :: unread) batch, channel, loading, c⟩ ⟨afterRead quad unread batch, channel, loading, c⟩
  | ends (batch : List Quad) (channel : List Message) (loading : Loading) (c : Calls σ) :
      Step each stopped ⟨.reading [] batch, channel, loading, c⟩ ⟨afterEnd stopped batch, channel, loading, c⟩
  | send (message : Message) (next : Option (List Quad)) (channel : List Message) (loading : Loading) (c : Calls σ)
      (room : channel.length < parseQueue) (alive : ∀ r, loading ≠ .finished r) :
      Step each stopped ⟨.sending message next, channel, loading, c⟩ ⟨afterSend next, channel ++ [message], loading, c⟩
  | refused (message : Message) (next : Option (List Quad)) (channel : List Message) (r : Except EngineError Nat) (c : Calls σ) :
      Step each stopped ⟨.sending message next, channel, .finished r, c⟩ ⟨.done, channel, .finished r, c⟩
  | receive (parsing : Parsing) (batch : List Quad) (channel : List Message) (c : Calls σ) :
      Step each stopped ⟨parsing, .ok batch :: channel, .receiving, c⟩ ⟨parsing, channel, .loading batch, c⟩
  | stopped (parsing : Parsing) (e : String) (channel : List Message) (c : Calls σ) :
      Step each stopped ⟨parsing, .error e :: channel, .receiving, c⟩ ⟨parsing, channel, .finished (.error (.parse e)), c⟩
  | closed (c : Calls σ) : Step each stopped ⟨.done, [], .receiving, c⟩ ⟨.done, [], .finished (.ok c.n), c⟩
  | called (parsing : Parsing) (quad : Quad) (rest : List Quad) (channel : List Message) (c c' : Calls σ)
      (h : call each c quad = (c', none)) :
      Step each stopped ⟨parsing, channel, .loading (quad :: rest), c⟩ ⟨parsing, channel, .loading rest, c'⟩
  | failed (parsing : Parsing) (quad : Quad) (rest : List Quad) (channel : List Message) (c c' : Calls σ) (e : EngineError)
      (h : call each c quad = (c', some e)) :
      Step each stopped ⟨parsing, channel, .loading (quad :: rest), c⟩ ⟨parsing, channel, .finished (.error e), c'⟩
  | taken (parsing : Parsing) (channel : List Message) (c : Calls σ) :
      Step each stopped ⟨parsing, channel, .loading [], c⟩ ⟨parsing, channel, .receiving, c⟩

/-! ## What a run will come to -/

/-- What the parse thread sends from here on. -/
def messages (stopped : Option String) (batch : List Quad) : List Quad → List Message
  | [] =>
    match stopped with
    | some e => [.error e]
    | none => if batch.isEmpty then [] else [.ok batch]
  | quad :: unread =>
    if (batch ++ [quad]).length = parseBatch then .ok (batch ++ [quad]) :: messages stopped [] unread
    else messages stopped (batch ++ [quad]) unread

def pending (stopped : Option String) : Parsing → List Message
  | .reading unread batch => messages stopped batch unread
  | .sending message (some unread) => message :: messages stopped [] unread
  | .sending message none => [message]
  | .done => []

section Ahead
variable (each : Quad → σ → Except EngineError Bool × σ)

/-- What comes of receiving the messages. -/
def consume (c : Calls σ) : List Message → Calls σ × Except EngineError Nat
  | [] => (c, .ok c.n)
  | .error e :: _ => (c, .error (.parse e))
  | .ok batch :: rest =>
    match feed each c batch with
    | (c, some e) => (c, .error e)
    | (c, none) => consume c rest

/-- What a run will come to. -/
def ahead (stopped : Option String) (t : Threads σ) : Calls σ × Except EngineError Nat :=
  match t.loading with
  | .receiving => consume each t.calls (t.channel ++ pending stopped t.parsing)
  | .loading rest => consume each t.calls (.ok rest :: (t.channel ++ pending stopped t.parsing))
  | .finished r => (t.calls, r)

variable {each}

theorem pending_afterRead (stopped : Option String) (quad : Quad) (unread batch : List Quad) :
    pending stopped (afterRead quad unread batch) = pending stopped (.reading (quad :: unread) batch) := by
  unfold afterRead
  rw [pending, messages]
  split <;> rfl

theorem pending_afterEnd (stopped : Option String) (batch : List Quad) :
    pending stopped (afterEnd stopped batch) = pending stopped (.reading [] batch) := by
  unfold afterEnd
  cases stopped with
  | some e => rfl
  | none =>
    by_cases hb : batch.isEmpty = true
    · simp only [hb, if_true, pending, messages]
    · simp only [hb, if_false, pending, messages, Bool.false_eq_true]

theorem pending_afterSend (stopped : Option String) (message : Message) (next : Option (List Quad)) :
    pending stopped (.sending message next) = message :: pending stopped (afterSend next) := by
  cases next <;> rfl

/-- No step changes what the run will come to. -/
theorem Step.ahead_eq {stopped : Option String} {t t' : Threads σ} (h : Step each stopped t t') :
    ahead each stopped t' = ahead each stopped t := by
  cases h with
  | read quad unread batch channel loading c => simp only [ahead, pending_afterRead]
  | ends batch channel loading c => simp only [ahead, pending_afterEnd]
  | send message next channel loading c room alive =>
    cases loading with
    | receiving => simp only [ahead, pending_afterSend, List.append_assoc, List.singleton_append]
    | loading rest => simp only [ahead, pending_afterSend, List.append_assoc, List.singleton_append]
    | finished r => exact absurd rfl (alive r)
  | refused => rfl
  | receive => rfl
  | stopped => rfl
  | closed => rfl
  | called parsing quad rest channel c c' h => simp only [ahead, consume, feed, h]
  | failed parsing quad rest channel c c' e h => simp only [ahead, consume, feed, h]
  | taken => rfl

end Ahead

/-! ## Every run ends -/

/-- What receiving a message and calling back on its quads takes. -/
def Message.weight : Message → Nat
  | .ok batch => batch.length + 2
  | .error _ => 2

def Parsing.left : Parsing → Nat
  | .reading unread _ => 2 * unread.length + 3
  | .sending _ (some unread) => 2 * unread.length + 4
  | .sending _ none => 2
  | .done => 0

/-- What is left of a run: the parse thread's steps, and the loading thread's over all that will be sent. -/
def spent (stopped : Option String) (t : Threads σ) : Nat :=
  t.parsing.left +
    match t.loading with
    | .receiving => ((t.channel ++ pending stopped t.parsing).map Message.weight).sum + 1
    | .loading rest => ((t.channel ++ pending stopped t.parsing).map Message.weight).sum + rest.length + 2
    | .finished _ => 0

theorem left_afterRead (quad : Quad) (unread batch : List Quad) :
    (afterRead quad unread batch).left < (Parsing.reading (quad :: unread) batch).left := by
  unfold afterRead
  split <;> simp only [Parsing.left, List.length_cons] <;> omega

theorem left_afterEnd (stopped : Option String) (batch : List Quad) :
    (afterEnd stopped batch).left < (Parsing.reading [] batch).left := by
  unfold afterEnd
  cases stopped with
  | some e => simp [Parsing.left]
  | none =>
    dsimp only
    split <;> simp [Parsing.left]

theorem left_afterSend (message : Message) (next : Option (List Quad)) :
    (afterSend next).left < (Parsing.sending message next).left := by
  cases next <;> simp [afterSend, Parsing.left]

theorem Step.spent_lt {each : Quad → σ → Except EngineError Bool × σ} {stopped : Option String} {t t' : Threads σ}
    (h : Step each stopped t t') : spent stopped t' < spent stopped t := by
  cases h with
  | read quad unread batch channel loading c =>
    have := left_afterRead quad unread batch
    simp only [spent, pending_afterRead]
    omega
  | ends batch channel loading c =>
    have := left_afterEnd stopped batch
    simp only [spent, pending_afterEnd]
    omega
  | send message next channel loading c room alive =>
    have := left_afterSend message next
    simp only [spent, pending_afterSend, List.append_assoc, List.singleton_append]
    omega
  | refused message next channel r c =>
    cases next <;> simp [spent, Parsing.left]
  | receive parsing batch channel c =>
    simp only [spent, List.cons_append, List.map_cons, List.sum_cons, Message.weight]
    omega
  | stopped parsing e channel c => simp [spent]
  | closed c => simp [spent]
  | called parsing quad rest channel c c' h => simp [spent]
  | failed parsing quad rest channel c c' e h => simp [spent]
  | taken parsing channel c => simp [spent]

/-- A thread that is not done can go on, or the other can. -/
theorem exists_step {each : Quad → σ → Except EngineError Bool × σ} {stopped : Option String} (t : Threads σ)
    (h : ¬(t.parsing = .done ∧ ∃ r, t.loading = .finished r)) : ∃ t', Step each stopped t t' := by
  obtain ⟨parsing, channel, loading, c⟩ := t
  cases loading with
  | receiving =>
    cases channel with
    | cons message channel =>
      cases message with
      | error e => exact ⟨_, .stopped _ _ _ _⟩
      | ok batch => exact ⟨_, .receive _ _ _ _⟩
    | nil =>
      cases parsing with
      | reading unread batch =>
        cases unread with
        | nil => exact ⟨_, .ends _ _ _ _⟩
        | cons quad unread => exact ⟨_, .read _ _ _ _ _ _⟩
      | sending message next => exact ⟨_, .send _ _ _ _ _ (by decide) (by simp)⟩
      | done => exact ⟨_, .closed _⟩
  | loading rest =>
    cases rest with
    | nil => exact ⟨_, .taken _ _ _⟩
    | cons quad rest =>
      cases hcall : call each c quad with
      | mk c' failed =>
        cases failed with
        | none => exact ⟨_, .called _ _ _ _ _ _ hcall⟩
        | some e => exact ⟨_, .failed _ _ _ _ _ _ _ hcall⟩
  | finished r =>
    cases parsing with
    | reading unread batch =>
      cases unread with
      | nil => exact ⟨_, .ends _ _ _ _⟩
      | cons quad unread => exact ⟨_, .read _ _ _ _ _ _⟩
    | sending message next => exact ⟨_, .refused _ _ _ _ _⟩
    | done => exact absurd ⟨rfl, r, rfl⟩ h

/-! ## What it comes to -/

section Outcome
variable {each : Quad → σ → Except EngineError Bool × σ}

theorem feed_append (c : Calls σ) (as bs : List Quad) :
    feed each c (as ++ bs) =
      match feed each c as with
      | (c, some e) => (c, some e)
      | (c, none) => feed each c bs := by
  induction as generalizing c with
  | nil => rfl
  | cons quad as ih =>
    rw [List.cons_append, feed, feed]
    split
    · rfl
    · exact ih _

/-- A batch handed over is a batch called back on. -/
theorem serial_append (c : Calls σ) (batch quads : List Quad) (stopped : Option String) :
    serial each c (batch ++ quads, stopped) =
      match feed each c batch with
      | (c, some e) => (c, .error e)
      | (c, none) => serial each c (quads, stopped) := by
  unfold serial
  dsimp only
  rw [feed_append]
  cases feed each c batch with
  | mk c' failed => cases failed <;> rfl

theorem delivered_append {batch : List Quad} (h : batch.length = parseBatch) (quads : List Quad) (stopped : Option String) :
    delivered (batch ++ quads, stopped) = batch ++ delivered (quads, stopped) := by
  cases stopped with
  | none => rfl
  | some e =>
    have hlen : batch.length + quads.length - (batch.length + quads.length) % parseBatch =
        batch.length + (quads.length - quads.length % parseBatch) := by
      rw [h, Nat.add_mod_left]
      have := Nat.mod_le quads.length parseBatch
      omega
    simp only [delivered, List.length_append, hlen]
    exact List.take_length_add_append _

theorem delivered_short {batch : List Quad} (h : batch.length < parseBatch) (e : String) : delivered (batch, some e) = [] := by
  simp only [delivered, Nat.mod_eq_of_lt h, Nat.sub_self, List.take_zero]

/-- The messages bring what is delivered. -/
theorem consume_messages (stopped : Option String) (quads batch : List Quad) (h : batch.length < parseBatch) (c : Calls σ) :
    consume each c (messages stopped batch quads) = serial each c (delivered (batch ++ quads, stopped), stopped) := by
  induction quads generalizing batch c with
  | nil =>
    rw [List.append_nil]
    cases stopped with
    | some e =>
      rw [delivered_short h]
      rfl
    | none =>
      simp only [messages, delivered]
      split
      · rename_i hempty
        rw [List.isEmpty_iff.1 hempty]
        rfl
      · rfl
  | cons quad quads ih =>
    rw [messages]
    have happend : batch ++ quad :: quads = (batch ++ [quad]) ++ quads := by simp
    rw [happend]
    split
    · rename_i hfull
      rw [delivered_append hfull, serial_append, consume]
      split
      · rfl
      · exact ih [] (by decide) _
    · rename_i hfull
      apply ih
      rw [List.length_append, List.length_singleton] at hfull ⊢
      omega

/-- However a run is interleaved, it comes to the serial load of what is delivered. -/
theorem ahead_start (parsed : List Quad × Option String) (s : σ) :
    ahead each parsed.2 (start parsed s) = serial each ⟨s, [], 0⟩ (delivered parsed, parsed.2) := by
  exact consume_messages parsed.2 parsed.1 [] (by decide) ⟨s, [], 0⟩

/-- What has come out of every run that has finished loading. -/
theorem finished_eq {parsed : List Quad × Option String} {s : σ} {t : Threads σ} {r : Except EngineError Nat}
    (h : Relation.ReflTransGen (Step each parsed.2) (start parsed s) t) (hr : t.loading = .finished r) :
    (t.calls, r) = serial each ⟨s, [], 0⟩ (delivered parsed, parsed.2) := by
  have hahead : ahead each parsed.2 t = ahead each parsed.2 (start parsed s) := by
    clear hr
    induction h with
    | refl => rfl
    | tail _ hstep ih => rw [hstep.ahead_eq, ih]
  rw [← ahead_start, ← hahead]
  unfold ahead
  rw [hr]

/-- Some run gets to the end. -/
theorem exists_finished (stopped : Option String) (t : Threads σ) :
    ∃ t' r, Relation.ReflTransGen (Step each stopped) t t' ∧ t'.loading = .finished r := by
  induction hn : spent stopped t using Nat.strongRecOn generalizing t with
  | _ n ih =>
    by_cases h : t.parsing = .done ∧ ∃ r, t.loading = .finished r
    · obtain ⟨-, r, hr⟩ := h
      exact ⟨t, r, .refl, hr⟩
    · obtain ⟨t₁, hstep⟩ := @exists_step σ each stopped t h
      obtain ⟨t', r, hrun, hr⟩ := ih (spent stopped t₁) (hn ▸ hstep.spent_lt) t₁ rfl
      exact ⟨t', r, .head hstep hrun, hr⟩

theorem feed_called {c c' : Calls σ} {quads : List Quad} (h : feed each c quads = (c', none)) : c'.called = c.called ++ quads := by
  induction quads generalizing c with
  | nil =>
    cases h
    rw [List.append_nil]
  | cons quad quads ih =>
    rw [feed] at h
    split at h
    · cases h
    · rename_i c₁ hcall
      have hc₁ : c₁.called = c.called ++ [quad] := by
        unfold call at hcall
        split at hcall
        · cases hcall
          rfl
        · cases hcall
      rw [ih h, hc₁, List.append_assoc, List.singleton_append]

/-- Calls are not taken back. -/
theorem called_grows (c : Calls σ) (quads : List Quad) : c.called <+: (feed each c quads).1.called := by
  induction quads generalizing c with
  | nil => exact List.prefix_rfl
  | cons quad quads ih =>
    have hcall : (call each c quad).1.called = c.called ++ [quad] := by
      unfold call
      split <;> rfl
    have hpre : c.called <+: (call each c quad).1.called := by
      rw [hcall]
      exact List.prefix_append _ _
    rw [feed]
    split
    · rename_i c₁ e hc
      rw [hc] at hpre
      exact hpre
    · rename_i c₁ hc
      rw [hc] at hpre
      exact hpre.trans (ih c₁)

/-- Where nothing failed, a quad more is a call more. -/
theorem called_lt {c c' : Calls σ} {as : List Quad} (h : feed each c as = (c', none)) (quad : Quad) (rest : List Quad) :
    c'.called.length < (feed each c (as ++ quad :: rest)).1.called.length := by
  have hcall : (call each c' quad).1.called = c'.called ++ [quad] := by
    unfold call
    split <;> rfl
  have hlen : c'.called.length < (call each c' quad).1.called.length := by
    rw [hcall, List.length_append, List.length_singleton]
    omega
  rw [feed_append, h]
  dsimp only
  rw [feed]
  split
  · rename_i c₁ e hc
    rw [hc] at hlen
    exact hlen
  · rename_i c₁ hc
    rw [hc] at hlen
    exact Nat.lt_of_lt_of_le hlen (called_grows c₁ rest).length_le

theorem delivered_split (parsed : List Quad × Option String) : ∃ dropped, parsed.1 = delivered parsed ++ dropped ∧
    (dropped = [] ↔ parsed.2 = none ∨ parseBatch ∣ parsed.1.length) := by
  obtain ⟨quads, stopped⟩ := parsed
  cases stopped with
  | none => exact ⟨[], by simp [delivered], by simp⟩
  | some e =>
    refine ⟨quads.drop (quads.length - quads.length % parseBatch), (List.take_append_drop _ _).symm, ?_⟩
    rw [List.drop_eq_nil_iff, Nat.dvd_iff_mod_eq_zero]
    have := Nat.mod_le quads.length parseBatch
    constructor
    · intro h
      exact .inr (by dsimp only; omega)
    · rintro (h | h)
      · cases h
      · dsimp only at h
        omega

end Outcome

/-! ## Loads as programs -/

section Programs
variable {B : Backend} {ρ : Type}

theorem exec_foldlM_feed (each : Quad → World B ρ → Except EngineError Bool × World B ρ) (quads : List Quad) (c : Calls (World B ρ)) :
    (quads.foldlM (fun n quad => do return if ← (Eff.of fun w => some (each quad w)) then n + 1 else n) c.n :
        Eff EngineError (World B ρ) Nat).exec c.state =
      match feed each c quads with
      | (c, some e) => some (.error e, c.state)
      | (c, none) => some (.ok c.n, c.state) := by
  induction quads generalizing c with
  | nil => rfl
  | cons quad quads ih =>
    rw [List.foldlM_cons, Eff.exec_bind, Eff.exec_bind, Eff.exec_of, feed]
    unfold call
    cases heach : each quad c.state with
    | mk result w =>
      cases result with
      | error e => rfl
      | ok counts => exact ih ⟨w, c.called ++ [quad], if counts then c.n + 1 else c.n⟩

/-- A load as the other modules have it is what every run of the threads comes to. -/
theorem exec_loadParsed (each : Quad → World B ρ → Except EngineError Bool × World B ρ) (parsed : List Quad × Option String)
    (w : World B ρ) {t : Threads (World B ρ)} {r : Except EngineError Nat}
    (h : Relation.ReflTransGen (Step each parsed.2) (start parsed w) t) (hr : t.loading = .finished r) :
    (loadParsed parsed fun quad => Eff.of fun w => some (each quad w)).exec w = some (r, t.calls.state) := by
  have heq := finished_eq h hr
  have hfold := exec_foldlM_feed each (delivered parsed) ⟨w, [], 0⟩
  unfold loadParsed
  rw [Eff.exec_bind, hfold]
  unfold serial at heq
  cases hf : feed each ⟨w, [], 0⟩ (delivered parsed) with
  | mk c failed =>
    rw [hf] at heq
    cases failed with
    | some e =>
      cases heq
      rfl
    | none =>
      cases hs : parsed.2 with
      | none =>
        rw [hs] at heq
        cases heq
        rfl
      | some e =>
        rw [hs] at heq
        cases heq
        rfl

end Programs

/-- The callbacks made and the result. -/
def observed (outcome : Calls σ × Except EngineError Nat) : List Quad × Except EngineError Nat := (outcome.1.called, outcome.2)

/-- No run goes on for ever, and none stops before both threads are done. Every run comes to
the serial load of the full batches; that is the serial load exactly where the document ends
well, or its length is one of full batches, or the callback fails within them. -/
theorem loads_agree_iff (each : Quad → σ → Except EngineError Bool × σ) (parsed : List Quad × Option String) (s : σ) :
    (WellFounded fun t' t => Step each parsed.2 t t') ∧
    (∀ t, Relation.ReflTransGen (Step each parsed.2) (start parsed s) t → (∀ t', ¬Step each parsed.2 t t') →
      t.parsing = .done ∧ ∃ r, t.loading = .finished r) ∧
    ((∀ t r, Relation.ReflTransGen (Step each parsed.2) (start parsed s) t → t.loading = .finished r →
        observed (t.calls, r) = observed (serial each ⟨s, [], 0⟩ parsed)) ↔
      parsed.2 = none ∨ parseBatch ∣ parsed.1.length ∨ (feed each ⟨s, [], 0⟩ (delivered parsed)).2.isSome) := by
  refine ⟨Subrelation.wf (r := fun t' t => spent parsed.2 t' < spent parsed.2 t) (fun h => h.spent_lt)
    (measure (spent parsed.2)).wf, fun t _ hstuck => ?_, ?_⟩
  · by_contra h
    obtain ⟨t', ht'⟩ := @exists_step σ each parsed.2 t h
    exact hstuck t' ht'
  obtain ⟨dropped, hsplit, hdropped⟩ := delivered_split parsed
  rw [← or_assoc, ← hdropped]
  constructor
  · intro h
    obtain ⟨t, r, hrun, hr⟩ := @exists_finished σ each parsed.2 (start parsed s)
    have heq := congrArg (List.length ∘ Prod.fst) (h t r hrun hr)
    rw [finished_eq hrun hr] at heq
    cases hd : dropped with
    | nil => exact .inl rfl
    | cons quad rest =>
      cases hf : feed each ⟨s, [], 0⟩ (delivered parsed) with
      | mk c failed =>
        cases failed with
        | some e => exact .inr rfl
        | none =>
          have hlt := called_lt hf quad rest
          have hcalled : ∀ p, (serial each ⟨s, [], 0⟩ p).1 = (feed each ⟨s, [], 0⟩ p.1).1 := by
            intro p
            unfold serial
            cases feed each ⟨s, [], 0⟩ p.1 with
            | mk c failed =>
              cases failed with
              | some e => rfl
              | none => cases p.2 <;> rfl
          simp only [Function.comp_apply, observed, hcalled] at heq
          rw [hsplit, hd, hf] at heq
          dsimp only at heq
          omega
  · intro h t r hrun hr
    rw [finished_eq hrun hr]
    congr 1
    rcases h with h | h
    · have hall : delivered parsed = parsed.1 := (hsplit.trans (by rw [h, List.append_nil])).symm
      rw [hall]
    · obtain ⟨e, he⟩ := Option.isSome_iff_exists.1 h
      cases hf : feed each ⟨s, [], 0⟩ (delivered parsed) with
      | mk c failed =>
        rw [hf] at he
        dsimp only at he
        have hfeed : feed each ⟨s, [], 0⟩ parsed.1 = (c, some e) := by
          rw [hsplit, feed_append, hf, he]
        unfold serial
        rw [hfeed, hf, he]

/-- One quad, and then the parser stops. -/
def cutShort : List Quad × Option String := ([⟨.namedNode "urn:s", "urn:p", .namedNode "urn:o", .defaultGraph⟩], some "unexpected end")

/-- A callback that takes every quad. -/
def takes (_ : Quad) (_ : Unit) : Except EngineError Bool × Unit := (.ok true, ())

/-- The serial load calls back on the quad; the threads never do. -/
theorem cutShort_lost : ∃ t r, Relation.ReflTransGen (Step takes cutShort.2) (start cutShort ()) t ∧ t.loading = .finished r ∧
    t.calls.called = [] ∧ (serial takes ⟨(), [], 0⟩ cutShort).1.called = cutShort.1 := by
  obtain ⟨t, r, hrun, hr⟩ := @exists_finished Unit takes cutShort.2 (start cutShort ())
  refine ⟨t, r, hrun, hr, ?_, rfl⟩
  have h := congrArg (·.1.called) (finished_eq hrun hr)
  exact h

end Holos.Engine.LoadThreads
