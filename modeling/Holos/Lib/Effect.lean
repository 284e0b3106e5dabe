import Mathlib.Control.Lawful
import Mathlib.Data.List.Forall2
/-!
# Programs that change a state, fail and panic

A program takes a state to a result and a new state, or panics. A failure keeps the state it
failed in. `wp m Q E s` says what a run of `m` from `s` is known to leave: `Q` where it returns,
`E` where it fails, nothing where it panics. The rules follow the program: one for each way of
putting programs together, an invariant for a loop, and `mono` to weaken.

`Keeps I m`: however a run of `m` ends, it ends in a state with `I` if it began in one. `Errs P m`:
a run of `m` fails in no way but `P`. Both follow the program, as `wp` does, and are put together
with what is known of it by `wp`.
-/

namespace Lib

abbrev Eff (ε σ α : Type) := ExceptT ε (StateT σ Option) α

namespace Eff

variable {ε ε' σ α β γ : Type}

/-- A run. `none` is a panic. -/
def exec (m : Eff ε σ α) (s : σ) : Option (Except ε α × σ) := m.run.run s

/-- A program given by its runs. -/
def of (f : σ → Option (Except ε α × σ)) : Eff ε σ α := ExceptT.mk (fun s => f s)

/-- Reading the state, which may fail. -/
def reads (f : σ → Except ε α) : Eff ε σ α := of (fun s => some (f s, s))

/-- A program run for its result: a failure is handed over like any other. -/
def attempt (m : Eff ε σ α) : Eff ε' σ (Except ε α) := of (fun s => (m.exec s).map (fun r => (.ok r.1, r.2)))

/-- A program on a part of the state. -/
def on {τ : Type} (get : σ → τ) (set : σ → τ → σ) (m : Eff ε τ α) : Eff ε σ α :=
  of (fun s => (m.exec (get s)).map (fun r => (r.1, set s r.2)))

/-- A program whose failures are seen as other failures. -/
def mapError (f : ε → ε') (m : Eff ε σ α) : Eff ε' σ α := of (fun s => (m.exec s).map (fun r => (r.1.mapError f, r.2)))

@[simp] theorem exec_of (f : σ → Option (Except ε α × σ)) (s : σ) : (of f).exec s = f s := rfl

@[simp] theorem exec_reads (f : σ → Except ε α) (s : σ) : (reads f).exec s = some (f s, s) := rfl

@[simp] theorem exec_attempt (m : Eff ε σ α) (s : σ) :
    (attempt m : Eff ε' σ (Except ε α)).exec s = (m.exec s).map (fun r => (.ok r.1, r.2)) := rfl

@[simp] theorem exec_pure (a : α) (s : σ) : (pure a : Eff ε σ α).exec s = some (.ok a, s) := rfl

@[simp] theorem exec_throw (e : ε) (s : σ) : (throw e : Eff ε σ α).exec s = some (.error e, s) := rfl

@[simp] theorem exec_get (s : σ) : (get : Eff ε σ σ).exec s = some (.ok s, s) := rfl

@[simp] theorem exec_modify (f : σ → σ) (s : σ) : (modify f : Eff ε σ PUnit).exec s = some (.ok ⟨⟩, f s) := rfl

@[simp] theorem exec_on {τ : Type} (get : σ → τ) (set : σ → τ → σ) (m : Eff ε τ α) (s : σ) :
    (m.on get set).exec s = (m.exec (get s)).map (fun r => (r.1, set s r.2)) := rfl

@[simp] theorem exec_mapError (f : ε → ε') (m : Eff ε σ α) (s : σ) :
    (m.mapError f).exec s = (m.exec s).map (fun r => (r.1.mapError f, r.2)) := rfl

/-- What follows a program runs where it returned. -/
theorem exec_bind (m : Eff ε σ α) (f : α → Eff ε σ β) (s : σ) :
    (m >>= f).exec s = (m.exec s).bind (fun r => match r.1 with
      | .ok a => (f a).exec r.2
      | .error e => some (.error e, r.2)) := by
  change ((m.run.run s).bind _) = _
  unfold exec
  cases m.run.run s with
  | none => rfl
  | some r =>
    obtain ⟨r, s'⟩ := r
    cases r <;> rfl

/-! ## What a run leaves -/

def wp (m : Eff ε σ α) (Q : α → σ → Prop) (E : ε → σ → Prop) (s : σ) : Prop :=
  ∀ r s', m.exec s = some (r, s') → match r with
    | .ok a => Q a s'
    | .error e => E e s'

variable {Q Q' : α → σ → Prop} {E E' : ε → σ → Prop} {s s' : σ}

theorem wp.ok {m : Eff ε σ α} (h : wp m Q E s) {a : α} (hrun : m.exec s = some (.ok a, s')) : Q a s' :=
  h (.ok a) s' hrun

theorem wp.error {m : Eff ε σ α} (h : wp m Q E s) {e : ε} (hrun : m.exec s = some (.error e, s')) : E e s' :=
  h (.error e) s' hrun

theorem wp_of {f : σ → Option (Except ε α × σ)} (hok : ∀ a s', f s = some (.ok a, s') → Q a s')
    (herr : ∀ e s', f s = some (.error e, s') → E e s') : wp (of f) Q E s := by
  intro r s' hrun
  cases r with
  | ok a => exact hok a s' hrun
  | error e => exact herr e s' hrun

theorem wp_pure {a : α} (h : Q a s) : wp (pure a : Eff ε σ α) Q E s := by
  intro r s' hrun
  cases hrun
  exact h

theorem wp_throw {e : ε} (h : E e s) : wp (throw e : Eff ε σ α) Q E s := by
  intro r s' hrun
  cases hrun
  exact h

theorem wp_reads {f : σ → Except ε α} (hok : ∀ a, f s = .ok a → Q a s) (herr : ∀ e, f s = .error e → E e s) :
    wp (reads f) Q E s := by
  intro r s' hrun
  rw [exec_reads] at hrun
  obtain ⟨rfl, rfl⟩ := Prod.mk.inj (Option.some.inj hrun)
  cases hr : f s with
  | ok a => exact hok a hr
  | error e => exact herr e hr

theorem wp_bind {m : Eff ε σ α} {f : α → Eff ε σ β} {Q : β → σ → Prop} (h : wp m (fun a => wp (f a) Q E) E s) :
    wp (m >>= f) Q E s := by
  intro r s' hrun
  rw [exec_bind] at hrun
  obtain ⟨⟨r₁, s₁⟩, h₁, h₂⟩ := Option.bind_eq_some_iff.1 hrun
  cases r₁ with
  | ok a => exact h.ok h₁ r s' h₂
  | error e =>
    cases h₂
    exact h.error h₁

theorem wp_map {m : Eff ε σ α} {f : α → β} {Q : β → σ → Prop} (h : wp m (fun a => Q (f a)) E s) : wp (f <$> m) Q E s := by
  rw [← bind_pure_comp]
  refine wp_bind (fun r s' hrun => ?_)
  cases r with
  | ok a => exact wp_pure (h.ok hrun)
  | error e => exact h.error hrun

theorem wp.mono {m : Eff ε σ α} (h : wp m Q E s) (hQ : ∀ a s', Q a s' → Q' a s') (hE : ∀ e s', E e s' → E' e s') :
    wp m Q' E' s := by
  intro r s' hrun
  cases r with
  | ok a => exact hQ a s' (h.ok hrun)
  | error e => exact hE e s' (h.error hrun)

/-- A program that is run for its result does not fail. -/
theorem wp_attempt {m : Eff ε σ α} {Q : Except ε α → σ → Prop} {E : ε' → σ → Prop}
    (h : wp m (fun a => Q (.ok a)) (fun e => Q (.error e)) s) : wp (attempt m) Q E s := by
  intro r s' hrun
  rw [exec_attempt] at hrun
  obtain ⟨⟨r₁, s₁⟩, h₁, heq⟩ := Option.map_eq_some_iff.1 hrun
  cases heq
  cases r₁ with
  | ok a => exact h.ok h₁
  | error e => exact h.error h₁

theorem wp_on {τ : Type} {get : σ → τ} {set : σ → τ → σ} {m : Eff ε τ α}
    (h : wp m (fun a t => Q a (set s t)) (fun e t => E e (set s t)) (get s)) : wp (m.on get set) Q E s := by
  intro r s' hrun
  obtain ⟨⟨r₁, t⟩, h₁, heq⟩ := Option.map_eq_some_iff.1 hrun
  cases heq
  cases r₁ with
  | ok a => exact h.ok h₁
  | error e => exact h.error h₁

theorem wp_mapError {f : ε → ε'} {m : Eff ε σ α} {E : ε' → σ → Prop} (h : wp m Q (fun e => E (f e)) s) :
    wp (m.mapError f) Q E s := by
  intro r s' hrun
  obtain ⟨⟨r₁, s₁⟩, h₁, heq⟩ := Option.map_eq_some_iff.1 hrun
  cases heq
  cases r₁ with
  | ok a => exact h.ok h₁
  | error e => exact h.error h₁

/-- A loop keeps what each round of it keeps. The invariant sees what has been gone through. -/
theorem wp_foldlM {f : β → γ → Eff ε σ β} {l : List γ} {b : β} {I : List γ → β → σ → Prop} (h₀ : I [] b s)
    (hstep : ∀ done x rest b s, l = done ++ x :: rest → I done b s → wp (f b x) (I (done ++ [x])) E s) :
    wp (l.foldlM f b) (I l) E s := by
  suffices hgen : ∀ rest done b s, l = done ++ rest → I done b s → wp (rest.foldlM f b) (I l) E s from hgen l [] b s rfl h₀
  intro rest
  induction rest with
  | nil =>
    intro done b s hl hI
    rw [List.append_nil] at hl
    subst hl
    exact wp_pure hI
  | cons x rest ih =>
    intro done b s hl hI
    rw [List.foldlM_cons]
    apply wp_bind
    refine (hstep done x rest b s hl hI).mono (fun b' s' h' => ?_) (fun e s' h' => h')
    exact ih (done ++ [x]) b' s' (by rw [hl, List.append_assoc]; rfl) h'

theorem wp_ite {p : Prop} [Decidable p] {m m' : Eff ε σ α} (h : p → wp m Q E s) (h' : ¬p → wp m' Q E s) :
    wp (if p then m else m') Q E s := by
  split
  · exact h ‹_›
  · exact h' ‹_›

/-! ## Programs that only read -/

/-- However it ends, the state is as it was. -/
def Quiet (m : Eff ε σ α) : Prop := ∀ s r s', m.exec s = some (r, s') → s' = s

theorem Quiet.wp {m : Eff ε σ α} (h : Quiet m) (hQ : ∀ a, Q a s) (hE : ∀ e, E e s) : m.wp Q E s := by
  intro r s' hrun
  rw [h s r s' hrun]
  cases r with
  | ok a => exact hQ a
  | error e => exact hE e

theorem quiet_pure (a : α) : Quiet (pure a : Eff ε σ α) := by
  intro s r s' hrun
  cases hrun
  rfl

theorem quiet_throw (e : ε) : Quiet (throw e : Eff ε σ α) := by
  intro s r s' hrun
  cases hrun
  rfl

theorem quiet_reads (f : σ → Except ε α) : Quiet (reads f) := by
  intro s r s' hrun
  rw [exec_reads] at hrun
  exact (Prod.mk.inj (Option.some.inj hrun)).2.symm

theorem Quiet.bind {m : Eff ε σ α} {f : α → Eff ε σ β} (h : Quiet m) (hf : ∀ a, Quiet (f a)) : Quiet (m >>= f) := by
  intro s r s' hrun
  rw [exec_bind] at hrun
  obtain ⟨⟨r₁, s₁⟩, h₁, h₂⟩ := Option.bind_eq_some_iff.1 hrun
  have hs := h s r₁ s₁ h₁
  subst hs
  cases r₁ with
  | ok a => exact hf a _ r s' h₂
  | error e =>
    cases h₂
    rfl

/-! ## What any run keeps, and how it can fail -/

variable {I : σ → Prop} {P : ε → Prop}

def Keeps (I : σ → Prop) (m : Eff ε σ α) : Prop := ∀ s r s', m.exec s = some (r, s') → I s → I s'

def Errs (P : ε → Prop) (m : Eff ε σ α) : Prop := ∀ s e s', m.exec s = some (.error e, s') → P e

/-! ### What is kept -/

theorem quiet_ite {p : Prop} [Decidable p] {m m' : Eff ε σ α} (h : Quiet m) (h' : Quiet m') : Quiet (if p then m else m') := by
  split
  · exact h
  · exact h'

theorem quiet_foldlM {f : β → γ → Eff ε σ β} {l : List γ} {b : β} (h : ∀ b x, Quiet (f b x)) : Quiet (l.foldlM f b) := by
  induction l generalizing b with
  | nil => exact quiet_pure b
  | cons x l ih =>
    rw [List.foldlM_cons]
    exact (h b x).bind (fun b' => ih)

theorem quiet_mapM {f : γ → Eff ε σ β} {l : List γ} (h : ∀ x, Quiet (f x)) : Quiet (l.mapM f) := by
  induction l with
  | nil =>
    rw [List.mapM_nil]
    exact quiet_pure _
  | cons x l ih =>
    rw [List.mapM_cons]
    exact (h x).bind (fun _ => ih.bind (fun _ => quiet_pure _))

/-- Reading for each of a list what there is to read for it. -/
theorem wp_mapM {f : γ → Eff ε σ β} {R : γ → β → Prop} {l : List γ} (h : ∀ x ∈ l, (f x).wp (fun y s' => s' = s ∧ R x y) E s) :
    (l.mapM f).wp (fun ys s' => s' = s ∧ List.Forall₂ R l ys) E s := by
  induction l with
  | nil =>
    rw [List.mapM_nil]
    exact wp_pure ⟨rfl, .nil⟩
  | cons x l ih =>
    rw [List.mapM_cons]
    refine wp_bind ((h x List.mem_cons_self).mono (fun y s' hy => ?_) (fun _ _ he => he))
    obtain ⟨rfl, hy⟩ := hy
    refine wp_bind ((ih (fun z hz => h z (List.mem_cons_of_mem _ hz))).mono (fun ys s' hys => ?_) (fun _ _ he => he))
    obtain ⟨rfl, hys⟩ := hys
    exact wp_pure ⟨rfl, .cons hy hys⟩

theorem Quiet.mapError {m : Eff ε σ α} (f : ε → ε') (h : Quiet m) : Quiet (m.mapError f) := by
  intro s r s' hrun
  obtain ⟨⟨r₁, s₁⟩, h₁, heq⟩ := Option.map_eq_some_iff.1 hrun
  cases heq
  exact h s r₁ s₁ h₁

theorem Quiet.keeps {m : Eff ε σ α} (h : Quiet m) : Keeps I m := by
  intro s r s' hrun hs
  rw [h s r s' hrun]
  exact hs

theorem keeps_of {f : σ → Option (Except ε α × σ)} (h : ∀ s r s', f s = some (r, s') → I s → I s') : Keeps I (of f) := h

theorem Keeps.bind {m : Eff ε σ α} {f : α → Eff ε σ β} (h : Keeps I m) (hf : ∀ a, Keeps I (f a)) : Keeps I (m >>= f) := by
  intro s r s' hrun hs
  rw [exec_bind] at hrun
  obtain ⟨⟨r₁, s₁⟩, h₁, h₂⟩ := Option.bind_eq_some_iff.1 hrun
  have hs₁ := h s r₁ s₁ h₁ hs
  cases r₁ with
  | ok a => exact hf a s₁ r s' h₂ hs₁
  | error e =>
    cases h₂
    exact hs₁

theorem Keeps.attempt {m : Eff ε σ α} (h : Keeps I m) : Keeps I (attempt m : Eff ε' σ (Except ε α)) := by
  intro s r s' hrun hs
  obtain ⟨⟨r₁, s₁⟩, h₁, heq⟩ := Option.map_eq_some_iff.1 hrun
  cases heq
  exact h s r₁ s₁ h₁ hs

theorem keeps_foldlM {f : β → γ → Eff ε σ β} {l : List γ} {b : β} (h : ∀ b x, Keeps I (f b x)) : Keeps I (l.foldlM f b) := by
  induction l generalizing b with
  | nil => exact (quiet_pure b).keeps
  | cons x l ih =>
    rw [List.foldlM_cons]
    exact (h b x).bind (fun b' => ih)

theorem keeps_ite {p : Prop} [Decidable p] {m m' : Eff ε σ α} (h : Keeps I m) (h' : Keeps I m') : Keeps I (if p then m else m') := by
  split
  · exact h
  · exact h'

/-- What is kept is so at the end of a run. -/
theorem Keeps.wp {m : Eff ε σ α} (h : Keeps I m) (hs : I s) : m.wp (fun _ => I) (fun _ => I) s := by
  intro r s' hrun
  have hs' := h s r s' hrun hs
  cases r <;> exact hs'

theorem wp.keeps {m : Eff ε σ α} (h : m.wp Q E s) (hm : Keeps I m) (hs : I s) : m.wp (fun a s' => Q a s' ∧ I s') E s := by
  intro r s' hrun
  cases r with
  | ok a => exact ⟨h.ok hrun, hm s _ s' hrun hs⟩
  | error e => exact h.error hrun

/-! ### How a run fails -/

theorem errs_pure (a : α) : Errs P (pure a : Eff ε σ α) := by
  intro s e s' hrun
  cases hrun

theorem errs_throw {e : ε} (h : P e) : Errs P (throw e : Eff ε σ α) := by
  intro s e' s' hrun
  cases hrun
  exact h

theorem errs_of {f : σ → Option (Except ε α × σ)} (h : ∀ s e s', f s = some (.error e, s') → P e) : Errs P (of f) := h

theorem errs_reads {f : σ → Except ε α} (h : ∀ s e, f s = .error e → P e) : Errs P (reads f) := by
  intro s e s' hrun
  rw [exec_reads] at hrun
  exact h s e (Prod.mk.inj (Option.some.inj hrun)).1

theorem Errs.bind {m : Eff ε σ α} {f : α → Eff ε σ β} (h : Errs P m) (hf : ∀ a, Errs P (f a)) : Errs P (m >>= f) := by
  intro s e s' hrun
  rw [exec_bind] at hrun
  obtain ⟨⟨r₁, s₁⟩, h₁, h₂⟩ := Option.bind_eq_some_iff.1 hrun
  cases r₁ with
  | ok a => exact hf a s₁ e s' h₂
  | error e₁ =>
    cases h₂
    exact h s e s₁ h₁

theorem Errs.mono {P' : ε → Prop} {m : Eff ε σ α} (h : Errs P m) (hP : ∀ {e}, P e → P' e) : Errs P' m :=
  fun s e s' hrun => hP (h s e s' hrun)

theorem errs_foldlM {f : β → γ → Eff ε σ β} {l : List γ} {b : β} (h : ∀ b x, Errs P (f b x)) : Errs P (l.foldlM f b) := by
  induction l generalizing b with
  | nil => exact errs_pure b
  | cons x l ih =>
    rw [List.foldlM_cons]
    exact (h b x).bind (fun b' => ih)

theorem errs_ite {p : Prop} [Decidable p] {m m' : Eff ε σ α} (h : Errs P m) (h' : Errs P m') : Errs P (if p then m else m') := by
  split
  · exact h
  · exact h'

/-- A failure is one of those there can be. -/
theorem wp.errs {m : Eff ε σ α} (h : m.wp Q E s) (he : Errs P m) : m.wp Q (fun e s' => E e s' ∧ P e) s := by
  intro r s' hrun
  cases r with
  | ok a => exact h.ok hrun
  | error e => exact ⟨h.error hrun, he s e s' hrun⟩

end Eff

end Lib
