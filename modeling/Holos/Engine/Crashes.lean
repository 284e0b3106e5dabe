import Holos.Engine.Tiers
import Holos.Store.RocksReopen
/-!
# A process that dies

A store on disk is opened again on the rows its last batch left. Its ledger is then as it was when
the open scope began, and otherwise as the last call left it: what was answered outside a scope or
committed is there, and nothing of a scope that was not.
-/

namespace Holos

open Lib Lib.Eff Security

/-- A call and its reply, or the process dies and another opens the store. -/
inductive Happening where
  | called (c : StoreCall) (r : StoreReply)
  | died

namespace Ledger

inductive Survives : Ledger → List Happening → Ledger → Prop
  | nil {a : Ledger} : Survives a [] a
  | called {a a₁ a₂ : Ledger} {c : StoreCall} {r : StoreReply} {l : List Happening} (h : a.Steps c r a₁) (hl : Survives a₁ l a₂) :
      Survives a (.called c r :: l) a₂
  | died {a a₁ : Ledger} {l : List Happening} (hl : Survives a.back l a₁) : Survives a (.died :: l) a₁

/-- Every call is allowed where it is made, by whichever process. -/
def Outlives (a : Ledger) : List Happening → Prop
  | [] => True
  | .called c r :: l => a.Allows c ∧ ∀ a', a.Steps c r a' → a'.Outlives l
  | .died :: l => a.back.Outlives l

end Ledger

namespace World

variable {hash128 : StoredTerm → Hash} {X : Inline.Datatypes}

/-- What happens to a store on disk. Whoever opens it has a session of its own. -/
inductive Lives : World (RocksStorage.backend hash128 X) Unit → List Happening → World (RocksStorage.backend hash128 X) Unit → Prop
  | nil {w : World (RocksStorage.backend hash128 X) Unit} : Lives w [] w
  | called {w w₁ w₂ : World (RocksStorage.backend hash128 X) Unit} {c : StoreCall} {r : StoreReply} {l : List Happening}
      (h : w.serve c = some (r, w₁)) (hl : Lives w₁ l w₂) : Lives w (.called c r :: l) w₂
  | died {w w₁ : World (RocksStorage.backend hash128 X) Unit} {rows : List (TermId × Nat)} {session : Session} {l : List Happening}
      (hrows : RocksStorage.Listed (RocksStorage.db w.store) rows)
      (hl : Lives ⟨RocksStorage.open (RocksStorage.db w.store) rows, session, ()⟩ l w₁) : Lives w (.died :: l) w₁

variable {w w' : World (RocksStorage.backend hash128 X) Unit} {a : Ledger} {c : StoreCall} {r : StoreReply} {l : List Happening}

/-! ## What the rows count -/

theorem steady_durable : Steady (fun w : World (RocksStorage.backend hash128 X) Unit => RocksStorage.Durable w.store) where
  encode hw henc := RocksStorage.Durable.encode hw henc
  write := by
    intro w op r s hw hwrite
    have hwrote := RocksStorage.Durable.write hw op
    change RocksStorage.write w.store op = (r, s) at hwrite
    rw [hwrite] at hwrote
    exact hwrote
  compile hw := hw

theorem serve_durable (hw : RocksStorage.Durable w.store) (h : w.serve c = some (r, w')) : RocksStorage.Durable w'.store := by
  obtain ⟨⟨res, w₁⟩, hrun, heq⟩ := Option.map_eq_some_iff.1 h
  obtain ⟨-, rfl⟩ := Prod.mk.inj heq
  have hkeeps : Keeps (fun w => RocksStorage.Durable w.store) (call c : Eff StorageError (World (RocksStorage.backend hash128 X) Unit) _) := by
    cases hc : c.isScope with
    | false => exact call_keeps steady_durable hc
    | true =>
      cases c with
      | begin =>
        refine Keeps.bind (keeps_of (fun w r w' hrun hw => ?_)) (fun _ => (quiet_pure _).keeps)
        split at hrun
        · rename_i s hbegin
          cases hrun
          exact RocksStorage.Durable.begin hw hbegin
        · cases hrun
          exact hw
      | commit lands =>
        refine Keeps.bind (keeps_of (fun w r w' hrun hw => ?_)) (fun _ => (quiet_pure _).keeps)
        cases hrun
        exact RocksStorage.Durable.commitOn hw rfl
      | rollback =>
        refine Keeps.bind (keeps_of (fun w r w' hrun hw => ?_)) (fun _ => (quiet_pure _).keeps)
        cases hrun
        exact RocksStorage.Durable.rollback hw
      | insert | remove | insertNamedGraph | removeNamedGraph | contains | containsNamedGraph | iter | namedGraphs | len => cases hc
  exact hkeeps w res _ hrun hw

/-! ## The way back -/

/-- Whatever the ledger has come to, what a rollback would leave shows what it was. -/
theorem of_back {s : RocksStorage} (ha : Ledger.Of (B := RocksStorage.backend hash128 X) (RocksStorage.Stands hash128 X)
    (RocksStorage.Open hash128 X) s a) :
    ∃ c ids, RocksStorage.Stands hash128 X s.rollback ⟨c, ids, none⟩ ∧ Held.Shows ⟨c, ids, none⟩ a.back.quads a.back.graphs ∧
      a.back.saved = none ∧ a.back.broken = false := by
  cases ha with
  | @standing h hs hshows hsaved hb =>
    cases hc : h.saved with
    | none =>
      have hnone : a.saved = none := Option.not_isSome_iff_eq_none.1 (by rw [hsaved.isSome, hc]; simp)
      have hback : a.back = a := by
        unfold Ledger.back
        rw [hnone]
      obtain ⟨c, ids, saved⟩ := h
      cases hc
      rw [hback]
      refine ⟨c, ids, ?_, hshows, hnone, hb⟩
      rw [RocksStorage.rollback_of_none (hs.scope_none rfl)]
      exact hs
    | some c =>
      obtain ⟨p, hp, hback⟩ := hsaved.back hc
      unfold Ledger.back
      rw [hp]
      exact ⟨c.1, c.2, hs.rollback hc, hback, rfl, rfl⟩
  | @stuck c p ho hp hshows hb =>
    unfold Ledger.back
    rw [hp]
    exact ⟨c.1, c.2, ho.2, hshows, rfl, rfl⟩

/-- Whatever happens to a store on disk is what would happen to its ledger. -/
theorem lives_survives (hX : X.Lawful) (hd : RocksStorage.Durable w.store)
    (ha : Ledger.Of (RocksStorage.Stands hash128 X) (RocksStorage.Open hash128 X) w.store a) (h : Lives w l w') (hallow : a.Outlives l) :
    RocksStorage.Durable w'.store ∧
      ∃ a', a.Survives l a' ∧ Ledger.Of (RocksStorage.Stands hash128 X) (RocksStorage.Open hash128 X) w'.store a' := by
  induction h generalizing a with
  | nil => exact ⟨hd, a, .nil, ha⟩
  | called hserve _ ih =>
    obtain ⟨a₁, hstep, ha₁⟩ := serve_steps (RocksStorage.lawful hX) ha hallow.1 hserve
    obtain ⟨hd', a', hruns, ha'⟩ := ih (serve_durable hd hserve) ha₁ (hallow.2 a₁ hstep)
    exact ⟨hd', a', .called hstep hruns, ha'⟩
  | died hrows _ ih =>
    obtain ⟨c, ids, hback, hshows, hsaved, hb⟩ := of_back ha
    have hopen : Ledger.Of (B := RocksStorage.backend hash128 X) (RocksStorage.Stands hash128 X) (RocksStorage.Open hash128 X)
        (RocksStorage.open (RocksStorage.db _) _) a.back :=
      .standing (RocksStorage.Durable.reopen hd hback hrows) hshows (by rw [hsaved]; exact .none) hb
    obtain ⟨hd', a', hruns, ha'⟩ := ih (RocksStorage.Durable.opened hd hrows) hopen hallow
    exact ⟨hd', a', .died hruns, ha'⟩

end World

end Holos
