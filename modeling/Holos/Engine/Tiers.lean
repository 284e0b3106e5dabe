import Holos.Engine.LedgerTheorems
import Holos.Store.MemoryBackend
import Holos.Store.RocksBackend
/-!
# The two tiers

Neither tier does anything but what the ledger says, whatever is asked of it and wherever it fails.
So two stores that are asked the same and do not fail answer alike, whichever tier each is on.
-/

namespace Holos

open Lib Security

/-! ## Replies -/

def StoreReply.isOk : StoreReply → Bool
  | .failed _ => false
  | _ => true

/-- The same reply, in whatever order its list came. -/
def StoreReply.Alike : StoreReply → StoreReply → Prop
  | .bool b, .bool b' => b = b'
  | .quads qs, .quads qs' => qs.Perm qs'
  | .graphs gs, .graphs gs' => ∀ g, g ∈ gs ↔ g ∈ gs'
  | .len n, .len n' => n = n'
  | .done, .done => True
  | _, _ => False

namespace Ledger

variable {a a' : Ledger} {c : StoreCall} {r r' : StoreReply}

/-- Every call is allowed where it is made, if each of them is answered. -/
def Allowed (a : Ledger) : List StoreCall → Prop
  | [] => True
  | c :: cs => a.Allows c ∧ (a.after c).Allowed cs

theorem Answers.alike (h : a.Answers c r) (h' : a.Answers c r') : r.Alike r' := by
  have hbool : ∀ {p : Prop} {b b' : Bool}, (b = true ↔ p) → (b' = true ↔ p) → b = b' := by
    intro p b b' hb hb'
    exact Bool.eq_iff_iff.2 (hb.trans hb'.symm)
  cases c with
  | insert | remove | insertNamedGraph | removeNamedGraph | contains | containsNamedGraph =>
    cases r <;> cases r' <;> first | exact hbool h h' | exact h.elim | exact h'.elim
  | iter =>
    cases r <;> cases r' <;> first | exact h.elim | exact h'.elim | skip
    exact (List.perm_ext_iff_of_nodup h.1 h'.1).2 (fun q => (h.2 q).trans (h'.2 q).symm)
  | namedGraphs =>
    cases r <;> cases r' <;> first | exact h.elim | exact h'.elim | skip
    exact fun g => (h g).trans (h' g).symm
  | len =>
    cases r <;> cases r' <;> first | exact h.elim | exact h'.elim | skip
    exact Eq.trans h (Eq.symm h')
  | begin | commit | rollback =>
    cases r <;> cases r' <;> first | exact h.elim | exact h'.elim | trivial

/-- Where nothing has failed, a reply is the ledger's. -/
theorem Steps.of_ok (h : a.Steps c r a') (hb : a.broken = false) (hr : r.isOk = true) : a.Answers c r ∧ a' = a.after c := by
  cases h with
  | answered _ h => exact ⟨h, rfl⟩
  | unchanged | breaks | lost => cases hr
  | broken h =>
    rw [hb] at h
    cases h

theorem after_broken (c : StoreCall) (hb : a.broken = false) : (a.after c).broken = false := by
  cases c with
  | rollback =>
    change a.back.broken = false
    unfold back
    split
    · rfl
    · exact hb
  | _ => exact hb

theorem Allowed.permits {cs : List StoreCall} {rs : List StoreReply} (h : a.Allowed cs) (hb : a.broken = false)
    (hok : ∀ r ∈ rs, r.isOk = true) : a.Permits (cs.zip rs) := by
  induction cs generalizing a rs with
  | nil => trivial
  | cons c cs ih =>
    cases rs with
    | nil => trivial
    | cons r rs =>
      refine ⟨h.1, fun a' hstep => ?_⟩
      obtain ⟨-, rfl⟩ := hstep.of_ok hb (hok r List.mem_cons_self)
      exact ih h.2 (after_broken c hb) (fun r' hr' => hok r' (List.mem_cons_of_mem _ hr'))

end Ledger

/-! ## Runs -/

namespace World

/-- A store does only what its ledger says. -/
def KeepsLedger (B : Backend) (s : B.State) : Prop :=
  ∀ session cs rs w, serveAll (⟨s, session, ()⟩ : World B Unit) cs = some (rs, w) → Ledger.empty.Permits (cs.zip rs) →
    ∃ a, Ledger.empty.Runs (cs.zip rs) a

section
variable {B B' : Backend} {Sim : B.State → Held → Prop} {Open : B.State → Contents × Ids → Prop}
variable {Sim' : B'.State → Held → Prop} {Open' : B'.State → Contents × Ids → Prop}

theorem keepsLedger_of_lawful (L : B.Lawful Sim Open) {s : B.State} {ids : Ids} (hs : Sim s ⟨.empty, ids, none⟩) : KeepsLedger B s := by
  intro session cs rs w hrun hallow
  obtain ⟨a, hruns, -⟩ := serveAll_runs L (of_empty hs) hrun hallow
  exact ⟨a, hruns⟩

/-- Two stores with one ledger answer alike as long as neither fails. -/
theorem serveAll_alike (L : B.Lawful Sim Open) (L' : B'.Lawful Sim' Open') {w w₁ : World B Unit} {w' w₁' : World B' Unit} {a : Ledger}
    {cs : List StoreCall} {rs rs' : List StoreReply} (ha : Ledger.Of Sim Open w.store a) (ha' : Ledger.Of Sim' Open' w'.store a)
    (hb : a.broken = false) (hrun : w.serveAll cs = some (rs, w₁)) (hrun' : w'.serveAll cs = some (rs', w₁')) (hallow : a.Allowed cs)
    (hok : ∀ r ∈ rs, r.isOk = true) (hok' : ∀ r ∈ rs', r.isOk = true) : List.Forall₂ StoreReply.Alike rs rs' := by
  induction cs generalizing w w' a rs rs' with
  | nil =>
    cases hrun
    cases hrun'
    exact .nil
  | cons c cs ih =>
    obtain ⟨r, rest, w₂, hserve, hrest, rfl⟩ := serveAll_cons hrun
    obtain ⟨r', rest', w₂', hserve', hrest', rfl⟩ := serveAll_cons hrun'
    obtain ⟨a₁, hstep, ha₁⟩ := serve_steps L ha hallow.1 hserve
    obtain ⟨a₁', hstep', ha₁'⟩ := serve_steps L' ha' hallow.1 hserve'
    obtain ⟨hans, rfl⟩ := hstep.of_ok hb (hok r List.mem_cons_self)
    obtain ⟨hans', rfl⟩ := hstep'.of_ok hb (hok' r' List.mem_cons_self)
    refine .cons (hans.alike hans') (ih ha₁ ha₁' (Ledger.after_broken c hb) hrest hrest' hallow.2 ?_ ?_)
    · exact fun r hr => hok r (List.mem_cons_of_mem _ hr)
    · exact fun r hr => hok' r (List.mem_cons_of_mem _ hr)

end

variable {X : Inline.Datatypes} {session session' : Session}

/-- A graph made in a scope, and given up. -/
def abandonedGraph : List StoreCall := [.begin, .insertNamedGraph (.blankNode "b"), .namedGraphs, .rollback, .namedGraphs]

def anyone : Session := ⟨.anonymous, .permitAll, ⟨.allow, .filter, none, [], [], [], [], false, 0, []⟩⟩

theorem abandonedGraph_allowed : Ledger.empty.Allowed abandonedGraph := ⟨rfl, trivial, trivial, rfl, trivial, trivial⟩

theorem abandonedGraph_served :
    (∃ rs m, serveAll (⟨.new, anyone, ()⟩ : World (MemoryStorage.backend Dictionary.bare) Unit) abandonedGraph = some (rs, m) ∧
      ∀ r ∈ rs, r.isOk = true) ∧
    ∃ rs r, serveAll (⟨.new, anyone, ()⟩ : World (RocksStorage.backend (fun _ => 0) Dictionary.bare) Unit) abandonedGraph = some (rs, r) ∧
      ∀ r ∈ rs, r.isOk = true := by
  have hm : (serveAll (⟨.new, anyone, ()⟩ : World (MemoryStorage.backend Dictionary.bare) Unit) abandonedGraph).map
      (fun p => p.1.all StoreReply.isOk) = some true := by decide +kernel
  have hr : (serveAll (⟨.new, anyone, ()⟩ : World (RocksStorage.backend (fun _ => 0) Dictionary.bare) Unit) abandonedGraph).map
      (fun p => p.1.all StoreReply.isOk) = some true := by decide +kernel
  obtain ⟨⟨rs, m⟩, hm, hok⟩ := Option.map_eq_some_iff.1 hm
  obtain ⟨⟨rs', r⟩, hr, hok'⟩ := Option.map_eq_some_iff.1 hr
  exact ⟨⟨rs, m, hm, List.all_eq_true.1 hok⟩, rs', r, hr, List.all_eq_true.1 hok'⟩

end World

end Holos
