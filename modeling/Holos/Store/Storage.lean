import Holos.Store.Contents
import Holos.Store.Dictionary
/-!
# What a storage backend is for

The operations of the `Storage` trait outside a bulk load, and what they come to on the
contents: a commit scope keeps the contents it opened on, and an abandoned one goes back to
them. Both backends simulate this machine.
-/

namespace Holos.Storage

inductive Op where
  | encode (term : Term)
  | write (op : Index.Op)
  | begin
  | commit
  | rollback

inductive Reply where
  | encoded (r : Except StorageError TermId)
  | wrote (r : Except StorageError Bool)
  | scoped (r : Except StorageError Unit)

/-- No operation failed, but for a scope that was opened or closed out of turn. -/
def Reply.isOk : Reply → Bool
  | .encoded (.error _) | .wrote (.error _) => false
  | _ => true

def nested : StorageError :=
  .corruption "a commit scope is already open; nesting them would read as two commits and be one"

def notOpen : StorageError := .corruption "no commit scope is open"

/-- The contents now, and those the open scope began with. -/
structure Scoped where
  current : Contents
  saved : Option Contents

namespace Scoped

def new : Scoped := ⟨.empty, none⟩

/-- The contents a rollback would leave. -/
def base (a : Scoped) : Contents := a.saved.getD a.current

def step (a : Scoped) : Op → Scoped
  | .encode _ => a
  | .write op => { a with current := a.current.apply op }
  | .begin => if a.saved.isSome then a else { a with saved := some a.current }
  | .commit => { a with saved := none }
  | .rollback => ⟨a.base, none⟩

def run (a : Scoped) (ops : List Op) : Scoped := ops.foldl step a

/-- What an operation other than an encode answers. -/
def reply (a : Scoped) : Op → Option Reply
  | .encode _ => none
  | .write op => some (.wrote (.ok (a.current.changes op)))
  | .begin => some (.scoped (if a.saved.isSome then .error nested else .ok ()))
  | .commit => some (.scoped (if a.saved.isSome then .ok () else .error notOpen))
  | .rollback => some (.scoped (.ok ()))

theorem rollback_current {a : Scoped} {c : Contents} (h : a.saved = some c) : (a.step .rollback).current = c := by
  simp only [step, base, h, Option.getD_some]

end Scoped

/-- Operations that stay inside a scope. -/
def Op.isWrite : Op → Bool
  | .encode _ | .write _ => true
  | _ => false

/-- Writes move the contents and not what a rollback goes back to. -/
theorem Scoped.run_writes_saved (a : Scoped) {ops : List Op} (h : ∀ op ∈ ops, op.isWrite = true) :
    (a.run ops).saved = a.saved := by
  unfold run
  induction ops generalizing a with
  | nil => rfl
  | cons op ops ih =>
    rw [List.foldl_cons, ih _ (fun o ho => h o (List.mem_cons_of_mem _ ho))]
    have hop := h op List.mem_cons_self
    cases op with
    | encode t => rfl
    | write op => rfl
    | begin | commit | rollback => cases hop

end Holos.Storage
