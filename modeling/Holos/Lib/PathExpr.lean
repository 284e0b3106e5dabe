import Mathlib.Logic.Relation
/-!
# Path expressions

A path expression over labelled edges says which nodes it leads from and to. One read forwards only
cannot take the inverse of more than an edge, and `Meets` says from which nodes it comes to one.
-/

namespace Lib

inductive PathExpr (P : Type) where
  | predicate (p : P)
  | inverse (inner : PathExpr P)
  | sequence (steps : List (PathExpr P))
  | alternative (options : List (PathExpr P))
  | zeroOrMore (inner : PathExpr P)
  | oneOrMore (inner : PathExpr P)
  | zeroOrOne (inner : PathExpr P)

namespace PathExpr

variable {P N : Type}

def isPredicate : PathExpr P → Bool
  | .predicate _ => true
  | _ => false

section
variable (edge : P → N → N → Prop)

mutual

/-- What a path relates. -/
def Rel : PathExpr P → N → N → Prop
  | .predicate p => edge p
  | .inverse inner => fun a b => inner.Rel b a
  | .sequence steps => RelSeq steps
  | .alternative options => RelAny options
  | .zeroOrMore inner => Relation.ReflTransGen inner.Rel
  | .oneOrMore inner => Relation.TransGen inner.Rel
  | .zeroOrOne inner => Relation.ReflGen inner.Rel

/-- Steps taken in order. -/
def RelSeq : List (PathExpr P) → N → N → Prop
  | [] => Eq
  | step :: steps => Relation.Comp step.Rel (RelSeq steps)

/-- Any one of the options. -/
def RelAny : List (PathExpr P) → N → N → Prop
  | [] => fun _ _ => False
  | option :: options => fun a b => option.Rel a b ∨ RelAny options a b

end

mutual

/-- Followed forwards from a node, the path comes to the inverse of a path that is not one edge. -/
def Meets : PathExpr P → N → Prop
  | .predicate _ => fun _ => False
  | .inverse inner => fun _ => inner.isPredicate = false
  | .sequence steps => MeetsSeq steps
  | .alternative options => MeetsAny options
  | .zeroOrMore inner => fun a => ∃ b, Relation.ReflTransGen (inner.Rel edge) a b ∧ inner.Meets b
  | .oneOrMore inner => fun a => ∃ b, Relation.ReflTransGen (inner.Rel edge) a b ∧ inner.Meets b
  | .zeroOrOne inner => inner.Meets

def MeetsSeq : List (PathExpr P) → N → Prop
  | [] => fun _ => False
  | step :: steps => fun a => step.Meets a ∨ ∃ b, step.Rel edge a b ∧ MeetsSeq steps b

def MeetsAny : List (PathExpr P) → N → Prop
  | [] => fun _ => False
  | option :: options => fun a => option.Meets a ∨ MeetsAny options a

end

end

end PathExpr

end Lib
