import Mathlib.Control.Basic

/-!
Postfix code of expression trees for a stack machine. The meaning of leaves and of binary operators is that of any
monad, so that pushing and applying can fail; the machine itself fails on an operator without two operands.
-/
namespace Besra.Postfix

variable {leaf op ν : Type} {m : Type → Type} [Monad m]

inductive Term (leaf op : Type) where
  | leaf (l : leaf)
  | node (o : op) (l r : Term leaf op)
deriving DecidableEq

inductive Instr (leaf op : Type) where
  | push (l : leaf)
  | apply (o : op)
deriving DecidableEq

/-- The code of a tree: that of its operands, and the operator after it. -/
def Term.code : Term leaf op → List (Instr leaf op)
  | .leaf l => [.push l]
  | .node o l r => l.code ++ r.code ++ [.apply o]

/-- What leaves and operators mean, and how the machine fails when operands are missing. -/
structure Meaning (m : Type → Type) (leaf op ν : Type) where
  push : leaf → m ν
  apply : op → ν → ν → m ν
  underflow : m (List ν)

/-- The value of a tree, its operands from left to right. -/
def Term.eval (meaning : Meaning m leaf op ν) : Term leaf op → m ν
  | .leaf l => meaning.push l
  | .node o l r => do
    let x ← l.eval meaning
    let y ← r.eval meaning
    meaning.apply o x y

def step (meaning : Meaning m leaf op ν) : Instr leaf op → List ν → m (List ν)
  | .push l, stack => do
    let v ← meaning.push l
    pure (v :: stack)
  | .apply o, y :: x :: stack => do
    let v ← meaning.apply o x y
    pure (v :: stack)
  | .apply _, _ => meaning.underflow

def run (meaning : Meaning m leaf op ν) : List (Instr leaf op) → List ν → m (List ν)
  | [], stack => pure stack
  | i :: code, stack => do
    let stack ← step meaning i stack
    run meaning code stack

variable [LawfulMonad m]

theorem run_append (meaning : Meaning m leaf op ν) (code rest : List (Instr leaf op)) (stack : List ν) :
    run meaning (code ++ rest) stack = run meaning code stack >>= run meaning rest := by
  induction code generalizing stack with
  | nil => simp [run]
  | cons i code ih => simp [run, ih]

theorem run_code (meaning : Meaning m leaf op ν) (t : Term leaf op) (stack : List ν) :
    run meaning t.code stack = t.eval meaning >>= fun v => pure (v :: stack) := by
  induction t generalizing stack with
  | leaf l => simp [Term.code, Term.eval, run, step]
  | node o l r left right => simp [Term.code, Term.eval, run_append, left, right, run, step]

end Besra.Postfix
