import TreeCompiler.Proofs.FittingTypes
import TreeCompiler.Proofs.ValidationInvariants

/-!
# Evaluation of expressions

What an expression evaluates to, given the values of its locals and named constants. Integers are
exact as long as they fit into 64 bits, division goes toward zero, and logical operators look at
their right operand only if the left one does not decide. A value is a constant with all its parts
written out, and values are equal if they are written alike.
-/

namespace TreeCompiler

namespace Term

mutual

/-- Whether two terms are equal. -/
def decEq : (fst snd : Term) → Decidable (fst = snd)
  | node l ps, node x others =>
    match decEqConstant l x, decEqs ps others with
    | isTrue eq, isTrue all => isTrue (by rw [eq, all])
    | isFalse ne, _ => isFalse fun he => ne (Term.node.inj he).1
    | _, isFalse ne => isFalse fun he => ne (Term.node.inj he).2
where
  decEqConstant (fst snd : Constant) : Decidable (fst = snd) := inferInstance

/-- Whether two lists of terms are equal. -/
def decEqs : (fst snd : List Term) → Decidable (fst = snd)
  | [], [] => isTrue rfl
  | [], _ :: _ | _ :: _, [] => isFalse (by simp)
  | part :: ps, x :: others =>
    match decEq part x, decEqs ps others with
    | isTrue eq, isTrue all => isTrue (by rw [eq, all])
    | isFalse ne, _ => isFalse fun he => ne (List.cons.inj he).1
    | _, isFalse ne => isFalse fun he => ne (List.cons.inj he).2

end

instance : DecidableEq Term := decEq

/-- A truth value. -/
def bool (v : Bool) : Term := node (.bool v) []

/-- A tuple of values. -/
def tuple (es : List Term) : Term := node (.tuple (es.map fun _ => ⟨0⟩)) es

/-- A value has a type. -/
inductive Is : Term → Term → Prop
  | int (v : Int64) : Is (node (.int v) []) (namedType "Int")
  | string (v : String) : Is (node (.string v) []) (namedType "String")
  | char (v : Char) : Is (node (.char v) []) (namedType "Char")
  | bool (v : Bool) : Is (bool v) (namedType "Boolean")
  | null : Is (node .null []) (namedType "Nullable")
  | tuple {es types : List Term} (arity : es.length = types.length)
      (each : ∀ (i : Nat) elem ty, es[i]? = some elem →
        types[i]? = some ty → Is elem ty) : Is (tuple es) (tupleType types)

end Term

/-- Why an expression has no value. -/
inductive Fault where
  | overflow
  | divisionByZero
  /-- A string is joined with something else, which is left to run time. -/
  | mixed
  deriving DecidableEq, Repr

/-- What an evaluation ends with: a value, a fault, or nothing where evaluation says nothing. -/
abbrev Evaluation := ExceptT Fault Option

namespace Evaluation

/-- Evaluation says nothing. -/
def undefined {α : Type} : Evaluation α := ExceptT.mk none

/-- An integer, if it fits. -/
def exactly (v : Int) : Evaluation Term :=
  if -2 ^ 63 ≤ v ∧ v < 2 ^ 63 then pure (.node (.int (.ofInt v)) []) else throw .overflow

/-- An operator on integers. -/
def applyInts (left right : Int64) : BinaryOp → Evaluation Term
  | .add => exactly (left.toInt + right.toInt)
  | .sub => exactly (left.toInt - right.toInt)
  | .mul => exactly (left.toInt * right.toInt)
  | .div => if right = 0 then throw .divisionByZero else exactly (left.toInt.tdiv right.toInt)
  | .mod =>
    if right = 0 then throw .divisionByZero
    else if left = Int64.minValue ∧ right = -1 then throw .overflow
    else exactly (left.toInt.tmod right.toInt)
  | .lt => pure (.bool (left.toInt < right.toInt))
  | .le => pure (.bool (left.toInt ≤ right.toInt))
  | .gt => pure (.bool (right.toInt < left.toInt))
  | .ge => pure (.bool (right.toInt ≤ left.toInt))
  | _ => undefined

/-- An operator on characters, which are ordered by their code points. -/
def applyChars (left right : Char) : BinaryOp → Evaluation Term
  | .lt => pure (.bool (left.toNat < right.toNat))
  | .le => pure (.bool (left.toNat ≤ right.toNat))
  | .gt => pure (.bool (right.toNat < left.toNat))
  | .ge => pure (.bool (right.toNat ≤ left.toNat))
  | _ => undefined

/-- An operator other than a logical one. -/
def applyBinary (op : BinaryOp) (left right : Term) : Evaluation Term :=
  match op, left, right with
  | .eq, _, _ => pure (.bool (left = right))
  | .ne, _, _ => pure (.bool (left ≠ right))
  | op, .node (.int left) _, .node (.int right) _ => applyInts left right op
  | op, .node (.char left) _, .node (.char right) _ => applyChars left right op
  | .add, .node (.string left) _, .node (.string right) _ => pure (.node (.string (left ++ right)) [])
  | .add, .node (.string _) _, _ | .add, _, .node (.string _) _ => throw .mixed
  | _, _, _ => undefined

/-- An operator with one operand. -/
def applyUnary (op : UnaryOp) (arg : Term) : Evaluation Term :=
  match op, arg with
  | .not, .node (.bool v) _ => pure (.bool !v)
  | .neg, .node (.int v) _ => exactly (-v.toInt)
  | _, _ => undefined

end Evaluation

open Evaluation in
/-- What an expression evaluates to, down to a depth. -/
def Tree.evaluate (tree : Tree) (ks : ConstId → Term) (locals : NodeId → Term) :
    Nat → NodeId → Evaluation Term
  | 0, _ => undefined
  | n + 1, id =>
    match tree.expr? id with
    | none => undefined
    | some (.literal literal) => pure (.node literal.constant [])
    | some (.name _) =>
      match (tree.facts id).binding with
      | some (.localDecl decl) => pure (locals decl)
      | some (.constant _ v) => pure (ks v)
      | _ => undefined
    | some (.paren i) => tree.evaluate ks locals n i
    | some (.unary op arg) => do applyUnary op (← tree.evaluate ks locals n arg)
    | some (.binary op lhs rhs) => do
      let left ← tree.evaluate ks locals n lhs
      match op, left with
      | .and, .node (.bool false) _ | .or, .node (.bool true) _ => pure left
      | .and, .node (.bool true) _ | .or, .node (.bool false) _ =>
        tree.evaluate ks locals n rhs
      | .and, _ | .or, _ => undefined
      | op, left => do applyBinary op left (← tree.evaluate ks locals n rhs)
    | some (.tuple _ es) => do
      pure (.tuple (← es.mapM (tree.evaluate ks locals n)))

end TreeCompiler
