import TreeCompiler.Proofs.PeeledTrees
import TreeCompiler.Proofs.Scopes

/-!
# Syntactic categories

What each position in a tree calls for: a method, a statement, an arm, a condition, an expression or
a type. A tree is well-formed if every position holds what it calls for. Peeling parentheses off
fills no position with anything else.
-/

namespace TreeCompiler

/-- What a position in a tree calls for. -/
inductive Slot where
  | member
  | statement
  /-- A part of a `for` loop before or after its conditions. -/
  | simple
  | arm
  | condition
  | expression
  | type
  deriving DecidableEq, Repr, Inhabited

namespace Stmt

/-- Whether the statement can be executed by itself. -/
def isExecutable : Stmt → Bool
  | .container .. | .method .. | .arm .. | .condDecl .. => false
  | _ => true

/-- Whether the statement computes something and goes on. -/
def isSimple : Stmt → Bool
  | .evaluate _ | .varDecl .. | .assign .. => true
  | _ => false

/-- Whether the statement is an arm of a switch. -/
def isArm : Stmt → Bool
  | .arm .. => true
  | _ => false

/-- Whether the statement holds the methods of a unit. -/
def isContainer : Stmt → Bool
  | .container .. => true
  | _ => false

theorem isExecutable_of_isSimple {stmt : Stmt} (simple : stmt.isSimple) : stmt.isExecutable := by
  cases stmt <;> simp [isSimple] at simple <;> rfl

/-- The children of a statement with what their positions call for. -/
def slots : Stmt → List (Slot × NodeId)
  | .container _ members => members.map (.member, ·)
  | .method _ ps rets body =>
    (ps.map Param.type ++ rets).map (.type, ·) ++ [(.statement, body)]
  | .block stmts => stmts.map (.statement, ·)
  | .evaluate expr => [(.expression, expr)]
  | .varDecl ty _ init => (.type, ty) :: init.toList.map (.expression, ·)
  | .assign tgt v => [(.expression, tgt), (.expression, v)]
  | .typedef _ ty => [(.type, ty)]
  | .ifElse conds thenBranch els =>
    conds.map (.condition, ·) ++ (.statement, thenBranch) :: els.toList.map (.statement, ·)
  | .whileLoop conds body _ => conds.map (.condition, ·) ++ [(.statement, body)]
  | .forLoop init conds updates body =>
    init.map (.simple, ·) ++ conds.map (.condition, ·) ++ updates.map (.simple, ·) ++ [(.statement, body)]
  | .switch v cases => (.expression, v) :: cases.map (.arm, ·)
  | .arm vals body => vals.map (.expression, ·) ++ [(.statement, body)]
  | .labeled _ body => [(.statement, body)]
  | .breakOut _ | .continueLoop _ => []
  | .returnValues vals => vals.map (.expression, ·)
  | .condDecl ty _ v => [(.type, ty), (.expression, v)]

theorem mem_children_of_slots {stmt : Stmt} {slot : Slot} {c : NodeId}
    (mem : (slot, c) ∈ stmt.slots) : c ∈ stmt.children := by
  cases stmt <;> simp [slots, children] at mem ⊢ <;> grind

end Stmt

/-- The children of an expression with what their positions call for. -/
def Expr.slots : Expr → List (Slot × NodeId)
  | .literal _ | .name _ => []
  | .paren i => [(.expression, i)]
  | .unary _ arg => [(.expression, arg)]
  | .binary _ lhs rhs => [(.expression, lhs), (.expression, rhs)]
  | .tuple ty es => ty.toList.map (.type, ·) ++ es.map (.expression, ·)

theorem Expr.mem_children_of_slots {expr : Expr} {slot : Slot} {c : NodeId}
    (mem : (slot, c) ∈ expr.slots) : c ∈ expr.children := by
  cases expr <;> simp [slots, children] at mem ⊢ <;> grind

/-- The children of a node with what their positions call for. -/
def Form.slots : Form → List (Slot × NodeId)
  | .stmt s => s.slots
  | .expr e => e.slots
  | .type t => t.children.map (.type, ·)

/-- Whether a position may hold the form. -/
def Slot.admits : Slot → Form → Bool
  | .member, .stmt stmt => stmt.isMethod
  | .statement, .stmt stmt => stmt.isExecutable
  | .simple, .stmt stmt => stmt.isSimple
  | .arm, .stmt stmt => stmt.isArm
  | .condition, .stmt stmt => stmt.isCondDecl
  | .condition, .expr _ | .expression, .expr _ | .type, .type _ => true
  | _, _ => false

namespace Tree

/-- A unit in which every position holds what it calls for: a container of methods or a single
method, with types spelled by the keywords of types only. -/
structure IsWellFormed (tree : Tree) (r : NodeId) : Prop where
  top : ∃ stmt, tree.stmt? r = some stmt ∧ (stmt.isContainer ∨ stmt.isMethod)
  filled : ∀ id form, tree.Below r id → tree.form? id = some form →
    ∀ slot c, (slot, c) ∈ form.slots → ∃ held, tree.form? c = some held ∧ slot.admits held
  keywords : ∀ id word, tree.Below r id → tree.type? id = some (.keyword word) → word.category?.isSome

/-- Whether the positions of a node hold what they call for. -/
def fits (tree : Tree) (id : NodeId) : Bool :=
  (tree.form? id).all fun form =>
    form.slots.all (fun seat => (tree.form? seat.2).any seat.1.admits) &&
      match form with
      | .type (.keyword word) => word.category?.isSome
      | _ => true

theorem isWellFormed_of_table {tree : Tree} {r : NodeId} (fresh : tree.IsFresh r)
    (hp : tree.Has r) (top : (tree.stmt? r).map Stmt.isMethod = some true)
    (table : ∀ i < tree.size, tree.fits ⟨i⟩ = true) : tree.IsWellFormed r := by
  have fits : ∀ id, tree.Below r id → tree.fits id = true := fun id hb =>
    table id.index (fresh.toIsLinked.index_lt_size hb hp)
  obtain ⟨stmt, hf, hm⟩ := Option.map_eq_some_iff.mp top
  refine ⟨⟨stmt, hf, .inr hm⟩, ?_, ?_⟩
  · intro id form hb here slot c mem
    have fit := fits id hb
    simp only [Tree.fits, here, Option.all_some, Bool.and_eq_true, List.all_eq_true] at fit
    have admitted := fit.1 (slot, c) mem
    cases held : tree.form? c with
    | none => simp [held] at admitted
    | some form => exact ⟨form, rfl, by simpa [held] using admitted⟩
  · intro id word hb isKeyword
    have fit := fits id hb
    obtain ⟨form, here, ht⟩ := Option.bind_eq_some_iff.mp isKeyword
    cases form with
    | type ty =>
      cases ht
      simpa [Tree.fits, here, Form.slots, TypeExpr.children] using fit
    | _ => simp [Form.type?] at ht

end Tree

end TreeCompiler
