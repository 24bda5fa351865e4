import Mathlib
import TreeCompiler.Tree.Basic

/-!
# Renaming children

The same form with other children in the places of the old ones. What kind of statement or
expression it is does not change.
-/

namespace TreeCompiler

namespace Stmt

/-- The statement with every child renamed. -/
def renamed (ren : NodeId → NodeId) : Stmt → Stmt
  | .container name members => .container name (members.map ren)
  | .method name ps rets body =>
    .method name (ps.map fun param => { param with type := ren param.type })
      (rets.map ren) (ren body)
  | .block stmts => .block (stmts.map ren)
  | .evaluate expr => .evaluate (ren expr)
  | .varDecl ty name init => .varDecl (ren ty) name (init.map ren)
  | .assign tgt v => .assign (ren tgt) (ren v)
  | .typedef name ty => .typedef name (ren ty)
  | .ifElse conds thenBranch els =>
    .ifElse (conds.map ren) (ren thenBranch) (els.map ren)
  | .whileLoop conds body testLast => .whileLoop (conds.map ren) (ren body) testLast
  | .forLoop init conds updates body =>
    .forLoop (init.map ren) (conds.map ren) (updates.map ren) (ren body)
  | .switch v cases => .switch (ren v) (cases.map ren)
  | .arm vals body => .arm (vals.map ren) (ren body)
  | .labeled l body => .labeled l (ren body)
  | .breakOut l => .breakOut l
  | .continueLoop l => .continueLoop l
  | .returnValues vals => .returnValues (vals.map ren)
  | .condDecl ty name v => .condDecl (ren ty) name (ren v)

theorem mapChildrenM_id (ren : NodeId → NodeId) (stmt : Stmt) :
    Id.run (stmt.mapChildrenM fun c => pure (ren c)) = stmt.renamed ren := by
  cases stmt <;> simp [mapChildrenM, renamed]
  case varDecl _ _ init => cases init <;> rfl
  case ifElse _ _ els => cases els <;> rfl

theorem renamed_renamed (fst snd : NodeId → NodeId) (stmt : Stmt) :
    (stmt.renamed fst).renamed snd = stmt.renamed (snd ∘ fst) := by
  cases stmt <;> simp [renamed]

end Stmt

namespace Expr

/-- The expression with every child renamed. -/
def renamed (ren : NodeId → NodeId) : Expr → Expr
  | .literal v => .literal v
  | .name text => .name text
  | .paren i => .paren (ren i)
  | .unary op arg => .unary op (ren arg)
  | .binary op lhs rhs => .binary op (ren lhs) (ren rhs)
  | .tuple ty es => .tuple (ty.map ren) (es.map ren)

theorem mapChildrenM_id (ren : NodeId → NodeId) (expr : Expr) :
    Id.run (expr.mapChildrenM fun c => pure (ren c)) = expr.renamed ren := by
  cases expr <;> simp [mapChildrenM, renamed]
  case tuple ty _ => cases ty <;> rfl

theorem renamed_renamed (fst snd : NodeId → NodeId) (expr : Expr) :
    (expr.renamed fst).renamed snd = expr.renamed (snd ∘ fst) := by
  cases expr <;> simp [renamed]

end Expr

namespace Form

variable (ren : NodeId → NodeId)

theorem mapChildren_stmt (stmt : Stmt) :
    (Form.stmt stmt).mapChildren ren = .stmt (stmt.renamed ren) := by
  rw [← Stmt.mapChildrenM_id]
  rfl

theorem mapChildren_expr (expr : Expr) :
    (Form.expr expr).mapChildren ren = .expr (expr.renamed ren) := by
  rw [← Expr.mapChildrenM_id]
  rfl

theorem stmt?_mapChildren (form : Form) :
    (form.mapChildren ren).stmt? = form.stmt?.map (Stmt.renamed ren) := by
  cases form with
  | stmt stmt => simp [mapChildren_stmt, stmt?]
  | _ => rfl

theorem expr?_mapChildren (form : Form) :
    (form.mapChildren ren).expr? = form.expr?.map (Expr.renamed ren) := by
  cases form with
  | expr expr => simp [mapChildren_expr, expr?]
  | _ => rfl

section

variable {m : Type → Type} [Monad m] [LawfulMonad m] (f : NodeId → m NodeId)

theorem mapM_paramType (ps : List Param) :
    List.map Param.type <$> ps.mapM (fun param => do pure { param with type := ← f param.type }) =
      (ps.map Param.type).mapM f := by
  induction ps with
  | nil => simp
  | cons param rest ih =>
    simp only [List.mapM_cons, List.map_cons, ← ih]
    simp

/-- The children of a form that are passed through a step are its children, passed in order. -/
theorem children_mapChildrenM (form : Form) :
    children <$> form.mapChildrenM f = form.children.mapM f := by
  cases form with
  | stmt stmt =>
    cases stmt with
    | method name ps rets body =>
      simp only [children, Stmt.children, List.mapM_append, ← mapM_paramType]
      simp [mapChildrenM, children, Stmt.mapChildrenM, Stmt.children]
    | varDecl ty name init =>
      cases init <;> simp [mapChildrenM, children, Stmt.mapChildrenM, Stmt.children]
    | ifElse conds thenBranch els =>
      cases els <;>
        simp [mapChildrenM, children, Stmt.mapChildrenM, Stmt.children]
    | _ => simp [mapChildrenM, children, Stmt.mapChildrenM, Stmt.children]
  | expr expr =>
    cases expr with
    | tuple ty es =>
      cases ty <;> simp [mapChildrenM, children, Expr.mapChildrenM, Expr.children]
    | _ => simp [mapChildrenM, children, Expr.mapChildrenM, Expr.children]
  | type ty =>
    cases ty <;> simp [mapChildrenM, children, TypeExpr.mapChildrenM, TypeExpr.children]

end

theorem children_mapChildren (form : Form) :
    (form.mapChildren ren).children = form.children.map ren := by
  have hp := congrArg Id.run (children_mapChildrenM (m := Id) (fun c => pure (ren c)) form)
  rwa [List.idRun_mapM] at hp

theorem mapChildren_mapChildren (snd : NodeId → NodeId) (form : Form) :
    (form.mapChildren ren).mapChildren snd = form.mapChildren (snd ∘ ren) := by
  cases form with
  | stmt stmt => rw [mapChildren_stmt, mapChildren_stmt, mapChildren_stmt, Stmt.renamed_renamed]
  | expr expr => rw [mapChildren_expr, mapChildren_expr, mapChildren_expr, Expr.renamed_renamed]
  | type ty => cases ty <;> simp [mapChildren, mapChildrenM, TypeExpr.mapChildrenM]

theorem mapChildren_id (form : Form) : form.mapChildren id = form := by
  cases form with
  | stmt stmt => cases stmt <;> simp [mapChildren_stmt, Stmt.renamed]
  | expr expr => cases expr <;> simp [mapChildren_expr, Expr.renamed]
  | type ty => cases ty <;> simp [mapChildren, mapChildrenM, TypeExpr.mapChildrenM]

end Form

theorem Stmt.children_renamed (ren : NodeId → NodeId) (stmt : Stmt) :
    (stmt.renamed ren).children = stmt.children.map ren := by
  have mapped := Form.children_mapChildren ren (.stmt stmt)
  rwa [Form.mapChildren_stmt] at mapped

theorem Expr.children_renamed (ren : NodeId → NodeId) (expr : Expr) :
    (expr.renamed ren).children = expr.children.map ren := by
  have mapped := Form.children_mapChildren ren (.expr expr)
  rwa [Form.mapChildren_expr] at mapped

end TreeCompiler
