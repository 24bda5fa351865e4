import TreeCompiler.Keyword
import TreeCompiler.Operator
import TreeCompiler.Text.Dotted
import TreeCompiler.Text.Escape

/-!
# Forms of nodes

What a node of a tree says: a statement, an expression or a type expression whose children are named
by their ids. The children of a form have a fixed order, which `children` lists and `mapChildrenM`
follows.
-/

namespace TreeCompiler

/-- The position of a node in its tree. -/
structure NodeId where
  index : Nat
  deriving DecidableEq, Repr, Inhabited

namespace NodeId

def text (id : NodeId) : String := "n" ++ toString id.index

end NodeId

/-- A parameter of a method. -/
structure Param where
  name : String
  type : NodeId
  deriving DecidableEq, Repr, Inhabited

/-- A statement. -/
inductive Stmt where
  /-- The root of a unit: a named container of methods. -/
  | container (name : String) (members : List NodeId)
  | method (name : String) (params : List Param) (returns : List NodeId) (body : NodeId)
  | block (stmts : List NodeId)
  | evaluate (expr : NodeId)
  | varDecl (type : NodeId) (name : String) (init : Option NodeId)
  | assign (target value : NodeId)
  /-- A name for a type, visible in the whole enclosing block. -/
  | typedef (name : String) (type : NodeId)
  | ifElse (conds : List NodeId) (thenBranch : NodeId) (elseBranch : Option NodeId)
  /-- A loop that tests before its body, or after it. -/
  | whileLoop (conds : List NodeId) (body : NodeId) (testLast : Bool)
  | forLoop (init conds updates : List NodeId) (body : NodeId)
  | switch (value : NodeId) (cases : List NodeId)
  /-- One arm of a switch; without values it is the default. -/
  | arm (values : List NodeId) (body : NodeId)
  | labeled (label : String) (body : NodeId)
  | breakOut (label : Option String)
  | continueLoop (label : Option String)
  | returnValues (values : List NodeId)
  /-- Declares a name for a value and tests that the value is not null. -/
  | condDecl (type : NodeId) (name : String) (value : NodeId)
  deriving DecidableEq, Repr, Inhabited

/-- A literal value. -/
inductive Literal where
  | int (value : Int64)
  | string (value : String)
  | char (value : Char)
  | bool (value : Bool)
  | null
  deriving DecidableEq, Repr, Inhabited

/-- An expression. -/
inductive Expr where
  | literal (literal : Literal)
  /-- A name, qualified or not. -/
  | name (name : String)
  | paren (inner : NodeId)
  | unary (op : UnaryOp) (operand : NodeId)
  | binary (op : BinaryOp) (lhs rhs : NodeId)
  | tuple (type : Option NodeId) (elements : List NodeId)
  deriving DecidableEq, Repr, Inhabited

/-- A type expression. -/
inductive TypeExpr where
  /-- A name, given by its parts, with type parameters. -/
  | named (names : List String) (params : List NodeId)
  | keyword (keyword : Keyword)
  | tuple (elements : List NodeId)
  | nullable (inner : NodeId)
  /-- Source text that is no type. -/
  | bad (text : String)
  deriving DecidableEq, Repr, Inhabited

/-- What a node says. -/
inductive Form where
  | stmt (stmt : Stmt)
  | expr (expr : Expr)
  | type (type : TypeExpr)
  deriving DecidableEq, Repr, Inhabited

namespace Stmt

/-- The children of a statement, in order. -/
def children : Stmt → List NodeId
  | .container _ members => members
  | .method _ params returns body => params.map Param.type ++ returns ++ [body]
  | .block stmts => stmts
  | .evaluate expr => [expr]
  | .varDecl type _ init => type :: init.toList
  | .assign target value => [target, value]
  | .typedef _ type => [type]
  | .ifElse conds thenBranch elseBranch => conds ++ thenBranch :: elseBranch.toList
  | .whileLoop conds body _ => conds ++ [body]
  | .forLoop init conds updates body => init ++ conds ++ updates ++ [body]
  | .switch value cases => value :: cases
  | .arm values body => values ++ [body]
  | .labeled _ body => [body]
  | .breakOut _ | .continueLoop _ => []
  | .returnValues values => values
  | .condDecl type _ value => [type, value]

/-- The same statement with every child passed through `f`, in order. -/
def mapChildrenM {m : Type → Type} [Monad m] (f : NodeId → m NodeId) : Stmt → m Stmt
  | .container name members => do pure (.container name (← members.mapM f))
  | .method name params returns body => do
    let params ← params.mapM fun param => do
      pure { param with type := ← f param.type }
    let returns ← returns.mapM f
    pure (.method name params returns (← f body))
  | .block stmts => do pure (.block (← stmts.mapM f))
  | .evaluate expr => do pure (.evaluate (← f expr))
  | .varDecl type name init => do
    let type ← f type
    pure (.varDecl type name (← init.mapM f))
  | .assign target value => do
    let target ← f target
    pure (.assign target (← f value))
  | .typedef name type => do pure (.typedef name (← f type))
  | .ifElse conds thenBranch elseBranch => do
    let conds ← conds.mapM f
    let thenBranch ← f thenBranch
    pure (.ifElse conds thenBranch (← elseBranch.mapM f))
  | .whileLoop conds body testLast => do
    let conds ← conds.mapM f
    pure (.whileLoop conds (← f body) testLast)
  | .forLoop init conds updates body => do
    let init ← init.mapM f
    let conds ← conds.mapM f
    let updates ← updates.mapM f
    pure (.forLoop init conds updates (← f body))
  | .switch value cases => do
    let value ← f value
    pure (.switch value (← cases.mapM f))
  | .arm values body => do
    let values ← values.mapM f
    pure (.arm values (← f body))
  | .labeled label body => do pure (.labeled label (← f body))
  | .breakOut label => pure (.breakOut label)
  | .continueLoop label => pure (.continueLoop label)
  | .returnValues values => do pure (.returnValues (← values.mapM f))
  | .condDecl type name value => do
    let type ← f type
    pure (.condDecl type name (← f value))

/-- The conditions of a statement, in the order they are tested. -/
def conds : Stmt → List NodeId
  | .ifElse conds .. | .whileLoop conds .. | .forLoop _ conds .. => conds
  | _ => []

/-- Whether the statement can be continued. -/
def isLoop : Stmt → Bool
  | .whileLoop .. | .forLoop .. => true
  | _ => false

/-- Whether a break without a label leaves the statement. -/
def isBreakTarget : Stmt → Bool
  | .whileLoop .. | .forLoop .. | .switch .. => true
  | _ => false

/-- The local a statement declares. -/
def declaredName? : Stmt → Option String
  | .varDecl _ name _ | .condDecl _ name _ => some name
  | _ => none

/-- Whether the statement is a method. -/
def isMethod : Stmt → Bool
  | .method .. => true
  | _ => false

/-- The word for the kind of statement. -/
def keyword : Stmt → String
  | .container .. => "module"
  | .method .. => "method"
  | .block _ => "block"
  | .evaluate _ => "expr"
  | .varDecl .. => "var"
  | .assign .. => "assign"
  | .typedef .. => "typedef"
  | .ifElse .. => "if"
  | .whileLoop _ _ true => "do"
  | .whileLoop _ _ false => "while"
  | .forLoop .. => "for"
  | .switch .. => "switch"
  | .arm [] _ => "default"
  | .arm (_ :: _) _ => "case"
  | .labeled .. => "label"
  | .breakOut _ => "break"
  | .continueLoop _ => "continue"
  | .returnValues _ => "return"
  | .condDecl .. => "cond"

end Stmt

namespace Literal

def text : Literal → String
  | .int value => toString value.toInt
  | .string value => Text.quote value
  | .char value => Text.quoteChar value
  | .bool true => "true"
  | .bool false => "false"
  | .null => "null"

end Literal

namespace Expr

def children : Expr → List NodeId
  | .literal _ | .name _ => []
  | .paren inner => [inner]
  | .unary _ operand => [operand]
  | .binary _ lhs rhs => [lhs, rhs]
  | .tuple type elements => type.toList ++ elements

/-- The same expression with every child passed through `f`, in order. -/
def mapChildrenM {m : Type → Type} [Monad m] (f : NodeId → m NodeId) : Expr → m Expr
  | .literal value => pure (.literal value)
  | .name text => pure (.name text)
  | .paren inner => do pure (.paren (← f inner))
  | .unary op operand => do pure (.unary op (← f operand))
  | .binary op lhs rhs => do
    let lhs ← f lhs
    pure (.binary op lhs (← f rhs))
  | .tuple type elements => do
    let type ← type.mapM f
    pure (.tuple type (← elements.mapM f))

end Expr

namespace TypeExpr

def children : TypeExpr → List NodeId
  | .named _ params => params
  | .tuple elements => elements
  | .nullable inner => [inner]
  | .keyword _ | .bad _ => []

/-- The same type expression with every child passed through `f`, in order. -/
def mapChildrenM {m : Type → Type} [Monad m] (f : NodeId → m NodeId) : TypeExpr → m TypeExpr
  | .named names params => do pure (.named names (← params.mapM f))
  | .tuple elements => do pure (.tuple (← elements.mapM f))
  | .nullable inner => do pure (.nullable (← f inner))
  | .keyword word => pure (.keyword word)
  | .bad text => pure (.bad text)

def qualifiedName? : TypeExpr → Option String
  | .named names _ => some (Text.joinDots names)
  | _ => none

end TypeExpr

namespace Form

def children : Form → List NodeId
  | .stmt s => s.children
  | .expr e => e.children
  | .type t => t.children

/-- The same form with every child passed through `f`, in order. -/
def mapChildrenM {m : Type → Type} [Monad m] (f : NodeId → m NodeId) : Form → m Form
  | .stmt s => do pure (.stmt (← s.mapChildrenM f))
  | .expr e => do pure (.expr (← e.mapChildrenM f))
  | .type t => do pure (.type (← t.mapChildrenM f))

/-- The same form with every child replaced by `f` of it. -/
def mapChildren (f : NodeId → NodeId) (form : Form) : Form :=
  Id.run (form.mapChildrenM fun child => pure (f child))

/-- Takes the next id of a list; a child keeps its own id once the list is used up. -/
def takeNext (child : NodeId) : StateM (List NodeId) NodeId :=
  modifyGet fun
    | [] => (child, [])
    | next :: rest => (next, rest)

/-- The same form with other children, given in order. -/
def withChildren (form : Form) (children : List NodeId) : Form :=
  ((form.mapChildrenM takeNext).run children).run.1

/-- The form without its children: each is replaced by one and the same id. -/
def shell (form : Form) : Form := form.mapChildren fun _ => ⟨0⟩

def stmt? : Form → Option Stmt
  | .stmt s => some s
  | .expr _ | .type _ => none

def expr? : Form → Option Expr
  | .expr e => some e
  | .stmt _ | .type _ => none

def type? : Form → Option TypeExpr
  | .type t => some t
  | .stmt _ | .expr _ => none

end Form

end TreeCompiler
