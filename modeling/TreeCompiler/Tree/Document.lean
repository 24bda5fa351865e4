import TreeCompiler.Pool.Document
import TreeCompiler.Tree.Basic

/-!
# Tree documents

Trees, their nodes and what is known about these as JSON values.
-/

namespace TreeCompiler

open Text (Json)

def NodeId.toJson (id : NodeId) : Json := .nat id.index

def NodeId.listToJson (ids : List NodeId) : Json := .ofList NodeId.toJson ids

/-- The meaning of a name as a JSON value. -/
def Binding.toJson : Binding → Json
  | .localDecl decl => .tagged "Local" (.object [("decl", decl.toJson)])
  | .type ty => .tagged "Type" ty.toJson
  | .constant ty value =>
    .tagged "Constant" (.object [("ty", ty.toJson), ("value", value.toJson)])
  | .space name => .tagged "Namespace" (.text name)

def Jump.toJson (jump : Jump) : Json :=
  .object
    [("target", jump.target.toJson), ("depth", .nat jump.depth), ("kind", .text jump.kind.name)]

/-- What is known about a node, by name. -/
def Facts.members (facts : Facts) : List (String × Json) :=
  [("stage", .text facts.stage.name),
    ("ty", .ofOption ConstId.toJson facts.type),
    ("constant", .ofOption ConstId.toJson facts.constant),
    ("fit", .ofOption (fun fit => .text fit.name) facts.fit),
    ("binding", .ofOption Binding.toJson facts.binding),
    ("goto", .ofOption Jump.toJson facts.jump),
    ("label_scope", .ofOption (fun scope => .nat scope.toNat) facts.labelScope),
    ("break_used", .bool facts.breakUsed),
    ("continue_used", .bool facts.continueUsed),
    ("reachable", .ofOption Json.bool facts.reachable)]

/-- What is known about a node as a JSON value. -/
def Facts.toJson (facts : Facts) : Json := .object facts.members

/-- What is known about a node, without what is missing or did not happen. That control does not
reach a node is something known. -/
def Facts.brief (facts : Facts) : Json :=
  .object (facts.members.filter fun (name, value) =>
    match value with
    | .null => false
    | .bool false => name == "reachable"
    | _ => true)

def Param.toJson (param : Param) : Json :=
  .object [("name", .text param.name), ("ty", param.type.toJson)]

/-- A statement as a JSON value. -/
def Stmt.toJson : Stmt → Json
  | .container name members =>
    .tagged "Module" (.object [("name", .text name), ("members", NodeId.listToJson members)])
  | .method name params returns body =>
    .tagged "Method"
      (.object
        [("name", .text name), ("params", .ofList Param.toJson params),
          ("returns", NodeId.listToJson returns), ("body", body.toJson)])
  | .block stmts => .tagged "Block" (NodeId.listToJson stmts)
  | .evaluate expr => .tagged "Expr" expr.toJson
  | .varDecl type name init =>
    .tagged "VarDecl"
      (.object
        [("ty", type.toJson), ("name", .text name), ("init", .ofOption NodeId.toJson init)])
  | .assign target value =>
    .tagged "Assign" (.object [("target", target.toJson), ("value", value.toJson)])
  | .typedef name type => .tagged "Typedef" (.object [("name", .text name), ("ty", type.toJson)])
  | .ifElse conds thenBranch elseBranch =>
    .tagged "If"
      (.object
        [("conds", NodeId.listToJson conds), ("then_branch", thenBranch.toJson),
          ("else_branch", .ofOption NodeId.toJson elseBranch)])
  | .whileLoop conds body testLast =>
    .tagged "While"
      (.object
        [("conds", NodeId.listToJson conds), ("body", body.toJson),
          ("do_while", .bool testLast)])
  | .forLoop init conds updates body =>
    .tagged "For"
      (.object
        [("init", NodeId.listToJson init), ("conds", NodeId.listToJson conds),
          ("updates", NodeId.listToJson updates), ("body", body.toJson)])
  | .switch value cases =>
    .tagged "Switch" (.object [("value", value.toJson), ("cases", NodeId.listToJson cases)])
  | .arm values body =>
    .tagged "Case" (.object [("values", NodeId.listToJson values), ("body", body.toJson)])
  | .labeled label body =>
    .tagged "Labeled" (.object [("label", .text label), ("body", body.toJson)])
  | .breakOut label => .tagged "Break" (.ofOption Json.text label)
  | .continueLoop label => .tagged "Continue" (.ofOption Json.text label)
  | .returnValues values => .tagged "Return" (NodeId.listToJson values)
  | .condDecl type name value =>
    .tagged "CondDecl"
      (.object [("ty", type.toJson), ("name", .text name), ("value", value.toJson)])

def Literal.toJson : Literal → Json
  | .int value => .tagged "Int" (.number value.toInt)
  | .string value => .tagged "String" (.text value)
  | .char value => .tagged "Char" (.text value.toString)
  | .bool value => .tagged "Bool" (.bool value)
  | .null => .text "Null"

def Expr.toJson : Expr → Json
  | .literal value => .tagged "Literal" value.toJson
  | .name text => .tagged "Name" (.text text)
  | .paren inner => .tagged "Paren" inner.toJson
  | .unary op operand =>
    .tagged "Unary" (.object [("op", .text op.name), ("operand", operand.toJson)])
  | .binary op lhs rhs =>
    .tagged "Binary"
      (.object [("op", .text op.name), ("lhs", lhs.toJson), ("rhs", rhs.toJson)])
  | .tuple type elements =>
    .tagged "Tuple"
      (.object
        [("ty", .ofOption NodeId.toJson type), ("elements", NodeId.listToJson elements)])

def TypeExpr.toJson : TypeExpr → Json
  | .named names params =>
    .tagged "Named"
      (.object [("names", .ofList Json.text names), ("params", NodeId.listToJson params)])
  | .keyword word => .tagged "Keyword" (.text word.tag)
  | .tuple elements => .tagged "Tuple" (NodeId.listToJson elements)
  | .nullable inner => .tagged "Nullable" inner.toJson
  | .bad text => .tagged "Bad" (.text text)

def Form.toJson : Form → Json
  | .stmt s => .tagged "Stmt" s.toJson
  | .expr e => .tagged "Expr" e.toJson
  | .type ty => .tagged "Type" ty.toJson

/-- What the form of a node says about it, as a JSON value. -/
def Form.profile : Form → Json
  | .stmt s =>
    .object
      [("keyword", .text s.keyword), ("conds", NodeId.listToJson s.conds),
        ("loop", .bool s.isLoop), ("break_target", .bool s.isBreakTarget),
        ("declares", .ofOption .text s.declaredName?)]
  | .expr e => .object [("expr", e.toJson), ("children", NodeId.listToJson e.children)]
  | .type ty =>
    .object
      [("name", .ofOption .text ty.qualifiedName?), ("children", NodeId.listToJson ty.children)]

def Node.toJson (node : Node) : Json :=
  .object
    [("kind", node.form.toJson), ("span", node.span.toObject),
      ("parent", .ofOption NodeId.toJson node.parent),
      ("completable", .bool node.completable), ("state", node.facts.toJson)]

def Tree.toJson (tree : Tree) : Json :=
  .object
    [("nodes", .ofList Node.toJson tree.nodes.toList),
      ("root", .ofOption NodeId.toJson tree.root)]

end TreeCompiler
