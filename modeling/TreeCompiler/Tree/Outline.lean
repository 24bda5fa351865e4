import TreeCompiler.Tree.Walk

/-!
# Outlines

A subtree as indented text, one node a line, with as much of the facts as is asked for.
-/

namespace TreeCompiler

/-- What an outline shows. -/
structure OutlineOptions where
  /-- Spaces a level. -/
  indent : Nat := 4
  spans : Bool := false
  types : Bool := false
  stages : Bool := false
  deriving DecidableEq, Repr, Inhabited

/-- Everything an outline can show. -/
def OutlineOptions.verbose : OutlineOptions := { spans := true, types := true, stages := true }

namespace Stmt

/-- A statement on one line, without its children. -/
def headline (stmt : Stmt) : String :=
  match stmt with
  | .container name _ => stmt.keyword ++ " " ++ name
  | .method name params _ _ =>
    stmt.keyword ++ " " ++ name ++ "(" ++ String.intercalate ", " (params.map Param.name) ++ ")"
  | .varDecl _ name _ | .typedef name _ | .condDecl _ name _ => stmt.keyword ++ " " ++ name
  | .labeled label _ => stmt.keyword ++ " " ++ label
  | .breakOut (some label) | .continueLoop (some label) => stmt.keyword ++ " " ++ label
  | _ => stmt.keyword

end Stmt

namespace Expr

/-- An expression on one line, without its children. -/
def headline : Expr → String
  | .literal value => value.text
  | .name text => text
  | .paren _ => "()"
  | .unary op _ => op.sign
  | .binary op _ _ => op.sign
  | .tuple _ _ => "tuple"

end Expr

namespace TypeExpr

def headline : TypeExpr → String
  | .named names _ => Text.joinDots names
  | .keyword word => word.text
  | .tuple _ => "Tuple"
  | .nullable _ => "?"
  | .bad text => "<bad type: " ++ text ++ ">"

end TypeExpr

namespace Form

/-- A node on one line, without its children. -/
def headline : Form → String
  | .stmt s => s.headline
  | .expr e => e.headline
  | .type t => t.headline

end Form

namespace Tree

def annotations (tree : Tree) (options : OutlineOptions) (showType : ConstId → String)
    (id : NodeId) : String :=
  let facts := tree.facts id
  let type := match options.types, facts.type with
    | true, some type => " : " ++ showType type
    | _, _ => ""
  let span := if options.spans then
      let span := tree.span id
      " @" ++ toString span.lo ++ ".." ++ toString span.hi
    else ""
  let stage := if options.stages then " [" ++ facts.stage.name ++ "]" else ""
  type ++ span ++ stage

/-- The lines of an outline down to a depth, starting at a level of indentation. -/
def outlineWithin (tree : Tree) (options : OutlineOptions) (showType : ConstId → String) :
    Nat → Nat → NodeId → List String
  | 0, _, _ => []
  | depth + 1, level, id =>
    match tree.form? id with
    | none => []
    | some form =>
      let margin := String.ofList (List.replicate (level * options.indent) ' ')
      (margin ++ form.headline ++ tree.annotations options showType id)
        :: form.children.flatMap (tree.outlineWithin options showType depth (level + 1))

def outline (tree : Tree) (options : OutlineOptions) (showType : ConstId → String) (id : NodeId) :
    String :=
  String.join ((tree.outlineWithin options showType tree.fuel 0 id).map (· ++ "\n"))

end Tree

end TreeCompiler
