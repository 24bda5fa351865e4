import TreeCompiler.Code.Method
import TreeCompiler.Text.Json

/-!
# Method documents

The code of a method as a JSON value, and how it is read back.
-/

namespace TreeCompiler

open Text (Json)

namespace LabelKind

/-- The roles that carry no number. -/
def plain : List LabelKind :=
  [.repeatLoop, .continueLoop, .breakOut, .elseBranch, .endBranch, .test]

/-- A role as a JSON value. -/
def toJson (kind : LabelKind) : Json :=
  match kind with
  | .switchCase index | .helper index => .tagged kind.name (.nat index)
  | kind => .text kind.name

/-- Reads a role. -/
def ofJson? (json : Json) : Option LabelKind := do
  match ← json.variant? with
  | ("Case", index) => .switchCase <$> index.nat?
  | ("Local", index) => .helper <$> index.nat?
  | (name, _) => plain.find? (·.name == name)

end LabelKind

namespace Label

def toJson (label : Label) : Json :=
  .object [("scope", .nat label.scope.toNat), ("kind", label.kind.toJson)]

def ofJson? (json : Json) : Option Label := do
  let scope ← (← json.member? "scope").nat?
  let kind ← LabelKind.ofJson? (← json.member? "kind")
  pure ⟨UInt32.ofNat scope, kind⟩

end Label

namespace Operand

def toJson : Operand → Json
  | .register reg => .tagged "Register" (.nat reg.index)
  | .constant id => .tagged "Constant" (.nat id.index)

def ofJson? (json : Json) : Option Operand := do
  match ← json.variant? with
  | ("Register", index) => do pure (.register ⟨← index.nat?⟩)
  | ("Constant", index) => do pure (.constant ⟨← index.nat?⟩)
  | _ => none

def listOfJson? (json : Json) : Option (List Operand) := do (← json.items?).mapM ofJson?

end Operand

namespace Op

/-- An instruction as a JSON value. -/
def toJson : Op → Json
  | .enter => .text "Enter"
  | .exit => .text "Exit"
  | .declare reg ty => .tagged "Var" (.object [("reg", .nat reg.index), ("ty", .nat ty.index)])
  | .move source dest => .tagged "Move" (.object [("from", source.toJson), ("to", .nat dest.index)])
  | .jump label => .tagged "Jump" label.toJson
  | .jumpTrue cond label =>
    .tagged "JumpTrue" (.object [("cond", cond.toJson), ("target", label.toJson)])
  | .jumpFalse cond label =>
    .tagged "JumpFalse" (.object [("cond", cond.toJson), ("target", label.toJson)])
  | .jumpNull value label =>
    .tagged "JumpNull" (.object [("value", value.toJson), ("target", label.toJson)])
  | .jumpEq lhs rhs label =>
    .tagged "JumpEq"
      (.object [("lhs", lhs.toJson), ("rhs", rhs.toJson), ("target", label.toJson)])
  | .binary op lhs rhs dest =>
    .tagged "Binary"
      (.object
        [("op", .text op.name), ("lhs", lhs.toJson), ("rhs", rhs.toJson), ("to", .nat dest.index)])
  | .unary op operand dest =>
    .tagged "Unary"
      (.object [("op", .text op.name), ("operand", operand.toJson), ("to", .nat dest.index)])
  | .makeTuple elements dest =>
    .tagged "MakeTuple"
      (.object [("elements", .list (elements.map Operand.toJson)), ("to", .nat dest.index)])
  | .returnValues values => .tagged "Return" (.list (values.map Operand.toJson))
  | .returnNothing => .text "Return0"

/-- Reads an instruction. -/
def ofJson? (json : Json) : Option Op := do
  let (tag, value) ← json.variant?
  let register (name : String) : Option Register := do pure ⟨← (← value.member? name).nat?⟩
  let operand (name : String) : Option Operand := do Operand.ofJson? (← value.member? name)
  let label (name : String) : Option Label := do Label.ofJson? (← value.member? name)
  let sign (name : String) : Option String := do (← value.member? name).text?
  match tag with
  | "Enter" => pure .enter
  | "Exit" => pure .exit
  | "Return0" => pure .returnNothing
  | "Var" => pure (.declare (← register "reg") ⟨← (← value.member? "ty").nat?⟩)
  | "Move" => pure (.move (← operand "from") (← register "to"))
  | "Jump" => pure (.jump (← Label.ofJson? value))
  | "JumpTrue" => pure (.jumpTrue (← operand "cond") (← label "target"))
  | "JumpFalse" => pure (.jumpFalse (← operand "cond") (← label "target"))
  | "JumpNull" => pure (.jumpNull (← operand "value") (← label "target"))
  | "JumpEq" => pure (.jumpEq (← operand "lhs") (← operand "rhs") (← label "target"))
  | "Binary" =>
    pure (.binary (← BinaryOp.ofName? (← sign "op")) (← operand "lhs") (← operand "rhs")
      (← register "to"))
  | "Unary" =>
    pure (.unary (← UnaryOp.ofName? (← sign "op")) (← operand "operand") (← register "to"))
  | "MakeTuple" =>
    pure (.makeTuple (← Operand.listOfJson? (← value.member? "elements")) (← register "to"))
  | "Return" => pure (.returnValues (← Operand.listOfJson? value))
  | _ => none

end Op

namespace Method

def toJson (method : Method) : Json :=
  .object
    [("name", .text method.name),
      ("ops", .list (method.ops.map Op.toJson)),
      ("registers", .nat method.registers),
      ("labels", .list (method.labels.map fun placement =>
        .list [placement.1.toJson, .nat placement.2]))]

/-- Reads a label with its offset. -/
def placementOfJson? (json : Json) : Option (Label × Nat) := do
  match ← json.items? with
  | [label, offset] => pure (← Label.ofJson? label, ← offset.nat?)
  | _ => none

def ofJson? (json : Json) : Option Method := do
  pure
    { name := ← (← json.member? "name").text?
      ops := ← (← (← json.member? "ops").items?).mapM Op.ofJson?
      registers := ← (← json.member? "registers").nat?
      labels := ← (← (← json.member? "labels").items?).mapM placementOfJson? }

def document (method : Method) : String := method.toJson.render

end Method

end TreeCompiler
