import TreeCompiler.Code.Op

/-!
# Method code

The finished code of one method, and the rules it has to keep: every jump goes to a placed label,
every register lies below the number of registers, every label lies in the code, and every way to
reach an instruction enters the same number of scopes, none of which is left twice.
-/

namespace TreeCompiler

/-- The code of a method. Labels stand in front of the instruction at their offset. -/
structure Method where
  name : String
  ops : List Op
  /-- The number of registers. -/
  registers : Nat
  labels : List (Label × Nat)
  deriving DecidableEq, Repr, Inhabited

/-- What can be wrong with code. -/
inductive CodeError where
  | labelTaken (label : Label) (offset : Nat)
  | unplacedLabel (method : String) (index : Nat) (label : Label)
  | noSuchRegister (method : String) (index : Nat) (register : Register) (count : Nat)
  | labelPastEnd (method : String) (label : Label)
  | scopeMismatch (method : String) (index first second : Nat)
  | unopenedScope (method : String) (index : Nat)
  deriving DecidableEq, Repr, Inhabited

namespace CodeError

def message : CodeError → String
  | .labelTaken label offset =>
    "label " ++ label.text ++ " already placed at " ++ toString offset
  | .unplacedLabel method index label =>
    method ++ ": op " ++ toString index ++ " jumps to unplaced label " ++ label.text
  | .noSuchRegister method index register count =>
    method ++ ": op " ++ toString index ++ " uses " ++ register.text ++ " beyond " ++ toString count
      ++ " registers"
  | .labelPastEnd method label => method ++ ": label " ++ label.text ++ " placed past the end"
  | .scopeMismatch method index first second =>
    method ++ ": op " ++ toString index ++ " reached with " ++ toString first ++ " and with "
      ++ toString second ++ " open scope(s)"
  | .unopenedScope method index =>
    method ++ ": op " ++ toString index ++ " exits a scope that was never entered"

def shown (error : CodeError) : String := "bytecode format error: " ++ error.message

end CodeError

namespace Op

/-- The number of open scopes after an instruction, unless it leaves one that was never entered. -/
def depthAfter (op : Op) (depth : Nat) : Option Nat :=
  match op with
  | .enter => some (depth + 1)
  | .exit => if depth = 0 then none else some (depth - 1)
  | _ => some depth

end Op

namespace Method

def labelOffset (method : Method) (label : Label) : Option Nat := method.labels.lookup label

def isPlaced (method : Method) (label : Label) : Bool := (method.labelOffset label).isSome

/-- Where a jump to a label goes on: its last placement. -/
def jumpOffset (method : Method) (label : Label) : Option Nat := method.labels.reverse.lookup label

/-- The number of instructions with a property. -/
def count (method : Method) (property : Op → Bool) : Nat := method.ops.countP property

/-- The jump of an instruction goes to a placed label. -/
def checkTarget (method : Method) (index : Nat) (op : Op) : Except CodeError Unit :=
  match op.target? with
  | none => .ok ()
  | some label =>
    if method.isPlaced label then .ok () else .error (.unplacedLabel method.name index label)

/-- The registers of an instruction are registers of the method. -/
def checkRegisters (method : Method) (index : Nat) (op : Op) : Except CodeError Unit :=
  match op.registers.find? (method.registers ≤ ·.index) with
  | none => .ok ()
  | some register => .error (.noSuchRegister method.name index register method.registers)

/-- Every instruction from `index` on is sound on its own. -/
def checkOps (method : Method) : Nat → List Op → Except CodeError Unit
  | _, [] => .ok ()
  | index, op :: rest => do
    method.checkTarget index op
    method.checkRegisters index op
    method.checkOps (index + 1) rest

/-- Every label lies in the code or right behind it. -/
def checkLabels (method : Method) : Except CodeError Unit :=
  match method.labels.find? (method.ops.length < ·.2) with
  | none => .ok ()
  | some (label, _) => .error (.labelPastEnd method.name label)

/-- A position in the code and the number of scopes open there. -/
abbrev Arrival := Nat × Nat

/-- Where control can go from a position, the next instruction first. -/
def arrivalsFrom (method : Method) (index : Nat) (op : Op) (depth : Nat) : List Arrival :=
  let next := if op.isTerminal then [] else [(index + 1, depth)]
  let jumps := (op.target?.bind method.jumpOffset).toList.map fun offset => (offset, depth)
  next ++ jumps

/-- A walk over the scopes of code. -/
structure ScopeWalk where
  /-- The number of scopes open at each position, noted at the first arrival there. -/
  depths : Array (Option Nat)
  /-- The arrivals that are still to be looked at, the next one first. -/
  pending : List Arrival
  deriving DecidableEq, Repr, Inhabited

/-- The walk at its start: control arrives at the first instruction and no scope is open. There is a
note for every instruction and one for the end of the code. -/
def startWalk (method : Method) : ScopeWalk where
  depths := Array.replicate (method.ops.length + 1) none
  pending := [(0, 0)]

/-- Looks at an arrival. The first one at a position is noted and followed by those at the positions
control can go to from there. Any other has to agree with the note. -/
def visit (method : Method) (depths : Array (Option Nat)) (rest : List Arrival)
    (index depth : Nat) : Except CodeError ScopeWalk :=
  match depths[index]? with
  | none => .ok { depths, pending := rest }
  | some (some seen) =>
    if seen = depth then .ok { depths, pending := rest }
    else .error (.scopeMismatch method.name index seen depth)
  | some none =>
    let depths := depths.setIfInBounds index (some depth)
    match method.ops[index]? with
    | none => .ok { depths, pending := rest }
    | some op =>
      match op.depthAfter depth with
      | none => .error (.unopenedScope method.name index)
      | some after => .ok { depths, pending := method.arrivalsFrom index op after ++ rest }

namespace ScopeWalk

/-- The number of positions without a note. -/
def unseen (walk : ScopeWalk) : Nat := walk.depths.countP Option.isNone

end ScopeWalk

/-- How an arrival that nothing is wrong with is looked at: nothing is kept for its position, the
note agrees, or it is the first one there. -/
theorem visit_ok {method : Method} {depths : Array (Option Nat)} {index depth : Nat}
    {rest : List Arrival} {next : ScopeWalk} :
    method.visit depths rest index depth = .ok next ↔
      (depths[index]? = none ∨ depths[index]? = some (some depth)) ∧
          next = { depths, pending := rest } ∨
        depths[index]? = some none ∧
          ((method.ops[index]? = none ∧
              next = { depths := depths.setIfInBounds index (some depth), pending := rest }) ∨
            ∃ op after, method.ops[index]? = some op ∧ op.depthAfter depth = some after ∧
              next = { depths := depths.setIfInBounds index (some depth)
                       pending := method.arrivalsFrom index op after ++ rest }) := by
  unfold visit
  cases depths[index]? with
  | none => simp [eq_comm]
  | some note =>
    cases note with
    | some seen =>
      by_cases same : seen = depth
      · simp [same, eq_comm]
      · simp [same]
    | none =>
      cases method.ops[index]? with
      | none => simp [eq_comm]
      | some op => cases after : op.depthAfter depth <;> simp [after, eq_comm]

theorem countP_isNone_setIfInBounds {depths : Array (Option Nat)} {index : Nat}
    (blank : depths[index]? = some none) (depth : Nat) :
    (depths.setIfInBounds index (some depth)).countP Option.isNone <
      depths.countP Option.isNone := by
  obtain ⟨inside, here⟩ := Array.getElem?_eq_some_iff.mp blank
  have counted : 0 < depths.countP Option.isNone :=
    Array.countP_pos_iff.mpr ⟨none, here ▸ Array.getElem_mem inside, rfl⟩
  simp only [Array.setIfInBounds, inside, ↓reduceDIte, Array.countP_set, here, Option.isNone_none,
    Option.isNone_some, if_true, Bool.false_eq_true, if_false]
  omega

/-- Looking at an arrival notes a position or leaves fewer arrivals. -/
theorem visit_lt {method : Method} {walk next : ScopeWalk} {index depth : Nat} {rest : List Arrival}
    (left : walk.pending = (index, depth) :: rest)
    (looked : method.visit walk.depths rest index depth = .ok next) :
    next.unseen < walk.unseen ∨
      (next.unseen = walk.unseen ∧ next.pending.length < walk.pending.length) := by
  rcases visit_ok.mp looked with ⟨-, rfl⟩ | ⟨blank, ⟨-, rfl⟩ | ⟨op, after, -, -, rfl⟩⟩
  · right
    simp [ScopeWalk.unseen, left]
  · exact .inl (countP_isNone_setIfInBounds blank _)
  · exact .inl (countP_isNone_setIfInBounds blank _)

/-- Goes on with a walk until no arrival is left. -/
def walkScopes (method : Method) (walk : ScopeWalk) : Except CodeError Unit :=
  match _ : walk.pending with
  | [] => .ok ()
  | (index, depth) :: rest =>
    match _ : method.visit walk.depths rest index depth with
    | .error error => .error error
    | .ok next => method.walkScopes next
termination_by (walk.unseen, walk.pending.length)
decreasing_by exact Prod.lex_def.mpr (visit_lt ‹_› ‹_›)

/-- Scopes are entered and left consistently on every path from the start. -/
def checkScopes (method : Method) : Except CodeError Unit := method.walkScopes method.startWalk

/-- Whether code keeps all its rules. -/
def check (method : Method) : Except CodeError Unit := do
  method.checkOps 0 method.ops
  method.checkLabels
  method.checkScopes

end Method

end TreeCompiler
