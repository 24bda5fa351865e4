import TreeCompiler.Work

/-!
# Jumps

Where a break or continue goes. A jump stays inside its method: without a label it goes to the
nearest statement that can be left or continued, with a label to the statement of that label.
-/

namespace TreeCompiler

namespace JumpKind

def word : JumpKind → String
  | .breakOut => "break"
  | .continueLoop => "continue"

/-- Whether an unlabeled jump of the kind may go to the statement. -/
def accepts : JumpKind → Stmt → Bool
  | .breakOut, stmt => stmt.isBreakTarget
  | .continueLoop, stmt => stmt.isLoop

end JumpKind

namespace Stmt

def jump? : Stmt → Option (JumpKind × Option String)
  | .breakOut label => some (.breakOut, label)
  | .continueLoop label => some (.continueLoop, label)
  | _ => none

def labeled? : Stmt → Option (String × NodeId)
  | .labeled label body => some (label, body)
  | _ => none

end Stmt

/-- Why a jump goes nowhere. -/
inductive JumpError where
  | missingTarget (kind : JumpKind)
  | missingLabel (label : String)
  | notALoop (label : String)
  deriving DecidableEq, Repr, Inhabited

namespace JumpError

/-- The code and the argument to report. -/
def diagnosis : JumpError → Code × String
  | .missingTarget kind => (.missingGotoTarget, kind.word)
  | .missingLabel label => (.missingGotoLabel, label)
  | .notALoop label => (.illegalContinueTarget, label)

end JumpError

namespace Tree

/-- The nearest statement with the label, and its body. -/
def findLabeled (tree : Tree) (label : String) (ancestors : List NodeId) :
    Option (NodeId × NodeId) :=
  ancestors.findSome? fun id =>
    match (tree.stmt? id).bind Stmt.labeled? with
    | some (name, body) => if name = label then some (id, body) else none
    | none => none

/-- The target of a jump among the ancestors inside its method, nearest first. A labeled break
leaves the labeled statement itself, a labeled continue goes to the loop under the label. -/
def jumpTarget (tree : Tree) (kind : JumpKind) (label : Option String) (ancestors : List NodeId) :
    Except JumpError NodeId :=
  match label with
  | none =>
    match ancestors.find? fun id => (tree.stmt? id).any kind.accepts with
    | some target => .ok target
    | none => .error (.missingTarget kind)
  | some label =>
    match tree.findLabeled label ancestors with
    | none => .error (.missingLabel label)
    | some (labeled, body) =>
      match kind with
      | .breakOut => .ok labeled
      | .continueLoop =>
        if (tree.stmt? body).any Stmt.isLoop then .ok body else .error (.notALoop label)

/-- The number of scopes entered between a node's ancestors and one of them. -/
def scopesUpTo (tree : Tree) (target : NodeId) (ancestors : List NodeId) : Nat :=
  (ancestors.takeWhile (· ≠ target)).countP tree.entersScope

/-- Whether an enclosing statement of the method has the same label. -/
def shadowsLabel (tree : Tree) (id : NodeId) (label : String) : Bool :=
  (tree.findLabeled label (tree.ancestorsInMethod id)).isSome

end Tree

namespace Jump

open WorkM

def markTarget (target : NodeId) (kind : JumpKind) : WorkM Unit :=
  modifyFacts target fun facts =>
    match kind with
    | .breakOut => { facts with breakUsed := true }
    | .continueLoop => { facts with continueUsed := true }

/-- Binds a break or continue to its target, whose label scope is taken. A jump that goes nowhere is
reported; a node that is no jump is not. -/
def resolve (id : NodeId) : WorkM (Option Jump) := do
  let tree ← tree
  match (tree.stmt? id).bind Stmt.jump? with
  | none => pure none
  | some (kind, label) =>
    match (tree.facts id).jump with
    | some jump => pure (some jump)
    | none =>
      let ancestors := tree.ancestorsInMethod id
      match tree.jumpTarget kind label ancestors with
      | .error error =>
        let (code, argument) := error.diagnosis
        reportAt code id [argument]
        pure none
      | .ok target =>
        let jump : Jump := { target, depth := tree.scopesUpTo target ancestors, kind }
        let _ ← labelScope target
        markTarget target kind
        modifyFacts id fun facts => { facts with jump := some jump }
        pure (some jump)

/-- Whether the label of a statement is free. A label that an enclosing statement uses is
reported. -/
def checkLabel (id : NodeId) : WorkM Bool := do
  let tree ← tree
  match (tree.stmt? id).bind Stmt.labeled? with
  | none => pure true
  | some (label, _) =>
    if tree.shadowsLabel id label then
      reportAt .duplicateLabel id [label]
      pure false
    else
      pure true

end Jump

end TreeCompiler
