import TreeCompiler.Emission.Stmt
import TreeCompiler.Options
import TreeCompiler.Resolution.Leftovers
import TreeCompiler.Resolution.Outcome
import TreeCompiler.Validation.Stmt

/-!
# The course of a unit

A unit is resolved, validated and emitted. Resolution visits the nodes in sweeps: a node that cannot
be resolved yet waits for the next one. Sweeps end when nothing waits, when one leaves as many nodes
as it found and none of them waits for the symbol table, or when no more are allowed.
-/

namespace TreeCompiler

/-- A unit on its way through the stages. -/
structure Course where
  work : Work
  root : NodeId
  options : Options := {}
  /-- The name that symbols are looked up under. -/
  scope : String := ""
  /-- The nodes that wait for another sweep. -/
  pending : List NodeId := []
  /-- The number of sweeps made. -/
  sweeps : Nat := 0
  /-- How resolution ended, once it has. -/
  outcome : Option Outcome := none
  deriving Repr, Inhabited

/-- A step of a unit's course, which may stop on a defect. -/
abbrev CourseM := EStateM Defect Course

namespace Resolution

open WorkM

/-- Whether a sweep passes over a node. -/
def isSettled (tree : Tree) (id : NodeId) : Bool :=
  !tree.completable id || (tree.stage id).hasReached .resolved || tree.stage id == .failed

def visit (scope : String) (id : NodeId) : WorkM Progress := do
  setStage id .resolving
  let progress ← resolveNode scope id
  if progress = .done ∧ (← stage id) ≠ .failed then
    setStage id .resolved
  pure progress

/-- What a sweep leaves: the nodes to visit again, and whether one of them waits for the symbol
table. -/
structure Rest where
  deferred : List NodeId := []
  waiting : Bool := false
  deriving DecidableEq, Repr, Inhabited

/-- What is left with one more node visited. -/
def Rest.after (rest : Rest) (id : NodeId) : Progress → Rest
  | .done => rest
  | .deferred => { rest with deferred := id :: rest.deferred }
  | .waiting => { deferred := id :: rest.deferred, waiting := true }

/-- Visits nodes in order. What comes after the node at which the unit has to be abandoned is
dropped. -/
def visitAll (scope : String) : List NodeId → WorkM Rest
  | [] => pure {}
  | id :: ids => do
    if isSettled (← tree) id then
      visitAll scope ids
    else
      let progress ← visit scope id
      if (← get).sink.abortDesired then
        pure (({} : Rest).after id progress)
      else
        pure ((← visitAll scope ids).after id progress)

end Resolution

namespace CourseM

variable {α : Type}

def onWork (step : WorkM α) : CourseM α := fun course =>
  match step course.work with
  | .ok value work => .ok value { course with work }
  | .error defect work => .error defect { course with work }

def tree : CourseM Tree := do pure (← get).work.tree

end CourseM

namespace Course

open CourseM

/-- The number of sweeps allowed unless the options say otherwise: enough for every level of the
tree and every name. -/
def defaultSweepLimit (course : Course) : Nat :=
  let tree := course.work.tree
  tree.depth course.root + (tree.preorder course.root).countP tree.isDeferrable + 1

def sweepLimit (course : Course) (cap : Option Nat) : Nat :=
  let limit := course.options.maxSweeps.getD course.defaultSweepLimit
  match cap with
  | some cap => min limit cap
  | none => limit

/-- Sweeps over nodes and tells whether one of those left waits for the symbol table. -/
def sweep (ids : List NodeId) : CourseM Bool := do
  modify fun course => { course with sweeps := course.sweeps + 1, pending := [] }
  let rest ← onWork (Resolution.visitAll (← get).scope ids)
  modify fun course => { course with pending := rest.deferred }
  pure rest.waiting

/-- Sweeps over what is pending, a number of times at most. -/
def sweepPending : Nat → CourseM Outcome
  | 0 => do
    let course ← get
    match course.pending with
    | [] => pure (.complete course.sweeps)
    | pending => pure (.sweepLimit course.sweeps pending.length)
  | left + 1 => do
    let course ← get
    match course.pending with
    | [] => pure (.complete course.sweeps)
    | pending => do
      let waiting ← sweep pending
      let course ← get
      if course.pending.length = pending.length ∧ !waiting then
        pure (.noProgress course.sweeps pending.length)
      else
        sweepPending left

/-- Resolves the names of the unit under a cap on the sweeps. Once it is done it is not repeated. -/
def resolve (cap : Option Nat) : CourseM Outcome := do
  match (← get).outcome with
  | some outcome => pure outcome
  | none =>
    let limit := (← get).sweepLimit cap
    let _ ← sweep ((← tree).preorder (← get).root)
    let outcome ← sweepPending (limit - (← get).sweeps)
    let leftovers := (← get).pending
    modify fun course => { course with pending := [] }
    onWork (Resolution.giveUp leftovers)
    modify fun course => { course with outcome := some outcome }
    pure outcome

/-- Validates the unit. Gives its root, which may be another node than before, if it is valid. -/
def validate : CourseM (Option NodeId) := do
  let root? ← onWork (Validation.validate (← get).root)
  match root? with
  | some root => modify fun course => { course with root }
  | none => pure ()
  pure root?

def methods (tree : Tree) (root : NodeId) : Except Defect (List NodeId) :=
  match tree.stmt? root with
  | some (.container _ members) => .ok members
  | some (.method ..) => .ok [root]
  | _ => .error (.rootNotEmittable root)

def emitMethods : List NodeId → CourseM (List Method)
  | [] => pure []
  | id :: rest => do
    let stage := (← tree).stage id
    if stage ≠ .validated then
      throw (.methodNotValidated id stage)
    let method ← onWork (Emission.method (← get).options.warnUnreachable id)
    pure (method :: (← emitMethods rest))

def emit : CourseM (List Method) := do
  let root := (← get).root
  match methods (← tree) root with
  | .error defect => throw defect
  | .ok ids =>
    let methods ← emitMethods ids
    unless (← tree).isMethod root do
      onWork (.setStage root .emitted)
    pure methods

/-- Moves the unit up to a stage with a number of sweeps at most, and tells whether it got there. -/
def fastForward (target : Stage) (maxSweeps : Nat) : CourseM Bool := do
  unless target.isUpTo .validated do
    throw (.tooFar target)
  let complete ←
    if Stage.resolved.isUpTo target then
      Outcome.isComplete <$> resolve (some (max maxSweeps 1))
    else
      pure true
  if !complete then
    pure false
  else if Stage.validating.isUpTo target then
    pure (← validate).isSome
  else
    pure ((← tree).stage (← get).root != .failed)

end Course

end TreeCompiler
