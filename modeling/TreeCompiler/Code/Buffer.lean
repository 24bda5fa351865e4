import TreeCompiler.Code.Method

/-!
# Code buffers

Where the code of a method is put together. After an instruction that never goes on, the buffer is
unreachable and drops instructions until a label is placed that can be jumped to.
-/

namespace TreeCompiler

/-- The code of a method so far. -/
structure Buffer where
  ops : List Op := []
  /-- Every placed label with its offset; a label stands here once. -/
  placed : List (Label × Nat) := []
  nextRegister : Nat := 0
  nextHelper : Nat := 0
  /-- Whether control can reach the end of the code so far. -/
  reachable : Bool := true
  /-- The number of instructions dropped. -/
  dropped : Nat := 0
  deriving DecidableEq, Repr, Inhabited

namespace Buffer

/-- The buffer without code. -/
def empty : Buffer := {}

/-- The number of instructions kept. -/
def size (buffer : Buffer) : Nat := buffer.ops.length

/-- Appends an instruction, or drops it where control cannot arrive. -/
def add (buffer : Buffer) (op : Op) : Buffer :=
  if buffer.reachable then
    { buffer with ops := buffer.ops ++ [op], reachable := !op.isTerminal }
  else
    { buffer with dropped := buffer.dropped + 1 }

/-- Whether a kept instruction jumps to the label. -/
def isReferenced (buffer : Buffer) (label : Label) : Bool :=
  buffer.ops.any (·.target? == some label)

def offset? (buffer : Buffer) (label : Label) : Option Nat := buffer.placed.lookup label

def isPlaced (buffer : Buffer) (label : Label) : Bool := (buffer.offset? label).isSome

/-- Notes the end of the code as the offset of a label, in place of an earlier offset. -/
def bind (buffer : Buffer) (label : Label) : Buffer :=
  { buffer with placed := (label, buffer.size) :: buffer.placed.filter (·.1 ≠ label) }

def markUnreachable (buffer : Buffer) : Buffer := { buffer with reachable := false }

/-- Hands out a register; there is always another one. -/
def newRegister (buffer : Buffer) : Register × Buffer :=
  (⟨buffer.nextRegister⟩, { buffer with nextRegister := buffer.nextRegister + 1 })

/-- Hands out a label that only this buffer uses. -/
def newHelper (buffer : Buffer) : Label × Buffer :=
  (⟨0, .helper buffer.nextHelper⟩, { buffer with nextHelper := buffer.nextHelper + 1 })

/-- Binds a label and goes on with `settle`. A label that was placed before is moved all the same,
but then the work stops. -/
def bindThen (buffer : Buffer) (label : Label) (settle : Buffer → Buffer) :
    Except CodeError Unit × Buffer :=
  match buffer.offset? label with
  | some offset => (.error (.labelTaken label offset), buffer.bind label)
  | none => (.ok (), settle (buffer.bind label))

/-- Places a label that later instructions may jump to, such as the entry of a loop. Control can
arrive here from now on. -/
def place (buffer : Buffer) (label : Label) : Except CodeError Unit × Buffer :=
  buffer.bindThen label fun buffer => { buffer with reachable := true }

/-- Places a label that only earlier instructions jump to. Control arrives if one of them was kept,
or by going on. -/
def placeJoin (buffer : Buffer) (label : Label) : Except CodeError Unit × Buffer :=
  buffer.bindThen label fun buffer =>
    { buffer with reachable := buffer.reachable || buffer.isReferenced label }

/-- Whether one list of numbers comes before another or equals it. -/
def rankLe : List Nat → List Nat → Bool
  | [], _ => true
  | _ :: _, [] => false
  | a :: as, b :: bs => a < b || (a == b && rankLe as bs)

/-- Labels in the order of their offsets, and of their ranks where those agree. -/
def labelsInOrder (placed : List (Label × Nat)) : List (Label × Nat) :=
  placed.mergeSort fun first second =>
    rankLe (first.2 :: first.1.rank) (second.2 :: second.1.rank)

/-- The code so far as a method. -/
def toMethod (buffer : Buffer) (name : String) : Method where
  name := name
  ops := buffer.ops
  registers := buffer.nextRegister
  labels := labelsInOrder buffer.placed

def finish (buffer : Buffer) (name : String) : Except CodeError Method := do
  let method := buffer.toMethod name
  method.check
  pure method

end Buffer

end TreeCompiler
