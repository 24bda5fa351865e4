import TreeCompiler.Diagnostic.Log

/-!
# A board of shared logs

Several parties may report into one log, and a branch collects diagnostics beside a log until they
are merged into it. The board owns the logs; a reporter says which of them it writes to.
-/

namespace TreeCompiler

/-- The position of a log on its board. -/
structure LogId where
  index : Nat
  deriving DecidableEq, Repr, Inhabited

/-- A party that reports diagnostics. -/
inductive Reporter where
  /-- Reports into a log. Reporters of one log share it. -/
  | direct (log : LogId)
  /-- Reports into a log of its own, which can be merged into its parent. -/
  | branch (parent own : LogId)
  /-- Reports nowhere. -/
  | silent
  deriving DecidableEq, Repr, Inhabited

namespace Reporter

def log? : Reporter → Option LogId
  | .direct log => some log
  | .branch _ own => some own
  | .silent => none

/-- Whether everything reported is dropped. -/
def isSilent (reporter : Reporter) : Bool := reporter.log?.isNone

end Reporter

/-- Logs that several reporters may share. -/
structure Board where
  logs : Array Log := #[]
  deriving Repr, Inhabited

namespace Board

def newLog (board : Board) (log : Log) : LogId × Board :=
  (⟨board.logs.size⟩, ⟨board.logs.push log⟩)

/-- The log at a position; an empty one if there is none. -/
def get (board : Board) (id : LogId) : Log := board.logs[id.index]?.getD {}

def modify (board : Board) (id : LogId) (change : Log → Log) : Board :=
  ⟨board.logs.modify id.index change⟩

def logOf (board : Board) (reporter : Reporter) : Option Log := reporter.log?.map board.get

def direct (board : Board) (limit : Nat) : Reporter × Board :=
  let (id, board) := board.newLog { limit }
  (.direct id, board)

/-- A branch beside a log, with a log of its own under the same limit. -/
def branchOf (board : Board) (parent : LogId) : Reporter × Board :=
  let (own, board) := board.newLog (board.get parent).fresh
  (.branch parent own, board)

/-- A reporter for speculative work: a branch beside the log written to, or silence. -/
def speculative (board : Board) (reporter : Reporter) : Reporter × Board :=
  match reporter.log? with
  | some log => board.branchOf log
  | none => (.silent, board)

/-- Reports a diagnostic; the answer says whether the caller should give up. -/
def report (board : Board) (reporter : Reporter) (diagnostic : Diagnostic) : Bool × Board :=
  match reporter.log? with
  | some log => ((board.get log).stopsAfter diagnostic, board.modify log (·.add diagnostic))
  | none => (false, board)

/-- Whether a reporter should give up. -/
def abortDesired (board : Board) (reporter : Reporter) : Bool :=
  ((board.logOf reporter).map Log.abortDesired).getD false

def worst (board : Board) (reporter : Reporter) : Severity :=
  ((board.logOf reporter).map Log.worst).getD .none

/-- Whether a reporter's log holds a diagnostic of the code. -/
def has (board : Board) (reporter : Reporter) (code : Code) : Bool :=
  ((board.logOf reporter).map (·.has code)).getD false

def entries (board : Board) (reporter : Reporter) : List Diagnostic :=
  ((board.logOf reporter).map Log.entries).getD []

/-- Moves a branch's diagnostics into its parent. A reporter without a parent merges nothing. -/
def merge (board : Board) : Reporter → Board
  | .branch parent own => board.modify parent (·.extend (board.get own).entries)
  | .direct _ | .silent => board

end Board

end TreeCompiler
