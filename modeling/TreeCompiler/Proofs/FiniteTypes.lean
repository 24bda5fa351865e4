import TreeCompiler.Proofs.Courses
import TreeCompiler.Proofs.GroundedWork
import TreeCompiler.Proofs.LeastFixpoint

/-!
# Types stay finite

Names of types may be defined by each other in any way. A placeholder for a name is filled only with
what depends on no open placeholder at that moment, so that no type comes to contain itself: at
every moment of a unit's course the walks over types end.
-/

namespace TreeCompiler

open Step

/-! ### The moments of resolution -/

namespace Resolution

/-- A sweep over nodes comes to visit a node, with the work as it stands then. -/
inductive Comes (sc : String) (id : NodeId) (now : Work) : List NodeId → Work → Prop
  | here {ids : List NodeId} (unsettled : isSettled now.tree id = false) :
      Comes sc id now (id :: ids) now
  | past {x : NodeId} {ids : List NodeId} {work : Work}
      (hs : isSettled work.tree x = true) (later : Comes sc id now ids work) :
      Comes sc id now (x :: ids) work
  | next {x : NodeId} {ids : List NodeId} {work mid : Work} {prog : Progress}
      (unsettled : isSettled work.tree x = false)
      (seen : visit sc x work = .ok prog mid)
      (goesOn : mid.sink.abortDesired = false) (later : Comes sc id now ids mid) :
      Comes sc id now (x :: ids) work

end Resolution

namespace Course

/-- One of the sweeps over what is pending comes to visit a node. -/
inductive ComesLater (id : NodeId) (now : Work) : Nat → Course → Prop
  | here {left : Nat} {c : Course}
      (comes : Resolution.Comes c.scope id now c.pending c.work) :
      ComesLater id now (left + 1) c
  | next {left : Nat} {c t : Course} {waiting : Bool}
      (swept : sweep c.pending c = .ok waiting t)
      (goesOn : ¬(t.pending.length = c.pending.length ∧ waiting = false))
      (later : ComesLater id now left t) : ComesLater id now (left + 1) c

/-- Resolving the names of a unit comes to visit a node, with the work as it stands then. -/
inductive Visits (c : Course) (id : NodeId) (now : Work) : Prop
  | first (comes : Resolution.Comes c.scope id now
      (c.work.tree.preorder c.root) c.work)
  | later {waiting : Bool} {t : Course}
      (swept : sweep (c.work.tree.preorder c.root) c = .ok waiting t)
      (comes : ComesLater id now (c.sweepLimit none - t.sweeps) t)

/-- The work at the moments of a unit's course: before and after every visit of a node and at the
end of every stage, wherever that is. -/
inductive Passes (c : Course) : Work → Prop
  | begins : Passes c c.work
  | visiting {id : NodeId} {now : Work} (visits : c.Visits id now) : Passes c now
  | visited {id : NodeId} {now : Work} (visits : c.Visits id now) :
      Passes c (endState (Resolution.visit c.scope id now))
  | resolved : Passes c (endState (resolve none c)).work
  | validated {out : Outcome} {t : Course} (ran : resolve none c = .ok out t) :
      Passes c (endState (validate t)).work
  | emitted {out : Outcome} {r : NodeId} {t later : Course}
      (ran : resolve none c = .ok out t)
      (valid : validate t = .ok (some r) later) : Passes c (endState (emit later)).work

end Course

/-! ### What a visit does -/

/-- What a visit does to a pool: it appends to it, and may fill a placeholder at last with what
depends on no open one at that moment. -/
inductive Pool.Settles (b : Pool) : Pool → Prop
  | append {t : Pool} (hg : t.Extends b) : Settles b t
  | fill {mid : Pool} {hole tgt : ConstId} (hg : mid.Extends b)
      (res : mid.isResolved tgt = .ok true) :
      Settles b (endState (PoolM.fill hole tgt mid))

namespace Resolution

open WorkM Pool

variable {s : Pool} {work now : Work} {sc : String} {id : NodeId} {α : Type}

/-- A step ends where the pool has been changed as by a visit. -/
def EndsSettled (b : Pool) (step : WorkM α) (work : Work) : Prop :=
  b.Settles (endState (step work)).pool

theorem EndsSettled.bind {β : Type} {b : Pool} {step : WorkM α} {rest : α → WorkM β}
    (stops : EndsSettled b step work)
    (goes : ∀ a now, step work = .ok a now → EndsSettled b (rest a) now) :
    EndsSettled b (step >>= rest) work :=
  endState_bind (P := fun now : Work => b.Settles now.pool) stops goes

theorem Comes.holds {ids : List NodeId} (comes : Comes sc id now ids work)
    (h : work.From s) : now.From s := by
  induction comes with
  | here => exact h
  | past _ _ ih => exact ih h
  | @next x _ work _ _ _ seen _ _ ih =>
    have hu := ((typing_from s).upheld_visit sc x h).1
    rw [seen] at hu
    exact ih hu.holds

end Resolution

/-! ### The course of a unit -/

namespace Course

variable {s : Pool} {c : Course} {id : NodeId} {now : Work}

/-- The work of the course is grounded and its pool has come from another. -/
def From (s : Pool) (c : Course) : Prop := c.work.From s

theorem always_from_sweep (ids : List NodeId) : Always (From s) (sweep ids) :=
  always_work (always_sweep (fun _ _ => (Resolution.typing_from s).always_visitAll _ _) ids)

theorem always_from_resolve (cap : Option Nat) : Always (From s) (resolve cap) :=
  always_work (always_resolve (fun _ _ => (Resolution.typing_from s).always_visitAll _ _)
    (fun _ => (Resolution.typing_from s).always_giveUp _) cap)

theorem always_from_validate : Always (From s) validate :=
  always_validate fun _ => ((checking_from s).guided_validate trivial).upheld.always

theorem ComesLater.holds {left : Nat} (comes : ComesLater id now left c)
    (h : c.From s) : now.From s := by
  induction comes with
  | here comes => exact comes.holds h
  | next swept _ _ ih => exact ih ((always_from_sweep _).keeps _ _ _ h swept)

theorem Visits.holds (visits : c.Visits id now) (h : c.From s) : now.From s := by
  cases visits with
  | first comes => exact comes.holds h
  | later swept comes => exact comes.holds ((always_from_sweep _).keeps _ _ _ h swept)

/-- The pool changes carefully up to every moment of a unit's course. -/
theorem Passes.evolves {work : Work} (passes : c.Passes work) (h : c.From s) :
    s.Evolves work.pool := by
  suffices grounded : work.From s from grounded.evolves
  cases passes with
  | begins => exact h
  | visiting visits => exact visits.holds h
  | visited visits => exact ((Resolution.typing_from s).upheld_visit _ _ (visits.holds h)).1.holds
  | resolved => exact always_from_resolve none c h
  | validated ran => exact always_from_validate _ ((always_from_resolve none).keeps _ _ _ h ran)
  | emitted ran valid =>
    exact always_emit (sending_from s) _ (always_from_validate.keeps _ _ _
      ((always_from_resolve none).keeps _ _ _ h ran) valid)

end Course

namespace Session

variable {session : Session} {symbols : SymbolTable} {tree : Tree}

end Session

end TreeCompiler
