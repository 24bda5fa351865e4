import TreeCompiler.Proofs.StagedResolution
import TreeCompiler.Proofs.StagedStatements

/-!
# Stages only move on

A unit can be resolved, validated, emitted and moved forward in any order and any number of times,
and every such call may stop. Whatever is done to it, no node moves back to an earlier stage, and
what has failed stays failed.
-/

namespace TreeCompiler

open Step

/-! ### Emission -/

variable {S : Course → Course → Prop}

namespace Work

/-- A node that emission comes to: it is valid, and so is all that it stands for. -/
structure Covered (s : Tree) (r : NodeId) (w : Work) (id : NodeId) : Prop where
  below : s.Below r id
  passed : w.Passed id
  outside : ∀ outer, s.Below r outer → s.Strips outer id → w.Passed outer

/-- What emission leaves: only valid nodes have moved, and they are emitted. -/
structure Sends (s : Tree) (r : NodeId) (b after : Work) : Prop where
  staged : after.Staged s r
  shape : b.tree.SameShape after.tree
  stages : ∀ id, after.tree.stage id = b.tree.stage id ∨ b.Passed id ∧ after.tree.stage id = .emitted

variable {s : Tree} {r : NodeId} {w after : Work} {id : NodeId}

theorem Sends.passed (sends : w.Sends s r after) : after.Passed id ↔ w.Passed id := by
  rcases sends.stages id with eq | ⟨hp, sent⟩
  · rw [Passed, Passed, eq]
  · exact ⟨fun _ => hp, fun _ => passed_iff.mpr (.inr sent)⟩

instance (s : Tree) (r : NodeId) : Trans (Sends s r) (Sends s r) (Sends s r) where
  trans he later := by
    refine ⟨later.staged, he.shape.trans later.shape, fun id => ?_⟩
    rcases later.stages id with eq | ⟨hp, sent⟩
    · rw [eq]
      exact he.stages id
    · exact .inr ⟨he.passed.mp hp, sent⟩

theorem Sends.refl (hs : w.Staged s r) : w.Sends s r w :=
  ⟨hs, .refl _, fun _ => .inl rfl⟩

theorem Sends.forward (sends : w.Sends s r after) (id : NodeId) :
    (w.tree.stage id).isUpTo (after.tree.stage id) = true := by
  rcases sends.stages id with eq | ⟨hp, sent⟩
  · rw [eq]
    exact Stage.isUpTo_refl _
  · rw [sent]
    rcases passed_iff.mp hp with stage | stage <;> rw [stage] <;> rfl

theorem Covered.part (hs : w.Staged s r) (lk : s.IsLinked r)
    (covered : w.Covered s r id) {part : NodeId} (mem : part ∈ s.children id) :
    w.Covered s r part := by
  have hp := hs.parts id part covered.below covered.passed mem
  refine ⟨covered.below.child mem, hp, fun outer hb hst => ?_⟩
  by_cases eq : outer = part
  · rwa [eq]
  · exact covered.outside outer hb (hst.up lk hb eq covered.below mem)

theorem Covered.strips (hs : w.Staged s r) (lk : s.IsLinked r) {i : NodeId}
    (covered : w.Covered s r id) (hst : s.Strips id i) : w.Covered s r i := by
  induction hst with
  | self => exact covered
  | @paren id i new held hp rest ih =>
    refine ih (covered.part hs lk ?_)
    rw [s.children_of_expr held]
    exact List.mem_singleton_self _

theorem Covered.child (hs : w.Staged s r) (lk : s.IsLinked r)
    (covered : w.Covered s r id) {c : NodeId} (mem : c ∈ w.tree.children id) : w.Covered s r c := by
  obtain ⟨old, hi, hst⟩ := hs.peels.strips_of_child mem
  exact (covered.part hs lk hi).strips hs lk hst

/-- What emission has done once some of the nodes it comes to are emitted. -/
structure Sent (s : Tree) (r : NodeId) (b after : Work) : Prop where
  shape : b.tree.SameShape after.tree
  stages : ∀ id, after.tree.stage id = b.tree.stage id ∨ b.Covered s r id ∧ after.tree.stage id = .emitted

theorem Sent.sends (hs : w.Staged s r) (sent : w.Sent s r after) : w.Sends s r after := by
  have stages : ∀ id, after.tree.stage id = w.tree.stage id ∨
      w.Passed id ∧ after.tree.stage id = .emitted := fun id =>
    (sent.stages id).imp_right fun ⟨covered, emitted⟩ => ⟨covered.passed, emitted⟩
  refine ⟨hs.keep sent.shape (fun id => ?_) (fun i emitted => ?_) (fun id => ?_), sent.shape, stages⟩
  · rcases stages id with eq | ⟨hp, sent⟩
    · rw [Passed, Passed, eq]
    · exact ⟨fun _ => hp, fun _ => passed_iff.mpr (.inr sent)⟩
  · rcases sent.stages i with eq | ⟨covered, -⟩
    · rw [eq] at emitted
      exact .inl emitted
    · exact .inr covered.outside
  · rcases stages id with eq | ⟨hp, sent⟩
    · rw [eq]
    · rcases passed_iff.mp hp with stage | stage <;> simp [sent, stage]

theorem Sent.note {now : Work} {f : Facts → Facts} (sent : w.Sent s r now)
    (kept : ∀ facts, (f facts).stage = facts.stage) :
    w.Sent s r (now.withTree (now.tree.modifyFacts id f)) := by
  refine ⟨sent.shape.trans (.modifyFacts _ id f), fun x => ?_⟩
  rw [withTree_tree, now.tree.stage_modify_of kept]
  exact sent.stages x

/-- Emission comes only to nodes that are covered. -/
theorem sending (hs : w.Staged s r) (lk : s.IsLinked r) :
    SendingInvariant (w.Covered s r) (w.Sent s r) where
  child sent covered mem := by
    rw [sent.shape.children] at mem
    exact covered.child hs lk mem
  sent now id sent covered := by
    refine ⟨sent.shape.trans (.modifyFacts _ id fun facts => { facts with stage := .emitted }), fun x => ?_⟩
    rcases now.tree.stage_setStage_cases id x .emitted with eq | ⟨rfl, emitted⟩
    · rw [withTree_tree, eq]
      exact sent.stages x
    · exact .inr ⟨covered, emitted⟩
  reach now id reachable sent := sent.note fun _ => rfl
  report _ _ sent := ⟨sent.shape, sent.stages⟩
  scope now own sent := by
    refine ⟨sent.shape.trans (now.sameShape_withScope own), fun x => ?_⟩
    have eq : (now.withScope own).tree.stage x = now.tree.stage x :=
      now.facts_withScope_of Facts.stage (fun _ _ => rfl) own x
    rw [eq]
    exact sent.stages x

end Work

open Work in
theorem Emission.goes_method {s : Tree} {r id : NodeId} {w : Work} (lk : s.IsLinked r)
    (warn : Bool) (hst : w.Staged s r) (hb : s.Below r id) (hp : w.Passed id) :
    Goes (Sends s r) (method warn id) (fun _ _ => (s.stmt? id).isSome) w := by
  have covered : ∀ now, w.Sent s r now → (now.tree.stmt? id).isSome →
      w.Covered s r id := by
    intro now sent hs
    rw [sent.shape.stmt?, hst.peels.isSome_stmt?] at hs
    refine ⟨hb, hp, fun outer _ strips => ?_⟩
    rwa [← strips.eq_of_stmt_inner hs]
  have sent := (sending hst lk).always_method warn covered w ⟨.refl _, fun _ => .inl rfl⟩
  refine ⟨sent.sends hst, fun ans after ran => ?_⟩
  obtain ⟨e, emitted, -⟩ := method_ok.mp ran
  obtain ⟨name, ps, rets, body, -, -, -, hf, -⟩ := emitMethod_ok emitted
  rw [← hst.peels.isSome_stmt?, hf]
  rfl

/-! ### Calls -/

namespace Course

open CourseM Work Validation

/-- A course on a tree whose stages are in order. -/
structure Ordered (s : Tree) (r : NodeId) (course : Course) : Prop where
  staged : course.work.Staged s r
  rooted : s.Strips r course.root

/-- What a call leaves: stages in order, none of them moved back. -/
structure Advances (s : Tree) (r : NodeId) (b after : Course) : Prop where
  ordered : after.Ordered s r
  forward : ∀ id, (b.work.tree.stage id).isUpTo (after.work.tree.stage id) = true

instance (s : Tree) (r : NodeId) : Trans (Advances s r) (Advances s r) (Advances s r) where
  trans he later :=
    ⟨later.ordered, fun id => Stage.isUpTo_trans (he.forward id) (later.forward id)⟩

/-- What resolution leaves of a course. -/
structure Resolves (s : Tree) (r : NodeId) (b after : Course) : Prop where
  work : b.work.Resolves s r after.work
  rooted : after.root = b.root

instance (s : Tree) (r : NodeId) : Trans (Resolves s r) (Resolves s r) (Resolves s r) where
  trans he later := ⟨Trans.trans he.work later.work, later.rooted.trans he.rooted⟩

variable {s : Tree} {r : NodeId} {course : Course}

theorem Advances.refl (ordered : course.Ordered s r) : course.Advances s r course :=
  ⟨ordered, fun _ => Stage.isUpTo_refl _⟩

theorem goes_onWork {α : Type} {step : WorkM α} {R : Work → Work → Prop}
    {Q : α → Work → Prop} (goes : Goes R step Q course.work)
    (lifts : ∀ w, R course.work w → S course { course with work := w }) :
    Goes S (onWork step) (fun ans after =>
      ∃ w, R course.work w ∧ Q ans w ∧ after = { course with work := w }) course := by
  have hr := goes.1
  cases ran : step course.work with
  | ok v w =>
    rw [ran] at hr
    have done : onWork step course = .ok v { course with work := w } := onWork_ok.mpr ⟨w, ran, rfl⟩
    exact Goes.of_ok done (lifts w hr) ⟨w, hr, goes.2 v w ran, rfl⟩
  | error defect w =>
    rw [ran] at hr
    have stops : onWork step course = .error defect { course with work := w } :=
      onWork_eq_error.mpr ⟨w, ran, rfl⟩
    exact Goes.of_error stops (lifts w hr)

theorem goes_modify {f : Course → Course} (reaches : S course (f course)) :
    Goes S (modify f : CourseM Unit) (fun _ after => after = f course) course :=
  Goes.of_ok rfl reaches rfl

theorem goes_tree {α : Type} {rest : Tree → CourseM α}
    {Q : α → Course → Prop} (goes : Goes S (rest course.work.tree) Q course) :
    Goes S (CourseM.tree >>= rest) Q course := goes

/-! ### Resolution -/

/-- Work and root of a course are left as they are. -/
theorem Resolves.stays {after : Course} (hs : course.work.Staged s r)
    (eq : after.work = course.work) (rooted : after.root = course.root) :
    course.Resolves s r after := by
  refine ⟨?_, rooted⟩
  rw [eq]
  exact Resolution.resolves_refl hs

theorem goes_sweep (ids : List NodeId) (hs : course.work.Staged s r) :
    Goes (Resolves s r) (sweep ids) (fun _ after =>
      ∀ id ∈ after.pending, Resolution.Waits s after.work id) course := by
  refine Goes.bind (goes_modify (.stays hs rfl rfl)) fun _ now moved _ => Goes.get ?_
  refine Goes.bind (goes_onWork (Resolution.goes_visitAll now.scope ids moved.work.staged)
    fun w resolves => ⟨resolves, rfl⟩) fun rest after moved ans => ?_
  obtain ⟨w, resolves, waits, rfl⟩ := ans
  refine Goes.bind (goes_modify (.stays moved.work.staged rfl rfl)) fun _ last moved eq => ?_
  subst eq
  exact Goes.pure (.stays moved.work.staged rfl rfl) waits

theorem goes_sweepPending (left : Nat) (hs : course.work.Staged s r)
    (waits : ∀ id ∈ course.pending, Resolution.Waits s course.work id) :
    Goes (Resolves s r) (sweepPending left) (fun _ after =>
      ∀ id ∈ after.pending, Resolution.Waits s after.work id) course := by
  have ends : ∀ {now : Course} {out : Outcome}, now.work.Staged s r →
      (∀ id ∈ now.pending, Resolution.Waits s now.work id) →
      Goes (Resolves s r) (pure out : CourseM Outcome) (fun _ after =>
        ∀ id ∈ after.pending, Resolution.Waits s after.work id) now :=
    fun hs waits => Goes.pure (.stays hs rfl rfl) waits
  induction left generalizing course with
  | zero =>
    refine Goes.get ?_
    split <;> exact ends hs waits
  | succ left ih =>
    refine Goes.get ?_
    split
    · exact ends hs waits
    · refine Goes.bind (goes_sweep _ hs) fun waiting after moved waits => Goes.get ?_
      split
      · exact ends moved.work.staged waits
      · exact ih moved.work.staged waits

theorem goes_resolve (cap : Option Nat) (hs : course.work.Staged s r) :
    Goes (Resolves s r) (resolve cap) (fun _ _ => True) course := by
  refine Goes.get ?_
  split
  · exact Goes.pure (.stays hs rfl rfl) trivial
  · refine Goes.get (goes_tree (Goes.get (Goes.bind (goes_sweep _ hs) fun _ now moved waits =>
      Goes.get (Goes.bind (goes_sweepPending _ moved.work.staged waits) fun out now moved waits =>
      Goes.get (Goes.bind (goes_modify (.stays moved.work.staged rfl rfl)) fun _ cleared hm eq => ?_)))))
    subst eq
    refine Goes.bind (goes_onWork (Resolution.goes_giveUp hm.work.staged waits)
      fun w resolves => ⟨resolves, rfl⟩) fun _ last moved _ => Goes.bind
      (goes_modify (.stays moved.work.staged rfl rfl)) fun _ _ moved _ =>
        Goes.pure (.stays moved.work.staged rfl rfl) trivial

theorem Resolves.advances {after : Course} (ordered : course.Ordered s r)
    (resolves : course.Resolves s r after) : course.Advances s r after := by
  refine ⟨⟨resolves.work.staged, ?_⟩, resolves.work.forward⟩
  rw [resolves.rooted]
  exact ordered.rooted

/-! ### Validation -/

/-- The root of a course that is a statement is the one the unit was built with. -/
theorem Ordered.root_of_stmt (ordered : course.Ordered s r)
    (hs : (s.stmt? course.root).isSome) : course.root = r :=
  ordered.rooted.eq_of_stmt_inner hs

theorem goes_validate (lk : s.IsLinked r) (ordered : course.Ordered s r) :
    Goes (Advances s r) validate (fun _ _ => True) course := by
  have hosted : (s.stmt? course.root).isSome → s.Hosts r course.root := by
    intro hs
    rw [ordered.root_of_stmt hs]
    exact .root
  refine Goes.get (Goes.bind (goes_onWork (Validation.goes_validate lk ordered.staged
    (ordered.rooted.isBelow .root) hosted) fun w hm =>
      ⟨⟨hm.staged, ordered.rooted⟩, hm.onward.forward⟩) fun root? after moved ans => ?_)
  obtain ⟨w, hm, ended, rfl⟩ := ans
  cases root? with
  | none => exact Goes.pure (.refl moved.ordered) trivial
  | some node =>
    have rooted : s.Strips r node := ordered.rooted.trans (ended.passed node rfl).2.2
    refine Goes.bind (goes_modify ⟨⟨hm.staged, rooted⟩, fun _ => Stage.isUpTo_refl _⟩)
      fun _ last moved _ => Goes.pure (.refl moved.ordered) trivial

/-! ### Emission -/

/-- What emission leaves of a course. -/
structure Sends (s : Tree) (r : NodeId) (b after : Course) : Prop where
  work : b.work.Sends s r after.work
  rooted : after.root = b.root

instance (s : Tree) (r : NodeId) : Trans (Sends s r) (Sends s r) (Sends s r) where
  trans he later := ⟨Trans.trans he.work later.work, later.rooted.trans he.rooted⟩

theorem Sends.advances {after : Course} (ordered : course.Ordered s r)
    (sends : course.Sends s r after) : course.Advances s r after := by
  refine ⟨⟨sends.work.staged, ?_⟩, sends.work.forward⟩
  rw [sends.rooted]
  exact ordered.rooted

theorem goes_emitMethods (lk : s.IsLinked r) {ids : List NodeId}
    (hst : course.work.Staged s r) (hb : ∀ id ∈ ids, s.Below r id) :
    Goes (Sends s r) (emitMethods ids) (fun _ after =>
      ∀ id ∈ ids, after.work.Passed id ∧ (s.stmt? id).isSome) course := by
  induction ids generalizing course with
  | nil => exact Goes.pure ⟨.refl hst, rfl⟩ (by simp)
  | cons id rest ih =>
    refine goes_tree ?_
    dsimp only
    split
    · exact Goes.bind (Goes.throw (Q := fun _ _ => False) ⟨.refl hst, rfl⟩) fun _ _ _ absurd => absurd.elim
    · rename_i hv
      have hp : course.work.Passed id := passed_iff.mpr (.inl (by simpa using hv))
      refine Goes.get (Goes.bind (goes_onWork (Emission.goes_method lk _ hst (hb id (by simp)) hp)
        fun w sends => ⟨sends, rfl⟩) fun m now moved ans => ?_)
      obtain ⟨w, sends, hs, rfl⟩ := ans
      refine Goes.bind ((ih moved.work.staged fun x mem => hb x (by simp [mem])).answering
        fun methods after hm others => ?_) fun methods after moved all =>
        Goes.pure ⟨.refl moved.work.staged, rfl⟩ all
      intro x mem
      rcases List.mem_cons.mp mem with rfl | hi
      · exact ⟨hm.work.passed.mpr (sends.passed.mpr hp), hs⟩
      · exact others x hi

theorem goes_sendRoot {members : List NodeId} {name : String} (ordered : course.Ordered s r)
    (hf : course.work.tree.stmt? course.root = some (.container name members))
    (hp : ∀ id ∈ members, course.work.Passed id ∧ (s.stmt? id).isSome) :
    Goes (Advances s r) (onWork (.setStage course.root .emitted)) (fun _ _ => True) course := by
  have hst := ordered.staged
  have hs : (s.stmt? course.root).isSome := by
    rw [← hst.peels.isSome_stmt?, hf]
    rfl
  have eq : course.root = r := ordered.root_of_stmt hs
  rw [eq] at hf hs
  have notFailed : course.work.tree.stage r ≠ .failed := by
    intro hx
    obtain ⟨ren, he, strips⟩ := hst.peels.stmt?_eq r
    rw [hf] at he
    obtain ⟨orig, here, renamed⟩ := Option.map_eq_some_iff.mp he.symm
    cases orig with
    | container name' members' =>
      cases renamed
      obtain ⟨mem, hi, spoils⟩ := hst.spoiled hx _ _ here
      obtain ⟨passedNew, hm⟩ := hp (ren mem) (List.mem_map_of_mem hi)
      have kept : ren mem = mem :=
        (strips mem (by rwa [s.children_of_stmt here])).eq_of_stmt_inner hm
      rw [kept] at passedNew hm
      simp [passed_iff, spoils hm] at passedNew
    | _ => simp [Stmt.renamed] at renamed
  have sends : Goes (fun b after : Work => after.Staged s r ∧ ∀ id,
      (b.tree.stage id).isUpTo (after.tree.stage id) = true) (WorkM.setStage r .emitted)
      (fun _ _ => True) course.work := by
    refine goes_setStage (absurd (course.work.tree.has_of_stmt hf)) fun after _ shape others here _ =>
      ⟨⟨?_, fun id => ?_⟩, trivial⟩
    · refine hst.pass notFailed (hst.peels.sameShape shape) (hst.tidy.keep_others shape
        (fun gone => gone.1 rfl) (fun gone => gone.1 rfl) others) (fun _ => .root) (fun part mem => ?_)
        (fun x part mem => ?_) ?_ (fun _ x _ strips => ?_) others
      · rcases hst.peeled r part .root mem with hi | passedPart
        · rw [course.work.tree.children_of_stmt hf] at hi
          exact (hp part hi).1
        · exact passedPart
      · rw [shape.children]
        exact .inl mem
      · exact passed_iff.mpr (.inr here)
      · exact (strips.eq_of_stmt_inner hs).symm
    · by_cases self : id = r
      · rw [self, here]
        cases stage : course.work.tree.stage r <;> simp_all [Stage.isUpTo, Stage.rank]
      · rw [others id self]
        exact Stage.isUpTo_refl _
  rw [eq]
  exact (goes_onWork sends fun w hr => ⟨⟨hr.1, ordered.rooted⟩, hr.2⟩).answering
    fun _ _ _ _ => trivial

theorem goes_emit (lk : s.IsLinked r) (ordered : course.Ordered s r) :
    Goes (Advances s r) emit (fun _ _ => True) course := by
  have hs := ordered.staged
  refine Goes.get (goes_tree ?_)
  split
  · exact Goes.throw (.refl ordered)
  · rename_i ids hf
    have hb : ∀ id ∈ ids, s.Below r id := by
      have above : s.Below r course.root := ordered.rooted.isBelow .root
      intro id mem
      unfold methods at hf
      split at hf
      · rename_i isContainer
        obtain rfl := Except.ok.inj hf
        obtain ⟨old, hi, hst⟩ := hs.peels.strips_of_child
          (by rwa [course.work.tree.children_of_stmt isContainer] : id ∈ course.work.tree.children course.root)
        exact hst.isBelow (above.child hi)
      · obtain rfl := Except.ok.inj hf
        rwa [List.mem_singleton.mp mem]
      · cases hf
    refine Goes.bind ((goes_emitMethods lk hs hb).weaken
      (fun _ sends => sends.advances ordered) fun _ _ sends hp => And.intro sends hp)
      fun _ now moved ⟨sends, hp⟩ => goes_tree ?_
    rw [← sends.rooted]
    split
    · exact Goes.pure (.refl moved.ordered) trivial
    · rename_i notMethod
      have isContainer : ∃ name, now.work.tree.stmt? now.root = some (.container name ids) := by
        rw [sends.work.shape.stmt?, sends.rooted]
        unfold methods at hf
        split at hf
        · rename_i name members isContainer
          obtain rfl := Except.ok.inj hf
          exact ⟨name, isContainer⟩
        · rename_i hm
          exact absurd (by simp [Tree.isMethod, Stmt.isMethod, sends.work.shape.stmt?, sends.rooted, hm])
            notMethod
        · cases hf
      obtain ⟨name, isContainer⟩ := isContainer
      exact Goes.bind (goes_sendRoot moved.ordered isContainer hp)
        fun _ _ moved _ => Goes.pure (.refl moved.ordered) trivial

theorem goes_fastForward (lk : s.IsLinked r) (tgt : Stage) (maxSweeps : Nat)
    (ordered : course.Ordered s r) :
    Goes (Advances s r) (fastForward tgt maxSweeps) (fun _ _ => True) course := by
  have ends : ∀ {now : Course}, now.Ordered s r → ∀ complete,
      Goes (Advances s r) (do
        if !complete then
          pure false
        else if Stage.validating.isUpTo tgt then
          pure (← validate).isSome
        else
          pure ((← tree).stage (← get).root != .failed) : CourseM Bool) (fun _ _ => True) now := by
    intro now ordered complete
    split
    · exact Goes.pure (.refl ordered) trivial
    · split
      · exact Goes.bind (goes_validate lk ordered) fun _ _ moved _ =>
          Goes.pure (.refl moved.ordered) trivial
      · exact goes_tree (Goes.get (Goes.pure (.refl ordered) trivial))
  unfold fastForward
  dsimp only
  split
  · split
    · exact Goes.bind (Goes.map ((goes_resolve _ ordered.staged).weaken
        (fun _ resolves => resolves.advances ordered) fun _ _ _ done => done))
        fun complete now moved _ => ends moved.ordered complete
    · exact ends ordered true
  · exact Goes.bind (Goes.throw (Q := fun _ _ => False) (.refl ordered)) fun _ _ _ absurd => absurd.elim

/-! ### Runs -/

/-- One step in the use of a unit: a call, or a change of what the unit is used with. -/
inductive Use where
  | resolve (cap : Option Nat)
  | validate
  | emit
  | fastForward (tgt : Stage) (maxSweeps : Nat)
  /-- Another pool, symbol table, label counter and sink take the place of those so far. -/
  | surround (p : Pool) (symbols : SymbolTable) (labels : UInt32) (sink : Sink)
  /-- A new course starts on the tree as it stands. -/
  | restart (options : Options) (sc : String)

/-- The course that a step in its use leaves, whether the step succeeds or stops. -/
def used (r : NodeId) (course : Course) : Use → Course
  | .resolve cap => endState (Course.resolve cap course)
  | .validate => endState (Course.validate course)
  | .emit => endState (Course.emit course)
  | .fastForward tgt maxSweeps => endState (Course.fastForward tgt maxSweeps course)
  | .surround p symbols labels sink =>
    { course with work := { course.work with pool := p, symbols, labels, sink } }
  | .restart options sc => { work := course.work, root := r, options, scope := sc }

theorem advances_used (lk : s.IsLinked r) (ordered : course.Ordered s r) (use : Use) :
    course.Advances s r (course.used r use) := by
  have hs := ordered.staged
  cases use with
  | resolve cap => exact (goes_resolve cap hs).1.advances ordered
  | validate => exact (goes_validate lk ordered).1
  | emit => exact (goes_emit lk ordered).1
  | fastForward tgt maxSweeps => exact (goes_fastForward lk tgt maxSweeps ordered).1
  | surround p symbols labels sink =>
    exact ⟨⟨hs.keep_alike (.refl _) fun _ => rfl, ordered.rooted⟩, fun _ => Stage.isUpTo_refl _⟩
  | restart options sc => exact ⟨⟨hs, .self r⟩, fun _ => Stage.isUpTo_refl _⟩

theorem advances_foldl_used (lk : s.IsLinked r) (ordered : course.Ordered s r)
    (uses : List Use) : course.Advances s r (uses.foldl (used r) course) := by
  induction uses generalizing course with
  | nil => exact .refl ordered
  | cons use rest ih =>
    have first := advances_used lk ordered use
    exact Trans.trans first (ih first.ordered)

theorem ordered_of_fresh (fresh : course.work.tree.IsFresh course.root) :
    course.Ordered course.work.tree course.root := by
  have initial : ∀ id, course.work.tree.stage id = .initial := fun id => by
    rw [Tree.stage, fresh.blank]
  have unpassed : ∀ id, ¬course.work.Passed id := fun id => by simp [passed_iff, initial]
  refine ⟨⟨.refl _, fun id hp => absurd hp (unpassed id), fun id _ _ hp =>
    absurd hp (unpassed id), fun _ _ _ mem => .inl mem, fun _ i _ _ sent => ?_,
    fun hx => ?_, fresh.top, fun id c hb _ => fresh.linked id c hb,
    fun _ c _ _ gone => absurd gone.2.1 (unpassed c)⟩, .self _⟩
  · simp [initial] at sent
  · simp [initial] at hx

/-- However a unit is used, the stage of a node never comes before an earlier one, and a node that
has failed stays failed. -/
theorem stages_move_on (course : Course) (fresh : course.work.tree.IsFresh course.root)
    (earlier later : List Use) (id : NodeId) :
    let before := (earlier.foldl (used course.root) course).work.tree.stage id
    let after := ((earlier ++ later).foldl (used course.root) course).work.tree.stage id
    before.isUpTo after = true ∧ (before = .failed → after = .failed) := by
  intro before after
  have ordered := (advances_foldl_used fresh.toIsLinked (ordered_of_fresh fresh) earlier).ordered
  have forward : before.isUpTo after = true := by
    have advances := advances_foldl_used fresh.toIsLinked ordered later
    rw [← List.foldl_append] at advances
    exact advances.forward id
  refine ⟨forward, fun failed => ?_⟩
  rw [failed] at forward
  exact Stage.eq_failed_of_isUpTo forward

end Course

/-- A unit whose method declares a name twice, the first time with a value in parentheses. -/
def repeatingUnit : Tree where
  nodes := #[{ form := .type (.named ["Int"] []), parent := some ⟨3⟩ },
    { form := .expr (.literal (.int 1)), parent := some ⟨2⟩ },
    { form := .expr (.paren ⟨1⟩), parent := some ⟨3⟩ },
    { form := .stmt (.varDecl ⟨0⟩ "a" (some ⟨2⟩)), parent := some ⟨7⟩ },
    { form := .type (.named ["Int"] []), parent := some ⟨5⟩ },
    { form := .stmt (.varDecl ⟨4⟩ "a" none), parent := some ⟨7⟩ },
    { form := .stmt (.returnValues []), parent := some ⟨7⟩ },
    { form := .stmt (.block [⟨3⟩, ⟨5⟩, ⟨6⟩]), parent := some ⟨8⟩ },
    { form := .stmt (.method "m" [] [] ⟨7⟩), parent := some ⟨9⟩ },
    { form := .stmt (.container "unit" [⟨8⟩]) }]
  root := some ⟨9⟩

theorem repeatingUnit_isFresh : repeatingUnit.IsFresh ⟨9⟩ :=
  Tree.isFresh_of_table (by decide) (by decide) (by decide)

/-- The second declaration has failed once the unit is validated, and stays failed through more
calls and a new course. -/
theorem repeatingUnit_stays_failed :
    let course := Session.courseOf {} {} repeatingUnit ⟨9⟩
    let begun : List Course.Use := [.resolve none, .validate]
    let more : List Course.Use := [.emit, .restart {} "unit", .fastForward .validated 2, .emit]
    course.work.tree.IsFresh course.root ∧
      (begun.foldl (Course.used course.root) course).work.tree.stage ⟨5⟩ = .failed ∧
      ((begun ++ more).foldl (Course.used course.root) course).work.tree.stage ⟨5⟩ = .failed := by
  intro course begun more
  have failed : (begun.foldl (Course.used course.root) course).work.tree.stage ⟨5⟩ = .failed := by cbv
  exact ⟨repeatingUnit_isFresh, failed,
    (Course.stages_move_on course repeatingUnit_isFresh begun more ⟨5⟩).2 failed⟩

end TreeCompiler
