import TreeCompiler.Proofs.ResolvedNames

/-!
# What sweeps leave

Sweeps visit the nodes of a unit until nothing is pending or they give up. If nothing serious is
reported, every node that can be completed has been resolved or is left over, and what is left over
is excused.
-/

namespace TreeCompiler

open Step

variable {rest : Rest} {ids : List NodeId}

/-- Whether resolution is done with a node: it is resolved or cannot be completed. -/
def Work.Past (w : Work) (id : NodeId) : Prop :=
  w.tree.completable id = false ∨ w.tree.stage id = .resolved

theorem Tree.span_modifyFacts (tree : Tree) (id : NodeId) (f : Facts → Facts) (x : NodeId) :
    (tree.modifyFacts id f).span x = tree.span x := by
  have win : ∀ n, (tree.modifyFacts id f).spanWithin n = tree.spanWithin n := by
    intro n
    induction n with
    | zero => exact funext fun _ => rfl
    | succ n ih =>
      funext x
      have node : (tree.modifyFacts id f).node? x = (tree.node? x).map fun node =>
          if x = id then { node with facts := f node.facts } else node := by
        unfold modifyFacts
        rw [node?_modify]
        split <;> simp
      simp only [spanWithin, ih, node]
      cases tree.node? x with
      | none => rfl
      | some node => by_cases eq : x = id <;> simp [eq]
  rw [span, span, win, fuel, fuel, size_modifyFacts]

theorem Work.foldl_reported (diags : List Diagnostic) (w : Work) : diags.foldl Work.reported w =
    { w with sink := diags.foldl (fun sink diag => sink.report diag) w.sink } := by
  induction diags generalizing w with
  | nil => rfl
  | cons diag rest ih => exact ih (w.reported diag)

/-- The report on a name that stays unresolved. -/
def Tree.unresolvable (tree : Tree) (id : NodeId) : Diagnostic :=
  .errorAt .nameUnresolvable [tree.unresolvedName id] (tree.span id)

theorem Tree.unresolvable_setStage (tree : Tree) (id : NodeId) (stage : Stage) :
    (tree.setStage id stage).unresolvable = tree.unresolvable := by
  funext x
  rw [unresolvable, unresolvedName, setStage, form?_modify, span_modifyFacts]
  rfl

namespace Resolution

open WorkM Work

variable {s : Tree} {denoted : Component → Prop} {w t : Work} {sc : String} {id : NodeId}

theorem isSettled_iff (hn : w.Named s denoted) : isSettled w.tree id = true ↔ w.Past id := by
  have early := hn.early id
  unfold isSettled Past
  cases w.tree.completable id <;> cases stage : w.tree.stage id <;>
    simp_all [Stage.isUpTo, Stage.rank, Stage.hasReached]

theorem mem_deferred_after (rest : Rest) (id : NodeId) (prog : Progress) :
    id ∈ (rest.after id prog).deferred ∨ prog = .done := by
  cases prog <;> simp [Rest.after]

theorem deferred_subset_after {x : NodeId} {prog : Progress} (mem : id ∈ rest.deferred) :
    id ∈ (rest.after x prog).deferred := by
  cases prog <;> simp [Rest.after, mem]

theorem eq_or_mem_of_deferred {x : NodeId} {prog : Progress}
    (mem : id ∈ (rest.after x prog).deferred) : id = x ∨ id ∈ rest.deferred := by
  cases prog <;> simp_all [Rest.after]

/-- What every visit of a node keeps and what it leaves done, as long as nothing comes up that
stays. -/
structure SweepRule (present : NodeId → Prop) (Inv Stop : Work → Prop) (Done : Work → NodeId → Prop) :
    Prop where
  stays : ResolutionInvariant Stop
  goesOn : ∀ {w}, ¬Stop w → w.sink.abortDesired = false
  settled : ∀ {w id}, Inv w → isSettled w.tree id = true → Done w id
  visit : ∀ {sc id w prog t}, Inv w → present id → isSettled w.tree id = false →
    visit sc id w = .ok prog t → ¬Stop t → Inv t ∧
      (∀ x, Done w x → Done t x) ∧ (prog = .done → Done t id)

section

variable {present : NodeId → Prop} {Inv Stop : Work → Prop} {Done : Work → NodeId → Prop}
  (rule : SweepRule present Inv Stop Done)

include rule

theorem SweepRule.visitAll (h : Inv w) (win : ∀ id ∈ ids, present id)
    (ran : visitAll sc ids w = .ok rest t) (calm : ¬Stop t) :
    Inv t ∧ (∀ id, Done w id → Done t id) ∧
      (∀ id ∈ ids, Done t id ∨ id ∈ rest.deferred) ∧ ∀ id ∈ rest.deferred, id ∈ ids := by
  induction ids generalizing w rest with
  | nil =>
    cases ran
    exact ⟨h, fun _ done => done, by simp, by simp⟩
  | cons id ids ih =>
    have withinRest : ∀ id ∈ ids, present id := fun x mem => win x (by simp [mem])
    replace ran := rest_ok ran rfl
    split at ran
    · rename_i hs
      obtain ⟨holdsLast, kept, covered, hi⟩ := ih h withinRest ran
      refine ⟨holdsLast, kept, fun x mem => ?_, fun x mem => by simp [hi x mem]⟩
      rcases List.mem_cons.mp mem with rfl | mem
      · exact .inl (kept x (rule.settled h hs))
      · exact covered x mem
    · rename_i unsettled
      obtain ⟨prog, mid, seen, ran⟩ := bind_ok.mp ran
      replace ran := rest_ok ran rfl
      split at ran
      · rename_i aborted
        cases ran
        rw [rule.goesOn calm] at aborted
        simp at aborted
      · obtain ⟨others, swept, rfl⟩ := bind_pure_ok.mp ran
        have calmNow : ¬Stop mid := fun stops =>
          calm ((rule.stays.always_visitAll sc ids).keeps mid others t stops swept)
        obtain ⟨holdsNow, still, settles⟩ :=
          rule.visit h (win id (by simp)) (by simpa using unsettled) seen calmNow
        obtain ⟨holdsLast, kept, covered, hi⟩ := ih holdsNow withinRest swept
        refine ⟨holdsLast, fun x was => kept x (still x was), fun x mem => ?_, fun x mem => ?_⟩
        · rcases List.mem_cons.mp mem with rfl | mem
          · rcases mem_deferred_after others x prog with deferred | isDone
            · exact .inr deferred
            · exact .inl (kept x (settles isDone))
          · exact (covered x mem).imp_right deferred_subset_after
        · rcases eq_or_mem_of_deferred mem with rfl | mem
          · simp
          · simp [hi x mem]

end

/-- Visits resolve nodes as long as nothing serious is reported. -/
theorem sweepRule_named (s : Tree) (denoted : Component → Prop) :
    SweepRule s.Has (Work.Named s denoted) Work.Loud Work.Past where
  stays := resolutionInvariant_loud
  goesOn := not_abortDesired
  settled hn := (isSettled_iff hn).mp
  visit {_ id w _ t} hn hp unsettled seen quiet := by
    obtain ⟨namedNow, stages, res⟩ := visit_named hn seen quiet
    refine ⟨namedNow, fun x past => ?_, fun isDone => .inr (res isDone ?_)⟩
    · have ne : x ≠ id := by
        rintro rfl
        simp [(isSettled_iff hn).mpr past] at unsettled
      unfold Past at past ⊢
      rwa [namedNow.shape.completable, ← hn.shape.completable, stages x ne]
    · rw [hn.shape.has]
      exact hp

/-! ### Giving up -/

/-- Giving up fails what is left and reports what is not excused, and changes nothing else. -/
theorem failAll_eq (excused lefts : List NodeId) (w : Work) :
    failAll excused lefts w = .ok ()
    (((lefts.filter (!excused.contains ·)).map w.tree.unresolvable).foldl
      Work.reported (w.withTree (lefts.foldl (fun tree id => tree.setStage id .failed) w.tree))) := by
  induction lefts generalizing w with
  | nil => rfl
  | cons id rest ih =>
    unfold failAll
    have later := fun now : Work => ih (now.withTree (w.tree.setStage id .failed))
    simp only [withTree_tree, Tree.unresolvable_setStage] at later
    rw [List.foldl_cons, List.filter_cons]
    split <;> rename_i isExcused <;> simp only [isExcused]
    · exact (bind_of_ok rfl).trans (later w)
    · exact (bind_of_ok rfl).trans ((bind_of_ok rfl).trans ((bind_of_ok rfl).trans
        (later (w.reported (w.tree.unresolvable id)))))

theorem giveUp_eq (lefts : List NodeId) (w : Work) : giveUp lefts w = .ok () { w with
    tree := lefts.foldl (fun tree id => tree.setStage id .failed) w.tree
    sink := ((lefts.filter (!(w.tree.cascaded lefts).contains ·)).map w.tree.unresolvable).foldl
      (fun sink diag => sink.report diag) w.sink } := by
  refine (bind_of_ok rfl).trans ((failAll_eq ..).trans ?_)
  rw [Work.foldl_reported]
  rfl

theorem failAll_quiet {excused lefts : List NodeId} {u : Unit}
    (done : failAll excused lefts w = .ok u t) (quiet : ¬t.Loud) :
    (∀ id ∈ lefts, id ∈ excused) ∧
      t = w.withTree (lefts.foldl (fun tree id => tree.setStage id .failed) w.tree) := by
  rw [failAll_eq] at done
  cases done
  cases reports : lefts.filter (!excused.contains ·) with
  | nil =>
    rw [List.filter_eq_nil_iff] at reports
    exact ⟨fun id mem => by simpa using reports id mem, rfl⟩
  | cons id others =>
    refine absurd ?_ quiet
    rw [reports, List.map_cons, List.foldl_cons]
    exact List.foldlRecOn _ _ (loud_reported rfl) fun _ loud _ _ => loud.reported _

theorem sameShape_failed (tree : Tree) (ids : List NodeId) :
    tree.SameShape (ids.foldl (fun tree id => tree.setStage id .failed) tree) := by
  induction ids generalizing tree with
  | nil => exact .refl tree
  | cons id rest ih => exact (Tree.SameShape.modifyFacts tree id _).trans (ih (tree.setStage id .failed))

theorem facts_failed_of_not_mem (tree : Tree) (out : id ∉ ids) :
    (ids.foldl (fun tree id => tree.setStage id .failed) tree).facts id = tree.facts id := by
  induction ids generalizing tree with
  | nil => rfl
  | cons x rest ih =>
    rw [List.mem_cons, not_or] at out
    rw [List.foldl_cons, ih (tree.setStage x .failed) out.2, Tree.setStage, tree.facts_modify_ne out.1]

theorem stage_failed_of_mem (tree : Tree) (hp : tree.Has id) (mem : id ∈ ids) :
    (ids.foldl (fun tree id => tree.setStage id .failed) tree).stage id = .failed := by
  induction ids generalizing tree with
  | nil => simp at mem
  | cons x rest ih =>
    rw [List.foldl_cons]
    by_cases hi : id ∈ rest
    · exact ih (tree.setStage x .failed) (by rwa [Tree.has_setStage]) hi
    · obtain rfl : id = x := by simpa [hi] using mem
      rw [Tree.stage, facts_failed_of_not_mem _ hi]
      exact tree.stage_setStage_same hp .failed

end Resolution

/-! ### The course of resolution -/

/-- What resolution leaves to validation: leftovers have failed and are excused, and what else can
be completed has its answers. -/
structure Work.Ready (s : Tree) (r : NodeId) (denoted : Component → Prop)
    (lefts : List NodeId) (w : Work) : Prop where
  shape : s.SameShape w.tree
  known : ∀ ty, denoted (.type ty) → ∃ term, w.pool.Means ty term
  inside : ∀ id ∈ lefts, s.Below r id
  failed : ∀ id ∈ lefts, w.tree.stage id = .failed
  early : ∀ id, id ∉ lefts → (w.tree.stage id).isUpTo .resolved = true
  answers : ∀ id, s.Below r id → id ∉ lefts → s.completable id = true → w.Answers s denoted id
  excused : ∃ tree, s.SameShape tree ∧ (∀ id, tree.stage id ≠ .failed) ∧
    ∀ id ∈ lefts, id ∈ tree.cascaded lefts

namespace Course

open CourseM Work

variable {s : Tree} {denoted : Component → Prop} {c t : Course} {r : NodeId}

theorem sweep_ok {waiting : Bool} : sweep ids c = .ok waiting t ↔ ∃ rest w,
    Resolution.visitAll c.scope ids c.work = .ok rest w ∧ rest.waiting = waiting ∧
      t = { c with work := w, sweeps := c.sweeps + 1, pending := rest.deferred } := by
  constructor
  · intro ran
    obtain ⟨rest, swept, ranAll, ran⟩ := bind_ok.mp (rest_ok (rest_ok ran rfl) rfl)
    obtain ⟨w, worked, rfl⟩ := onWork_ok.mp ranAll
    cases rest_ok ran rfl
    exact ⟨rest, w, worked, rfl, rfl⟩
  · rintro ⟨rest, w, worked, rfl, rfl⟩
    exact bind_ok.mpr ⟨(), _, rfl, bind_ok.mpr ⟨_, _, rfl,
      bind_ok.mpr ⟨rest, _, onWork_ok.mpr ⟨w, worked, rfl⟩, rfl⟩⟩⟩

/-- How sweeps over what is pending go on and end, with a number of them left. -/
inductive Sweeping : Nat → Course → Outcome → Course → Prop where
  | complete {left : Nat} {c : Course} (none : c.pending = []) :
    Sweeping left c (.complete c.sweeps) c
  | limit {c : Course} (waits : c.pending ≠ []) :
    Sweeping 0 c (.sweepLimit c.sweeps c.pending.length) c
  | stuck {left : Nat} {c t : Course} (waits : c.pending ≠ [])
    (swept : sweep c.pending c = .ok false t)
    (eq : t.pending.length = c.pending.length) :
    Sweeping (left + 1) c (.noProgress t.sweeps c.pending.length) t
  | again {left : Nat} {c mid t : Course} {waiting : Bool} {out : Outcome}
    (waits : c.pending ≠ []) (swept : sweep c.pending c = .ok waiting mid)
    (hm : ¬(mid.pending.length = c.pending.length ∧ waiting = false))
    (rest : Sweeping left mid out t) : Sweeping (left + 1) c out t

theorem sweeping_of_sweepPending {left : Nat} {out : Outcome}
    (ran : sweepPending left c = .ok out t) : Sweeping left c out t := by
  induction left generalizing c with
  | zero =>
    replace ran := rest_ok ran rfl
    cases isPending : c.pending with
    | nil =>
      simp only [isPending] at ran
      cases ran
      exact .complete isPending
    | cons fst others =>
      simp only [isPending] at ran
      cases ran
      rw [← isPending]
      exact .limit (by simp [isPending])
  | succ left ih =>
    replace ran := rest_ok ran rfl
    cases isPending : c.pending with
    | nil =>
      simp only [isPending] at ran
      cases ran
      exact .complete isPending
    | cons fst others =>
      have waits : c.pending ≠ [] := by simp [isPending]
      simp only [isPending] at ran
      rw [← isPending] at ran
      obtain ⟨waiting, mid, swept, ran⟩ := bind_ok.mp ran
      replace ran := rest_ok ran rfl
      split at ran
      · rename_i stuck
        cases ran
        have prompt : waiting = false := by simpa using stuck.2
        exact .stuck waits (prompt ▸ swept) stuck.1
      · rename_i hm
        exact .again waits swept (by simpa using hm) (ih ran)

/-- The sweeps of a resolution, from the first one to the last. -/
def Sweeps (c : Course) (cap : Option Nat) (out : Outcome) (ended : Course) : Prop :=
  ∃ waiting swept, sweep (c.work.tree.preorder c.root) c = .ok waiting swept ∧
    Sweeping (c.sweepLimit cap - swept.sweeps) swept out ended

theorem sweeps_of_resolve {cap : Option Nat} {out : Outcome} (fresh : c.outcome = none)
    (ran : resolve cap c = .ok out t) : ∃ ended w, c.Sweeps cap out ended ∧
      Resolution.giveUp ended.pending ended.work = .ok () w ∧
      t = { ended with work := w, pending := [], outcome := some out } := by
  replace ran := rest_ok ran rfl
  rw [fresh] at ran
  replace ran := rest_ok (rest_ok (rest_ok ran rfl) rfl) rfl
  obtain ⟨waiting, swept, ranSweep, ran⟩ := bind_ok.mp ran
  replace ran := rest_ok ran rfl
  obtain ⟨outcome', ended, ranPending, ran⟩ := bind_ok.mp ran
  replace ran := rest_ok (rest_ok ran rfl) rfl
  obtain ⟨u, gaveUp, ranGiveUp, ran⟩ := bind_ok.mp ran
  obtain ⟨w, failedAll, rfl⟩ := onWork_ok.mp ranGiveUp
  cases rest_ok ran rfl
  exact ⟨ended, w, ⟨waiting, swept, ranSweep, sweeping_of_sweepPending ranPending⟩, failedAll, rfl⟩

section

variable {present : NodeId → Prop} {Inv Stop : Work → Prop} {Done : Work → NodeId → Prop}
  (rule : Resolution.SweepRule present Inv Stop Done)

include rule

theorem sweep_of_rule {waiting : Bool} (h : Inv c.work) (win : ∀ id ∈ ids, present id)
    (ran : sweep ids c = .ok waiting t) (calm : ¬Stop t.work) :
    Inv t.work ∧ (∀ id, Done c.work id → Done t.work id) ∧
      (∀ id ∈ ids, Done t.work id ∨ id ∈ t.pending) ∧ ∀ id ∈ t.pending, id ∈ ids := by
  obtain ⟨rest, w, worked, -, rfl⟩ := sweep_ok.mp ran
  exact rule.visitAll h win worked calm

theorem stop_of_sweeping {left : Nat} {out : Outcome} (run : Sweeping left c out t)
    (stops : Stop c.work) : Stop t.work := by
  have stays : ∀ {c mid : Course} {waiting}, sweep c.pending c = .ok waiting mid →
      Stop c.work → Stop mid.work := fun {c mid waiting} swept stops =>
    ((always_sweep rule.stays.always_visitAll _).keeps c waiting mid ⟨stops, rfl⟩ swept).1
  induction run with
  | complete | limit => exact stops
  | stuck _ swept _ => exact stays swept stops
  | again _ swept _ _ ih => exact ih (stays swept stops)

theorem sweeping_of_rule {left : Nat} {out : Outcome} {nodes : NodeId → Prop}
    (run : Sweeping left c out t) (h : Inv c.work) (win : ∀ id, nodes id → present id)
    (covered : ∀ id, nodes id → Done c.work id ∨ id ∈ c.pending)
    (hi : ∀ id ∈ c.pending, nodes id) (calm : ¬Stop t.work) :
    Inv t.work ∧ (∀ id, nodes id → Done t.work id ∨ id ∈ t.pending) ∧
      (∀ id ∈ t.pending, nodes id) ∧ (out.isComplete = true → t.pending = []) := by
  have step : ∀ {c mid : Course} {waiting}, sweep c.pending c = .ok waiting mid →
      ¬Stop mid.work → Inv c.work →
      (∀ id, nodes id → Done c.work id ∨ id ∈ c.pending) → (∀ id ∈ c.pending, nodes id) →
      Inv mid.work ∧ (∀ id, nodes id → Done mid.work id ∨ id ∈ mid.pending) ∧
        ∀ id ∈ mid.pending, nodes id := by
    intro c mid waiting swept calm h covered hi
    obtain ⟨holdsNow, kept, coveredNow, insideNow⟩ := sweep_of_rule rule h
      (fun id mem => win id (hi id mem)) swept calm
    refine ⟨holdsNow, fun id node => ?_, fun id mem => hi id (insideNow id mem)⟩
    rcases covered id node with done | pending
    · exact .inl (kept id done)
    · exact coveredNow id pending
  induction run with
  | complete none => exact ⟨h, covered, hi, fun _ => none⟩
  | limit => exact ⟨h, covered, hi, by simp [Outcome.isComplete]⟩
  | stuck _ swept _ =>
    obtain ⟨holdsNow, coverage, belongs⟩ := step swept calm h covered hi
    exact ⟨holdsNow, coverage, belongs, by simp [Outcome.isComplete]⟩
  | again _ swept _ rest ih =>
    obtain ⟨holdsNow, coverage, belongs⟩ := step swept
      (fun stops => calm (stop_of_sweeping rule rest stops)) h covered hi
    exact ih holdsNow coverage belongs calm

/-- Resolution sweeps over all nodes of a unit and gives up what is pending then. -/
theorem resolve_of_rule {cap : Option Nat} {out : Outcome} (lk : s.IsLinked r)
    (here : s.Has r) (fresh : c.outcome = none) (rooted : c.root = r)
    (shape : s.SameShape c.work.tree) (win : ∀ id, s.Has id → present id)
    (h : Inv c.work) (ran : resolve cap c = .ok out t) (calm : ¬Stop t.work) :
    ∃ ended : Course, Resolution.giveUp ended.pending ended.work = .ok () t.work ∧ Inv ended.work ∧
      (∀ id, s.Below r id → Done ended.work id ∨ id ∈ ended.pending) ∧
      (∀ id ∈ ended.pending, s.Below r id) ∧ (out.isComplete = true → ended.pending = []) := by
  obtain ⟨ended, w, ⟨waiting, swept, ranSweep, run⟩, failedAll, rfl⟩ := sweeps_of_resolve fresh ran
  have calmEnded : ¬Stop ended.work := fun stops =>
    calm ((rule.stays.always_giveUp _).keeps ended.work _ w stops failedAll)
  have calmSwept : ¬Stop swept.work := fun stops => calmEnded (stop_of_sweeping rule run stops)
  subst rooted
  have nodes : ∀ id, id ∈ c.work.tree.preorder c.root ↔ s.Below c.root id := by
    intro id
    rw [shape.preorder, lk.mem_preorder_iff .root here]
  have has : ∀ id, s.Below c.root id → present id :=
    fun id hb => win id (s.has_iff_lt.mpr (lk.index_lt_size hb here))
  obtain ⟨holdsSwept, -, coveredSwept, insideSwept⟩ := sweep_of_rule rule h
    (fun id mem => has id ((nodes id).mp mem)) ranSweep calmSwept
  obtain ⟨holdsEnded, covered, hi, complete⟩ := sweeping_of_rule rule run holdsSwept has
    (fun id hb => coveredSwept id ((nodes id).mpr hb))
    (fun id mem => (nodes id).mp (insideSwept id mem)) calmEnded
  exact ⟨ended, failedAll, holdsEnded, covered, hi, complete⟩

end

/-- What a unit is like once its names are resolved without anything serious. -/
theorem resolve_ready {cap : Option Nat} {outcome : Outcome} (lk : s.IsLinked r)
    (hp : s.Has r) (fresh : c.outcome = none) (rooted : c.root = r) (hn : c.work.Named s denoted)
    (done : resolve cap c = .ok outcome t) (quiet : ¬t.work.Loud) :
    ∃ lefts, t.work.Ready s r denoted lefts := by
  have has : ∀ id, s.Below r id → s.Has id :=
    fun id hb => s.has_iff_lt.mpr (lk.index_lt_size hb hp)
  obtain ⟨ended, failedAll, namedEnded, covered, hi, -⟩  := resolve_of_rule
    (Resolution.sweepRule_named s denoted) lk hp fresh rooted hn.shape (fun _ has => has)
    hn done quiet
  replace failedAll := rest_ok failedAll rfl
  obtain ⟨excused, ends⟩ := Resolution.failAll_quiet failedAll quiet
  rw [ends]
  have notFailed : ∀ id, ended.work.tree.stage id ≠ .failed := by
    intro id hx
    have early := namedEnded.early id
    simp [hx, Stage.isUpTo, Stage.rank] at early
  refine ⟨ended.pending, ?_, namedEnded.known, hi, ?_, ?_, ?_, ended.work.tree,
    namedEnded.shape, notFailed, excused⟩
  · exact namedEnded.shape.trans (Resolution.sameShape_failed _ _)
  · intro id mem
    exact Resolution.stage_failed_of_mem _ ((namedEnded.shape.has id).mpr (has id (hi id mem))) mem
  · intro id out
    rw [withTree_tree, Tree.stage, Resolution.facts_failed_of_not_mem _ out]
    exact namedEnded.early id
  · intro id hb out complete
    have res : ended.work.tree.stage id = .resolved := by
      rcases covered id hb with (incomplete | res) | left
      · rw [namedEnded.shape.completable, complete] at incomplete
        simp at incomplete
      · exact res
      · exact absurd left out
    have eq := Resolution.facts_failed_of_not_mem ended.work.tree out
    refine (namedEnded.resolved id res).keep ?_ ?_ (.refl _)
    · exact congrArg Facts.type eq
    · exact congrArg Facts.binding eq

end Course

end TreeCompiler
