import TreeCompiler.Proofs.StuckSweeps

/-!
# How many sweeps are made

There are never more sweeps than the limit allows. Without a limit of its own a unit needs at most
one sweep for each name and named type, and one more, unless the symbol table holds answers back: a
sweep that puts off fewer nodes than the one before brings the end nearer, and any other is the
last.
-/

namespace TreeCompiler

open Step

namespace Resolution

open WorkM

variable {scope name : String} {id : NodeId} {w after : Work} {table : SymbolTable}

theorem notYet_of_symbol {α : Type} {next : Lookup → WorkM α} {a : α}
    (hp : ∀ ans, ans ≠ .notYet → ∃ b, next ans = pure b ∧ b ≠ a)
    (ran : (lookup scope name >>= next) w = .ok a after) :
    ∃ name, (w.symbols.lookup scope name).1 = .notYet := by
  obtain ⟨ans, mid, hl, ran⟩ := bind_ok.mp ran
  refine ⟨name, (Prod.ext_iff.mp (modifyGet_ok.mp hl)).1.trans ?_⟩
  by_contra prompt
  obtain ⟨b, isPure, ne⟩ := hp ans prompt
  rw [isPure] at ran
  exact ne (pure_ok.mp ran).1

theorem notYet_of_lookupType {names : List String}
    (ran : lookupType scope id names w = .ok .waiting after) :
    ∃ name, (w.symbols.lookup scope name).1 = .notYet := by
  have ofSymbol : ∀ {name}, lookupTypeSymbol scope name w = .ok .waiting after →
      ∃ name, (w.symbols.lookup scope name).1 = .notYet := by
    refine notYet_of_symbol fun ans prompt => ?_
    match ans with
    | .found (.type _) | .found (.constant ..) | .found (.space _) | .notFound => exact ⟨_, rfl, by simp⟩
    | .notYet => exact absurd rfl prompt
  match names with
  | [] | _ :: _ :: _ => exact ofSymbol ran
  | [name] =>
    replace ran := rest_ok ran rfl
    generalize w.tree.findTypedef id name = hv at ran
    cases hv with
    | some typedef =>
      obtain ⟨ty, mid, -, ran⟩ := bind_ok.mp ran
      cases ty <;> simp at ran
    | none =>
      dsimp only at ran
      split at ran
      · simp [map_ok] at ran
      · exact ofSymbol ran

theorem notYet_of_lookupName (ran : lookupName scope id name w = .ok .waiting after) :
    ∃ name, (w.symbols.lookup scope name).1 = .notYet := by
  have ofSymbol : lookupSymbol scope name w = .ok .waiting after →
      ∃ name, (w.symbols.lookup scope name).1 = .notYet :=
    notYet_of_symbol fun ans prompt => by
      cases ans with
      | notYet => exact absurd rfl prompt
      | _ => exact ⟨_, rfl, by simp⟩
  unfold lookupName at ran
  split at ran
  · exact ofSymbol ran
  · obtain ⟨ans, mid, hl, ran⟩ := bind_ok.mp ran
    cases lookupInUnit_ok hl with
    | declared | builtin => simp at ran
    | @aliased _ type? => cases type? <;> simp at ran
    | absent => exact ofSymbol ran

theorem notYet_of_resolveNode (ran : resolveNode scope id w = .ok .waiting after) :
    ∃ name, (w.symbols.lookup scope name).1 = .notYet := by
  have asks := isDeferrable_of_resolveNode ran (by simp)
  replace ran := rest_ok ran rfl
  unfold Tree.isDeferrable at asks
  split at asks
  · rename_i names ps hf
    simp only [hf] at ran
    replace ran := rest_ok ran rfl
    simp only [Tree.type?, hf, Form.type?, Option.bind_some] at ran
    obtain ⟨ans, mid, hl, ran⟩ := bind_ok.mp ran
    cases ans with
    | waiting => exact notYet_of_lookupType hl
    | _ => simp [bind_ok, map_ok] at ran
  · rename_i name hf
    simp only [hf] at ran
    obtain ⟨ans, mid, hl, ran⟩ := bind_ok.mp ran
    cases ans with
    | waiting => exact notYet_of_lookupName hl
    | _ => simp [map_ok] at ran
  · simp at asks

theorem notYet_of_visit (ran : visit scope id w = .ok .waiting after) :
    ∃ name, (w.symbols.lookup scope name).1 = .notYet := by
  obtain ⟨prog, mid, tried, ran⟩ := bind_ok.mp (rest_ok ran rfl)
  replace ran := rest_ok ran rfl
  split at ran
  · rename_i isDone
    have isWaiting := (bind_pure_ok.mp ran).choose_spec.2
    simp [isDone.1] at isWaiting
  · cases ran
    exact notYet_of_resolveNode (w := w.withTree (w.tree.setStage id .resolving)) tried

/-- A symbol table that holds nothing back stays as it is. -/
theorem resolutionInvariant_symbols (prompt : ∀ scope name, (table.lookup scope name).1 ≠ .notYet) :
    ResolutionInvariant fun w => w.symbols = table :=
  .of_facts ⟨fun _ _ eq => eq, fun w scope name eq => by
    rw [eq]
    exact SymbolTable.lookup_snd_of_prompt (prompt scope name)⟩ (fun _ _ _ eq _ => eq)
    fun _ _ eq => eq

theorem not_waiting_of_visitAll (prompt : ∀ scope name, (table.lookup scope name).1 ≠ .notYet)
    {ids : List NodeId} {rest : Rest} (eq : w.symbols = table)
    (ran : visitAll scope ids w = .ok rest after) : rest.waiting = false := by
  induction ids generalizing w rest with
  | nil =>
    cases ran
    rfl
  | cons id ids ih =>
    replace ran := rest_ok ran rfl
    split at ran
    · exact ih eq ran
    · obtain ⟨prog, mid, seen, ran⟩ := bind_ok.mp ran
      have hf : ∀ {others : Rest}, others.waiting = false → (others.after id prog).waiting = false := by
        intro others none
        cases prog with
        | waiting =>
          obtain ⟨name, notYet⟩ := notYet_of_visit seen
          exact absurd notYet (eq ▸ prompt scope name)
        | _ => exact none
      replace ran := rest_ok ran rfl
      split at ran
      · cases ran
        exact hf rfl
      · obtain ⟨others, swept, rfl⟩ := bind_pure_ok.mp ran
        have still := ((resolutionInvariant_symbols prompt).always_visit scope id).keeps w _ mid eq seen
        exact hf (ih still swept)

end Resolution

namespace Course

open CourseM

variable {course after : Course} {cap : Option Nat} {outcome : Outcome} {table : SymbolTable}

theorem sweeps_onWork {α : Type} (step : WorkM α) (now : Course) :
    (endState (onWork step now)).sweeps = now.sweeps := by
  unfold onWork
  cases step now.work <;> rfl

theorem sweeps_sweep (ids : List NodeId) (course : Course) :
    (endState (sweep ids course)).sweeps = course.sweeps + 1 := by
  let Once (last : Course) : Prop := last.sweeps = course.sweeps + 1
  refine endState_bind (P := Once) rfl fun _ begun changed => ?_
  cases changed
  refine endState_bind (P := Once) rfl fun _ begun hl => ?_
  cases hl
  refine endState_bind (P := Once) (sweeps_onWork _ _) fun rest swept ran => ?_
  have eq := sweeps_onWork (Resolution.visitAll course.scope ids)
    { course with sweeps := course.sweeps + 1, pending := [] }
  rw [ran] at eq
  exact eq

theorem sweeps_sweepPending (left : Nat) (course : Course) :
    (endState (sweepPending left course)).sweeps ≤ course.sweeps + left := by
  induction left generalizing course with
  | zero =>
    refine endState_bind (P := fun last : Course => last.sweeps ≤ course.sweeps + 0) (Nat.le_refl _)
      fun now _ hl => ?_
    cases hl
    cases course.pending <;> exact Nat.le_refl _
  | succ left ih =>
    let Within (last : Course) : Prop := last.sweeps ≤ course.sweeps + (left + 1)
    have here : Within course := Nat.le_add_right _ _
    refine endState_bind (P := Within) here fun now _ hl => ?_
    cases hl
    generalize course.pending = pending
    cases pending with
    | nil => exact here
    | cons fst others =>
      have once := sweeps_sweep (fst :: others) course
      refine endState_bind (P := Within) (once.le.trans (by omega)) fun waiting swept ran => ?_
      rw [ran] at once
      have counted : swept.sweeps = course.sweeps + 1 := once
      have win : Within swept := counted.le.trans (by omega)
      refine endState_bind (P := Within) win fun now _ hl => ?_
      cases hl
      split
      · exact win
      · exact (ih swept).trans (by omega)

/-- No more sweeps are made than are allowed, whether resolution ends or stops on a defect. -/
theorem sweeps_resolve (fresh : course.outcome = none) (unswept : course.sweeps = 0)
    (cap : Option Nat) :
    (endState (resolve cap course)).sweeps ≤ max 1 (course.sweepLimit cap) := by
  let Within (last : Course) : Prop := last.sweeps ≤ max 1 (course.sweepLimit cap)
  have here : Within course := by simp [Within, unswept]
  refine endState_bind (P := Within) here fun now _ hl => ?_
  cases hl
  rw [fresh]
  refine endState_bind (P := Within) here fun now _ hl => ?_
  cases hl
  refine endState_bind (P := Within) here fun tree now hl => ?_
  cases hl
  refine endState_bind (P := Within) here fun now _ hl => ?_
  cases hl
  have fst := sweeps_sweep (course.work.tree.preorder course.root) course
  rw [unswept] at fst
  refine endState_bind (P := Within) (fst.le.trans (Nat.le_max_left ..)) fun waiting swept ran => ?_
  rw [ran] at fst
  have once : swept.sweeps = 1 := fst
  have pending := sweeps_sweepPending (course.sweepLimit cap - swept.sweeps) swept
  have enough : swept.sweeps + (course.sweepLimit cap - swept.sweeps) ≤ max 1 (course.sweepLimit cap) := by omega
  refine endState_bind (P := Within) (once.le.trans (Nat.le_max_left ..)) fun now _ hl => ?_
  cases hl
  refine endState_bind (P := Within) (pending.trans enough) fun outcome ended ran => ?_
  rw [ran] at pending
  have always : Always Within (do
      let lefts := (← get).pending
      modify fun course => { course with pending := [] }
      onWork (Resolution.giveUp lefts)
      modify fun course => { course with outcome := some outcome }
      pure outcome) := by
    refine Always.bind Always.get fun _ => Always.bind (fun _ win => win) fun _ =>
      Always.bind (fun now win => ?_) fun _ => Always.bind (fun _ win => win) fun _ => Always.pure _
    exact (sweeps_onWork _ now).le.trans win
  exact always ended (pending.trans enough)

/-- Unless the symbol table holds an answer back, sweeps end before there are more than nodes
pending. -/
theorem Sweeping.bounded {left : Nat} (run : Sweeping left course outcome after)
    (prompt : ∀ scope name, (table.lookup scope name).1 ≠ .notYet)
    (eq : course.work.symbols = table) (enough : course.pending.length ≤ left) :
    (∀ sweeps unresolved, outcome ≠ .sweepLimit sweeps unresolved) ∧ outcome.sweeps = after.sweeps ∧
      after.sweeps ≤ course.sweeps + course.pending.length := by
  have some : ∀ {course : Course}, course.pending ≠ [] → 0 < course.pending.length :=
    List.length_pos_iff.mpr
  induction run with
  | complete none => exact ⟨by simp, rfl, Nat.le_add_right _ _⟩
  | limit waits =>
    have pos := some waits
    omega
  | stuck waits swept _ =>
    have pos := some waits
    obtain ⟨rest, w, -, -, rfl⟩ := sweep_ok.mp swept
    exact ⟨by simp, rfl, Nat.add_le_add_left pos _⟩
  | @again left course mid after waiting outcome waits swept hm _ ih =>
    obtain ⟨rest, w, ran, isWaiting, rfl⟩ := sweep_ok.mp swept
    have still := Resolution.not_waiting_of_visitAll prompt eq ran
    have fewer := (Resolution.deferred_sublist (.refl _) ran).length_le.trans (List.length_filter_le _ _)
    have less : rest.deferred.length < course.pending.length :=
      Nat.lt_of_le_of_ne fewer fun stuck => hm ⟨stuck, isWaiting.symm.trans still⟩
    have kept := ((Resolution.resolutionInvariant_symbols prompt).always_visitAll _ _).keeps _ _ w eq ran
    obtain ⟨unlimited, counted, bound⟩ := ih kept (by dsimp only; omega)
    refine ⟨unlimited, counted, bound.trans ?_⟩
    dsimp only
    omega

/-- A new unit is swept at most as often as allowed, or once. If the symbol table holds nothing
back, the sweeps allowed unless the options say otherwise are enough, and there is at most one for
each name and named type, and one more. Sweeps end without progress only where any number of further
ones would change nothing but their count, so that what is pending stays so. -/
theorem sweeps_suffice (course : Course) (fresh : course.outcome = none)
    (unswept : course.sweeps = 0) :
    (∀ cap, (endState (resolve cap course)).sweeps ≤ max 1 (course.sweepLimit cap)) ∧
    (course.options.maxSweeps = none →
      (∀ scope name, (course.work.symbols.lookup scope name).1 ≠ .notYet) →
      ∀ outcome after, resolve none course = .ok outcome after →
        (∀ sweeps unresolved, outcome ≠ .sweepLimit sweeps unresolved) ∧
        outcome.sweeps = after.sweeps ∧ after.sweeps ≤
          (course.work.tree.preorder course.root).countP course.work.tree.isDeferrable + 1) ∧
    ((∀ id ∈ course.work.tree.preorder course.root, course.work.tree.Has id) →
      course.work.Supplied → ∀ cap sweeps unresolved after,
      resolve cap course = .ok (.noProgress sweeps unresolved) after →
        ∃ ended, course.Sweeps cap (.noProgress sweeps unresolved) ended ∧
          ended.pending.length = unresolved ∧
          (∀ id ∈ ended.pending, ended.work.tree.stage id = .resolving) ∧
          ∀ count, sweepAgain count ended = .ok () { ended with sweeps := ended.sweeps + count }) := by
  refine ⟨sweeps_resolve fresh unswept, fun unlimited prompt outcome after ran => ?_,
    fun present supplied cap sweeps unresolved after ran => ?_⟩
  · obtain ⟨ended, w, ⟨waiting, swept, first, run⟩, -, rfl⟩ := sweeps_of_resolve fresh ran
    obtain ⟨rest, w', ranAll, -, rfl⟩ := sweep_ok.mp first
    have bound := (Resolution.deferred_sublist (.refl _) ranAll).length_le
    rw [← List.countP_eq_length_filter] at bound
    have kept := ((Resolution.resolutionInvariant_symbols prompt).always_visitAll _ _).keeps _ _ w' rfl ranAll
    obtain ⟨noLimit, counted, most⟩ := run.bounded prompt kept (by
      simp only [sweepLimit, unlimited, Option.getD_none, defaultSweepLimit, unswept]
      omega)
    refine ⟨noLimit, counted, most.trans ?_⟩
    dsimp only
    omega
  · obtain ⟨ended, w, ⟨waiting, swept, first, run⟩, -, -⟩ := sweeps_of_resolve fresh ran
    obtain ⟨length, stages, again⟩ := run.sweepAgain (resting_of_sweep supplied present first)
    exact ⟨ended, ⟨waiting, swept, first, run⟩, length, stages, again⟩

end Course

/-- Two sweeps are made of the unit with the chained aliases, and no further one would change
anything. -/
theorem chainedUnit_swept : ∃ after ended,
    Course.resolve none (Session.courseOf {} {} chainedUnit ⟨9⟩) = .ok (.noProgress 2 4) after ∧
      after.sweeps = 2 ∧ after.sweeps ≤ 4 + 1 ∧
      (Session.courseOf {} {} chainedUnit ⟨9⟩).Sweeps none (.noProgress 2 4) ended ∧
      ended.pending.length = 4 ∧ (∀ id ∈ ended.pending, ended.work.tree.stage id = .resolving) ∧
      ∀ count, Course.sweepAgain count ended = .ok ()
      { ended with sweeps := ended.sweeps + count } := by
  obtain ⟨after, ran, -⟩ := chainedUnit_ends
  obtain ⟨-, enough, stuck⟩ := Course.sweeps_suffice (Session.courseOf {} {} chainedUnit ⟨9⟩) rfl rfl
  have supplied : (Session.courseOf {} {} chainedUnit ⟨9⟩).work.Supplied := by
    refine ⟨fun {id type} isNoted => ?_, fun mem _ => by cases mem⟩
    have fresh : chainedUnit.IsFresh ⟨9⟩ := Tree.isFresh_of_table (by decide) (by decide) (by decide)
    rw [show (Session.courseOf {} {} chainedUnit ⟨9⟩).work.tree.facts id = {} from fresh.blank id] at isNoted
    cases isNoted
  obtain ⟨-, counted, bound⟩ := enough rfl
    (fun _ _ => (SymbolTable.lookup_of_unheld fun _ mem => by cases mem).2) _ after ran
  obtain ⟨ended, run, pending, stages, again⟩ := stuck chainedUnit_has supplied none 2 4 after ran
  exact ⟨after, ended, ran, counted.symm, bound, run, pending, stages, again⟩

/-- A unit with an alias of a name `T` that it does not define. -/
def strayUnit : Tree where
  nodes := #[{ form := .type (.named ["B"] []), parent := some ⟨1⟩ },
    { form := .stmt (.varDecl ⟨0⟩ "b" none), parent := some ⟨11⟩ },
    { form := .type (.named ["A"] []), parent := some ⟨3⟩ },
    { form := .stmt (.varDecl ⟨2⟩ "a" none), parent := some ⟨11⟩ },
    { form := .type (.named ["Int"] []), parent := some ⟨5⟩ },
    { form := .type (.nullable ⟨4⟩), parent := some ⟨7⟩ },
    { form := .type (.named ["Gone"] []), parent := some ⟨7⟩ },
    { form := .type (.tuple [⟨5⟩, ⟨6⟩]), parent := some ⟨8⟩ },
    { form := naming "A" ⟨7⟩, parent := some ⟨11⟩ },
    { form := .type (.named ["T"] []), parent := some ⟨10⟩ },
    { form := naming "B" ⟨9⟩, parent := some ⟨11⟩ },
    { form := .stmt (.block [⟨1⟩, ⟨3⟩, ⟨8⟩, ⟨10⟩]), parent := some ⟨12⟩ },
    { form := .stmt (.method "run" [] [] ⟨11⟩) }]
  root := some ⟨12⟩

/-- The symbol table names a type that is not in the pool. -/
def strayCourse : Course :=
  Session.courseOf {} { symbols := [{ name := "T", component := .type ⟨4⟩ }] } strayUnit ⟨12⟩

/-- What the last sweep interned has become the type that was missing, so that one more sweep
resolves a type that was pending. -/
theorem strayUnit_resolves_later : strayCourse.outcome = none ∧ strayCourse.sweeps = 0 ∧
    strayCourse.options.maxSweeps = none ∧
    (∀ scope name, (strayCourse.work.symbols.lookup scope name).1 ≠ .notYet) ∧
    ∃ ended later, strayCourse.Sweeps none (.noProgress 2 3) ended ∧ ended.pending.length = 3 ∧
      ended.work.tree.stage ⟨0⟩ = .resolving ∧ Course.sweepAgain 1 ended = .ok () later ∧
      later.pending.length = 2 ∧ later.work.tree.stage ⟨0⟩ = .resolved := by
  refine ⟨rfl, rfl, rfl, fun _ _ => (SymbolTable.lookup_of_unheld (by decide)).2, ?_⟩
  have checked : Step.succeeds (Course.sweep (strayCourse.work.tree.preorder strayCourse.root)) strayCourse
      (fun _ swept => Step.succeeds (Course.sweepPending (strayCourse.sweepLimit none - swept.sweeps)) swept
        fun outcome ended => decide (outcome = .noProgress 2 3 ∧ ended.pending.length = 3 ∧
            ended.work.tree.stage ⟨0⟩ = .resolving) &&
          Step.succeeds (Course.sweepAgain 1) ended fun _ later =>
            decide (later.pending.length = 2 ∧ later.work.tree.stage ⟨0⟩ = .resolved)) = true := by
    decide +kernel
  obtain ⟨waiting, swept, first, checked⟩ := Step.succeeds_iff.mp checked
  obtain ⟨outcome, ended, ran, checked⟩ := Step.succeeds_iff.mp checked
  obtain ⟨atEnd, resolves⟩ := Bool.and_eq_true_iff.mp checked
  obtain ⟨rfl, pending, stage⟩ := of_decide_eq_true atEnd
  obtain ⟨_, later, again, atLast⟩ := Step.succeeds_iff.mp resolves
  exact ⟨ended, later, ⟨waiting, swept, first, Course.sweeping_of_sweepPending ran⟩, pending, stage, again,
    of_decide_eq_true atLast⟩

end TreeCompiler
