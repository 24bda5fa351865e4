import TreeCompiler.Proofs.Sweeps

/-!
# Resolution that is complete

Where resolution ends with nothing pending and the log does not ask to give the unit up, it has
decided on every node that can be completed: the node is resolved and has its answer, or it has
failed and that is logged. A log that asks to give up ends a sweep in the middle, so that what comes
after is dropped without being pending.
-/

namespace TreeCompiler

open Step

variable {sc : String} {id x : NodeId} {diag : Diagnostic} {ty : ConstId}

theorem Log.abortDesired_add {log : Log} (aborts : log.abortDesired = true) (diag : Diagnostic) :
    (log.add diag).abortDesired = true := by
  simp only [abortDesired, limitReached, Bool.or_eq_true, beq_iff_eq, Bool.and_eq_true,
    decide_eq_true_eq] at aborts ⊢
  refine aborts.imp (fun fatal => ?_) fun hr => ⟨hr.1, hr.2.trans ?_⟩
  · rw [worst, add, List.foldl_append]
    change (log.worst.worse diag.severity) = .fatal
    rw [fatal]
    cases diag.severity <;> rfl
  · simp [serious, add, List.countP_append]

namespace Work

variable {w b after : Work}

/-- The diagnostic is in the log. -/
def Tells (w : Work) (diag : Diagnostic) : Prop :=
  ∃ log, w.sink = .keeping log ∧ diag ∈ log.entries

theorem tells_reported (logs : w.Logs) (diag : Diagnostic) : (w.reported diag).Tells diag := by
  obtain ⟨log, keeping⟩ := logs
  exact ⟨log.add diag, by simp [reported, keeping, Sink.report], by simp [Log.add]⟩

/-- What resolution is to find at a node: what a name is bound to, and the type that a type name or
keyword denotes. -/
structure Answered (w : Work) (id : NodeId) : Prop where
  name : ∀ name, w.tree.expr? id = some (.name name) → (w.tree.facts id).binding.isSome
  type : ∀ expr, w.tree.type? id = some expr → expr.isWord = true → (w.tree.facts id).type.isSome

/-- A node has failed, and a diagnostic says so. -/
def Refused (w : Work) (id : NodeId) : Prop :=
  w.tree.stage id = .failed ∧ ∃ code args, w.Tells (.errorAt code args (w.tree.span id))

/-- Resolution has decided on a node. -/
def Decided (w : Work) (id : NodeId) : Prop :=
  w.tree.stage id = .resolved ∧ w.Answered id ∨ w.Refused id

/-- A node is put off: a named type has a placeholder. -/
structure Idle (w : Work) (id : NodeId) : Prop where
  stage : w.tree.stage id = .resolving
  noted : ∀ names ps, w.tree.type? id = some (.named names ps) → (w.tree.facts id).type.isSome

/-- Nothing changes in the tree but what is noted at one node, and the log is kept. -/
structure Touches (id : NodeId) (b after : Work) : Prop where
  shape : b.tree.SameShape after.tree
  span : ∀ x, after.tree.span x = b.tree.span x
  others : ∀ x, x ≠ id → after.tree.facts x = b.tree.facts x
  logs : b.Logs → after.Logs
  tells : ∀ diag, b.Tells diag → after.Tells diag

namespace Touches

theorem refl (w : Work) : w.Touches id w :=
  ⟨.refl _, fun _ => rfl, fun _ _ => rfl, fun logs => logs, fun _ tells => tells⟩

instance : Trans (Touches id) (Touches id) (Touches id) where
  trans he later :=
    ⟨he.shape.trans later.shape, fun x => (later.span x).trans (he.span x),
      fun x ne => (later.others x ne).trans (he.others x ne),
      fun logs => later.logs (he.logs logs),
      fun diag tells => later.tells diag (he.tells diag tells)⟩

theorem modifyFacts (w : Work) (id : NodeId) (f : Facts → Facts) :
    w.Touches id (w.withTree (w.tree.modifyFacts id f)) where
  shape := .modifyFacts _ _ _
  span := w.tree.span_modifyFacts id f
  others _ ne := w.tree.facts_modify_ne ne f
  logs logs := logs
  tells _ tells := tells

theorem reported (w : Work) (diag : Diagnostic) : w.Touches id (w.reported diag) where
  shape := .refl _
  span _ := rfl
  others _ _ := rfl
  logs logs := logs.reported diag
  tells _ tells := by
    obtain ⟨log, keeping, mem⟩ := tells
    exact ⟨log.add diag, by simp [Work.reported, keeping, Sink.report], by simp [Log.add, mem]⟩

/-- What is decided about the other nodes stays so. -/
theorem decided (touches : b.Touches id after) (ne : x ≠ id)
    (decided : b.Decided x) : after.Decided x := by
  have facts := touches.others x ne
  rcases decided with ⟨res, answered⟩ | ⟨hx, code, args, told⟩
  · refine .inl ⟨by rwa [Tree.stage, facts], fun name isName => ?_, fun expr ht => ?_⟩
    · rw [facts]
      exact answered.name name (by rwa [touches.shape.expr?] at isName)
    · rw [facts]
      exact answered.type expr (by rwa [touches.shape.type?] at ht)
  · exact .inr ⟨by rwa [Tree.stage, facts], code, args, touches.span x ▸ touches.tells _ told⟩

end Touches

end Work

namespace Resolution

open WorkM Work

variable {w : Work} {α : Type}

theorem goes_lookup_touches {step : WorkM α}
    (always : ∀ {P : Work → Prop}, LookupInvariant P → Always P step) :
    Goes (Touches id) step (fun _ after => after.tree = w.tree) w :=
  ⟨always ⟨fun _ _ touches => { touches with }, fun _ _ _ touches => { touches with }⟩ w (.refl w),
    fun ans after ran => (always (P := fun now => now.tree = w.tree)
      ⟨fun _ _ eq => eq, fun _ _ _ eq => eq⟩).keeps w ans after rfl ran⟩

theorem goes_note_touches (hp : w.tree.Has id) (f : Facts → Facts) :
    Goes (Touches id) (modifyFacts id f)
      (fun _ after => after.tree.facts id = f (w.tree.facts id)) w :=
  Goes.of_ok rfl (.modifyFacts w id f) (w.tree.facts_modify_same hp f)

theorem goes_settleType_touches (hp : w.tree.Has id) :
    Goes (Touches id) (settleType id ty) (fun _ after => (after.tree.facts id).type.isSome ∧
      after.tree.stage id = w.tree.stage id) w := by
  have notes : ∀ {now : Work}, now.tree.Has id → Goes (Touches id) (modifyFacts id fun facts =>
      { facts with type := some ty }) (fun _ after => (after.tree.facts id).type.isSome ∧
        after.tree.stage id = now.tree.stage id) now :=
    fun hp => (goes_note_touches hp _).answering fun _ _ _ hn => by simp [Tree.stage, hn]
  refine goes_facts ?_
  split
  · exact notes hp
  · rename_i he hn
    refine Goes.bind (goes_lookup_touches fun _ => LookLogic.always.readPool _) fun entry now _ eq => ?_
    split
    · refine (goes_lookup_touches fun inv => inv.always_onPool _).answering fun _ _ _ still => ?_
      rw [still, eq]
      simp [hn]
    · rw [← eq]
      exact notes (eq ▸ hp)

theorem goes_deferType_touches (hp : w.tree.Has id) (name : String) :
    Goes (Touches id) (deferType id name) (fun _ after => (after.tree.facts id).type.isSome ∧
      after.tree.stage id = w.tree.stage id) w := by
  refine goes_facts ?_
  split
  · refine Goes.bind (goes_lookup_touches fun inv => inv.always_onPool _) fun _ now _ eq => ?_
    rw [← eq]
    exact (goes_note_touches (eq ▸ hp) _).answering fun _ _ _ hn => by simp [Tree.stage, hn]
  · rename_i hn
    exact Goes.pure (.refl w) ⟨by simpa [Option.isSome_iff_ne_none] using hn, rfl⟩

/-- What an attempt to resolve a node comes to: it is refused, it is given an answer or it is put
off. -/
inductive Settles (b : Work) (id : NodeId) (after : Work) : Progress → Prop where
  | refused (hx : after.tree.stage id = .failed) (told : b.Logs → after.Refused id) :
    Settles b id after .done
  | answered (stage : after.tree.stage id = .resolving) (answered : after.Answered id) :
    Settles b id after .done
  | idle {prog : Progress} (late : prog ≠ .done) (idle : after.Idle id) :
    Settles b id after prog

theorem goes_resolveTypeName_touches (hp : w.tree.Has id) (begun : w.tree.stage id = .resolving) :
    Goes (Touches id) (resolveTypeName sc id) (fun prog after => Settles w id after prog) w := by
  refine goes_tree ?_
  cases hf : w.tree.type? id with
  | none => exact Goes.throw (.refl w)
  | some expr =>
    have notName : ∀ {after : Work} name, w.Touches id after →
        after.tree.expr? id ≠ some (.name name) := by
      intro after name touches isName
      rw [touches.shape.expr?, Tree.expr?_of_type _ hf] at isName
      simp at isName
    have answers : ∀ {after : Work}, w.Touches id after → (after.tree.facts id).type.isSome →
        after.tree.stage id = .resolving → Settles w id after .done := fun touches isSome stage =>
      .answered stage ⟨fun name isName => absurd isName (notName name touches), fun _ _ _ => isSome⟩
    have wordless : expr.isWord = false → Settles w id w .done := fun wordless => .answered begun
      ⟨fun name isName => absurd isName (notName name (.refl w)), fun x isOther word => by
        cases hf.symm.trans isOther
        simp [wordless] at word⟩
    cases expr with
    | tuple _ | nullable _ | bad _ => exact Goes.pure (.refl w) (wordless rfl)
    | keyword keyword =>
      dsimp only
      split
      · exact Goes.throw (.refl w)
      · refine Goes.bind (goes_lookup_touches fun inv => inv.always_onPool _) fun ty now touches eq =>
          Goes.bind (goes_note_touches (eq ▸ hp) _) fun _ last hfu hn =>
          Goes.pure (.refl last) (answers (Trans.trans touches hfu) (by simp [hn]) ?_)
        rw [Tree.stage, hn, eq]
        exact begun
    | named names ps =>
      refine Goes.bind (goes_lookup_touches fun inv => inv.lookups.lookupType sc id names)
        fun ans now touches eq => ?_
      have has : now.tree.Has id := eq ▸ hp
      have still : now.tree.stage id = .resolving := eq ▸ begun
      split
      · exact Goes.bind (goes_settleType_touches has) fun _ last hfu hn =>
          Goes.pure (.refl last) (answers (Trans.trans touches hfu) hn.1 (hn.2.trans still))
      · refine Goes.bind (Q := fun _ told => w.Logs → told.Tells (.errorAt .notAType [Text.joinDots names]
            (now.tree.span id))) (Goes.of_ok rfl (.reported now _) fun logs => tells_reported (touches.logs logs) _)
          fun _ told reported tells => Goes.bind (goes_note_touches ((reported.shape.has id).mpr has) _)
            fun _ last hfu hn => Goes.pure (.refl last)
              (.refused (by rw [Tree.stage, hn]) fun logs =>
                ⟨by rw [Tree.stage, hn], .notAType, [Text.joinDots names], ?_⟩)
        rw [hfu.span, reported.span]
        exact hfu.tells _ (tells logs)
      all_goals exact Goes.bind (goes_deferType_touches has _) fun _ last _ hn =>
        Goes.pure (.refl last) (.idle (by simp) ⟨hn.2.trans still, fun _ _ _ => hn.1⟩)

theorem goes_resolveNode_touches (hp : w.tree.Has id) (begun : w.tree.stage id = .resolving) :
    Goes (Touches id) (resolveNode sc id) (fun prog after => Settles w id after prog) w := by
  refine goes_tree ?_
  split
  · exact goes_resolveTypeName_touches hp begun
  · rename_i name hf
    refine Goes.bind (goes_lookup_touches fun inv => inv.lookups.lookupName sc id name)
      fun ans now touches eq => ?_
    have still : now.tree.stage id = .resolving := eq ▸ begun
    have noType : ∀ {after : Work} {expr}, now.Touches id after → after.tree.type? id ≠ some expr := by
      intro after expr hfu ht
      rw [hfu.shape.type?, eq, Tree.type?, hf] at ht
      simp [Form.type?] at ht
    split
    · refine Goes.bind (goes_note_touches (eq ▸ hp) _) fun _ last hfu hn =>
        Goes.pure (.refl last) (.answered ?_ ⟨fun _ _ => by simp [hn], fun expr ht =>
          absurd ht (noType hfu)⟩)
      rw [Tree.stage, hn]
      exact still
    all_goals exact Goes.pure (.refl now) (.idle (by simp) ⟨still, fun _ _ ht =>
      absurd ht (noType (.refl now))⟩)
  · rename_i noType noName
    refine Goes.pure (.refl w) (.answered begun ⟨fun name isName => ?_, fun expr ht => ?_⟩)
    · exact absurd (w.tree.form?_of_expr isName) (noName name)
    · obtain ⟨form, isForm, isExpr⟩ := Option.bind_eq_some_iff.mp ht
      cases form <;> simp [Form.type?] at isExpr
      exact absurd isForm (noType _)

/-- A visit of a node touches no other one, and decides on the node unless it puts it off. -/
theorem goes_visit_touches (hp : w.tree.Has id) :
    Goes (Touches id) (visit sc id) (fun prog after =>
      isSettled after.tree id = true ∧ (w.Logs → after.Decided id) ∨ prog ≠ .done ∧ after.Idle id) w := by
  refine Goes.bind (goes_note_touches hp _) fun _ begun touches hn => ?_
  have has := (touches.shape.has id).mpr hp
  refine Goes.bind (goes_resolveNode_touches has (by rw [Tree.stage, hn]))
    fun prog now hf settles => goes_stage ?_
  cases settles with
  | refused hx told =>
    rw [if_neg (by simp [hx])]
    exact Goes.pure (.refl now)
      (.inl ⟨by simp [isSettled, hx], fun logs => .inr (told (touches.logs logs))⟩)
  | answered stage ans =>
    rw [if_pos ⟨rfl, by simp [stage]⟩]
    refine Goes.bind (goes_note_touches ((hf.shape.has id).mpr has) _) fun _ last ends hn =>
      Goes.pure (.refl last) (.inl ?_)
    have res : last.tree.stage id = .resolved := by rw [Tree.stage, hn]
    refine ⟨by simp [isSettled, res, Stage.hasReached, Stage.isUpTo], fun _ => .inl ⟨res, ?_, ?_⟩⟩
    · intro name isName
      rw [hn]
      exact ans.name name (by rwa [ends.shape.expr?] at isName)
    · intro expr ht
      rw [hn]
      exact ans.type expr (by rwa [ends.shape.type?] at ht)
  | idle late idle =>
    rw [if_neg (by simp [late])]
    exact Goes.pure (.refl now) (.inr ⟨late, idle⟩)

theorem isSettled_of_decided (decided : w.Decided id) : isSettled w.tree id = true := by
  rcases decided with ⟨stage, -⟩ | ⟨stage, -⟩ <;>
    simp [isSettled, stage, Stage.hasReached, Stage.isUpTo]

/-- Every visit decides on its node or puts it off, until the log asks to give up. -/
theorem sweepRule_decided (s : Tree) : SweepRule s.Has
    (fun w => s.SameShape w.tree ∧ w.Logs ∧ ∀ id, isSettled w.tree id = true →
      w.tree.completable id = false ∨ w.Decided id) (fun w => w.sink.abortDesired = true)
    (fun w id => w.tree.completable id = false ∨ w.Decided id) where
  stays := .of_facts ⟨fun _ _ aborts => aborts, fun _ _ _ aborts => aborts⟩
    (fun _ _ _ aborts _ => aborts) fun w diag aborts => by
      cases kept : w.sink with
      | silent => simp [kept, Sink.abortDesired] at aborts
      | keeping log =>
        simpa [Work.reported, kept, Sink.report, Sink.abortDesired] using
          log.abortDesired_add (by simpa [kept, Sink.abortDesired] using aborts) diag
  goesOn := by simp
  settled h := h.2.2 _
  visit {sc id w prog after} h hp unsettled ran calm := by
    obtain ⟨shape, logs, decides⟩ := h
    obtain ⟨ends, ans⟩ := @goes_visit_touches sc id w ((shape.has id).mpr hp)
    have touches : w.Touches id after := by rwa [ran] at ends
    have oth : ∀ x, x ≠ id → w.tree.completable x = false ∨ w.Decided x →
        after.tree.completable x = false ∨ after.Decided x := fun x ne done =>
      done.imp (touches.shape.completable x).trans (touches.decided ne)
    replace ends := (ans prog after ran).imp_left fun ends => ends.2 logs
    refine ⟨⟨shape.trans touches.shape, touches.logs logs, fun x hs => ?_⟩,
      fun x done => oth x ?_ done, fun isDone => .inr (ends.resolve_right fun left => left.1 isDone)⟩
    · by_cases eq : x = id
      · subst eq
        refine ends.symm.imp (fun left => ?_) id
        simpa [isSettled, left.2.stage, Stage.hasReached, Stage.isUpTo, Stage.rank] using hs
      · refine oth x eq (decides x ?_)
        simpa only [isSettled, Tree.stage, touches.others x eq, touches.shape.completable] using hs
    · rintro rfl
      rcases done with incomplete | decided
      · simp [isSettled, incomplete] at unsettled
      · simp [isSettled_of_decided decided] at unsettled

end Resolution

namespace Course

/-- Where resolution is complete and the log does not ask to give the unit up, every node that can
be completed is resolved and has its answer, or it has failed and that is logged. -/
theorem complete_decides (course : Course) (fresh : course.work.tree.IsFresh course.root)
    (present : course.work.tree.Has course.root) (begins : course.outcome = none)
    (logs : course.work.Logs) {cap : Option Nat} {sweeps : Nat}
    {after : Course} (ran : resolve cap course = .ok (.complete sweeps) after)
    (goesOn : after.work.sink.abortDesired = false) {id : NodeId}
    (below : course.work.tree.Below course.root id)
    (complete : course.work.tree.completable id = true) : after.work.Decided id := by
  have unsettled : ∀ id, Resolution.isSettled course.work.tree id = true →
      course.work.tree.completable id = false := by
    simp [Resolution.isSettled, Tree.stage, fresh.blank, Stage.hasReached, Stage.isUpTo, Stage.rank]
  obtain ⟨ended, gaveUp, ⟨shape, -, -⟩, covered, -, nothing⟩ := resolve_of_rule
    (Resolution.sweepRule_decided course.work.tree) fresh.toIsLinked present begins rfl (.refl _)
    (fun _ has => has) ⟨.refl _, logs, fun id settled => .inl (unsettled id settled)⟩ ran (by simp [goesOn])
  rw [nothing rfl] at gaveUp covered
  rw [← show ended.work = after.work from (EStateM.Result.ok.inj gaveUp).2]
  rcases (covered id below).resolve_right (by simp) with incomplete | decided
  · rw [shape.completable, complete] at incomplete
    simp at incomplete
  · exact decided

end Course

/-- A table in which `k` is a number. -/
def numberTable : SymbolTable where
  symbols := [{ name := "k", component := .constant ⟨0⟩ ⟨1⟩ }]

/-- A unit that declares a local of the type `k` and evaluates a number then. -/
def misnamedUnit : Tree where
  nodes := #[{ form := .type (.named ["k"] []), parent := some ⟨1⟩ },
    { form := .stmt (.varDecl ⟨0⟩ "a" none), parent := some ⟨4⟩ },
    { form := .expr (.literal (.int 1)), parent := some ⟨3⟩ },
    { form := .stmt (.evaluate ⟨2⟩), parent := some ⟨4⟩ },
    { form := .stmt (.block [⟨1⟩, ⟨3⟩]), parent := some ⟨5⟩ },
    { form := .stmt (.method "run" [] [] ⟨4⟩) }]
  root := some ⟨5⟩

/-- The course of the unit with a limit on what is serious in its log. -/
def misnamedCourse (limit : Nat) : Course where
  work := { pool := Pool.empty.run [.intern (.type (.named "Int")), .intern (.int 1)], symbols := numberTable,
            sink := .keeping { limit }, tree := misnamedUnit }
  root := ⟨5⟩

theorem misnamedUnit_isFresh : misnamedUnit.IsFresh ⟨5⟩ :=
  Tree.isFresh_of_table (by decide) (by decide) (by decide)

/-- Without a limit both the type and the number behind it are decided on. -/
theorem misnamedUnit_decided : ∃ after,
    Course.resolve none (misnamedCourse 0) = .ok (.complete 1) after ∧
    after.work.Decided ⟨0⟩ ∧ after.work.Decided ⟨2⟩ := by
  obtain ⟨after, ran, goesOn⟩ : ∃ after, Course.resolve none (misnamedCourse 0) = .ok
      (.complete 1) after ∧ after.work.sink.abortDesired = false := ⟨_, rfl, rfl⟩
  have decides : ∀ id, misnamedUnit.Below ⟨5⟩ id → misnamedUnit.completable id = true →
      after.work.Decided id := fun _ =>
    Course.complete_decides (misnamedCourse 0) misnamedUnit_isFresh rfl rfl ⟨_, rfl⟩ ran goesOn
  have block : misnamedUnit.Below ⟨5⟩ ⟨4⟩ := Tree.Below.root.child (by decide)
  exact ⟨after, ran, decides ⟨0⟩ ((block.child (by decide : ⟨1⟩ ∈ _)).child (by decide)) rfl,
    decides ⟨2⟩ ((block.child (by decide : ⟨3⟩ ∈ _)).child (by decide)) rfl⟩

/-- The limit ends the sweep at the type: resolution is complete, and the number was never
visited. -/
theorem misnamedUnit_dropped : ∃ after,
    Course.resolve none (misnamedCourse 1) = .ok (.complete 1) after ∧ misnamedUnit.Below ⟨5⟩ ⟨2⟩ ∧
    misnamedUnit.completable ⟨2⟩ = true ∧ after.work.tree.stage ⟨2⟩ = .initial :=
  ⟨_, rfl, ((Tree.Below.root.child (by decide : ⟨4⟩ ∈ _)).child (by decide : ⟨3⟩ ∈ _)).child
    (by decide), rfl, rfl⟩

end TreeCompiler
