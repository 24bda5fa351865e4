import TreeCompiler.Proofs.EmittableUnits
import TreeCompiler.Proofs.SoughtNames
import TreeCompiler.Proofs.ValidatedUnits

/-!
# Resolution reaches the least fixpoint

Sweeps go on until one of them resolves nothing. Nothing is granted then that is not resolved, and
as everything that is resolved can be, the resolved nodes are the least set closed under the rules
for names. The sweeps allowed unless the options say otherwise are enough for that.
-/

namespace TreeCompiler

open Step

theorem Tree.IsLinked.nodup_preorderWithin {tree : Tree} {r id : NodeId} (lk : tree.IsLinked r)
    (hd : ∀ id, tree.Below r id → (tree.children id).Nodup) (hb : tree.Below r id) {n : Nat}
    (deep : id.index < n) : (tree.preorderWithin n id).Nodup := by
  induction n generalizing id with
  | zero => omega
  | succ n ih =>
    have lower : ∀ c ∈ tree.children id, c.index < n := by
      intro c member
      have upward := lk.upward id c hb member
      omega
    have mem : ∀ c ∈ tree.children id, ∀ x, x ∈ tree.preorderWithin n c ↔ tree.Below c x := fun c member x =>
      lk.mem_preorderWithin_iff (hb.child member) (lower c member)
    rw [preorderWithin, List.nodup_cons, List.nodup_flatMap]
    refine ⟨fun hi => ?_, fun c member => ih (hb.child member) (lower c member), ?_⟩
    · obtain ⟨c, member, under⟩ := List.mem_flatMap.mp hi
      exact lk.not_below_child hb member ((mem c member id).mp under)
    · refine (hd id hb).imp_of_mem fun fst snd ne x here there => ?_
      exact lk.disjoint_siblings hb fst snd ne.symm ((mem _ fst x).mp here) ((mem _ snd x).mp there)

namespace Resolution

open WorkM

variable {s : Tree} {table : SymbolTable} {sc : String} {w : Work} {r : NodeId}
  {ids : List NodeId}

/-- What a sweep comes to: a node is resolved or has failed or is left, and if all are left no more
is granted than before. -/
structure Swept (s : Tree) (table : SymbolTable) (sc : String) (r : NodeId) (b : Tree)
    (ids : List NodeId) (rest : Rest) (t : Work) : Prop where
  seeks : t.Seeks s table sc
  settled : ∀ id, b.stage id = .resolved ∨ b.stage id = .failed → t.tree.stage id = b.stage id
  outside : ∀ id, id ∉ ids → t.tree.stage id = b.stage id
  covered : ∀ id ∈ ids, s.completable id = true →
    t.tree.stage id = .resolved ∨ t.tree.stage id = .failed ∨ id ∈ rest.deferred
  deferred : rest.deferred.Sublist (ids.filter s.isDeferrable)
  pending : ∀ id ∈ rest.deferred, t.tree.stage id = .resolving
  prompt : rest.waiting = false
  stuck : s.WordsDone b r → rest.deferred.length = ids.length →
      t.tree.resolvedNodes = b.resolvedNodes ∧ ∀ id ∈ ids, ¬s.Grants table sc b.resolvedNodes id

theorem isSettled_eq (seeks : w.Seeks s table sc) (id : NodeId) :
    isSettled w.tree id = true ↔ s.completable id = false ∨
      w.tree.stage id = .resolved ∨ w.tree.stage id = .failed := by
  have early := seeks.early id
  unfold isSettled
  rw [seeks.shape.completable]
  cases stage : w.tree.stage id <;> simp [stage] at early <;>
    simp [Stage.hasReached, Stage.isUpTo, Stage.rank]

theorem Visit.followed {id : NodeId} {b : Tree} {prog : Progress} {mid t : Work}
    {rest : List NodeId} {left : Rest} (visit : Visit s table sc r id b prog mid)
    (unresolved : b.stage id ≠ .resolved) (unfailed : b.stage id ≠ .failed) (fresh : id ∉ rest)
    (swept : Swept s table sc r mid.tree rest left t) :
    Swept s table sc r b (id :: rest) (left.after id prog) t := by
  have shorter := swept.deferred.length_le.trans (List.length_filter_le _ _)
  have last : t.tree.stage id = mid.tree.stage id := swept.outside id fresh
  refine ⟨swept.seeks, fun x hs => ?_, fun x out => ?_, fun x mem complete => ?_, ?_,
    fun x mem => ?_, ?_, fun words full => ?_⟩
  · have ne : x ≠ id := by
      rintro rfl
      exact hs.elim unresolved unfailed
    rw [← visit.others x ne] at hs ⊢
    exact swept.settled x hs
  · rw [List.mem_cons, not_or] at out
    rw [swept.outside x out.2, visit.others x out.1]
  · rcases List.mem_cons.mp mem with rfl | mem
    · cases prog with
      | done =>
        rw [last]
        exact (visit.done rfl).imp_right .inl
      | deferred => exact .inr (.inr (by simp [Rest.after]))
      | waiting => exact absurd rfl visit.prompt
    · exact (swept.covered x mem complete).imp_right (Or.imp_right deferred_subset_after)
  · cases prog with
    | done => exact swept.deferred.trans ((List.sublist_cons_self id rest).filter _)
    | deferred =>
      rw [List.filter_cons_of_pos (visit.deferred rfl).1]
      exact swept.deferred.cons_cons id
    | waiting => exact absurd rfl visit.prompt
  · rcases eq_or_mem_of_deferred mem with rfl | hi
    · cases prog with
      | done =>
        have here : x ∈ left.deferred := mem
        exact absurd (List.mem_of_mem_filter (swept.deferred.subset here)) fresh
      | deferred => rw [last, (visit.deferred rfl).2.1]
      | waiting => exact absurd rfl visit.prompt
    · exact swept.pending x hi
  · cases prog with
    | done | deferred => exact swept.prompt
    | waiting => exact absurd rfl visit.prompt
  · cases prog with
    | done =>
      have tooMany : left.deferred.length = rest.length + 1 := full
      omega
    | waiting => exact absurd rfl visit.prompt
    | deferred =>
      obtain ⟨-, stage, refused⟩ := visit.deferred rfl
      -- a node that is put off is not resolved before or after
      have nodes : mid.tree.resolvedNodes = b.resolvedNodes := by
        ext x
        by_cases eq : x = id
        · subst eq
          simp [Tree.resolvedNodes, stage, unresolved]
        · simp [Tree.resolvedNodes, visit.others x eq]
      have wordsNow : s.WordsDone mid.tree r := by
        intro x word under isWord
        have res := words x word under isWord
        rwa [visit.others x (by rintro rfl; exact unresolved res)]
      obtain ⟨eq, others⟩ := swept.stuck wordsNow (by simpa [Rest.after] using full)
      rw [nodes] at eq others
      refine ⟨eq, fun x mem => ?_⟩
      rcases List.mem_cons.mp mem with rfl | mem
      · exact refused words
      · exact others x mem

/-- A sweep over different nodes of a unit. -/
theorem ends_visitAll (unit : s.Searchable r) (unheld : ∀ sym ∈ table.symbols, sym.heldBack = 0)
    (hb : ∀ id ∈ ids, s.Below r id) (hd : ids.Nodup) (seeks : w.Seeks s table sc) :
    Ends (visitAll sc ids) w (Swept s table sc r w.tree ids) := by
  induction ids generalizing w with
  | nil =>
    refine .pure ⟨seeks, fun _ _ => rfl, fun _ _ => rfl, by simp, by simp, by simp, rfl, ?_⟩
    exact fun _ _ => ⟨rfl, by simp⟩
  | cons id rest ih =>
    obtain ⟨fresh, hd⟩ := List.nodup_cons.mp hd
    have ih : ∀ {now : Work}, now.Seeks s table sc →
        Ends (visitAll sc rest) now (Swept s table sc r now.tree rest) :=
      fun seeksNow => ih (fun x mem => hb x (by simp [mem])) hd seeksNow
    refine .after rfl ?_
    split
    · rename_i hs
      rw [isSettled_eq seeks] at hs
      refine (ih seeks).imp fun left t swept => ?_
      have shorter := swept.deferred.length_le.trans (List.length_filter_le _ _)
      refine ⟨swept.seeks, swept.settled, fun x out => swept.outside x (by simp_all), ?_, ?_,
        swept.pending, swept.prompt, fun _ full => ?_⟩
      · intro x mem complete
        rcases List.mem_cons.mp mem with rfl | mem
        · rcases hs with incomplete | isDone
          · simp [incomplete] at complete
          · rw [swept.settled x isDone]
            rcases isDone with isDone | isDone
            · exact .inl isDone
            · exact .inr (.inl isDone)
        · exact swept.covered x mem complete
      · exact swept.deferred.trans ((List.sublist_cons_self id rest).filter _)
      · rw [List.length_cons] at full
        omega
    · rename_i unsettled
      rw [isSettled_eq seeks, not_or, not_or] at unsettled
      refine (ends_visit unit unheld (hb id (by simp)) seeks unsettled.2.1 unsettled.2.2).bind
        fun prog mid visit => ?_
      refine .after rfl ?_
      rw [if_neg (by simp [visit.seeks.uncapped.abortDesired])]
      refine (ih visit.seeks).bind fun left t swept => .pure ?_
      exact visit.followed unsettled.2.1 unsettled.2.2 fresh swept

end Resolution

namespace Course

open CourseM

variable {course : Course}

/-- A unit in the middle of its sweeps: whatever is complete is resolved or has failed or is
pending, and what is pending waits for its name. -/
structure Hunts (s : Tree) (table : SymbolTable) (r : NodeId) (course : Course) : Prop where
  seeks : course.work.Seeks s table course.scope
  covered : ∀ id, s.Below r id → s.completable id = true →
    course.work.tree.stage id = .resolved ∨ course.work.tree.stage id = .failed ∨ id ∈ course.pending
  inside : ∀ id ∈ course.pending, s.Below r id
  asks : ∀ id ∈ course.pending, s.isDeferrable id = true
  pending : ∀ id ∈ course.pending, course.work.tree.stage id = .resolving
  distinct : course.pending.Nodup

variable {s : Tree} {table : SymbolTable} {r : NodeId}

/-- Keywords never wait for another sweep. -/
theorem Hunts.wordsDone (hunts : course.Hunts s table r) (unit : s.Searchable r) :
    s.WordsDone course.work.tree r := by
  intro id word hb isWord
  have complete : s.completable id = true := by
    by_contra incomplete
    obtain ⟨text, isBad⟩ := unit.complete id hb (by simpa using incomplete)
    simp [isWord] at isBad
  rcases hunts.covered id hb complete with res | hx | pending
  · exact res
  · have hn := (hunts.seeks.failed id hx).1
    simp [Tree.isNamed, isWord] at hn
  · have asks := hunts.asks id pending
    simp [Tree.isDeferrable, Tree.form?_of_type isWord] at asks

theorem ends_sweep (unit : s.Searchable r)
    (unheld : ∀ sym ∈ table.symbols, sym.heldBack = 0) {ids : List NodeId}
    (hb : ∀ id ∈ ids, s.Below r id) (hd : ids.Nodup)
    (seeks : course.work.Seeks s table course.scope) :
    Ends (sweep ids) course fun waiting t => waiting = false ∧
      t.scope = course.scope ∧ t.sweeps = course.sweeps + 1 ∧
      ∃ rest : Resolution.Rest, rest.deferred = t.pending ∧
        Resolution.Swept s table course.scope r course.work.tree ids rest t.work := by
  obtain ⟨rest, w, ran, swept⟩ := Resolution.ends_visitAll unit unheld hb hd seeks
  exact ⟨_, _, sweep_ok.mpr ⟨rest, w, ran, rfl, rfl⟩, swept.prompt, rfl, rfl, rest, rfl, swept⟩

/-- What a sweep over everything that waits leaves is still a unit in the middle of its sweeps. -/
theorem Hunts.swept {t : Course} {ids : List NodeId} {rest : Resolution.Rest}
    (sc : t.scope = course.scope) (left : rest.deferred = t.pending)
    (swept : Resolution.Swept s table course.scope r course.work.tree ids rest t.work)
    (hb : ∀ id ∈ ids, s.Below r id) (hd : ids.Nodup)
    (covered : ∀ id, s.Below r id → s.completable id = true →
      course.work.tree.stage id = .resolved ∨ course.work.tree.stage id = .failed ∨ id ∈ ids) :
    t.Hunts s table r := by
  have win : ∀ id ∈ t.pending, id ∈ ids ∧ s.isDeferrable id = true := by
    intro id mem
    rw [← left] at mem
    exact List.mem_filter.mp (swept.deferred.subset mem)
  refine ⟨sc ▸ swept.seeks, fun id under complete => ?_, fun id mem => hb id (win id mem).1,
    fun id mem => (win id mem).2, fun id mem => swept.pending id (left ▸ mem), ?_⟩
  · rcases covered id under complete with res | hx | mem
    · exact .inl ((swept.settled id (.inl res)).trans res)
    · exact .inr (.inl ((swept.settled id (.inr hx)).trans hx))
    · exact left ▸ swept.covered id mem complete
  · rw [← left]
    exact swept.deferred.nodup (hd.filter _)

/-- Sweeps over what is pending end when nothing that is pending is granted, if there are as many of
them as there are nodes. -/
theorem Hunts.ends_sweepPending (unit : s.Searchable r)
    (unheld : ∀ sym ∈ table.symbols, sym.heldBack = 0) {left : Nat}
    (hunts : course.Hunts s table r) (enough : course.pending.length ≤ left) :
    Ends (sweepPending left) course fun _ t => t.Hunts s table r ∧ t.scope = course.scope ∧
      ∀ id ∈ t.pending, ¬s.Grants table course.scope t.work.tree.resolvedNodes id := by
  have nothing : course.pending = [] → ∀ out : Outcome, Ends (pure out : CourseM Outcome) course
      fun _ t => t.Hunts s table r ∧ t.scope = course.scope ∧
        ∀ id ∈ t.pending, ¬s.Grants table course.scope t.work.tree.resolvedNodes id :=
    fun none _ => .pure ⟨hunts, rfl, by simp [none]⟩
  induction left generalizing course with
  | zero =>
    have none : course.pending = [] := by simpa using enough
    refine .after rfl ?_
    rw [none]
    exact nothing none _
  | succ left ih =>
    refine .after rfl ?_
    cases isPending : course.pending with
    | nil => exact nothing isPending _
    | cons fst others =>
      dsimp only
      rw [← isPending]
      refine (ends_sweep unit unheld hunts.inside hunts.distinct hunts.seeks).bind
        fun waiting t ⟨prompt, sc, _, rest, left, swept⟩ => ?_
      have huntsNow := Hunts.swept sc left swept hunts.inside hunts.distinct hunts.covered
      have shorter := swept.deferred.length_le.trans (List.length_filter_le _ _)
      rw [left] at shorter
      refine .after rfl ?_
      split
      · rename_i eq
        -- all that was pending still is, so nothing of it is granted by what is resolved now
        refine .pure ⟨huntsNow, sc, fun id mem => ?_⟩
        obtain ⟨nodes, refused⟩ := swept.stuck (hunts.wordsDone unit) (by rw [left]; exact eq.1)
        rw [nodes]
        exact refused id (List.mem_of_mem_filter (swept.deferred.subset (left ▸ mem)))
      · rename_i shrunk
        have fewer : t.pending.length < course.pending.length := by
          refine Nat.lt_of_le_of_ne shorter fun eq => shrunk ⟨eq, by simp [prompt]⟩
        refine (ih huntsNow (by omega) fun none _ => ?_).imp fun out last ⟨hunts, eq, refused⟩ => ?_
        · exact .pure ⟨huntsNow, rfl, by simp [none]⟩
        · exact ⟨hunts, eq.trans sc, sc ▸ refused⟩

/-- A unit whose names are about to be resolved: its tree was just built, with types where types are
called for and categories for keywords, the symbol table holds nothing back and names complete
types, diagnostics pile up without a limit, and so may the sweeps. -/
structure Opens (course : Course) : Prop where
  built : course.work.tree.IsBuilt course.root
  typed : course.work.tree.HoldsTypes course.root
  keywords : ∀ id word, course.work.tree.Below course.root id →
    course.work.tree.type? id = some (.keyword word) → word.category?.isSome
  unheld : ∀ sym ∈ course.work.symbols.symbols, sym.heldBack = 0
  known : ∀ sym ∈ course.work.symbols.symbols, ∀ ty, sym.component = .type ty →
    course.work.pool.isResolved ty = .ok true
  uncapped : course.work.sink.Uncapped
  fresh : course.outcome = none
  unswept : course.sweeps = 0
  unlimited : course.options.maxSweeps = none

theorem Opens.searchable (opens : course.Opens) : course.work.tree.Searchable course.root :=
  ⟨opens.built.toIsLinked, opens.built.present, opens.typed, opens.keywords, opens.built.complete⟩

theorem Opens.seeks (opens : course.Opens) :
    course.work.Seeks course.work.tree course.work.symbols course.scope := by
  have initial : ∀ id, course.work.tree.stage id = .initial := fun id => by
    rw [Tree.stage, opens.built.blank]
  have untyped : ∀ id, (course.work.tree.facts id).type = none := fun id => by rw [opens.built.blank]
  refine ⟨.refl _, rfl, opens.uncapped, fun sym mem ty ht =>
    Pool.means_of_isResolved (opens.known sym mem ty ht), fun id => by simp [initial],
    fun id => ⟨?_, ?_, ?_, ?_⟩, ?_, ?_, ?_⟩ <;> simp [initial, untyped]

theorem Opens.ends_firstSweep (opens : course.Opens) :
    Ends (sweep (course.work.tree.preorder course.root)) course fun _ t =>
      t.Hunts course.work.tree course.work.symbols course.root ∧ t.scope = course.scope ∧
        t.sweeps = 1 ∧ t.pending.length + 1 ≤ course.defaultSweepLimit := by
  have lk := opens.built.toIsLinked
  have nodes : ∀ id, id ∈ course.work.tree.preorder course.root ↔
      course.work.tree.Below course.root id := fun id =>
    lk.mem_preorder_iff .root opens.built.present
  have hd : (course.work.tree.preorder course.root).Nodup :=
    lk.nodup_preorderWithin opens.built.distinct .root
      (Nat.lt_succ_of_lt (lk.index_lt_size .root opens.built.present))
  refine (ends_sweep opens.searchable opens.unheld (fun id => (nodes id).mp) hd opens.seeks).imp
    fun _ t ⟨_, sc, sweeps, rest, left, swept⟩ => ⟨?_, sc, by rw [sweeps, opens.unswept], ?_⟩
  · exact Hunts.swept sc left swept (fun id => (nodes id).mp) hd
      fun id hb _ => .inr (.inr ((nodes id).mpr hb))
  · have bound := swept.deferred.length_le
    rw [left, ← List.countP_eq_length_filter] at bound
    unfold defaultSweepLimit
    dsimp only
    omega

/-- The nodes of a unit that are resolved if they have to be. -/
def settledNodes (s now : Tree) (r : NodeId) : Set NodeId :=
  { id | s.Below r id → s.isDeferrable id = true → now.stage id = .resolved }

/-- Once nothing that is pending is granted, giving up decides about every name. -/
theorem Hunts.decided {now : Tree} (unit : s.Searchable r) (hunts : course.Hunts s table r)
    (refused : ∀ id ∈ course.pending,
    ¬s.Grants table course.scope course.work.tree.resolvedNodes id)
    (gaveUp : now = course.pending.foldl (fun tree id => tree.setStage id .failed) course.work.tree)
    {id : NodeId} (hb : s.Below r id) (asks : s.isDeferrable id = true) :
    now.stage id = .resolved ∧ id ∈ s.resolvable table course.scope ∨
      now.stage id = .failed ∧ ¬s.Grants table course.scope (settledNodes s now r) id := by
  have kept : ∀ x, x ∉ course.pending → now.stage x = course.work.tree.stage x := by
    intro x out
    rw [gaveUp, Tree.stage, Resolution.facts_failed_of_not_mem _ out, Tree.stage]
  have hx : ∀ x, s.Below r x → x ∈ course.pending → now.stage x = .failed := by
    intro x under mem
    rw [gaveUp]
    refine Resolution.stage_failed_of_mem _ ((hunts.seeks.shape.has x).mpr ?_) mem
    exact s.has_iff_lt.mpr (unit.linked.index_lt_size under unit.present)
  have complete : s.completable id = true := by
    by_contra incomplete
    obtain ⟨text, isBad⟩ := unit.complete id hb (by simpa using incomplete)
    simp [Tree.isDeferrable, Tree.form?_of_type isBad] at asks
  by_cases pending : id ∈ course.pending
  · refine .inr ⟨hx id hb pending, fun granted => refused id pending (granted.imp ?_)⟩
    intro ty part aliased under hn hs
    obtain ⟨-, name, title, typedef, -, hv, defined⟩ := aliased
    have hi := (unit.linked.below_typedef hb hv).1
    have mem : ty ∈ s.children typedef := by
      simp [s.children_of_stmt defined, Stmt.children]
    have partBelow := (hi.child mem).trans under
    have res := hs partBelow (Tree.isDeferrable_of_isNamed hn)
    by_cases waits : part ∈ course.pending
    · simp [hx part partBelow waits] at res
    · exact (kept part waits).symm.trans res
  · rw [kept id pending]
    rcases hunts.covered id hb complete with res | hasFailed | waits
    · exact .inl ⟨res, hunts.seeks.sound id asks res⟩
    · exact .inr ⟨hasFailed, (hunts.seeks.failed id hasFailed).2 _⟩
    · exact absurd waits pending

/-- Resolution decides about every name. -/
theorem Opens.ends_resolve (opens : course.Opens) : Ends (resolve none) course fun _ t =>
      ∀ id, course.work.tree.Below course.root id → course.work.tree.isDeferrable id = true →
        t.work.tree.stage id = .resolved ∧
        id ∈ course.work.tree.resolvable course.work.symbols course.scope ∨
        t.work.tree.stage id = .failed ∧ ¬course.work.tree.Grants course.work.symbols course.scope
            (settledNodes course.work.tree t.work.tree course.root) id := by
  refine .after rfl ?_
  rw [opens.fresh]
  refine opens.ends_firstSweep.bind fun _ swept ⟨hunts, sc, sweeps, enough⟩ => ?_
  have limit : swept.pending.length ≤ course.sweepLimit none - swept.sweeps := by
    simp only [sweepLimit, opens.unlimited, Option.getD_none]
    omega
  refine (hunts.ends_sweepPending opens.searchable opens.unheld limit).bind
    fun out ended ⟨huntsEnded, sameScope, refused⟩ => ?_
  refine .after rfl ?_
  refine Ends.after (a := ()) (modify_ok.mpr rfl) ?_
  refine .after (onWork_ok.mpr ⟨_, Resolution.giveUp_eq _ _, rfl⟩) ?_
  refine Ends.after (a := ()) (modify_ok.mpr rfl) (.pure fun id hb asks => ?_)
  rw [sc] at sameScope refused
  have decided := huntsEnded.decided opens.searchable (by rwa [sameScope]) rfl hb asks
  rwa [sameScope] at decided

/-- Resolution ends, and the names and named types that it resolves are the least set closed under
the rules for names. It fails all the others, among them every alias that leads back to itself. -/
theorem names_reach_least_fixpoint (course : Course) (opens : course.Opens) :
    ∃ outcome after, resolve none course = .ok outcome after ∧
      ∀ id, course.work.tree.Below course.root id → course.work.tree.completable id = true →
        course.work.tree.isDeferrable id = true →
        (after.work.tree.stage id = .resolved ↔
          id ∈ course.work.tree.resolvable course.work.symbols course.scope) ∧
        (after.work.tree.stage id = .failed ↔
          id ∉ course.work.tree.resolvable course.work.symbols course.scope) ∧
        (Relation.TransGen course.work.tree.Supports id id → after.work.tree.stage id = .failed) := by
  obtain ⟨outcome, after, ran, decided⟩ := opens.ends_resolve
  refine ⟨outcome, after, ran, fun id below _ asks => ?_⟩
  -- the nodes that are resolved if they have to be are closed under the rules
  have least : course.work.tree.resolvable course.work.symbols course.scope ⊆
      settledNodes course.work.tree after.work.tree course.root := by
    refine Tree.resolvable_subset fun other granted below asks => ?_
    rcases decided other below asks with ⟨resolved, -⟩ | ⟨-, refused⟩
    · exact resolved
    · exact absurd granted refused
  have resolved : after.work.tree.stage id = .resolved ↔
      id ∈ course.work.tree.resolvable course.work.symbols course.scope := by
    refine ⟨fun resolved => ?_, fun able => least able below asks⟩
    rcases decided id below asks with ⟨-, able⟩ | ⟨failed, -⟩
    · exact able
    · simp [failed] at resolved
  have failed : after.work.tree.stage id = .failed ↔
      id ∉ course.work.tree.resolvable course.work.symbols course.scope := by
    rw [← resolved]
    rcases decided id below asks with ⟨isResolved, -⟩ | ⟨isFailed, -⟩
    · simp [isResolved]
    · simp [isFailed]
  exact ⟨resolved, failed, fun cycle => failed.mpr (Tree.not_resolvable_of_cycle cycle)⟩

end Course

/-- The statement that gives a type a name. -/
def naming (title : String) (ty : NodeId) : Form := .stmt (.typedef title ty)

/-- A unit that uses an alias before it is defined, and another one that is defined by itself. -/
def aliasUnit : Tree where
  nodes := #[{ form := .type (.named ["Key"] []), parent := some ⟨1⟩ },
    { form := .stmt (.varDecl ⟨0⟩ "key" none), parent := some ⟨7⟩ },
    { form := .type (.named ["Int"] []), parent := some ⟨3⟩ },
    { form := naming "Key" ⟨2⟩, parent := some ⟨7⟩ },
    { form := .type (.named ["List"] []), parent := some ⟨5⟩ },
    { form := .type (.nullable ⟨4⟩), parent := some ⟨6⟩ },
    { form := naming "List" ⟨5⟩, parent := some ⟨7⟩ },
    { form := .stmt (.block [⟨1⟩, ⟨3⟩, ⟨6⟩]), parent := some ⟨8⟩ },
    { form := .stmt (.method "run" [] [] ⟨7⟩) }]
  root := some ⟨8⟩

theorem aliasUnit_isBuilt : aliasUnit.IsBuilt ⟨8⟩ :=
  Tree.isBuilt_of_table (Tree.isFresh_of_table (by decide) (by decide) (by decide)) rfl (by decide)

theorem aliasUnit_isWellFormed : aliasUnit.IsWellFormed ⟨8⟩ :=
  Tree.isWellFormed_of_table aliasUnit_isBuilt.toIsFresh rfl rfl (by decide)

theorem aliasUnit_opens : (Session.courseOf {} {} aliasUnit ⟨8⟩).Opens where
  built := aliasUnit_isBuilt
  typed := aliasUnit_isWellFormed.holdsTypes
  keywords := aliasUnit_isWellFormed.keywords
  unheld _ mem := by cases mem
  known _ mem := by cases mem
  uncapped := ⟨rfl, by decide⟩
  fresh := rfl
  unswept := rfl
  unlimited := rfl

/-- The alias that is used before its definition is resolved, and the one that is defined by itself
fails. -/
theorem aliasUnit_names : ∃ outcome after,
    Course.resolve none (Session.courseOf {} {} aliasUnit ⟨8⟩) = .ok outcome after ∧
      after.work.tree.stage ⟨0⟩ = .resolved ∧ after.work.tree.stage ⟨4⟩ = .failed := by
  have leaf : ∀ {id part : NodeId}, aliasUnit.children id = [] → aliasUnit.Below id part → part = id := by
    intro id part none below
    rcases below.eq_or_under_child with same | ⟨child, member, -⟩
    · exact same
    · simp [none] at member
  have inside : ∀ {id parent : NodeId}, aliasUnit.Below ⟨8⟩ parent → id ∈ aliasUnit.children parent →
      aliasUnit.Below ⟨8⟩ id := fun below member => below.child member
  have block : aliasUnit.Below ⟨8⟩ ⟨7⟩ := inside .root (by decide)
  have aliased : aliasUnit.AliasOf ⟨0⟩ ⟨2⟩ := ⟨rfl, "Key", "Key", ⟨3⟩, rfl, by decide, rfl⟩
  have int : (⟨2⟩ : NodeId) ∈ aliasUnit.resolvable {} "" :=
    Tree.mem_resolvable (.ofBuiltin rfl rfl (by decide) (by decide))
  have key : (⟨0⟩ : NodeId) ∈ aliasUnit.resolvable {} "" := by
    refine Tree.mem_resolvable (.ofTypedef aliased (fun part below _ => ?_) fun part text below => ?_)
    · rwa [leaf rfl below]
    · rw [leaf rfl below]
      simp [Tree.type?, Tree.form?, Tree.node?, aliasUnit, Form.type?]
  have cycle : Relation.TransGen aliasUnit.Supports ⟨4⟩ ⟨4⟩ :=
    .single ⟨⟨5⟩, ⟨rfl, "List", "List", ⟨6⟩, rfl, by decide, rfl⟩, Tree.Below.root.child (by decide), rfl⟩
  obtain ⟨outcome, after, ran, decided⟩ := Course.names_reach_least_fixpoint _ aliasUnit_opens
  refine ⟨outcome, after, ran, ?_, ?_⟩
  · exact (decided ⟨0⟩ (inside (inside block (by decide : ⟨1⟩ ∈ _)) (by decide)) rfl rfl).1.mpr key
  · have below : aliasUnit.Below ⟨8⟩ ⟨5⟩ := inside (inside block (by decide : ⟨6⟩ ∈ _)) (by decide)
    exact (decided ⟨4⟩ (inside below (by decide)) rfl rfl).2.2 cycle

end TreeCompiler
