import TreeCompiler.Proofs.StagedExpressions

/-!
# Stages of statements

Validating a statement moves no node back, wherever it ends, and keeps the stages of the tree in
order. What is valid can fail after all only as a child of the block that is looked into: where the
block names it twice. The block fails with it.
-/

namespace TreeCompiler

open Step

variable {ids : List NodeId} {v : NodeId}

variable {stmt : Stmt} {ok : Bool} {ps vals : List NodeId} {α : Type}
  {body ty : NodeId}

namespace Validation

open WorkM Work

/-- A validator of parts that keeps the stages in order. -/
structure Validator.Orderly (vd : Validator) (s : Tree) (r : NodeId) : Prop where
  type : ∀ {w : Work} {top : Nat} {id : NodeId}, w.Staged s r → Inner s r id →
    id.index < top → Goes (Moves s r top top) (vd.type id) (fun type t =>
      type.isSome → t.Passed id) w
  expr : ∀ {w : Work} {top : Nat} {id : NodeId} (req : Option ConstId),
    w.Staged s r → Inner s r id → id.index < top →
    Goes (Moves s r top top) (vd.expr id req) (Ended s r w id) w
  stmt : ∀ {w : Work} {top : Nat} {id : NodeId} (rets : List ConstId), w.Staged s r → s.Below r id →
    ((s.stmt? id).isSome → s.Hosts r id) → id.index < top →
    Goes (Moves s r top top) (vd.stmt rets id) (Ended s r w id) w

variable {s : Tree} {r own : NodeId} {top : Nat} {w : Work} {id : NodeId}

theorem part_of_child (lk : s.IsLinked r) (peels : s.Peels w.tree)
    (hosts : s.Hosts r own) (hf : w.tree.stmt? own = some stmt)
    (mem : id ∈ stmt.children) : Part s r own id := by
  obtain ⟨i, low⟩ := inner_of_child lk peels hosts.isBelow (by rwa [w.tree.children_of_stmt hf])
  refine ⟨i, fun hs => ?_, low⟩
  have c := peels.child_of_stmt hf mem hs
  obtain ⟨orig, here⟩ : ∃ orig, s.stmt? own = some orig := by
    rw [← Option.isSome_iff_exists, ← peels.isSome_stmt?, hf]
    rfl
  exact hosts.child here (by rwa [s.children_of_stmt here] at c)

theorem jump_of_resolve {jump : Jump} {t : Work} (ran : Jump.resolve id w = .ok (some jump) t)
    (hp : t.tree.Has id) : (t.tree.facts id).jump.isSome := by
  replace ran := rest_ok ran rfl
  cases form : (w.tree.stmt? id).bind Stmt.jump? with
  | none => simp [form] at ran
  | some aim =>
    obtain ⟨kind, l⟩ := aim
    rw [form] at ran
    cases bound : (w.tree.facts id).jump with
    | some jump =>
      simp only [bound] at ran
      obtain ⟨-, rfl⟩ := pure_ok.mp ran
      simp [bound]
    | none =>
      simp only [bound] at ran
      cases hf : w.tree.jumpTarget kind l (w.tree.ancestorsInMethod id) with
      | error error => simp [hf, map_ok] at ran
      | ok tgt =>
        rw [hf] at ran
        cases ran
        rw [show Tree.facts _ id = _ from Tree.facts_modify_same _ ((Tree.has_modify _ _ _ _).mp hp) _]
        rfl

theorem jump_of_stmtOk {vd : Validator} {rets : List ConstId} {t : Work}
    (isJump : stmt.jump?.isSome)
    (ran : vd.stmtOk rets id stmt w = .ok true t) (hp : t.tree.Has id) :
    (t.tree.facts id).jump.isSome := by
  cases stmt <;> simp [Stmt.jump?] at isJump
  all_goals
    obtain ⟨bound, res, isBound⟩ := bind_pure_ok.mp ran
    obtain ⟨jump, rfl⟩ := Option.isSome_iff_exists.mp isBound
    exact jump_of_resolve res hp

namespace Validator

variable {vd : Validator} (orderly : vd.Orderly s r)

include orderly

/-! ### Parts of any kind -/

theorem Orderly.node (rets : List ConstId) (hs : w.Staged s r)
    (hb : s.Below r id) (hosted : (s.stmt? id).isSome → s.Hosts r id) (low : id.index < top) :
    Goes (Moves s r top top) (vd.node rets id) (Ended s r w id) w := by
  have hpl : ∀ {form : Form}, w.tree.form? id = some form → form.stmt? = none →
      s.stmt? id = none := by
    intro form hf x
    rw [← Option.not_isSome_iff_eq_none, ← hs.peels.isSome_stmt?, Tree.stmt?, hf]
    simp [x]
  refine goes_tree ?_
  split
  · rename_i hf
    exact orderly.expr none hs ⟨hb, fun eq => eq ▸ hpl hf rfl⟩ low
  · rename_i hf
    have ht := hpl hf rfl
    refine Goes.bind (orderly.type hs ⟨hb, fun eq => eq ▸ ht⟩ low)
      fun ty t moved hp => Goes.pure (.refl moved.staged)
        ⟨fun node mem => ?_, by simp [ht], fun node mem i paren => ?_⟩
    · obtain ⟨ty, rfl, rfl⟩ := Option.map_eq_some_iff.mp mem
      exact ⟨hp rfl, hp rfl, .self _⟩
    · obtain ⟨ty, rfl, rfl⟩ := Option.map_eq_some_iff.mp mem
      exact absurd paren (hs.peels.bare (by simp [Tree.expr?, hf, Form.expr?]) i)
  · exact orderly.stmt rets hs hb hosted low
  · exact orderly.stmt rets hs hb hosted low

theorem Orderly.nodeOk (rets : List ConstId) (hs : w.Staged s r) (part : Part s r own id) :
    Goes (Inside s r own) (vd.nodeOk rets id) (fun ok t => Clears s own [id] ok t ∧
        (ok = false → (s.stmt? id).isSome → t.tree.stage id = .failed)) w := by
  refine Goes.bind (orderly.node rets hs part.inner.1 part.hosted part.low)
    fun res t moved ended => Goes.pure (.refl moved.staged) ⟨fun isSome => ?_, fun isNone => ?_⟩
  · obtain ⟨node, rfl⟩ := Option.isSome_iff_exists.mp isSome
    exact .cons (ended.passed node rfl).1 .nil
  · exact ended.failed (by simpa using isNone)

theorem Orderly.bodyOk (rets : List ConstId) (hs : w.Staged s r) (part : Part s r own id) :
    Goes (Inside s r own) (vd.nodeOk rets id) (Clears s own [id]) w :=
  (orderly.nodeOk rets hs part).answering fun _ _ _ ans => ans.1

/-- The parts of a node are looked into one by one. -/
theorem Orderly.checks : vd.Parts (.visiting (Part s r own)) (Checking s r own) := by
  have ty : ∀ {id}, Part s r own id → Checking s r own [] (vd.type id)
      fun ty => checked [id] ty.isSome := fun part now hs _ =>
    (orderly.type hs part.inner part.low).answering fun _ _ _ hp =>
      clears_iff.mpr fun isSome => .cons (hp isSome) .nil
  have expr : ∀ {id} req, Part s r own id → Checking s r own []
      (vd.expr id req) fun res => checked [id] res.isSome := fun req part now hs _ =>
    (orderly.expr req hs part.inner part.low).answering fun _ _ _ ended =>
      clears_iff.mpr fun isSome => .cons (ended.passed_of_isSome isSome) .nil
  refine ⟨ty, expr, fun rets _ part now hs _ => ?_, fun part partValue => ?_⟩
  · exact (orderly.stmt rets hs part.inner.1 part.hosted part.low).answering fun _ _ _ ended =>
      clears_iff.mpr fun isSome => .cons (ended.passed_of_isSome isSome) .nil
  · refine partLogic.next (ty part) fun hf => ?_
    split
    · exact partLogic.held (by simp)
    · exact partLogic.next (checking_of_still fun inv => inv.always_onPool _) fun _ =>
        partLogic.next (expr _ partValue) fun _ => partLogic.held fun all => by simp_all [checked]

/-- Statements that are not all valid include one that has failed, or something else. -/
theorem Orderly.nodesOk (rets : List ConstId) (hst : w.Staged s r)
    (ps : ∀ id ∈ ids, Part s r own id) :
    Goes (Inside s r own) (vd.nodesOk rets ids) (fun ok t =>
      Clears s own ids ok t ∧ (ok = false →
        ∃ id ∈ ids, (s.stmt? id).isSome → t.tree.stage id = .failed)) w := by
  induction ids generalizing w with
  | nil => exact Goes.pure (.refl hst) ⟨fun _ => .nil, by simp⟩
  | cons id rest ih =>
    refine Goes.bind (orderly.nodeOk rets hst (ps id (by simp))) fun ok now moved here => ?_
    have later := ih moved.staged fun x mem => ps x (by simp [mem])
    refine Goes.bind (later.answering fun restOk t hm ans => And.intro
      (fun both : (ok && restOk) = true => ?_) fun missed => ?_) fun restOk t hm ans =>
      Goes.pure (.refl hm.staged) ans
    · obtain ⟨isOk, restIsOk⟩ : ok = true ∧ restOk = true := by simpa using both
      exact ((here.1 isOk).lasts hm.onward (Nat.le_refl _)).append (ans.1 restIsOk)
    · cases ok with
      | false => exact ⟨id, by simp, fun hs => hm.onward.failed (here.2 rfl hs)⟩
      | true =>
        obtain ⟨x, mem, hx⟩ := ans.2 missed
        exact ⟨x, by simp [mem], hx⟩

/-! ### Blocks -/

omit orderly in
/-- A step inside a block, as one that lets its children fail. -/
theorem goes_inside {step : WorkM α} {Q : α → Work → Prop} (goes : Goes (Inside s r own) step Q w) :
    Goes (Moves s r own.index (own.index + 1)) step (fun ans t =>
      w.Moves s r own.index own.index t ∧ Q ans t) w :=
  goes.weaken (fun _ hm => hm.widen (Nat.le_refl _) (Nat.le_succ _)) fun _ _ hm answers =>
    ⟨hm, answers⟩

omit orderly in
/-- A statement fails that declares a name again, even if it was found valid before. -/
theorem goes_collision (lk : s.IsLinked r) (hst : w.Staged s r)
    (part : Part s r own id) (ho : w.Open own) (c : id ∈ s.children own)
    (hb : s.Below r own) (hs : (s.stmt? id).isSome) :
    Goes (Moves s r own.index (own.index + 1)) (setStage id .failed) (fun _ _ => True) w := by
  have owned := lk.linked own id hb c
  obtain ⟨stmt, hf⟩ := Option.isSome_iff_exists.mp hs
  refine goes_setStage (absurd ((hst.peels.has_iff id).mpr (s.has_of_stmt hf)))
    fun t _ shape others hx retains => ?_
  refine ⟨⟨?_, .ofOne part.low ?_ (fun sent => ?_) (fun _ => .inr ⟨own, owned, Nat.lt_succ_self _⟩)
    others retains fun hp => by simp [passed_iff, hx] at hp⟩, trivial⟩
  · refine hst.fail shape (fun ⟨_, _, _, paren⟩ => by simp [s.stmt?_of_expr paren] at hf)
      (fun up above mem => ?_) (fun i strips ne => ?_)
      (fun eq => ?_) hx others
    · cases (lk.linked up id above mem).symm.trans owned
      exact ⟨ho.not_passed, hst.peels.mem_children_of_stmt c hs⟩
    · exact absurd (strips.eq_of_stmt hs) ne
    · simp [eq, part.inner.2 eq] at hs
  · rw [hx]
    cases w.tree.stage id <;> rfl
  · simp [hx] at sent

/-- A block that holds keeps all that is valid inside it. -/
theorem Orderly.blockOk (lk : s.IsLinked r) (rets : List ConstId) (declared : List String)
    (hst : w.Staged s r) (hb : s.Below r own) (ho : w.Open own)
    (ps : ∀ id ∈ ids, Part s r own id ∧ ((s.stmt? id).isSome → id ∈ s.children own)) :
    Goes (Moves s r own.index (own.index + 1)) (vd.blockOk rets declared ids)
      (fun ok t => ok = true → w.Moves s r own.index own.index t ∧
        t.Cleared s own ids) w := by
  induction ids generalizing declared w with
  | nil => exact Goes.pure (.refl hst) fun _ => ⟨.refl hst, .nil⟩
  | cons id rest ih =>
    have later : ∀ {now : Work} (declared : List String), now.Staged s r → now.Open own → _ :=
      fun declared hst ho => ih declared hst ho fun x mem =>
        ps x (by simp [mem])
    have goesOn : ∀ declared, Goes (Moves s r own.index (own.index + 1))
        (do
          let ok ← vd.nodeOk rets id
          let restOk ← vd.blockOk rets declared rest
          pure (ok && restOk)) (fun ok t => ok = true → w.Moves s r own.index own.index t ∧
              t.Cleared s own (id :: rest)) w := by
      intro declared
      refine Goes.bind (goes_inside (orderly.bodyOk rets hst (ps id (by simp)).1))
        fun ok now moved done => ?_
      obtain ⟨hm, cleared⟩ := done
      have isOpenNow : now.Open own := by
        rw [Open, hm.onward.above own (Nat.le_refl _)]
        exact ho
      refine Goes.bind (later declared moved.staged isOpenNow) fun restOk t moved ans =>
        Goes.pure (.refl moved.staged) fun both => ?_
      obtain ⟨isOk, restIsOk⟩ : ok = true ∧ restOk = true := by simpa using both
      obtain ⟨hfu, more⟩ := ans restIsOk
      exact ⟨Trans.trans hm hfu, ((cleared isOk).lasts hfu.onward (Nat.le_refl _)).append more⟩
    refine goes_tree ?_
    split
    · rename_i name hn
      split
      · obtain ⟨stmt, hf, -⟩ := Option.bind_eq_some_iff.mp hn
        have hs : (s.stmt? id).isSome := by
          rw [← hst.peels.isSome_stmt?, hf]
          rfl
        obtain ⟨part, c⟩ := ps id (by simp)
        refine Goes.bind (goes_inside (goes_still hst fun inv => inv.always_reportAt _ _ _))
          fun _ now moved done => ?_
        obtain ⟨hm, -⟩ := done
        have opens : ∀ {t : Work}, now.Moves s r own.index (own.index + 1) t →
            t.Open own := by
          intro t moves'
          rw [Open, moves'.onward.above own (Nat.le_refl _), hm.onward.above own (Nat.le_refl _)]
          exact ho
        exact Goes.bind (goes_collision lk moved.staged part (opens (.refl moved.staged))
          (c hs) hb hs) fun _ last hm _ =>
          Goes.bind (later declared hm.staged (opens hm)) fun _ _ moved _ =>
          Goes.pure (.refl moved.staged) (by simp)
      · exact goesOn _
    · exact goesOn _

/-! ### Switches -/

theorem Orderly.armOk (lk : s.IsLinked r) (rets : List ConstId) (ty : Option ConstId)
    (arms : Arms) (hst : w.Staged s r) (part : Part s r own id) :
    Goes (Inside s r id) (vd.armOk rets ty arms id) (fun ans t =>
      Clears s id (w.tree.children id) ans.1 t ∧ (s.stmt? id).isSome ∧
        (s.stmt? id).bind Stmt.jump? = none) w := by
  refine goes_tree ?_
  split
  · rename_i vals body hf
    have hs : (s.stmt? id).isSome := by
      rw [← hst.peels.isSome_stmt?, hf]
      rfl
    have ps : ∀ c ∈ vals ++ [body], Part s r id c := fun c mem =>
      part_of_child lk hst.peels (part.hosted hs) hf mem
    have later : Checking s r id [] (vd.armRest rets ty arms vals body) fun ans => checked (vals ++ [body]) ans.1 :=
      partLogic.next (partLogic.armValuesOk orderly.checks ty arms.seen fun v mem =>
        ps v (by simp [mem])) fun _ => partLogic.next (partLogic.nodeOk orderly.checks rets
          (ps body (by simp))) fun _ => partLogic.done (checked_subset fun all => by simp_all [checked])
    have noJump : (s.stmt? id).bind Stmt.jump? = none := by
      rw [← hst.peels.jump?_eq, hf]
      rfl
    have ends : ∀ {now : Work}, now.Staged s r → _ := fun hst =>
      (later hst .nil).answering fun ans t _ cleared => And.intro
        (show Clears s id (w.tree.children id) ans.1 t by
          rw [w.tree.children_of_stmt hf]; exact clears_iff.mp cleared) (And.intro hs noJump)
    dsimp only
    split
    · exact Goes.bind (goes_still hst fun inv => inv.always_reportAt _ _ _) fun _ _ moved _ =>
        ends moved.staged
    · exact ends hst
  · exact Goes.throw (.refl hst)

/-- Every arm is looked into once, as any other statement. -/
theorem Orderly.armsOk (lk : s.IsLinked r) (rets : List ConstId) (ty : Option ConstId)
    (arms : Arms) (hst : w.Staged s r) (ps : ∀ id ∈ ids, Part s r own id) :
    Goes (Inside s r own) (vd.armsOk rets ty arms ids) (Clears s own ids) w := by
  induction ids generalizing arms w with
  | nil => exact Goes.pure (.refl hst) fun _ => .nil
  | cons id rest ih =>
    have part := ps id (by simp)
    have later : ∀ {now : Work} {ok : Bool} (arms : Arms), now.Staged s r →
        Clears s own [id] ok now → Goes (Inside s r own) (do
          let restOk ← vd.armsOk rets ty arms rest
          pure (ok && restOk)) (Clears s own (id :: rest)) now := by
      intro now ok arms stagedNow cleared
      refine Goes.bind ((ih arms stagedNow fun x mem => ps x (by simp [mem])).answering
        fun restOk t hm others (both : (ok && restOk) = true) => ?_) fun restOk t moved cleared =>
        Goes.pure (.refl moved.staged) cleared
      obtain ⟨isOk, restIsOk⟩ : ok = true ∧ restOk = true := by simpa using both
      exact ((cleared isOk).lasts hm.onward (Nat.le_refl _)).append (others restIsOk)
    refine Goes.bind (goes_start hst part.low) fun he now moved answers => ?_
    have stagedNow := moved.staged
    cases he with
    | some done =>
      refine later arms moved.staged fun isSome => ?_
      obtain ⟨node, rfl⟩ := Option.isSome_iff_exists.mp isSome
      exact .cons ((answers.2 _ rfl).1.passed node rfl).1 .nil
    | none =>
      have ho := answers.1 rfl
      refine Goes.bind ((orderly.armOk lk rets ty arms moved.staged part).weaken
        (fun _ hm => hm.widen (Nat.le_of_lt part.low) (Nat.le_of_lt part.low))
        fun _ t hm done => And.intro hm done) fun ans t moved done => ?_
      obtain ⟨hm, cleared, hs, noJump⟩ := done
      have isOpenAfter : t.Open id := by
        rw [Open, hm.onward.above id (Nat.le_refl _)]
        exact ho
      obtain ⟨ok, arms⟩ := ans
      cases ok with
      | false =>
        exact Goes.bind (goes_conclude_none moved.staged part.inner.1 isOpenAfter part.low
          (part.inner.spoils _)) fun _ last moved (_ : Ended s r now id _ last) =>
            later arms moved.staged (by simp [Clears])
      | true =>
        have hp := stagedNow.parts_passed lk part.inner.1 hm.onward (cleared rfl)
        obtain ⟨arm, hf⟩ := Option.isSome_iff_exists.mp hs
        rw [hf, Option.bind_some] at noJump
        exact Goes.bind (goes_conclude_self moved.staged isOpenAfter part.low
          ((moved.staged.peels.has_iff id).mpr (s.has_of_stmt hf))
          (fun i paren => by simp [s.stmt?_of_expr paren] at hf) part.hosted hp
          (.of_stmt hf (by simp [noJump])))
          fun res last moved (done : _ ∧ Ended s r now id res last) =>
            later arms moved.staged fun _ => .cons (done.2.passed id done.1).1 .nil

/-! ### All statements -/

/-- What is known once the check of a statement has ended. -/
structure Settles (s : Tree) (r id : NodeId) (ps : List NodeId) (b : Work) (ok : Bool) (t : Work) : Prop where
  holds : ok = true → b.Moves s r id.index id.index t ∧ t.Cleared s id ps
  spoils : ok = false → Spoils s id r t

theorem Orderly.stmtOk (lk : s.IsLinked r) (rets : List ConstId)
    (hst : w.Staged s r) (hosts : s.Hosts r id) (ho : w.Open id)
    (hf : w.tree.stmt? id = some stmt) :
    Goes (Moves s r id.index (id.index + 1)) (vd.stmtOk rets id stmt)
      (Settles s r id stmt.children w) w := by
  have ps : ∀ c ∈ stmt.children, Part s r id c := fun c mem =>
    part_of_child lk hst.peels hosts hf mem
  have spares : ∀ t, (∀ name members, stmt ≠ .container name members) →
      Spoils s id r t := by
    rintro t x rfl name members container
    obtain ⟨ren, he, -⟩ := hst.peels.stmt?_eq id
    rw [hf, container] at he
    exact absurd (Option.some.inj he) (x name (members.map ren))
  have hp : ∀ {step : WorkM Bool}, (∀ name members, stmt ≠ .container name members) →
      Goes (Inside s r id) step (Clears s id stmt.children) w →
      Goes (Moves s r id.index (id.index + 1)) step (Settles s r id stmt.children w)
        w := by
    intro step x goes
    exact (goes_inside goes).answering fun ok t _ done =>
      ⟨fun isOk => ⟨done.1, done.2 isOk⟩, fun _ => spares t x⟩
  have whole : (∀ stmts, stmt ≠ .block stmts) → Goes (Inside s r id)
      (vd.stmtOk rets id stmt) (Clears s id stmt.children) w := by
    intro noBlock
    refine (partLogic.stmtOk orderly.checks rets (checking_of_still fun inv => inv.always_jumpResolve id)
      ps (fun stmts eq => absurd eq (noBlock stmts)) ?_ hst .nil).answering fun _ _ _ => clears_iff.mp
    rintro v cases rfl ty now hst -
    exact (orderly.armsOk lk rets ty {} hst fun c mem =>
      ps c (by simp [Stmt.children, mem])).answering fun _ _ _ => clears_iff.mpr
  cases stmt with
  | container name members =>
    refine (goes_inside (orderly.nodesOk rets hst ps)).answering
      fun ok t _ done => ⟨fun isOk => ⟨done.1, done.2.1 isOk⟩, fun isNot => ?_⟩
    rintro rfl name members container
    obtain ⟨ren, he, strips⟩ := hst.peels.stmt?_eq id
    rw [hf, container] at he
    cases he
    obtain ⟨mem, among, hx⟩ := done.2.2 isNot
    obtain ⟨old, hi, rfl⟩ := List.mem_map.mp among
    refine ⟨old, hi, fun hs => ?_⟩
    have kept := (strips old (by rwa [s.children_of_stmt container])).eq_of_stmt hs
    rw [kept] at hx
    exact hx hs
  | block stmts =>
    exact (orderly.blockOk lk rets [] hst hosts.isBelow ho fun c mem =>
      ⟨ps c mem, hst.peels.child_of_stmt hf mem⟩).answering
        fun _ t _ ans => ⟨ans, fun _ => spares t (by simp)⟩
  | _ => exact hp (by simp) (whole (by simp))

theorem Orderly.validateStmt (lk : s.IsLinked r) (rets : List ConstId)
    (hs : w.Staged s r) (hb : s.Below r id)
    (hosted : (s.stmt? id).isSome → s.Hosts r id) (low : id.index < top) :
    Goes (Moves s r top top) (vd.validateStmt rets id) (Ended s r w id) w := by
  refine goes_once hs low fun now stagedNow ho => goes_finish hb low ho (goes_tree ?_)
  split
  · exact Goes.throw (.refl stagedNow)
  · rename_i stmt hf
    have hosts : s.Hosts r id := hosted (by rw [← stagedNow.peels.isSome_stmt?, hf]; rfl)
    refine Goes.bind (orderly.stmtOk lk rets stagedNow hosts ho hf).withRun
      fun ok t moved done => Goes.pure (.refl moved.staged) ⟨fun node mem => ?_, fun none => ?_⟩
    · cases ok with
      | false => simp at mem
      | true =>
        obtain ⟨settles, ran⟩ := done
        obtain ⟨hm, cleared⟩ := settles.holds rfl
        have hp : t.tree.Has id := by
          rw [hm.staged.peels.has_iff, ← stagedNow.peels.has_iff]
          exact now.tree.has_of_stmt hf
        have isJump := stagedNow.peels.jump?_eq id
        obtain ⟨orig, here⟩ : ∃ orig, s.stmt? id = some orig :=
          Option.isSome_iff_exists.mp (by rw [← stagedNow.peels.isSome_stmt?, hf]; rfl)
        rw [hf, here, Option.bind_some, Option.bind_some] at isJump
        rw [← now.tree.children_of_stmt hf] at cleared
        exact ⟨by simpa using mem.symm, hp, stagedNow.peels.bare fun i paren => by
            simp [now.tree.stmt?_of_expr paren] at hf, hosted,
          stagedNow.parts_passed lk hb hm.onward cleared,
          .of_stmt here fun isSome => jump_of_stmtOk (isJump ▸ isSome) ran hp⟩
    · cases ok with
      | false => exact done.1.spoils rfl
      | true => simp at none

end Validator

theorem orderly_validatorWithin (lk : s.IsLinked r) (n : Nat) :
    (validatorWithin n).Orderly s r := by
  induction n with
  | zero =>
    exact ⟨goes_validateTypeWithin lk 0, goes_validateExprWithin lk 0,
      fun _ hs _ _ _ => Goes.throw (.refl hs)⟩
  | succ n ih =>
    exact ⟨goes_validateTypeWithin lk (n + 1), goes_validateExprWithin lk (n + 1),
      fun rets => ih.validateStmt lk rets⟩

/-- Validating a node that a tree was built with keeps the stages in order, wherever it ends. -/
theorem goes_validate (lk : s.IsLinked r) (hs : w.Staged s r)
    (hb : s.Below r id) (hosted : (s.stmt? id).isSome → s.Hosts r id) :
    Goes (Moves s r (id.index + 1) (id.index + 1)) (validate id) (Ended s r w id) w :=
  goes_tree ((orderly_validatorWithin lk _).node [] hs hb hosted (Nat.lt_succ_self _))

end Validation

end TreeCompiler
