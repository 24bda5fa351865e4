import TreeCompiler.Proofs.StagedTrees

/-!
# Stages of types and expressions

Validating a type or an expression moves no node back, wherever it ends, and keeps the stages of the
tree in order. What it finds valid is valid with all its parts.
-/

namespace TreeCompiler

open Step

variable {α : Type} {es : List NodeId}

variable {R : Work → Work → Prop} {lhs rhs : NodeId} {cleared : List NodeId}

namespace Work

/-- What a step on nodes before `top` leaves: stages in order, none of them moved back. -/
structure Moves (s : Tree) (r : NodeId) (top reach : Nat) (b t : Work) : Prop where
  staged : t.Staged s r
  onward : b.Onward s top reach t

instance (s : Tree) (r : NodeId) (top reach : Nat) :
    Trans (Moves s r top reach) (Moves s r top reach) (Moves s r top reach) where
  trans he later := ⟨later.staged, he.onward.trans later.onward⟩

/-- The parts that a node has had from the start are valid. -/
def Cleared (s : Tree) (own : NodeId) (ps : List NodeId) (w : Work) : Prop :=
  ∀ part ∈ ps, s.parent? part = some own → w.Passed part

/-- How the validation of a node ends: a valid node is stood for by a valid one that is not in
parentheses unless the node was valid before, and a statement that is not valid has failed. -/
structure Ended (s : Tree) (r : NodeId) (b : Work) (id : NodeId) (res : Option NodeId)
    (w : Work) : Prop where
  passed : ∀ node ∈ res, w.Passed id ∧ w.Passed node ∧ s.Strips id node
  failed : res = none → (s.stmt? id).isSome → w.tree.stage id = .failed
  core : ∀ node ∈ res, ∀ i, s.expr? node = some (.paren i) → node = id ∧ b.Passed id

variable {s : Tree} {r : NodeId} {top reach : Nat} {b w t : Work} {id : NodeId}

theorem Ended.passed_of_isSome {res : Option NodeId} (ended : Ended s r b id res w)
    (isSome : res.isSome) : w.Passed id := by
  obtain ⟨node, rfl⟩ := Option.isSome_iff_exists.mp isSome
  exact (ended.passed node rfl).1

theorem Moves.refl (hs : w.Staged s r) : w.Moves s r top reach w :=
  ⟨hs, .refl s top reach w⟩

theorem Moves.widen (hm : w.Moves s r top reach t) {top' reach' : Nat}
    (higher : top ≤ top') (hf : reach ≤ reach') : w.Moves s r top' reach' t :=
  ⟨hm.staged, hm.onward.widen higher hf⟩

theorem Cleared.lasts {own : NodeId} {ps : List NodeId} (cleared : w.Cleared s own ps)
    (onward : w.Onward s top reach t) (beyond : reach ≤ own.index) : t.Cleared s own ps :=
  fun part mem owned => onward.part owned beyond (cleared part mem owned)

theorem Cleared.append {own : NodeId} {fst snd : List NodeId}
    (cleared : w.Cleared s own fst) (also : w.Cleared s own snd) :
    w.Cleared s own (fst ++ snd) := by
  intro part mem
  rcases List.mem_append.mp mem with hi | hi
  · exact cleared part hi
  · exact also part hi

theorem Cleared.cons {own part : NodeId} {rest : List NodeId} (hp : w.Passed part)
    (cleared : w.Cleared s own rest) : w.Cleared s own (part :: rest) :=
  Cleared.append (fun x mem _ => by rwa [List.mem_singleton.mp mem]) cleared

theorem Cleared.nil {own : NodeId} : w.Cleared s own [] := fun _ mem => by simp at mem

/-- Once the children that a node has left are valid, so are all it had at the start. -/
theorem Staged.parts_passed (hs : w.Staged s r) (lk : s.IsLinked r)
    (hb : s.Below r id) (onward : w.Onward s id.index id.index t)
    (cleared : t.Cleared s id (w.tree.children id)) : ∀ part ∈ s.children id, t.Passed part := by
  intro part mem
  have owned := lk.linked id part hb mem
  rcases hs.peeled id part hb mem with hi | hp
  · exact cleared part hi owned
  · exact onward.part owned (Nat.le_refl _) hp

end Work

namespace Validation

open WorkM Work

variable {s : Tree} {r : NodeId} {top : Nat} {b w : Work} {id : NodeId}

/-- A node that validation may look at as a type or an expression. -/
def Inner (s : Tree) (r id : NodeId) : Prop :=
  s.Below r id ∧ (id = r → s.stmt? r = none)

theorem inner_of_child (lk : s.IsLinked r) (peels : s.Peels w.tree)
    (hb : s.Below r id) {c : NodeId} (mem : c ∈ w.tree.children id) :
    Inner s r c ∧ c.index < id.index := by
  obtain ⟨old, hi, stripped⟩ := peels.strips_of_child mem
  have lower := lk.upward id old hb hi
  have hf := stripped.index_le lk (hb.child hi)
  have high := lk.index_le .root hb
  refine ⟨⟨stripped.isBelow (hb.child hi), fun eq => ?_⟩, by omega⟩
  rw [eq] at hf
  omega

/-! ### Single steps -/

/-- A step that moves no node goes wherever nothing has to move to go. -/
theorem goes_alike {step : WorkM α} (always : ∀ {P : Work → Prop}, StillInvariant P → Always P step)
    (reaches : ∀ t : Work, w.tree.SameShape t.tree → (∀ id, t.tree.stage id = w.tree.stage id) →
      (∀ id, (w.tree.facts id).Retains (t.tree.facts id)) → R w t) :
    Goes R step (fun _ t => ∀ id, t.tree.stage id = w.tree.stage id) w := by
  let Alike (t : Work) : Prop :=
    w.tree.SameShape t.tree ∧ ∀ id, t.tree.stage id = w.tree.stage id ∧
      (w.tree.facts id).Retains (t.tree.facts id)
  have still : StillInvariant Alike :=
    { pool := fun _ _ alike => alike
      symbols := fun _ _ _ alike => alike
      note := fun later id f alike kept => by
        refine ⟨alike.1.trans (.modifyFacts _ id f), fun x => ⟨(later.tree.stage_modify_of
          (fun facts => (kept facts).1) x).trans (alike.2 x).1, (alike.2 x).2.trans ?_⟩⟩
        rcases later.tree.facts_modify_cases id x f with eq | ⟨-, eq⟩ <;> rw [withTree_tree, eq]
        · exact .refl _
        · exact (kept _).2
      report := fun _ _ alike => alike
      scope := fun later own alike =>
        ⟨alike.1.trans (later.sameShape_withScope own), fun x => ⟨(later.facts_withScope_of Facts.stage
          (fun _ _ => rfl) own x).trans (alike.2 x).1, (alike.2 x).2.trans (later.retains_withScope own x)⟩⟩ }
  have alike : Alike (endState (step w)) := always still w ⟨.refl _, fun _ => ⟨rfl, .refl _⟩⟩
  refine ⟨reaches _ alike.1 (fun id => (alike.2 id).1) fun id => (alike.2 id).2, fun a t ran id => ?_⟩
  rw [ran] at alike
  exact (alike.2 id).1

theorem goes_still {step : WorkM α} {reach : Nat} (hs : w.Staged s r)
    (always : ∀ {P : Work → Prop}, StillInvariant P → Always P step) :
    Goes (Moves s r top reach) step (fun _ t => ∀ id, t.tree.stage id = w.tree.stage id) w := by
  refine goes_alike always fun t shape stages retains => ⟨hs.keep_alike shape stages, ?_⟩
  exact ⟨fun id => by rw [stages]; exact Stage.isUpTo_refl _, fun id _ => stages id,
    fun id => by rw [stages]; exact fun sent => sent, fun id hp => .inl (by rwa [Passed, stages]),
    fun id noted hp => (noted (by rwa [Passed, ← stages])).mono (retains id)⟩

theorem goes_carry {step : WorkM α} {own : NodeId} {ps : List NodeId}
    (hs : w.Staged s r) (cleared : w.Cleared s own ps)
    (always : ∀ {P : Work → Prop}, StillInvariant P → Always P step) :
    Goes (Moves s r own.index own.index) step (fun _ t => t.Cleared s own ps) w :=
  (goes_still hs always).answering fun _ _ hm _ =>
    cleared.lasts hm.onward (Nat.le_refl _)

theorem goes_setStage {Q : Unit → Work → Prop} {stage : Stage}
    (stays : ¬w.tree.Has id → R w w ∧ Q () w)
    (hm : ∀ t : Work, w.tree.Has id → w.tree.SameShape t.tree →
      (∀ x, x ≠ id → t.tree.stage x = w.tree.stage x) → t.tree.stage id = stage →
      (∀ x, (w.tree.facts x).Retains (t.tree.facts x)) → R w t ∧ Q () t) :
    Goes R (setStage id stage) Q w := by
  have h : R w (w.withTree (w.tree.setStage id stage)) ∧
      Q () (w.withTree (w.tree.setStage id stage)) := by
    by_cases hp : w.tree.Has id
    · exact hm _ hp (Tree.SameShape.modifyFacts w.tree id fun facts => { facts with stage })
        (fun x ne => w.tree.stage_setStage_ne ne stage)
        (w.tree.stage_setStage_same hp stage) fun x => w.tree.retains_setStage id x stage
    · rw [Tree.setStage_of_not_has hp]
      exact stays hp
  refine ⟨h.1, fun u t ran => ?_⟩
  cases ran
  exact h.2

theorem goes_start (hs : w.Staged s r) (low : id.index < top) :
    Goes (Moves s r top top) (Validation.start id) (fun hea t =>
      (hea = none → t.Open id) ∧ ∀ res, hea = some res →
        Ended s r w id res t ∧ ∀ node ∈ res, node = id) w := by
  show Goes _ (if w.tree.stage id = .failed then _ else _) _ w
  split
  · rename_i hx
    refine Goes.pure (.refl hs) ⟨by simp, ?_⟩
    rintro res he
    cases he
    exact ⟨⟨by simp, fun _ _ => hx, by simp⟩, by simp⟩
  · rename_i notFailed
    split
    · rename_i hp
      refine Goes.pure (.refl hs) ⟨by simp, ?_⟩
      rintro res he
      cases he
      refine ⟨⟨fun node mem => ?_, by simp, fun node mem _ _ => ⟨?_, hp⟩⟩, by simp⟩
      · obtain rfl := Option.mem_some_iff.mp mem
        exact ⟨hp, hp, .self _⟩
      · exact (Option.mem_some_iff.mp mem).symm
    · rename_i notPassed
      have ho : w.Open id := open_iff.mpr ⟨notPassed, notFailed⟩
      refine Goes.bind (Q := fun _ t => t.Open id) (goes_setStage
        (fun _ => ⟨.refl hs, ho⟩) fun t _ shape others here retains => ?_) fun _ t moved ho =>
          Goes.pure (.refl moved.staged) ⟨fun _ => ho, by simp⟩
      have isOpenStill : t.Open id := by
        rw [Work.Open, here]
        rfl
      refine ⟨⟨hs.keep_open shape ho isOpenStill others, .ofOne low ?_ (fun sent => ?_)
        (fun hp => absurd hp ho.not_passed) others retains fun hp => absurd hp isOpenStill.not_passed⟩, isOpenStill⟩
      · rw [here]
        exact ho
      · exact absurd (passed_iff.mpr (.inr sent)) isOpenStill.not_passed

/-- A container fails only with one of its members. -/
def Spoils (s : Tree) (id r : NodeId) (w : Work) : Prop :=
  id = r → ∀ name members, s.stmt? r = some (.container name members) →
    ∃ mem ∈ members, (s.stmt? mem).isSome → w.tree.stage mem = .failed

/-- An open node is found not to be valid. -/
theorem goes_conclude_none (hst : w.Staged s r) (hb : s.Below r id)
    (ho : w.Open id) (low : id.index < top) (spoils : Spoils s id r w) :
    Goes (Moves s r top top) (conclude id none) (Ended s r b id) w := by
  refine Goes.bind (Q := fun _ t => (s.stmt? id).isSome → t.tree.stage id = .failed)
    (goes_setStage (fun absent => ⟨.refl hst, fun hs => ?_⟩) fun t _ shape others hx retains => ?_)
    fun _ t moved hx => Goes.pure (.refl moved.staged) ⟨by simp, fun _ => hx, by simp⟩
  · obtain ⟨stmt, hf⟩ := Option.isSome_iff_exists.mp hs
    exact absurd ((hst.peels.has_iff id).mpr (s.has_of_stmt hf)) absent
  · refine ⟨⟨hst.fail_open hb ho shape spoils hx others, ?_⟩, fun _ => hx⟩
    refine .ofOne low ?_ (fun sent => ?_) (fun hp => absurd hp ho.not_passed) others retains
      fun hp => by simp [passed_iff, hx] at hp
    · rw [hx]
      cases w.tree.stage id <;> rfl
    · simp [hx] at sent

/-- An open node is found to be valid. -/
theorem goes_conclude_self (hs : w.Staged s r) (ho : w.Open id)
    (low : id.index < top) (hp : w.tree.Has id) (bare : ∀ i, s.expr? id ≠ some (.paren i))
    (hosted : (s.stmt? id).isSome → s.Hosts r id)
    (ps : ∀ part ∈ s.children id, w.Passed part) (noted : s.Noted id (w.tree.facts id)) :
    Goes (Moves s r top top) (conclude id (some id)) (fun res t =>
      res = some id ∧ Ended s r b id res t) w := by
  refine Goes.bind (Q := fun _ t => t.Passed id) (goes_setStage (absurd hp)
    fun t _ shape others here retains => ?_) fun _ t moved hpa => ?_
  · have hpa : t.Passed id := passed_iff.mpr (.inl here)
    refine ⟨⟨hs.pass ho.not_failed (hs.peels.sameShape shape)
      (hs.tidy.keep_others shape ho.not_gone (fun ⟨_, _, _, paren⟩ => bare _ paren) others) hosted ps
      (fun x part mem => ?_) hpa (by simp [here]) others,
      .ofOne low ?_ (fun sent => ?_) (fun _ => .inl hpa) others retains fun _ => noted⟩, hpa⟩
    · rw [shape.children]
      exact .inl mem
    · rw [here]
      exact Stage.isUpTo_trans ho rfl
    · simp [here] at sent
  · rw [if_neg (by simp)]
    refine Goes.pure (.refl moved.staged) ⟨rfl, fun node mem => ?_, by simp, fun node mem i paren => ?_⟩
    · obtain rfl := Option.mem_some_iff.mp mem
      exact ⟨hpa, hpa, .self _⟩
    · obtain rfl := Option.mem_some_iff.mp mem
      exact absurd paren (bare i)

theorem goes_once {validate : WorkM (Option NodeId)} (hs : w.Staged s r)
    (low : id.index < top) (goes : ∀ now : Work, now.Staged s r → now.Open id →
      Goes (Moves s r top top) (validate >>= conclude id) (Ended s r w id) now) :
    Goes (Moves s r top top) (once id validate) (Ended s r w id) w := by
  refine Goes.bind (goes_start hs low) fun he now moved ans => ?_
  cases he with
  | some res => exact Goes.pure (.refl moved.staged) (ans.2 res rfl).1
  | none => exact goes now moved.staged (ans.1 rfl)

theorem goes_finish {validate : WorkM (Option NodeId)} (hb : s.Below r id)
    (low : id.index < top) (ho : w.Open id)
    (goes : Goes (Moves s r id.index (id.index + 1)) validate (fun res t =>
      (∀ node ∈ res, node = id ∧ t.tree.Has id ∧ (∀ i, s.expr? id ≠ some (.paren i)) ∧
        ((s.stmt? id).isSome → s.Hosts r id) ∧
        (∀ part ∈ s.children id, t.Passed part) ∧ s.Noted id (t.tree.facts id)) ∧
      (res = none → Spoils s id r t)) w) :
    Goes (Moves s r top top) (validate >>= conclude id) (Ended s r b id) w := by
  have widened := goes.weaken (fun _ moved => moved.widen (Nat.le_of_lt low) low)
    fun _ t moved ans => And.intro
      (show t.Open id by rw [Open, moved.onward.above id (Nat.le_refl _)]; exact ho) ans
  refine Goes.bind widened fun res t moved done => ?_
  obtain ⟨ho, valid, spoils⟩ := done
  cases res with
  | none => exact goes_conclude_none moved.staged hb ho low (spoils rfl)
  | some node =>
    obtain ⟨rfl, hp, bare, hosted, ps, noted⟩ := valid node rfl
    exact (goes_conclude_self moved.staged ho low hp bare hosted ps noted).answering
      fun _ _ _ ans => ans.2

theorem goes_settled {validate : WorkM (Option NodeId)} (lk : s.IsLinked r)
    (hs : w.Staged s r) (hb : s.Below r id) (low : id.index < top) (ho : w.Open id)
    (goes : Goes (Moves s r id.index id.index) validate (fun res t =>
      (∀ node ∈ res, node = id ∧ w.tree.Has id ∧ (∀ i, s.expr? id ≠ some (.paren i)) ∧
        ((s.stmt? id).isSome → s.Hosts r id) ∧
        t.Cleared s id (w.tree.children id) ∧ s.Noted id (t.tree.facts id)) ∧
      (res = none → Spoils s id r t)) w) :
    Goes (Moves s r top top) (validate >>= conclude id) (Ended s r b id) w := by
  refine goes_finish hb low ho (goes.weaken (fun _ moved =>
    moved.widen (Nat.le_refl _) (Nat.le_succ _)) fun res t moved ans =>
    ⟨fun node mem => ?_, ans.2⟩)
  obtain ⟨eq, hp, bare, hosted, cleared, noted⟩ := ans.1 node mem
  refine ⟨eq, ?_, bare, hosted, hs.parts_passed lk hb moved.onward cleared, noted⟩
  rwa [moved.staged.peels.has_iff, ← hs.peels.has_iff]

theorem Inner.spoils (i : Inner s r id) (w : Work) : Spoils s id r w := by
  intro eq name members hf
  rw [i.2 eq] at hf
  simp at hf

/-! ### Parts of a node -/

/-- What a step on the parts of a node leaves. -/
abbrev Inside (s : Tree) (r own : NodeId) : Work → Work → Prop :=
  Moves s r own.index own.index

/-- A check of parts of a node holds only if they are valid. -/
def Clears (s : Tree) (own : NodeId) (ps : List NodeId) (ok : Bool) (w : Work) : Prop :=
  ok = true → w.Cleared s own ps

/-- A part of a statement that validation looks into. -/
structure Part (s : Tree) (r own id : NodeId) : Prop where
  inner : Inner s r id
  hosted : (s.stmt? id).isSome → s.Hosts r id
  low : id.index < own.index

variable {own : NodeId}

theorem clears_iff {ok : Bool} {ps : List NodeId} :
    w.Cleared s own (checked ps ok) ↔ Clears s own ps ok w := by
  cases ok <;> simp [checked, Clears, Cleared]

/-- A step on the parts of a node, after which further parts are valid. -/
def Checking (s : Tree) (r own : NodeId) (given : List NodeId) (step : WorkM α)
    (gives : α → List NodeId) : Prop :=
  ∀ ⦃now : Work⦄, now.Staged s r → now.Cleared s own given →
    Goes (Inside s r own) step (fun ans t => t.Cleared s own (gives ans)) now

theorem checking_of_still {step : WorkM α}
    (always : ∀ {P : Work → Prop}, StillInvariant P → Always P step) :
    Checking s r own [] step fun _ => [] :=
  fun _ hs _ => (goes_still hs always).answering fun _ _ _ _ => .nil

/-- What is found valid inside a node stays so while the other parts are looked into. -/
theorem partLogic : PartLogic (.visiting (Part s r own)) (Checking s r own) where
  pure _ := checking_of_still fun _ => Always.pure _
  throw _ := checking_of_still fun _ => Always.throw _
  bind fst rest _ hs _ := Goes.bind (fst hs .nil) fun a _ moved _ => rest a moved.staged .nil
  tree := checking_of_still fun _ => LookLogic.always.tree
  describe _ := checking_of_still fun _ => LookLogic.always.describe _
  readPool _ := checking_of_still fun _ => LookLogic.always.readPool _
  report _ _ _ := checking_of_still fun inv => inv.always_reportAt _ _ _
  named _ := checking_of_still fun inv => inv.always_onPool _
  canonical _ := checking_of_still fun inv => inv.always_onPool _
  fit _ _ := checking_of_still fun inv => inv.always_onPool _
  visited hf := hf
  done hi _ hs given := Goes.pure (.refl hs) fun part mem => given part (hi mem)
  next fst rest _ hs given := Goes.bind ((fst hs .nil).answering fun _ _ hm cleared =>
    (given.lasts hm.onward (Nat.le_refl _)).append cleared) fun a _ moved cleared =>
      rest a moved.staged cleared
  last good hi _ hs given := (good hs .nil).answering fun a _ hm cleared part mem =>
    ((given.lasts hm.onward (Nat.le_refl _)).append cleared) part (hi a mem)
  refused hs _ := Goes.throw (.refl hs)

/-! ### Types -/

theorem noted_of_resolveType {ty : ConstId} {t : Work}
    (ran : Resolution.resolveType id w = .ok (some ty) t) (hp : t.tree.Has id) :
    (t.tree.facts id).type = some ty := by
  replace ran := rest_ok ran rfl
  generalize w.tree.type? id = expr at ran
  split at ran
  · obtain ⟨u, last, -, ran⟩ := bind_ok.mp ran
    simp at ran
  · obtain ⟨current, mid, -, ran⟩ := bind_ok.mp ran
    cases current with
    | none => simp at ran
    | some current =>
      obtain ⟨res, mid, -, ran⟩ := bind_ok.mp ran
      cases res with
      | false => simp at ran
      | true =>
        obtain ⟨twin, last, -, ran⟩ := bind_ok.mp ran
        obtain ⟨u, noted, ⟨⟩⟩ := bind_pure_ok.mp ran
        cases noted
        exact congrArg Facts.type (last.tree.facts_modify_same ((Tree.has_modify _ _ _ _).mp hp) _)

theorem goes_validateTypeWithin (lk : s.IsLinked r) (n : Nat)
    (hs : w.Staged s r) (i : Inner s r id) (low : id.index < top) :
    Goes (Moves s r top top) (validateTypeWithin n id) (fun ty t => ty.isSome → t.Passed id) w := by
  induction n generalizing id w top with
  | zero => exact Goes.throw (.refl hs)
  | succ n ih =>
    refine Goes.bind (goes_once hs low fun now stagedNow ho =>
      goes_settled lk stagedNow i.1 low ho ?_) fun res t moved ended => ?_
    · have children : ∀ c ∈ now.tree.children id, Inner s r c ∧ c.index < id.index :=
        fun c mem => inner_of_child lk stagedNow.peels i.1 mem
      have each : Checking s r id [] (checkAll (fun c => do
          pure (← validateTypeWithin n c).isSome) (now.tree.children id)) _ :=
        partLogic.checkAll (fun c => c) fun c mem now hs _ =>
          Goes.bind (ih hs (children c mem).1 (children c mem).2)
            fun _ _ moved hp => Goes.pure (.refl moved.staged) (clears_iff.mpr fun isSome =>
              .cons (hp isSome) .nil)
      rw [List.map_id'] at each
      refine goes_tree (Goes.bind (each stagedNow .nil) fun ok mid moved cleared => ?_)
      rw [clears_iff] at cleared
      split
      · rename_i isOk
        refine Goes.bind (goes_still moved.staged fun inv => inv.always_resolveType id).withRun
          fun ty t hm ⟨shape, ran⟩ =>
          Goes.pure (.refl hm.staged) ⟨fun node mem => ?_, fun _ => i.spoils _⟩
        obtain ⟨hf, rfl, rfl⟩ := Option.map_eq_some_iff.mp mem
        obtain ⟨expr, ht⟩ := Option.isSome_iff_exists.mp (Resolution.isType_of_resolveType ran)
        have hpl : s.stmt? id = none := by
          have now := mid.tree.stmt?_of_type ht
          rw [← Option.not_isSome_iff_eq_none, ← moved.staged.peels.isSome_stmt?, now]
          simp
        refine ⟨rfl, ?_, moved.staged.peels.bare (by simp [mid.tree.expr?_of_type ht]), by simp [hpl],
          (cleared isOk).lasts hm.onward (Nat.le_refl _), ?_⟩
        · rw [stagedNow.peels.has_iff, ← moved.staged.peels.has_iff]
          exact Resolution.has_of_type ht
        · have isType : (s.type? id).isSome := by
            rw [← moved.staged.peels.isSome_type?, ht]
            rfl
          obtain ⟨ty, isType⟩ := Option.isSome_iff_exists.mp isType
          refine .of_type isType ?_
          rw [noted_of_resolveType ran ((hm.staged.peels.has_iff id).mpr (Resolution.has_of_type isType))]
          rfl
      · exact Goes.pure (.refl moved.staged) ⟨by simp, fun _ => i.spoils _⟩
    · cases res with
      | none => exact Goes.pure (.refl moved.staged) (by simp)
      | some node => exact Goes.pure (.refl moved.staged) fun _ => (ended.passed node rfl).1

/-! ### Expressions -/

section

variable {validate : ExprValidator}
  (ps : ∀ {now : Work} {top : Nat} {id : NodeId} (req : Option ConstId), now.Staged s r →
    Inner s r id → id.index < top →
    Goes (Moves s r top top) (validate id req) (Ended s r now id) now)

include ps

theorem checking_expr (req : Option ConstId) (i : Inner s r id ∧ id.index < own.index) :
    Checking s r own [] (validate id req) fun res => checked [id] res.isSome :=
  fun _ hs _ => (ps req hs i.1 i.2).answering fun _ _ _ ended =>
    clears_iff.mpr fun isSome => .cons (ended.passed_of_isSome isSome) .nil

theorem checking_validateUnary (op : UnaryOp) {arg : NodeId}
    (i : Inner s r arg ∧ arg.index < own.index) :
    Checking s r own [] (validateUnary validate op arg)
      fun typed => checked [arg] typed.isSome := by
  refine partLogic.next (checking_of_still fun inv => inv.always_onPool _) fun ty =>
    partLogic.next (checking_expr ps _ i) fun ans => ?_
  cases ans with
  | none => exact partLogic.done (by simp [checked])
  | some node =>
    refine partLogic.next (partLogic.facts node) fun facts => ?_
    split
    · exact partLogic.next (checking_of_still fun inv => inv.always_onPool _) fun _ =>
        partLogic.done (by simp [checked])
    · exact partLogic.done (by simp [checked])

theorem checking_validateBinary (id : NodeId) (op : BinaryOp)
    (left : Inner s r lhs ∧ lhs.index < own.index) (right : Inner s r rhs ∧ rhs.index < own.index) :
    Checking s r own [] (validateBinary validate id op lhs rhs)
      fun typed => checked [lhs, rhs] typed.isSome := by
  refine partLogic.next (partLogic.named _) fun int => partLogic.next (partLogic.named _) fun boolean =>
    partLogic.next (partLogic.named _) fun string => ?_
  split
  · refine partLogic.next (checking_expr ps _ left) fun leftNode =>
      partLogic.next (checking_expr ps _ right) fun rightNode => ?_
    split
    · refine partLogic.next (partLogic.constantBool _) fun _ =>
        partLogic.next (partLogic.constantBool _) fun _ => ?_
      split
      · exact partLogic.next (checking_of_still fun inv => inv.always_onPool _) fun _ =>
          partLogic.done (by simp [checked])
      · exact partLogic.done (by simp [checked])
    · exact partLogic.done (by simp [checked])
  · refine partLogic.next (checking_expr ps _ left) fun leftNode =>
      partLogic.next (checking_expr ps _ right) fun rightNode => ?_
    split
    · refine partLogic.next (partLogic.operandTypes _ _ _) fun types =>
        partLogic.next (partLogic.binaryType _ _ _ _ _ _ _) fun ty => ?_
      split
      · exact partLogic.next (checking_of_still fun inv => inv.always_binaryConstant _ _ _) fun _ =>
          partLogic.done (by simp [checked])
      · exact partLogic.done (by simp [checked])
    · exact partLogic.done (by simp [checked])

theorem checking_validateElements (req : List (Option ConstId))
    (i : ∀ elem ∈ es, Inner s r elem ∧ elem.index < own.index) :
    Checking s r own [] (validateElements validate es req)
      fun nodes => checked es (allThere nodes).isSome := by
  induction es generalizing req with
  | nil => exact partLogic.done (by simp [checked])
  | cons elem rest ih =>
    have later := fun others => ih others fun x mem => i x (by simp [mem])
    cases req <;> exact partLogic.next (checking_expr ps _ (i elem (by simp))) fun res =>
      partLogic.next (later _) fun _ => partLogic.done (checked_subset fun all => by
        cases res <;> simp_all [checked, allThere])

theorem checking_validateTupleElements (declared : Option ConstId) (fields : Option (List ConstId))
    (i : ∀ elem ∈ es, Inner s r elem ∧ elem.index < own.index) :
    Checking s r own [] (validateTupleElements validate declared fields es)
      fun typed => checked es typed.isSome := by
  refine partLogic.next (checking_validateElements ps _ i) fun nodes => ?_
  split
  · exact partLogic.done (by simp [checked])
  · rename_i hf
    refine partLogic.next (partLogic.elementFacts _) fun entries => ?_
    have vals : ∀ {given : List NodeId} (ty : ConstId), es ⊆ given →
        Checking s r own given (withValues entries ty) fun typed => checked es typed.isSome := by
      intro given ty all
      unfold withValues
      split
      · exact partLogic.next (checking_of_still fun inv => inv.always_onPool _) fun _ =>
          partLogic.done (by simpa [checked] using all)
      · exact partLogic.done (by simpa [checked] using all)
    dsimp only
    split
    · exact vals _ (by simp [checked, hf])
    · exact partLogic.next (checking_of_still fun inv => inv.always_onPool _) fun ty =>
        vals ty (by simp [checked, hf])

theorem checking_validateTuple {validateType : NodeId → WorkM (Option ConstId)}
    (types : ∀ {now : Work} {top : Nat} {id : NodeId}, now.Staged s r → Inner s r id →
      id.index < top → Goes (Moves s r top top) (validateType id) (fun ty t =>
        ty.isSome → t.Passed id) now) (id : NodeId) {ty : Option NodeId} (req : Option ConstId)
    (i : ∀ part ∈ (Expr.tuple ty es).children, Inner s r part ∧ part.index < own.index) :
    Checking s r own [] (validateTuple validate validateType id ty es req)
      fun typed => checked (Expr.tuple ty es).children typed.isSome := by
  cases ty with
  | none =>
    exact partLogic.next (partLogic.tupleFields _) fun fields =>
      partLogic.last (checking_validateTupleElements ps _ _ i) (by simp [Expr.children])
  | some typeNode =>
    have typeInner := i typeNode (by simp [Expr.children])
    have typed : Checking s r own [] (validateType typeNode) fun ty =>
        checked [typeNode] ty.isSome := fun _ hs _ =>
      (types hs typeInner.1 typeInner.2).answering fun _ _ _ hp =>
        clears_iff.mpr fun isSome => .cons (hp isSome) .nil
    refine partLogic.next typed fun declared => ?_
    cases declared with
    | none => exact partLogic.done (by simp [checked])
    | some declared =>
      refine partLogic.next (partLogic.tupleFields _) fun fields => ?_
      split
      · exact partLogic.last (checking_validateTupleElements ps _ _ fun part mem =>
          i part (by simp [Expr.children, mem])) fun _ => checked_subset fun all => by
            simp_all [checked, Expr.children]
      · exact partLogic.next (partLogic.report _ _ _) fun _ => partLogic.done (by simp [checked])

omit ps in
/-- An open expression in parentheses is valid with all its parts. It may have given up its place to
what it holds, which is valid as well. -/
theorem conclude_other (b : Work) (tree : Tree) {node : NodeId} {now : Work} (hs : now.Staged s r)
    (ho : now.Open id) (low : id.index < top) (hp : now.tree.Has id)
    (hst : s.Strips id node) (hpl : s.stmt? id = none) (ne : node ≠ id)
    (unsent : now.tree.stage node = .validated) (hpa : ∀ part ∈ s.children id, now.Passed part)
    (peels : s.Peels tree) (facts : ∀ x, tree.facts x = now.tree.facts x)
    (children : ∀ x part, part ∈ now.tree.children x →
      part ∈ tree.children x ∨ part = id) (core : ∀ i, s.expr? node ≠ some (.paren i))
    (tidy : ∀ t : Work, tree.SameShape t.tree → t.Passed id →
      (∀ x, x ≠ id → t.tree.stage x = now.tree.stage x) → t.Tidy s r) :
    ∃ t, conclude id (some node) (now.withTree tree) = .ok (some node) t ∧
      now.Moves s r top top t ∧ Ended s r b id (some node) t := by
  have stages : ∀ x, tree.stage x = now.tree.stage x :=
    fun x => congrArg Facts.stage (facts x)
  have here : (tree.setStage id .validated).stage id = .validated := by
    refine tree.stage_setStage_same ?_ _
    rwa [peels.has_iff, ← hs.peels.has_iff]
  have others : ∀ x, x ≠ id →
      (tree.setStage id .validated).stage x = now.tree.stage x := by
    intro x apart
    rw [tree.stage_setStage_ne apart, stages]
  let t : Work := now.withTree (tree.setStage id .validated)
  have passedHere : t.Passed id := passed_iff.mpr (.inl here)
  have passedNode : t.Passed node := passed_iff.mpr (.inl ((others node ne).trans unsent))
  have ran : conclude id (some node) (now.withTree tree) = .ok (some node) t := by
    have eq : tree.setStage node .validated = tree := Tree.setStage_self ((stages node).trans unsent)
    have fst : setStage node .validated (now.withTree tree) = .ok () (now.withTree tree) :=
      setStage_ok.mpr (congrArg now.withTree eq)
    unfold conclude
    dsimp only
    rw [bind_of_ok fst, if_pos ne]
    rfl
  have shape : tree.SameShape t.tree :=
    Tree.SameShape.modifyFacts tree id fun facts => { facts with stage := .validated }
  refine ⟨t, ran, ⟨?_, ?_⟩, ⟨fun x mem => ?_, by simp, fun x mem i paren => ?_⟩⟩
  · refine hs.pass ho.not_failed (peels.sameShape shape) (tidy t shape passedHere others)
      (by simp [hpl]) hpa (fun x part mem => ?_)
      passedHere (fun sent => absurd (here.symm.trans sent) (by simp)) others
    rw [shape.children]
    exact children x part mem
  · refine .ofOne low ?_ (fun sent => ?_) (fun _ => .inl passedHere) others (fun x => ?_) fun _ => ?_
    · exact Stage.isUpTo_trans ho (by rw [show t.tree.stage id = .validated from here]; rfl)
    · exact absurd (here.symm.trans sent) (by simp)
    · rw [← facts]
      exact tree.retains_setStage id x .validated
    · cases hst with
      | self => exact absurd rfl ne
      | paren held => exact .of_expr held (fun bare => absurd rfl (bare _)) (by simp)
  · obtain rfl := Option.mem_some_iff.mp mem
    exact ⟨passedHere, passedNode, hst⟩
  · obtain rfl := Option.mem_some_iff.mp mem
    exact absurd paren (core i)

omit ps in
/-- Parentheses around what is valid hold what is left of it without parentheses. -/
theorem mem_of_core (lk : s.IsLinked r) {now : Work} (hs : now.Staged s r)
    (hb : s.Below r id) (ho : now.Open id) {old node : NodeId}
    (held : s.expr? id = some (.paren old)) (hst : s.Strips old node)
    (hp : ∀ part ∈ s.children id, now.Passed part)
    (bare : ∀ i, s.expr? node ≠ some (.paren i)) : node ∈ now.tree.children id := by
  obtain ⟨ren, he, renames⟩ := hs.peels.expr?_eq id
  rw [held] at he
  have listed : ren old ∈ now.tree.children id := by
    rw [now.tree.children_of_expr he]
    exact List.mem_singleton_self _
  have isPart : old ∈ s.children id := by simp [s.children_of_expr held, Expr.children]
  have stripped := renames old isPart
  obtain ⟨-, lower⟩ := inner_of_child lk hs.peels hb listed
  have high := lk.index_le .root hb
  rwa [stripped.unique hst (fun i paren => ?_) bare] at listed
  refine ho.not_gone (hs.tidy.gone id _ hb listed ⟨fun eq => ?_, ?_, i, paren⟩)
  · rw [eq] at lower
    omega
  · exact hs.passed_of_strips (hb.child isPart) stripped (hp old isPart)

theorem goes_paren (lk : s.IsLinked r) {i : NodeId} (req : Option ConstId)
    (hs : w.Staged s r) (seen : Inner s r id) (low : id.index < top)
    (ho : w.Open id) (hf : w.tree.expr? id = some (.paren i)) :
    Goes (Moves s r top top) (validateParen validate id i req >>= conclude id)
      (Ended s r b id) w := by
  have mem : i ∈ w.tree.children id := by
    simp [w.tree.children_of_expr hf, Expr.children]
  obtain ⟨innerVisited, lower⟩ := inner_of_child lk hs.peels seen.1 mem
  unfold validateParen
  rw [bind_assoc]
  refine Goes.bind ((ps req hs innerVisited lower).weaken (fun _ hm =>
    hm.widen (Nat.le_of_lt low) (Nat.le_of_lt low)) fun res t hm ended =>
      And.intro hm ended) fun res now moved done => ?_
  obtain ⟨hm, ended⟩ := done
  have isOpenNow : now.Open id := by
    rw [Open, hm.onward.above id (Nat.le_refl _)]
    exact ho
  cases res with
  | none => exact goes_conclude_none moved.staged seen.1 isOpenNow low (seen.spoils _)
  | some node =>
    obtain ⟨passedInner, passedNode, stripped⟩ := ended.passed node rfl
    have hst : s.Strips id node := by
      obtain ⟨ren, he, renames⟩ := hs.peels.expr?_eq id
      rw [hf] at he
      obtain ⟨orig, here, eq⟩ := Option.map_eq_some_iff.mp he.symm
      rw [s.children_of_expr here] at renames
      exact (Guide.stands_paren lk seen.1 ⟨orig, ren, here, eq.symm, renames⟩
        ⟨stripped, hm.staged.hosted node passedNode⟩).1
    have cleared : now.Cleared s id (w.tree.children id) := by
      rw [w.tree.children_of_expr hf]
      exact .cons passedInner .nil
    have hpl : s.stmt? id = none := by
      rw [← Option.not_isSome_iff_eq_none, ← hs.peels.isSome_stmt?, w.tree.stmt?_of_expr hf]
      simp
    have unsent : now.tree.stage node = .validated := by
      refine (passed_iff.mp passedNode).resolve_right fun sent => ?_
      exact isOpenNow.not_passed (hm.staged.wrapped id node seen.1 hst sent)
    have hpa := hs.parts_passed lk seen.1 hm.onward cleared
    have hp : now.tree.Has id := by
      rw [hm.staged.peels.has_iff, ← hs.peels.has_iff]
      exact w.tree.has_of_expr hf
    have ne : node ≠ id := by
      have hfu := stripped.index_le lk innerVisited.1
      rintro rfl
      omega
    obtain ⟨old, held, rest⟩ : ∃ old, s.expr? id = some (.paren old) ∧ s.Strips old node := by
      cases hst with
      | self => exact absurd rfl ne
      | paren held _ rest => exact ⟨_, held, rest⟩
    have tidy := hm.staged.tidy
    have core : ∀ held, s.expr? node ≠ some (.paren held) := by
      intro held isParen
      obtain ⟨rfl, wasPassed⟩ := ended.core node rfl held isParen
      have high := lk.index_le .root seen.1
      refine ho.not_gone (hs.tidy.gone id node seen.1 mem ⟨fun eq => ?_, wasPassed, held, isParen⟩)
      rw [eq] at lower
      omega
    have remains : ¬now.Gone s r node := by
      rintro ⟨-, -, held, isParen⟩
      exact core held isParen
    have hi := mem_of_core lk hm.staged seen.1 isOpenNow held rest hpa core
    have placed := hm.staged.link_of_open seen.1 isOpenNow
    have concludes := fun tree => conclude_other b tree moved.staged isOpenNow low hp hst hpl
      ne unsent hpa
    have look : WorkM.tree now = .ok now.tree now := tree_ok.mpr ⟨rfl, rfl⟩
    cases up : now.tree.parent? id with
    | none =>
      have isRoot : id = r := placed.resolve_right (by simp [up])
      obtain ⟨t, ran, hr, ans⟩ := concludes now.tree hm.staged.peels (fun _ => rfl)
        (fun _ _ mem => .inl mem) core fun t shape _ others => tidy.keep_others shape
          (fun gone => gone.1 isRoot) (fun gone => gone.1 isRoot) others
      refine Goes.of_ok ((bind_of_ok ?_).trans ran) hr ans
      rw [bind_of_ok look]
      simp only [up]
      rfl
    | some par =>
      have listed : id ∈ now.tree.children par := by
        rcases placed with rfl | ⟨x, link, listed⟩
        · simp [tidy.top] at up
        · rwa [Option.some.inj (up.symm.trans link)]
      have presentNode : now.tree.Has node := by
        by_contra absent
        simp [Tree.stage, now.tree.facts_of_not_has absent] at unsent
      obtain ⟨t, ran, hr, ans⟩ := concludes (now.tree.replaceChild par id node).2
        (hm.staged.peels.replaceChild par hst hpl)
        (now.tree.facts_replaceChild par id node)
        (fun _ _ => now.tree.mem_children_replaceChild par node) core fun _ =>
          tidy.replace seen.1 isOpenNow.not_gone up ne hi remains held
            (now.tree.replaces_replaceChild ne.symm listed)
            (now.tree.parent?_replaceChild ne.symm listed presentNode)
      refine Goes.of_ok ((bind_of_ok ?_).trans ran) hr ans
      rw [bind_of_ok look]
      simp only [up]
      rfl

end

theorem noted_of_settleExpr {req k : Option ConstId} {ty : ConstId} {node : NodeId} {t : Work}
    (hp : w.tree.Has id) (ran : settleExpr id req ty k w = .ok (some node) t) :
    node = id ∧ (t.tree.facts id).type = some ty ∧
      (t.tree.facts id).binding = (w.tree.facts id).binding := by
  replace ran := rest_ok ran rfl
  let noted := w.tree.modifyFacts id fun facts => { facts with type := some ty, constant := k }
  have hasType : (noted.facts id).type = some ty := congrArg Facts.type (w.tree.facts_modify_same hp _)
  have binding : (noted.facts id).binding = (w.tree.facts id).binding :=
    w.tree.facts_modify_of Facts.binding (fun _ => by rfl) id id
  cases req with
  | none =>
    cases ran
    exact ⟨rfl, hasType, binding⟩
  | some req =>
    obtain ⟨fit, fitted, fits, ran⟩ := bind_ok.mp ran
    obtain ⟨p, -, rfl⟩ := onPool_ok.mp fits
    replace ran := rest_ok ran rfl
    split at ran
    · cases ran
      exact ⟨rfl, (noted.facts_modify_of Facts.type (fun _ => by rfl) id id).trans hasType,
        (noted.facts_modify_of Facts.binding (fun _ => by rfl) id id).trans binding⟩
    · obtain ⟨_, _, -, ran⟩ := bind_ok.mp ran
      obtain ⟨_, _, -, ran⟩ := bind_ok.mp ran
      obtain ⟨_, _, -, ran⟩ := bind_ok.mp ran
      simp at ran

theorem bound_of_validateName {name : String} {typed : Typed} {t : Work}
    (ran : validateName id name w = .ok (some typed) t) : (t.tree.facts id).binding.isSome := by
  replace ran := rest_ok ran rfl
  cases bound : (w.tree.facts id).binding with
  | none => simp [bound] at ran
  | some binding =>
    rw [bound] at ran
    cases binding with
    | localDecl decl | constant ty v =>
      obtain ⟨-, rfl⟩ := pure_ok.mp ran
      simp [bound]
    | type | space => simp [map_ok] at ran

theorem goes_validateExprWithin (lk : s.IsLinked r) (n : Nat)
    (req : Option ConstId) (hst : w.Staged s r) (i : Inner s r id) (low : id.index < top) :
    Goes (Moves s r top top) (validateExprWithin n id req) (Ended s r w id) w := by
  induction n generalizing id req w top with
  | zero => exact Goes.throw (.refl hst)
  | succ n ih =>
    refine goes_once hst low fun now stagedNow ho => ?_
    have settles : ∀ {find : WorkM (Option Typed)} {expr : Expr}, now.tree.expr? id = some expr →
        (∀ i, expr ≠ .paren i) →
        Checking s r id [] find (fun typed => checked expr.children typed.isSome) →
        (∀ name, expr = .name name → ∀ {typed t}, find now = .ok (some typed) t →
          (t.tree.facts id).binding.isSome) →
        Goes (Moves s r top top) (settling id req find >>= conclude id) (Ended s r w id) now := by
      intro find expr hf bare goes bound
      refine goes_settled lk stagedNow i.1 low ho (Goes.bind (goes stagedNow .nil).withRun
        fun typed mid moved found => ?_)
      obtain ⟨cleared, ran⟩ := found
      rw [now.tree.children_of_expr hf]
      cases typed with
      | none => exact Goes.pure (.refl moved.staged) ⟨by simp, fun _ => i.spoils _⟩
      | some typed =>
        refine ((goes_carry moved.staged cleared fun inv =>
          inv.always_settleExpr id req typed.1 typed.2).withRun).answering
            fun res t hm done => ⟨fun node mem => ?_, fun _ => i.spoils _⟩
        obtain ⟨cleared, settled⟩ := done
        cases Option.mem_def.mp mem
        have hp := now.tree.has_of_expr hf
        obtain ⟨rfl, ty, binding⟩ := noted_of_settleExpr (by
          rwa [moved.staged.peels.has_iff, ← stagedNow.peels.has_iff]) settled
        refine ⟨rfl, hp, stagedNow.peels.bare (by simpa [hf] using bare),
          fun hs => ?_, cleared, ?_⟩
        · rw [← stagedNow.peels.isSome_stmt?, now.tree.stmt?_of_expr hf] at hs
          simp at hs
        · obtain ⟨ren, he, -⟩ := stagedNow.peels.expr?_eq node
          obtain ⟨orig, here, eq⟩ := Option.map_eq_some_iff.mp (he.symm.trans hf)
          refine .of_expr here (fun _ => by rw [ty]; rfl) fun name isName => ?_
          rw [binding]
          exact bound name (by rw [← eq, isName]; rfl) ran
    have ps : ∀ {expr : Expr}, now.tree.expr? id = some expr → ∀ part ∈ expr.children,
        Inner s r part ∧ part.index < id.index := fun hf part mem =>
      inner_of_child lk stagedNow.peels i.1 (by rwa [now.tree.children_of_expr hf])
    rw [bind_assoc]
    refine goes_tree ?_
    split
    · exact Goes.bind (Goes.throw (Q := fun _ _ => False) (.refl stagedNow)) fun _ _ _ absurd => absurd.elim
    · rename_i literal hf
      exact settles hf (by simp) (partLogic.last (checking_of_still fun inv => inv.always_validateLiteral literal)
        (by simp [checked, Expr.children])) (by simp)
    · rename_i name hf
      exact settles hf (by simp) (partLogic.last (partLogic.validateName id name)
        (by simp [checked, Expr.children])) fun _ _ => bound_of_validateName
    · rename_i arg hf
      exact goes_paren (fun req hst i low => ih req hst i low) lk req
        stagedNow i low ho hf
    · rename_i op arg hf
      exact settles hf (by simp) (checking_validateUnary ih op (ps hf arg (by simp [Expr.children])))
        (by simp)
    · rename_i op lhs rhs hf
      exact settles hf (by simp) (checking_validateBinary ih id op (ps hf lhs (by simp [Expr.children]))
        (ps hf rhs (by simp [Expr.children]))) (by simp)
    · rename_i ty es hf
      exact settles hf (by simp) (checking_validateTuple ih (goes_validateTypeWithin lk n) id req
        (ps hf)) (by simp)

end Validation

end TreeCompiler
