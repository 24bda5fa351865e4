import TreeCompiler.Proofs.TypeMeaning
import TreeCompiler.Proofs.Visits

/-!
# Type expressions validated without a report

A type expression whose parts are valid has a type unless something is reported. So one that fails
without a report holds a name that resolution gave up on.
-/

namespace TreeCompiler

open Step Validation

/-! ### The type that is seen so far -/

variable {ans : Option ConstId} {expr : TypeExpr}

/-- Type expressions whose types are known: each has a meaning noted if it is a word, and the parts
of each are type expressions of this kind. -/
def Work.Typed (w : Work) (P : NodeId → Prop) : Prop :=
  ∀ id, P id → w.tree.stage id ≠ .failed ∧ ∃ expr, w.tree.type? id = some expr ∧ (∀ text, expr ≠ .bad text) ∧
    (expr.isWord = true → ∃ ty term, (w.tree.facts id).type = some ty ∧ w.pool.Means ty term) ∧
    ∀ part ∈ expr.children, P part

theorem Work.Typed.grown {w t : Work} {P : NodeId → Prop} (typed : w.Typed P)
    (hg : w.Grown t) : t.Typed P := by
  intro id h
  obtain ⟨sound, expr, ht, good, hn, ps⟩ := typed id h
  rw [hg.tree]
  refine ⟨sound, expr, ht, good, fun isWord => ?_, ps⟩
  obtain ⟨ty, term, here, means⟩ := hn isWord
  exact ⟨ty, term, here, means.extends hg.pool⟩

namespace Resolution

variable {P : NodeId → Prop} {w t : Work}

/-- The answer to a look at a type that is known. -/
def Seen (w : Work) (ans : Option ConstId) (t : Work) : Prop :=
  w.Grown t ∧ ∃ ty term, ans = some ty ∧ t.pool.Means ty term

theorem seen_onPool {step : PoolM ConstId} (grows : PoolM.Grows step)
    (means : ∃ ty p term, step w.pool = .ok ty p ∧ p.Means ty term)
    (done : (some <$> WorkM.onPool step) w = .ok ans t) : Seen w ans t := by
  obtain ⟨ty, ran, rfl⟩ := map_ok.mp done
  have hg := (always_grown_onPool grows w).keeps w ty t (.refl w) ran
  obtain ⟨p, onPool, rfl⟩ := WorkM.onPool_ok.mp ran
  obtain ⟨type', pool', term, hk, means⟩ := means
  obtain ⟨rfl, rfl⟩ : type' = ty ∧ pool' = p := by simpa [hk] using onPool
  exact ⟨hg, type', term, rfl, means⟩

theorem allKnown_seen {look : NodeId → WorkM (Option ConstId)}
    (each : ∀ id, P id → ∀ {w ans t}, w.Typed P → look id w = .ok ans t →
      Seen w ans t) {ids : List NodeId} (hi : ∀ id ∈ ids, P id) (typed : w.Typed P)
    {ans : Option (List ConstId)} (done : allKnown look ids w = .ok ans t) :
    w.Grown t ∧ ∃ types terms, ans = some types ∧ List.Forall₂ t.pool.Means types terms := by
  induction ids generalizing w ans with
  | nil =>
    obtain ⟨rfl, rfl⟩ := pure_ok.mp done
    exact ⟨.refl w, [], [], rfl, .nil⟩
  | cons id rest ih =>
    obtain ⟨fst, mid, ran, done⟩ := bind_ok.mp done
    obtain ⟨hg, ty, term, rfl, means⟩ := each id (hi id List.mem_cons_self) typed ran
    obtain ⟨others, ranOthers, rfl⟩ := bind_pure_ok.mp done
    obtain ⟨grownOthers, types, terms, rfl, all⟩ :=
      ih (fun part mem => hi part (List.mem_cons_of_mem _ mem)) (typed.grown hg) ranOthers
    exact ⟨hg.trans grownOthers, ty :: types, term :: terms, rfl, .cons (means.extends grownOthers.pool) all⟩

/-- A type expression that is known, with all its parts, is seen as a type that means something. -/
theorem currentTypeWithin_seen {n : Nat} {id : NodeId} (h : P id) (typed : w.Typed P)
    (done : currentTypeWithin n id w = .ok ans t) : Seen w ans t := by
  induction n generalizing id w ans t with
  | zero => simp [currentTypeWithin] at done
  | succ n ih =>
    obtain ⟨sound, expr, ht, good, hn, ps⟩ := typed id h
    replace done := rest_ok done rfl
    rw [if_neg sound, ht] at done
    have each : ∀ id, P id → ∀ {w ans t}, w.Typed P → currentTypeWithin n id w = .ok ans t → Seen w ans t :=
      fun id h {w ans t} typed ran => ih h typed ran
    cases expr with
    | named names qs =>
      obtain ⟨types, mid, ran, done⟩ := bind_ok.mp done
      obtain ⟨hg, types, terms, rfl, all⟩ := allKnown_seen each ps typed ran
      obtain ⟨base, term, here, means⟩ := hn rfl
      rw [here] at done
      obtain ⟨ty, p, applied, -, meansType⟩ :=
        parameterizedType_means (means.extends hg.pool) all
      have seen := seen_onPool (PoolM.grows_parameterizedType _ _) ⟨ty, p, _, applied, meansType⟩ done
      exact ⟨hg.trans seen.1, seen.2⟩
    | keyword word =>
      cases done
      obtain ⟨ty, term, here, means⟩ := hn rfl
      exact ⟨.refl w, ty, term, here, means⟩
    | tuple es =>
      obtain ⟨types, mid, ran, done⟩ := bind_ok.mp done
      obtain ⟨hg, types, terms, rfl, all⟩ := allKnown_seen each ps typed ran
      obtain ⟨ty, p, made, -, meansType⟩ := tupleType_means all
      have seen := seen_onPool (PoolM.grows_intern _) ⟨ty, p, _, made, meansType⟩ done
      exact ⟨hg.trans seen.1, seen.2⟩
    | nullable i =>
      obtain ⟨answer', mid, ran, done⟩ := bind_ok.mp done
      obtain ⟨hg, base, term, rfl, means⟩ := each i (ps i (by simp [TypeExpr.children])) typed ran
      obtain ⟨ty, p, made, -, meansType⟩ := nullableType_means means
      have seen := seen_onPool (PoolM.grows_intern _) ⟨ty, p, _, made, meansType⟩ done
      exact ⟨hg.trans seen.1, seen.2⟩
    | bad text => exact absurd rfl (good text)

end Resolution

/-! ### Visits of type expressions -/

namespace Outset

variable {o : Outset} {b w t : Work} {id c : NodeId} {done rest : List NodeId}
  {ok : Bool}

theorem stmt?_eq_none_of_type {tree : Tree} (ht : tree.type? id = some expr) :
    tree.stmt? id = none := by
  obtain ⟨form, hp, held⟩ := Option.bind_eq_some_iff.mp ht
  cases form <;> simp_all [Form.type?, Tree.stmt?, Form.stmt?]

theorem holds_of_type (ht : o.tree.type? id = some expr)
    (children : ∀ c ∈ o.tree.children id, w.Valid c) (ty : (∀ text, expr ≠ .bad text) ∧
      (∃ ty term, (w.tree.facts id).type = some ty ∧ w.pool.Means ty term) ∧
      ∀ c ∈ o.tree.children id, (o.tree.type? c).isSome) : o.Holds w id := by
  have notExpr : o.tree.expr? id = none := Tree.expr?_of_type _ ht
  have notStmt : o.tree.stmt? id = none := stmt?_eq_none_of_type ht
  refine ⟨children, ?_, by simp [notExpr], by simp [notExpr], by simp [notStmt], by simp [notStmt],
    by simp [notStmt], by simp [notStmt]⟩
  intro x isOther
  cases ht.symm.trans isOther
  exact ty

/-- How type expressions are visited: one that fails has sunk. -/
structure SeesTypes (o : Outset) (validate : NodeId → WorkM (Option ConstId)) : Prop where
  visit : ∀ {id w ans t}, o.Turn id w → validate id w = .ok ans t →
    ¬t.Loud → o.Visited id w ans.isSome t ∧ (ans = none → o.Sunk t id) ∧
      (ans.isSome → (o.tree.type? id).isSome)

theorem Sunk.excused (sunk : o.Sunk w id) : o.Excused w := by
  obtain ⟨part, left, -, path⟩ := sunk
  exact .inr ⟨part, left, path⟩

theorem Sunk.parent (sunk : o.Sunk w c) (mem : c ∈ o.tree.children id) : o.Sunk w id := by
  obtain ⟨part, left, hb, path⟩ := sunk
  exact ⟨part, left, (Tree.Below.root.child mem).trans hb, path⟩

/-- A node that is visited once is passed over, or its visit begins, goes on and is concluded. -/
theorem Turn.once (fair : o.Fair) (turn : o.Turn id w) {validate : WorkM (Option NodeId)}
    {ans : Option NodeId} (ran : once id validate w = .ok ans t) :
    (ans = none ∧ t = w ∧ id ∈ o.left) ∨ ∃ begun res last, o.Amid id w []
    (o.tree.children id) true begun ∧
        validate begun = .ok res last ∧ conclude id res last = .ok ans t := by
  obtain ⟨he, begun, started, hv⟩ := bind_ok.mp ran
  rcases turn.start fair started with ⟨rfl, rfl, left⟩ | ⟨rfl, ha⟩
  · cases hv
    exact .inl ⟨rfl, rfl, left⟩
  · obtain ⟨res, last, hv, concluded⟩ := bind_ok.mp hv
    exact .inr ⟨begun, res, last, ha, hv, concluded⟩

theorem quiet_of_conclude {res ans : Option NodeId}
    (ran : conclude id res w = .ok ans t) (quiet : ¬t.Loud) : ¬w.Loud :=
  (loudLogic.conclude trivial fun _ _ => ⟨trivial, trivial⟩).quiet ran quiet

/-- Type expressions are visited in order. -/
theorem Amid.types (fair : o.Fair) {validate : NodeId → WorkM (Option ConstId)}
    (loud : ∀ id, Keeps Work.Loud (validate id)) (sees : o.SeesTypes validate) {ids : List NodeId}
    (ha : o.Amid id b done (ids ++ rest) ok w) {ans : Bool}
    (ran : checkAll (fun c => do pure (← validate c).isSome) ids w = .ok ans t)
    (quiet : ¬t.Loud) :
    o.Amid id b (done ++ ids) rest (ok && ans) t ∧ o.Later w t ∧
    (ans = false → ∃ c ∈ ids, o.Sunk t c) ∧
      (ans = true → ∀ c ∈ ids, (o.tree.type? c).isSome) := by
  induction ids generalizing done ok w ans with
  | nil =>
    obtain ⟨rfl, rfl⟩ := pure_ok.mp ran
    exact ⟨by simpa using ha, .refl w, by simp, by simp⟩
  | cons c ids ih =>
    obtain ⟨fst, mid, ranFirst, ran⟩ := bind_ok.mp ran
    obtain ⟨ty, hv, rfl⟩ := bind_pure_ok.mp ranFirst
    obtain ⟨others, ranOthers, rfl⟩ := bind_pure_ok.mp ran
    have keepsOthers : Keeps Work.Loud (checkAll (fun c => do pure (← validate c).isSome) ids) :=
      LookLogic.keeps.checkAll fun x _ => Keeps.bind (loud x) fun _ => Keeps.pure _
    obtain ⟨seen, sunk, ht⟩ :=
      sees.visit (ha.turn fair) hv (keepsOthers.quiet ranOthers quiet)
    have next := ha.visit fair seen
    obtain ⟨hf, later, sunkOthers, areTypes⟩ := ih next ranOthers
    refine ⟨by simpa [Bool.and_assoc] using hf, seen.passes.toLater.trans later,
      fun hx => ?_, fun good => ?_⟩
    · rw [Bool.and_eq_false_iff] at hx
      rcases hx with hx | hx
      · exact ⟨c, List.mem_cons_self, later.sunk (sunk (by simpa using hx))⟩
      · obtain ⟨x, hi, sunk⟩ := sunkOthers hx
        exact ⟨x, List.mem_cons_of_mem _ hi, sunk⟩
    · rw [Bool.and_eq_true] at good
      intro x hi
      rcases List.mem_cons.mp hi with rfl | hi
      · exact ht good.1
      · exact areTypes good.2 x hi

theorem Amid.isSome_type? (ha : o.Amid id b done rest ok w)
    (ran : Resolution.currentType id w = .ok ans t) : (o.tree.type? id).isSome := by
  replace ran := rest_ok ran rfl
  unfold Tree.fuel Resolution.currentTypeWithin at ran
  replace ran := rest_ok ran rfl
  rw [if_neg (by simp [ha.now]), ha.checked.types] at ran
  cases ht : o.tree.type? id with
  | none => simp [ht] at ran
  | some expr => rfl

/-- A type expression being visited is known if its parts are valid. -/
theorem Amid.typed (fair : o.Fair) (ha : o.Amid id b done [] true w)
    (ht : o.tree.type? id = some expr) (good : ∀ text, expr ≠ .bad text)
    (types : ∀ c ∈ o.tree.children id, (o.tree.type? c).isSome) : w.Typed fun part => part = id ∨
      (o.tree.Below o.root part ∧ w.Valid part ∧ (o.tree.type? part).isSome) := by
  have children : ∀ id expr, o.tree.type? id = some expr → o.tree.children id = expr.children := by
    intro id expr ht
    obtain ⟨form, hp, held⟩ := Option.bind_eq_some_iff.mp ht
    cases form <;> simp_all [Form.type?, Tree.children, Form.children]
  rintro part (rfl | ⟨hb, valid, some⟩)
  · have complete : o.tree.completable part = true := by
      by_contra partial'
      obtain ⟨text, bad⟩ := fair.complete part ha.below (by simpa using partial')
      exact good text (Option.some.inj (ht.symm.trans bad))
    refine ⟨by simp [ha.now], expr, (ha.checked.types part).trans ht, good, ?_, ?_⟩
    · exact (ha.checked.answers part ha.below ha.kept complete).type expr ht
    · intro c mem
      rw [← children part expr ht] at mem
      refine .inr ⟨ha.below.child mem, ?_, types c mem⟩
      apply ha.valid rfl c
      simpa [ha.children] using mem
  · obtain ⟨expr, ht⟩ := Option.isSome_iff_exists.mp some
    have h := ha.checked.valid part hb valid
    obtain ⟨good, hn, i⟩ := h.type expr ht
    refine ⟨?_, expr, (ha.checked.types part).trans ht, good, fun _ => hn, ?_⟩
    · rw [show w.tree.stage part = .validated from valid]
      simp
    · intro c mem
      rw [← children part expr ht] at mem
      exact .inr ⟨hb.child mem, h.children c mem, i c mem⟩

/-- Nothing more is asked of a node that is given up after all its parts because one of them has
sunk. -/
theorem Amid.closes_of_sunk (ha : o.Amid id b done [] ok w)
    (mem : c ∈ o.tree.children id) (sunk : o.Sunk w c) : o.Closes w id where
  block stmts isBlock stmt hi := by
    apply ha.past
    have children : o.tree.children id = done := by simpa using ha.children
    rw [← children, o.tree.children_of_stmt isBlock]
    exact hi
  typedef name ty isTypedef := by
    rw [o.tree.children_of_stmt isTypedef] at mem
    obtain rfl : c = ty := by simpa [Stmt.children] using mem
    exact .inr sunk
  declares _ _ _ := .inl sunk.excused

theorem Amid.resolveType (fair : o.Fair) (ha : o.Amid id b done [] true w)
    (types : ∀ c ∈ o.tree.children id, (o.tree.type? c).isSome)
    (ran : Resolution.resolveType id w = .ok ans t) (quiet : ¬t.Loud) :
    ans.isSome ∧ (o.tree.type? id).isSome ∧ o.Amid id b done [] true t ∧ o.Holds t id := by
  replace ran := rest_ok ran rfl
  rw [ha.checked.types] at ran
  generalize hf : o.tree.type? id = written at ran
  split at ran
  · obtain ⟨u, ranReport, -⟩ := bind_pure_ok.mp ran
    exact absurd (Work.loud_of_reportAt ranReport) quiet
  · rename_i notBad
    obtain ⟨current, mid, asked, ran⟩ := bind_ok.mp ran
    obtain ⟨expr, ht⟩ := Option.isSome_iff_exists.mp (ha.isSome_type? asked)
    have good : ∀ text, expr ≠ .bad text := by
      rintro text rfl
      exact notBad text (hf.symm.trans ht)
    replace asked := rest_ok asked rfl
    obtain ⟨hg, seen, term, rfl, means⟩ := Resolution.currentTypeWithin_seen (.inl rfl)
      (ha.typed fair ht good types) asked
    obtain ⟨res, eq, read, ran⟩ := bind_ok.mp ran
    obtain ⟨isResolved, rfl⟩ := WorkM.readPool_ok.mp read
    obtain rfl : true = res := by simpa [means.isResolved] using isResolved
    rw [if_pos rfl] at ran
    obtain ⟨ty, last, interned, ran⟩ := bind_ok.mp ran
    obtain ⟨u, changed, rfl⟩ := bind_pure_ok.mp ran
    obtain rfl := WorkM.modifyFacts_ok.mp changed
    have hfu := (Resolution.always_grown_onPool (PoolM.grows_canonical seen) mid).keeps
      mid ty last (.refl mid) interned
    obtain ⟨p, canonical, rfl⟩ := WorkM.onPool_ok.mp interned
    obtain ⟨twin, pool', ranTwin, -, spells⟩ := means.canonical
    obtain ⟨rfl, rfl⟩ : twin = ty ∧ pool' = p := by simpa [ranTwin] using canonical
    have ha := (ha.grown fair hg).grown fair hfu
    have here : ((mid.withPool pool').tree.modifyFacts id
        fun facts => { facts with type := some twin }).facts id =
        { (mid.withPool pool').tree.facts id with type := some twin } :=
      Tree.facts_modify_same _ (fair.has ha.checked ha.below) _
    have hk : ∃ ty term, (((mid.withPool pool').tree.modifyFacts id
        fun facts => { facts with type := some twin }).facts id).type = some ty ∧
        pool'.Means ty term := ⟨twin, term, by rw [here], spells.means⟩
    have marks : o.Marks id (mid.withPool pool') ((mid.withPool pool').withTree
        ((mid.withPool pool').tree.modifyFacts id fun facts => { facts with type := some twin })) :=
      .modifyFacts id _ (fun _ => by rfl) (fun _ => by rfl)
    have ha := ha.mark fair marks ((Tree.stage_modify_of _ (fun _ => by rfl) id).trans ha.now)
      fun answers => ⟨fun _ _ _ => hk, fun name isName => by
        rw [marks.binding]
        exact answers.name name isName⟩
    refine ⟨rfl, Option.isSome_iff_exists.mpr ⟨expr, hf.symm.trans ht⟩, ha, holds_of_type ht ?_ ?_⟩
    · simpa [ha.children] using ha.valid rfl
    · exact ⟨good, hk, types⟩

theorem sees_validateTypeWithin (fair : o.Fair) (n : Nat) : o.SeesTypes (validateTypeWithin n) := by
  induction n with
  | zero =>
    constructor
    intro id w ans t _ ran
    simp [validateTypeWithin] at ran
  | succ n ih =>
    constructor
    intro id w ans t turn ran quiet
    obtain ⟨res, last, ranOnce, ranType⟩ := bind_ok.mp ran
    have eq : t = last := by
      cases res with
      | none => exact (pure_ok.mp ranType).2.symm
      | some node =>
        obtain ⟨facts, mid, hl, ranType⟩ := bind_ok.mp ranType
        exact (pure_ok.mp ranType).2.symm.trans (WorkM.facts_ok.mp hl).2.symm
    subst eq
    have seen : o.Visited id w res.isSome t ∧ (res = none → o.Sunk t id) ∧
        (∀ node, res = some node → node = id ∧ (o.tree.type? id).isSome) := by
      rcases turn.once fair ranOnce with ⟨rfl, rfl, left⟩ | ⟨begun, out, ended, ha, went, past⟩
      · exact ⟨turn.pass left, fun _ => turn.sunk left, by simp⟩
      · have quietEnd : ¬ended.Loud := quiet_of_conclude past quiet
        replace went := rest_ok went rfl
        obtain ⟨good, mid, hc, went⟩ := bind_ok.mp went
        rw [show begun.tree.children id = o.tree.children id by
          simp only [Tree.children, ha.form (by simp)]] at hc
        have loud : ∀ c, Keeps Work.Loud (validateTypeWithin n c) := fun c =>
          validationInvariant_loud.keeps_validateTypeWithin n trivial
        have all : o.Amid id w [] (o.tree.children id ++ []) true begun := by simpa using ha
        cases good with
        | false =>
          cases went
          obtain ⟨ha, -, sunk, -⟩ := all.types fair loud ih hc quietEnd
          obtain ⟨part, mem, sunk⟩ := sunk rfl
          obtain ⟨rfl, seen, later⟩ := ha.concludes fair rfl (by simp) past
            (ha.closes_of_sunk mem sunk) (by simp) (by simp)
          exact ⟨seen, fun _ => later.sunk (sunk.parent mem), by simp⟩
        | true =>
          obtain ⟨ty, rs, rfl⟩ := bind_pure_ok.mp went
          have quietMiddle : ¬mid.Loud :=
            (validationInvariant_loud.keeps_resolveType trivial).quiet rs quietEnd
          obtain ⟨ha, -, -, types⟩ := all.types fair loud ih hc quietMiddle
          obtain ⟨some, ht, ha, h⟩ := ha.resolveType fair (types rfl) rs quietEnd
          obtain ⟨ty, rfl⟩ := Option.isSome_iff_exists.mp some
          obtain ⟨expr, written⟩ := Option.isSome_iff_exists.mp ht
          obtain ⟨rfl, seen, later⟩ := ha.concludes fair rfl (fun node eq => .inl (by simpa using eq.symm)) past
            (closes_of_stmt?_eq_none (stmt?_eq_none_of_type written)) (fun _ => h)
            (fun _ _ _ _ _ => plain_of_expr?_eq_none (Tree.expr?_of_type _ written))
          exact ⟨seen, by simp, fun node eq => ⟨by simpa using eq.symm, ht⟩⟩
    obtain ⟨seen, sunk, ht⟩ := seen
    cases res with
    | none =>
      cases ranType
      exact ⟨seen, fun _ => sunk rfl, by simp⟩
    | some node =>
      obtain ⟨eq, some⟩ := ht node rfl
      subst eq
      have answered := rest_ok ranType rfl
      cases answered
      obtain ⟨expr, written⟩ := Option.isSome_iff_exists.mp some
      obtain ⟨-, ⟨ty, term, hn, -⟩, -⟩ :=
        (seen.checked.valid node turn.below (seen.valid rfl)).type expr written
      rw [hn]
      exact ⟨seen, by simp, fun _ => some⟩

end Outset

end TreeCompiler
